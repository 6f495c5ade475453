import SqlPipeline.Proofs.Construction

/-!
# What holds of every node

A tree that can be built is sound at each of its nodes, however it was built. The
node has columns with good names, its expressions name nothing that is not there, a
natural join has a key, a window is not written by the batch that is computed over
it, and the columns are those that the operator is said to put out.

`Tree.prescribed` says the last point on its own: it lists the columns of an operator
without adding them one by one, and so in the words in which an operator is
described. Most operators put out what they are given. An extension is the one whose
two descriptions need an argument.
-/

namespace SqlPipeline

/-- Adding names one by one adds those that were not there, each at its first place. -/
theorem appendNew_eq_append (names rest : List Text) :
    Text.appendNew names rest =
      names ++ (rest.filter fun name => !names.contains name).eraseDups := by
  induction rest generalizing names with
  | nil => simp [Text.appendNew]
  | cons name rest ih =>
    unfold Text.appendNew
    by_cases h : name ∈ names
    · rw [if_pos h, ih, List.filter_cons_of_neg (by simpa using h)]
    · -- from here on the name is there, so later copies of it do not count
      have hrest : (rest.filter fun other => !(names ++ [name]).contains other) =
          (rest.filter fun other => !names.contains other).filter fun other => !other == name := by
        rw [List.filter_filter]
        refine List.filter_congr fun other _ => ?_
        by_cases he : other = name
        · simp [he]
        · simp [he]
      rw [if_neg h, ih, List.filter_cons_of_pos (by simpa using h), List.eraseDups_cons, hrest,
        List.append_assoc, List.singleton_append]

/-- An assignment of a batch in scope reads visible columns or targets of the assignments before it. -/
theorem Scoped.reads_before {visible : List Text} {before after : List Assignment} {a : Assignment}
    (h : Scoped visible (before ++ a :: after)) :
    ∀ name ∈ a.reads, name ∈ visible ∨ name ∈ before.map Assignment.target := by
  intro name hn
  have ha := (scoped_append.mp h).2
  exact List.mem_append.mp (ha.1 name hn)

/-- A join on a predicate lists the columns of the left side and then those of the right side. -/
theorem map_output_joinColumns (left right collisions : List Text) (suffixes : Suffixes) :
    (joinColumns left right collisions suffixes).map JoinColumn.output =
      left.map (joinedName collisions suffixes true) ++
        right.map (joinedName collisions suffixes false) := by
  rw [joinColumns, List.map_append, List.map_map, List.map_map]
  rfl

/-- What both sides of a join still have is among the colliding names, or it would come out twice. -/
theorem ThetaChecks.mem_collisions {left right collisions : List Text} {predicate : Expr}
    {suffixes : Suffixes} (h : ThetaChecks left right predicate suffixes collisions) {name : Text}
    (hl : name ∈ left) (hr : name ∈ right) : name ∈ collisions := by
  by_contra hc
  have hnd := h.named.nodup
  rw [map_output_joinColumns, List.nodup_append] at hnd
  have hsame : ∀ side, joinedName collisions suffixes side name = name := by
    intro side
    rw [joinedName, if_neg (by simpa using hc)]
  have hleft := List.mem_map.mpr ⟨name, hl, hsame true⟩
  have hright := List.mem_map.mpr ⟨name, hr, hsame false⟩
  exact hnd.2.2 name hleft name hright rfl

namespace Tree

/-! ## The parts of the invariant -/

/-- The columns that the root is described to put out, given those of its inputs. -/
def prescribed : Tree → List Text
  | table t => t.columns
  | extend source assignments _ _ =>
    -- an overwritten column stays in its place, and a new one goes where it is first assigned
    source.schema ++
      ((assignments.map Assignment.target).filter
        fun name => !source.schema.contains name).eraseDups
  | project _ groupBy aggregates => groupBy ++ aggregates.map Assignment.target
  | naturalJoin left right _ =>
    left.schema ++ right.schema.filter fun name => !left.schema.contains name
  | thetaJoin left right _ _ suffixes collisions =>
    left.schema.map (joinedName collisions suffixes true) ++
      right.schema.map (joinedName collisions suffixes false)
  | selectRows source _ | orderBy source _ _ => source.schema
  | selectColumns _ columns => columns
  | renameColumns source mapping => source.schema.map (renamed mapping)
  | rawStatement _ _ produced _ | externalTransform _ _ produced _ _ _ _ => produced

/-- Each column that an expression of the root names is where the operator looks for it. -/
def Resolves : Tree → Prop
  | extend source assignments _ _ =>
    ∀ before a after, assignments = before ++ a :: after →
      ∀ name ∈ a.reads, name ∈ source.schema ∨ name ∈ before.map Assignment.target
  | project source _ aggregates => ∀ a ∈ aggregates, ∀ name ∈ a.reads, name ∈ source.schema
  | selectRows source predicate => ∀ name ∈ predicate.columns, name ∈ source.schema
  | thetaJoin left right predicate type suffixes collisions =>
    ∀ name ∈ predicate.columns,
      name ∈ (thetaJoin left right predicate type suffixes collisions).schema
  | rawStatement source _ produced template =>
    ∀ name ∈ template.columns, name ∈ source.schema ∨ name ∈ produced
  | _ => True

/-- A natural join has keys, and they are just the columns of both sides. On a predicate, a column of
both sides is one of the colliding names. -/
def KeysShared : Tree → Prop
  | naturalJoin left right type =>
    (naturalJoin left right type).localUses ≠ [] ∧
      ∀ name, name ∈ (naturalJoin left right type).localUses ↔
        name ∈ left.schema ∧ name ∈ right.schema
  | thetaJoin left right _ _ _ collisions =>
    ∀ name, name ∈ left.schema → name ∈ right.schema → name ∈ collisions
  | _ => True

/-- The columns of a window are there, and the batch over the window leaves them alone. -/
def WindowKept : Tree → Prop
  | extend source assignments partitionBy order =>
    ∀ name ∈ windowColumns partitionBy order,
      name ∈ source.schema ∧ name ∉ assignments.map Assignment.target
  | _ => True

/-- What a reader of the tree may rely on at a node. -/
structure Sound (t : Tree) : Prop where
  nonempty : t.schema ≠ []
  named : Named t.schema
  resolves : t.Resolves
  keys : t.KeysShared
  window : t.WindowKept
  schema : t.schema = t.prescribed

/-! ## They follow from the checks -/

variable {t : Tree}

theorem schema_eq_prescribed (t : Tree) : t.schema = t.prescribed := by
  cases t with
  | extend source assignments partitionBy order => exact appendNew_eq_append _ _
  | naturalJoin left right type =>
    -- a column of the right side is shared exactly if the left side has it
    refine congrArg (left.schema ++ ·) (List.filter_congr fun name hr => ?_)
    simp [hr]
  | thetaJoin left right predicate type suffixes collisions => exact map_output_joinColumns _ _ _ _
  | table | project | selectRows | selectColumns | renameColumns | orderBy | rawStatement
  | externalTransform => rfl

theorem Checked.resolves (h : t.Checked) : t.Resolves := by
  cases t with
  | extend source assignments partitionBy order =>
    intro before a after he
    have hscope : Scoped source.schema assignments := ExtendChecks.inScope h
    rw [he] at hscope
    exact hscope.reads_before
  | project source groupBy aggregates => exact ProjectChecks.reads h
  | selectRows source predicate => exact RowChecks.reads h
  | thetaJoin left right predicate type suffixes collisions => exact ThetaChecks.reads h
  | rawStatement source used produced template => exact RawChecks.reads h
  | table | naturalJoin | selectColumns | renameColumns | orderBy | externalTransform => trivial

theorem Checked.keysShared (h : t.Checked) : t.KeysShared := by
  cases t with
  | naturalJoin left right type => exact ⟨h, fun name => mem_sharedColumns⟩
  | thetaJoin left right predicate type suffixes collisions =>
    exact fun name hl hr => ThetaChecks.mem_collisions h hl hr
  | table | extend | project | selectRows | selectColumns | renameColumns | orderBy | rawStatement
  | externalTransform => trivial

theorem Checked.windowKept (h : t.Checked) : t.WindowKept := by
  cases t with
  | extend source assignments partitionBy order =>
    exact fun name hn => ⟨ExtendChecks.window h name hn, ExtendChecks.unassigned h name hn⟩
  | table | project | naturalJoin | thetaJoin | selectRows | selectColumns | renameColumns | orderBy
  | rawStatement | externalTransform => trivial

/--
**Every node of a tree that can be built is sound.**

This holds of the root and of everything below it, after any sequence of calls of the builders, of the
quantile summary and of narrowing, also where narrowing has left a join with colliding names that
neither side has any longer.
-/
theorem built_nodes_sound {t : Tree} (h : t.Built) : ∀ s ∈ t.subtrees, s.Sound := by
  intro s hs
  have hv : s.Valid := h.valid.subtree hs
  exact ⟨hv.schema_ne_nil, hv.named, hv.checked.resolves, hv.checked.keysShared, hv.checked.windowKept,
    schema_eq_prescribed s⟩

/-- The join of `l(i, x)` with `r(i, y)` on `x = y`. -/
def matchedPair : Tree :=
  .thetaJoin (.table ⟨[108], [[105], [120]], none⟩) (.table ⟨[114], [[105], [121]], none⟩)
    (.binary (.var [120]) [61] (.var [121])) .inner .default [[105]]

/-- What is left of `matchedPair` when only `x` is wanted: no side has the colliding name. -/
def matchedOnly : Tree :=
  .selectColumns
    (.thetaJoin (.table ⟨[108], [[120]], none⟩) (.table ⟨[114], [[121]], none⟩)
      (.binary (.var [120]) [61] (.var [121])) .inner .default [[105]])
    [[120]]

theorem built_matchedOnly : matchedOnly.Built := by
  have hl : Pipeline.table [108] [[105], [120]] none =
      .ok (.table ⟨[108], [[105], [120]], none⟩) := rfl
  have hr : Pipeline.table [114] [[105], [121]] none =
      .ok (.table ⟨[114], [[105], [121]], none⟩) := rfl
  have hj : Pipeline.thetaJoin (.table ⟨[108], [[105], [120]], none⟩)
      (.table ⟨[114], [[105], [121]], none⟩) (.binary (.var [120]) [61] (.var [121])) .inner .default =
        .ok matchedPair := rfl
  have hn : matchedPair.narrow (some [[120]]) = .ok matchedOnly := rfl
  exact .narrow (.thetaJoin (.table hl) (.table hr) hj) hn

theorem built_nodes_sound_matchedOnly :
    matchedOnly.Built ∧ ∀ s ∈ matchedOnly.subtrees, s.Sound :=
  ⟨built_matchedOnly, built_nodes_sound built_matchedOnly⟩

end Tree

end SqlPipeline
