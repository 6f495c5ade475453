import SqlPipeline.Proofs.NodeInvariant
import SqlPipeline.Proofs.Ordering
import SqlPipeline.Proofs.Renarrowing

/-!
# A column that nobody asks for

Suppose that one table of a tree had one more column at its end, under a name that the
tree does not know. The same calls would build a tree again, and for any choice of
output columns of the first tree the steps would be the same: the column travels up
through joins, renamings and batches, and narrowing takes it out again everywhere.

The calls are data here, a `Recipe`, because the trees that they build differ in every
node above the table. `Tree.Widened` says how two such trees are alike, in terms of what
is seen from outside: the columns are the same but for the new one, and narrowed to
anything else the trees are equal. Each operator keeps this, and limiting and preparing
see no more than this of a tree.
-/

namespace SqlPipeline

/-! ## Columns with one more among them -/

/-- The second list of columns is the first one, or the first one with `z` put in somewhere. -/
def Adds (z : Text) (columns columns' : List Text) : Prop :=
  columns'.filter (fun name => name != z) = columns

namespace Adds

variable {z name : Text} {columns columns' others others' : List Text}

theorem refl (h : z ∉ columns) : Adds z columns columns :=
  List.filter_eq_self.mpr fun _ hn => bne_iff_ne.mpr fun he => h (he ▸ hn)

theorem last (h : z ∉ columns) : Adds z columns (columns ++ [z]) := by
  rw [Adds, List.filter_append, refl h, List.filter_cons_of_neg (by simp), List.filter_nil,
    List.append_nil]

theorem append (h : Adds z columns columns') (h' : Adds z others others') :
    Adds z (columns ++ others) (columns' ++ others') := by
  rw [Adds, List.filter_append, h, h']

theorem mem_iff (h : Adds z columns columns') (hn : name ≠ z) : name ∈ columns' ↔ name ∈ columns := by
  rw [← h, List.mem_filter, bne_iff_ne]
  exact (and_iff_left hn).symm

theorem subset (h : Adds z columns columns') : ∀ name ∈ columns, name ∈ columns' := by
  intro name hn
  rw [← h] at hn
  exact List.mem_of_mem_filter hn

/-- What does not choose `z` chooses the same of both. -/
theorem filter {p : Text → Bool} (h : Adds z columns columns') (hp : p z = false) :
    columns'.filter p = columns.filter p := by
  rw [← h, List.filter_filter]
  refine List.filter_congr fun name _ => ?_
  by_cases hn : name = z
  · rw [hn, hp, Bool.false_and]
  · rw [bne_iff_ne.mpr hn, Bool.and_true]

/-- Whoever does not ask for `z` is offered the same by both. -/
theorem needed {wanted : List Text} (h : Adds z columns columns') (hz : z ∉ wanted) :
    wanted.filter columns'.contains = wanted.filter columns.contains := by
  refine List.filter_congr fun name hn => ?_
  rw [List.contains_eq_mem, List.contains_eq_mem]
  exact decide_eq_decide.mpr (h.mem_iff fun he => hz (he ▸ hn))

/-- A choice leaves the rest as it is. -/
theorem choose (h : Adds z columns columns') (p : Text → Bool) :
    Adds z (columns.filter p) (columns'.filter p) := by
  rw [Adds, List.filter_comm, h]

theorem map {f : Text → Text} (h : Adds z columns columns') (hz : f z = z)
    (hf : ∀ name ∈ columns, f name ≠ z) : Adds z (columns.map f) (columns'.map f) := by
  rw [Adds, List.filter_map, ← h]
  refine congrArg (List.map f) (List.filter_congr fun name hn => ?_)
  by_cases he : name = z
  · simp [he, hz]
  · rw [Function.comp_apply, bne_iff_ne.mpr he, bne_iff_ne.mpr (hf name ((h.mem_iff he).mp hn))]

theorem appendNew {rest : List Text} (h : Adds z columns columns') (hz : z ∉ rest) :
    Adds z (Text.appendNew columns rest) (Text.appendNew columns' rest) := by
  induction rest generalizing columns columns' with
  | nil => exact h
  | cons name rest ih =>
    obtain ⟨hn, hrest⟩ := not_or.mp (List.mem_cons.not.mp hz)
    have hmem := h.mem_iff (Ne.symm hn)
    unfold Text.appendNew
    by_cases hin : name ∈ columns
    · rw [if_pos hin, if_pos (hmem.mpr hin)]
      exact ih h hrest
    · rw [if_neg hin, if_neg fun hin' => hin (hmem.mp hin')]
      exact ih (h.append (refl (by simpa using hn))) hrest

/-- The new column comes once, so the names are good names again. -/
theorem named (h : Adds z columns columns') (hz : z ≠ []) (hc : Named columns)
    (hcount : columns'.count z ≤ 1) : Named columns' := by
  constructor
  · intro name hn
    by_cases he : name = z
    · exact he ▸ hz
    · exact hc.nonempty name ((h.mem_iff he).mp hn)
  · refine List.nodup_iff_count_le_one.mpr fun name => ?_
    by_cases he : name = z
    · exact he ▸ hcount
    · have hsame : columns.count name = columns'.count name := by
        rw [← h]
        exact List.count_filter (bne_iff_ne.mpr he)
      exact hsame ▸ List.nodup_iff_count_le_one.mp hc.nodup name

/-- The new column is on one side at most, so it is not shared. -/
theorem shared (h : Adds z columns columns') (h' : Adds z others others')
    (hz : z ∉ columns' ∨ z ∉ others') : sharedColumns columns' others' = sharedColumns columns others := by
  rw [sharedColumns, sharedColumns, ← h, List.filter_filter]
  refine List.filter_congr fun name hn => ?_
  by_cases he : name = z
  · subst he
    have hother := hz.resolve_left (not_not_intro hn)
    simp [hother]
  · have hsame := h'.mem_iff he
    simp [hsame, he]

end Adds

/-- A name that only `z` itself is mapped to comes as often as `z` does. -/
theorem count_map_eq {z : Text} {f : Text → Text} {columns : List Text} (hz : f z = z)
    (hf : ∀ name ∈ columns, name ≠ z → f name ≠ z) : (columns.map f).count z = columns.count z := by
  rw [List.count_eq_countP, List.count_eq_countP, List.countP_map]
  refine List.countP_congr fun name hn => ?_
  rw [Function.comp_apply, beq_iff_eq, beq_iff_eq]
  constructor
  · intro he
    by_contra hne
    exact hf name hn hne he
  · intro he
    rw [he, hz]

/-- A join on a predicate uses the same columns of both, if it does not use `z`. -/
theorem Adds.usedColumns {z : Text} {left left' right right' collisions outputs : List Text}
    {suffixes : Suffixes} (hl : Adds z left left') (hr : Adds z right right') (hc : z ∉ collisions)
    (hz : z ∉ outputs) :
    SqlPipeline.usedColumns left' right' collisions suffixes outputs =
      SqlPipeline.usedColumns left right collisions suffixes outputs := by
  simp only [SqlPipeline.usedColumns, joinColumns, List.filter_append, List.filter_map]
  rw [hl.filter (by simp [hc, hz]), hr.filter (by simp [hc, hz])]

/-- A batch hands on what it needs, and that is asked for above or read by an assignment. -/
theorem mem_live {needed : List Text} {as : List Assignment} {name : Text}
    (h : name ∈ (liveAssignments needed as).2) :
    name ∈ needed ∨ ∃ a ∈ as, name ∈ a.reads := by
  induction as with
  | nil => exact Or.inl h
  | cons a rest ih =>
    have hrest : name ∈ (liveAssignments needed rest).2 →
        name ∈ needed ∨ ∃ b ∈ a :: rest, name ∈ b.reads := fun hm =>
      (ih hm).imp_right fun ⟨b, hb, hr⟩ => ⟨b, List.mem_cons_of_mem _ hb, hr⟩
    rw [liveAssignments_cons] at h
    split at h
    · rcases List.mem_append.mp h with h | h
      · exact hrest (List.mem_of_mem_filter h)
      · exact Or.inr ⟨a, List.mem_cons_self, h⟩
    · exact hrest h

/-! ## Checks on more columns -/

section Checks

variable {columns columns' : List Text} (hs : ∀ name ∈ columns, name ∈ columns')

include hs

theorem ExtendChecks.mono {as : List Assignment} {partitionBy : List Text} {order : List OrderTerm}
    (h : ExtendChecks columns as partitionBy order) : ExtendChecks columns' as partitionBy order :=
  { h with
    inScope := h.inScope.mono hs
    window := fun name hn => hs name (h.window name hn) }

theorem ProjectChecks.mono {groupBy : List Text} {aggregates : List Assignment}
    (h : ProjectChecks columns groupBy aggregates) : ProjectChecks columns' groupBy aggregates :=
  { h with
    groups := fun name hn => hs name (h.groups name hn)
    reads := fun a ha name hn => hs name (h.reads a ha name hn) }

theorem RowChecks.mono {predicate : Expr} (h : RowChecks columns predicate) :
    RowChecks columns' predicate :=
  { h with reads := fun name hn => hs name (h.reads name hn) }

theorem ColumnChecks.mono {chosen : List Text} (h : ColumnChecks columns chosen) :
    ColumnChecks columns' chosen :=
  { h with known := fun name hn => hs name (h.known name hn) }

theorem OrderChecks.mono {terms : List OrderTerm} {limit : Option Nat}
    (h : OrderChecks columns terms limit) : OrderChecks columns' terms limit :=
  { h with known := fun name hn => hs name (h.known name hn) }

theorem RawChecks.mono {used produced : List Text} {template : Expr}
    (h : RawChecks columns used produced template) : RawChecks columns' used produced template :=
  { h with
    known := fun name hn => hs name (h.known name hn)
    reads := fun name hn => (h.reads name hn).imp_left (hs name) }

theorem TransformChecks.mono {used produced : List Text} {incoming outgoing : Text}
    (h : TransformChecks columns used produced incoming outgoing) :
    TransformChecks columns' used produced incoming outgoing :=
  { h with known := fun name hn => hs name (h.known name hn) }

end Checks

namespace Tree

/-! ## Trees with one more column in them -/

/-- The second tree may have the column `z` besides those of the first. It is put together alike, and
whoever does not ask for `z` gets the same of both. -/
structure Widened (z : Text) (t t' : Tree) : Prop where
  valid : t'.Valid
  kind : t'.kind = t.kind
  columns : Adds z t.schema t'.schema
  narrowed : ∀ wanted, z ∉ wanted → t'.narrowed wanted = t.narrowed wanted

/-- Nothing in the tree puts out a column of that name. -/
def Fresh (z : Text) (t : Tree) : Prop := ∀ s ∈ t.subtrees, z ∉ s.schema

theorem Fresh.root {z : Text} {t : Tree} (h : t.Fresh z) : z ∉ t.schema :=
  (forall_subtrees_iff.mp h).1

theorem Fresh.input {z : Text} {t c : Tree} (h : t.Fresh z) (hc : c ∈ t.children) : c.Fresh z :=
  (forall_subtrees_iff.mp h).2 c hc

namespace Widened

variable {z : Text} {t source source' left left' right right' : Tree}

theorem refl (h : t.Valid) (hz : z ∉ t.schema) : Widened z t t :=
  ⟨h, rfl, .refl hz, fun _ _ => rfl⟩

theorem of_table {table : Table} (h : (Tree.table table).Valid) (hz : z ≠ [])
    (hfresh : z ∉ table.columns) :
    Widened z (.table table) (.table { table with columns := table.columns ++ [z] }) := by
  have hc : TableChecks table := h.checked
  have hadds : Adds z table.columns (table.columns ++ [z]) := .last hfresh
  refine ⟨valid_iff.mpr ⟨⟨hc.name, by simp, hc.qualifier, ?_⟩, by simp [children]⟩, rfl, hadds, ?_⟩
  · refine hadds.named hz hc.named ?_
    rw [List.count_append, List.count_eq_zero.mpr hfresh]
    simp
  · intro wanted hw
    have hneeded : wanted.filter (table.columns ++ [z]).contains =
        wanted.filter table.columns.contains := hadds.needed hw
    -- a table asked for nothing keeps its first column, and the new one stands last
    have hkept : keepOne (table.columns ++ [z]) (wanted.filter table.columns.contains) =
        keepOne table.columns (wanted.filter table.columns.contains) := by
      rw [keepOne, keepOne, hadds.filter (by simp [hw]), List.take_append_of_le_length
        (List.length_pos_iff.mpr hc.nonempty)]
    rw [Tree.narrowed, Tree.narrowed]
    simp only [Tree.schema, hneeded, hkept]

theorem of_selectRows {predicate : Expr} (h : Widened z source source')
    (hv : (selectRows source predicate).Valid) (hz : (selectRows source predicate).Fresh z) :
    Widened z (selectRows source predicate) (selectRows source' predicate) := by
  have hc : RowChecks source.schema predicate := hv.checked
  refine ⟨Checked.valid₁ (hc.mono h.columns.subset) rfl h.valid, rfl, h.columns, fun wanted hw => ?_⟩
  have hasked : z ∉ wanted.filter source.schema.contains ++ predicate.columns := by
    intro hm
    rcases List.mem_append.mp hm with hm | hm
    · exact hw (List.mem_of_mem_filter hm)
    · exact hz.root (hc.reads z hm)
  rw [Tree.narrowed, Tree.narrowed]
  simp only [Tree.schema, h.columns.needed hw, h.narrowed _ hasked]

theorem of_orderBy {terms : List OrderTerm} {limit : Option Nat} (h : Widened z source source')
    (hv : (orderBy source terms limit).Valid) (hz : (orderBy source terms limit).Fresh z) :
    Widened z (orderBy source terms limit) (orderBy source' terms limit) := by
  have hc : OrderChecks source.schema terms limit := hv.checked
  refine ⟨Checked.valid₁ (hc.mono h.columns.subset) rfl h.valid, rfl, h.columns, fun wanted hw => ?_⟩
  have hasked : z ∉ wanted.filter source.schema.contains ++ terms.map OrderTerm.column := by
    intro hm
    rcases List.mem_append.mp hm with hm | hm
    · exact hw (List.mem_of_mem_filter hm)
    · exact hz.root (hc.known z hm)
  rw [Tree.narrowed, Tree.narrowed]
  simp only [Tree.schema, h.columns.needed hw, h.narrowed _ hasked]

theorem of_extend {as : List Assignment} {partitionBy : List Text} {order : List OrderTerm}
    (h : Widened z source source') (hv : (extend source as partitionBy order).Valid)
    (hz : (extend source as partitionBy order).Fresh z) :
    Widened z (extend source as partitionBy order) (extend source' as partitionBy order) := by
  have hc : ExtendChecks source.schema as partitionBy order := hv.checked
  obtain ⟨hsource, htargets⟩ := not_or.mp (mem_appendNew.not.mp hz.root)
  -- an assignment reads columns of the input or targets of the batch, so it does not read `z`
  have hreads : ∀ a ∈ as, z ∉ a.reads := by
    intro a ha hm
    obtain ⟨before, after, rfl⟩ := List.append_of_mem ha
    rcases hc.inScope.reads_before z hm with hm | hm
    · exact hsource hm
    · exact htargets (by rw [List.map_append]; exact List.mem_append_left _ hm)
  have hadds : Adds z (extend source as partitionBy order).schema
      (extend source' as partitionBy order).schema := h.columns.appendNew htargets
  refine ⟨Checked.valid₁ (hc.mono h.columns.subset) rfl h.valid, rfl, hadds, fun wanted hw => ?_⟩
  have hlive : z ∉ (liveAssignments
      (wanted.filter (extend source as partitionBy order).schema.contains) as).2 := by
    intro hm
    rcases mem_live hm with hm | ⟨a, ha, hm⟩
    · exact hw (List.mem_of_mem_filter hm)
    · exact hreads a ha hm
  have hasked : z ∉ (liveAssignments
      (wanted.filter (extend source as partitionBy order).schema.contains) as).2 ++
        windowColumns partitionBy order := by
    intro hm
    rcases List.mem_append.mp hm with hm | hm
    · exact hlive hm
    · exact hsource (hc.window z hm)
  rw [Tree.narrowed, Tree.narrowed]
  simp only [hadds.needed hw, h.narrowed _ hlive, h.narrowed _ hasked]

theorem of_project {groupBy : List Text} {aggregates : List Assignment} (h : Widened z source source')
    (hv : (project source groupBy aggregates).Valid) (hz : (project source groupBy aggregates).Fresh z) :
    Widened z (project source groupBy aggregates) (project source' groupBy aggregates) := by
  have hc : ProjectChecks source.schema groupBy aggregates := hv.checked
  have hsource := (hz.input List.mem_cons_self).root
  refine ⟨Checked.valid₁ (hc.mono h.columns.subset) rfl h.valid, rfl, .refl hz.root,
    fun wanted hw => ?_⟩
  -- groups and aggregates read columns of the source, which the new one is not
  have hasked : z ∉ groupBy ++ (keepAggregates groupBy
      (wanted.filter (project source groupBy aggregates).schema.contains)
      aggregates).flatMap Assignment.reads := by
    intro hm
    rcases List.mem_append.mp hm with hm | hm
    · exact hsource (hc.groups z hm)
    · obtain ⟨a, ha, hm⟩ := List.mem_flatMap.mp hm
      exact hsource (hc.reads a ((keepAggregates_sublist _ _ _).subset ha) z hm)
  rw [Tree.narrowed, Tree.narrowed]
  exact congrArg (project · groupBy _) (h.narrowed _ hasked)

theorem of_selectColumns {columns : List Text} (h : Widened z source source')
    (hv : (selectColumns source columns).Valid) (hz : (selectColumns source columns).Fresh z) :
    Widened z (selectColumns source columns) (selectColumns source' columns) := by
  have hc : ColumnChecks source.schema columns := hv.checked
  refine ⟨Checked.valid₁ (hc.mono h.columns.subset) rfl h.valid, rfl, .refl hz.root,
    fun wanted hw => ?_⟩
  have hasked : z ∉ keepOne columns (wanted.filter (selectColumns source columns).schema.contains) :=
    fun hm => hz.root ((keepOne_sublist _ _).subset hm)
  have hneeded : wanted.filter (selectColumns source' columns).schema.contains =
      wanted.filter (selectColumns source columns).schema.contains := rfl
  rw [Tree.narrowed, Tree.narrowed]
  simp only [hneeded, h.narrowed _ hasked]

theorem of_renameColumns {mapping : List Rename} (h : Widened z source source') (hne : z ≠ [])
    (hv : (renameColumns source mapping).Valid) (hz : (renameColumns source mapping).Fresh z) :
    Widened z (renameColumns source mapping) (renameColumns source' mapping) := by
  have hc : RenameChecks source.schema mapping := hv.checked
  have hsource := (hz.input List.mem_cons_self).root
  have hkept : renamed mapping z = z := renamed_of_not_mem fun hm => hsource (hc.known z hm)
  have hothers : ∀ name ∈ source.schema, renamed mapping name ≠ z :=
    fun name hn he => hz.root (List.mem_map.mpr ⟨name, hn, he⟩)
  have hadds := h.columns.map hkept hothers
  have hnamed : Named (source'.schema.map (renamed mapping)) := by
    refine hadds.named hne hc.named ?_
    rw [count_map_eq hkept fun name hn he => hothers name ((h.columns.mem_iff he).mp hn)]
    exact List.nodup_iff_count_le_one.mp h.valid.named.nodup z
  refine ⟨Checked.valid₁ ⟨fun name hn => h.columns.subset name (hc.known name hn), hc.olds, hc.news,
    hnamed⟩ rfl h.valid, rfl, hadds, fun wanted hw => ?_⟩
  have hasked : z ∉ (wanted.filter (renameColumns source mapping).schema.contains).map
      (oldName mapping) := by
    intro hm
    -- a column that is asked for had a name before, and that was not `z` either
    obtain ⟨name, hn, he⟩ := List.mem_map.mp hm
    obtain ⟨old, hold, rfl⟩ := List.mem_map.mp (mem_needed.mp hn).2
    rw [oldName_renamed hc.known hc.olds.nodup hc.news.nodup hc.named.nodup hold] at he
    exact hsource (he ▸ hold)
  have hneeded : wanted.filter (renameColumns source' mapping).schema.contains =
      wanted.filter (renameColumns source mapping).schema.contains := hadds.needed hw
  rw [Tree.narrowed, Tree.narrowed]
  simp only [hneeded, h.narrowed _ hasked]

theorem of_rawStatement {used produced : List Text} {template : Expr} (h : Widened z source source')
    (hv : (rawStatement source used produced template).Valid)
    (hz : (rawStatement source used produced template).Fresh z) :
    Widened z (rawStatement source used produced template)
      (rawStatement source' used produced template) := by
  have hc : RawChecks source.schema used produced template := hv.checked
  have hsource := (hz.input List.mem_cons_self).root
  refine ⟨Checked.valid₁ (hc.mono h.columns.subset) rfl h.valid, rfl, .refl hz.root,
    fun wanted hw => ?_⟩
  have hasked : z ∉ used ++ template.columns := by
    intro hm
    rcases List.mem_append.mp hm with hm | hm
    · exact hsource (hc.known z hm)
    · exact (hc.reads z hm).elim hsource hz.root
  rw [Tree.narrowed, Tree.narrowed, h.narrowed _ hasked]

theorem of_externalTransform {used produced : List Text} {transform : Transform} {incoming outgoing : Text}
    {temporary : Bool} (h : Widened z source source')
    (hv : (externalTransform source used produced transform incoming outgoing temporary).Valid)
    (hz : (externalTransform source used produced transform incoming outgoing temporary).Fresh z) :
    Widened z (externalTransform source used produced transform incoming outgoing temporary)
      (externalTransform source' used produced transform incoming outgoing temporary) := by
  have hc : TransformChecks source.schema used produced incoming outgoing := hv.checked
  have hsource := (hz.input List.mem_cons_self).root
  refine ⟨Checked.valid₁ (hc.mono h.columns.subset) rfl h.valid, rfl, .refl hz.root,
    fun wanted hw => ?_⟩
  rw [Tree.narrowed, Tree.narrowed, h.narrowed _ fun hm => hsource (hc.known z hm)]

/-! ## Joins -/

section Join

variable (hl : Widened z left left') (hr : Widened z right right')
  (hside : z ∉ left'.schema ∨ z ∉ right'.schema)

include hl hr hside

theorem of_naturalJoin {type : JoinType} (hv : (naturalJoin left right type).Valid)
    (hz : (naturalJoin left right type).Fresh z) :
    Widened z (naturalJoin left right type) (naturalJoin left' right' type) := by
  have hshared := hl.columns.shared hr.columns hside
  -- the new column is on one side only, so the keys are the same
  have hadds : Adds z (naturalJoin left right type).schema (naturalJoin left' right' type).schema := by
    show Adds z (naturalColumns left.schema right.schema) (naturalColumns left'.schema right'.schema)
    rw [naturalColumns, naturalColumns, hshared]
    exact hl.columns.append (hr.columns.choose _)
  have hchecked : (naturalJoin left' right' type).Checked := by
    rw [Checked, hshared]
    exact hv.checked
  refine ⟨Checked.valid₂ hchecked rfl hl.valid hr.valid, rfl, hadds, fun wanted hw => ?_⟩
  have hasked : z ∉ sharedColumns left.schema right.schema ++
      wanted.filter (naturalJoin left right type).schema.contains := by
    intro hm
    rcases List.mem_append.mp hm with hm | hm
    · exact (hz.input List.mem_cons_self).root (mem_sharedColumns.mp hm).1
    · exact hw (List.mem_of_mem_filter hm)
  rw [Tree.narrowed, Tree.narrowed]
  simp only [hshared, hadds.needed hw, hl.narrowed _ hasked, hr.narrowed _ hasked]

theorem of_thetaJoin {predicate : Expr} {type : JoinType} {suffixes : Suffixes} {collisions : List Text}
    (hne : z ≠ []) (hc : z ∉ collisions)
    (hv : (thetaJoin left right predicate type suffixes collisions).Valid)
    (hz : (thetaJoin left right predicate type suffixes collisions).Fresh z) :
    Widened z (thetaJoin left right predicate type suffixes collisions)
      (thetaJoin left' right' predicate type suffixes collisions) := by
  have hchecks : ThetaChecks left.schema right.schema predicate suffixes collisions := hv.checked
  have hfree := hz.root
  rw [schema_eq_prescribed, prescribed] at hfree
  -- `z` keeps its name, and no other column gets it
  have hkept : ∀ side, joinedName collisions suffixes side z = z := fun side => by
    rw [joinedName, if_neg (by simpa using hc)]
  have hleft : ∀ name ∈ left.schema, joinedName collisions suffixes true name ≠ z :=
    fun name hn he => hfree (List.mem_append_left _ (List.mem_map.mpr ⟨name, hn, he⟩))
  have hright : ∀ name ∈ right.schema, joinedName collisions suffixes false name ≠ z :=
    fun name hn he => hfree (List.mem_append_right _ (List.mem_map.mpr ⟨name, hn, he⟩))
  have hadds : Adds z (thetaJoin left right predicate type suffixes collisions).schema
      (thetaJoin left' right' predicate type suffixes collisions).schema := by
    rw [schema_eq_prescribed, schema_eq_prescribed]
    exact (hl.columns.map (hkept true) hleft).append (hr.columns.map (hkept false) hright)
  have hcount : (thetaJoin left' right' predicate type suffixes collisions).schema.count z ≤ 1 := by
    rw [schema_eq_prescribed, prescribed, List.count_append,
      count_map_eq (hkept true) fun name hn he => hleft name ((hl.columns.mem_iff he).mp hn),
      count_map_eq (hkept false) fun name hn he => hright name ((hr.columns.mem_iff he).mp hn)]
    have honce := List.nodup_iff_count_le_one.mp hl.valid.named.nodup z
    have honce' := List.nodup_iff_count_le_one.mp hr.valid.named.nodup z
    rcases hside with hside | hside
    · rw [List.count_eq_zero.mpr hside]
      omega
    · rw [List.count_eq_zero.mpr hside]
      omega
  have hchecked : ThetaChecks left'.schema right'.schema predicate suffixes collisions :=
    ⟨hchecks.apart, hadds.named hne hchecks.named hcount, hchecks.noInput,
      fun name hn => hadds.subset name (hchecks.reads name hn)⟩
  refine ⟨Checked.valid₂ hchecked rfl hl.valid hr.valid, rfl, hadds, fun wanted hw => ?_⟩
  have hasked : z ∉ wanted.filter
      (thetaJoin left right predicate type suffixes collisions).schema.contains ++
        predicate.columns := by
    intro hm
    rcases List.mem_append.mp hm with hm | hm
    · exact hw (List.mem_of_mem_filter hm)
    · exact hz.root (hchecks.reads z hm)
  rw [Tree.narrowed, Tree.narrowed]
  simp only [hadds.needed hw, hl.columns.usedColumns hr.columns hc hasked]
  have hfreshl : ∀ outputs, z ∉ sideInputs true
      (usedColumns left.schema right.schema collisions suffixes outputs) := fun _ hm =>
    (hz.input List.mem_cons_self).root (mem_sideInputs_usedColumns.mp hm).1
  have hfreshr : ∀ outputs, z ∉ sideInputs false
      (usedColumns left.schema right.schema collisions suffixes outputs) := fun _ hm =>
    (hz.input (List.mem_cons_of_mem _ List.mem_cons_self)).root (mem_sideInputs_usedColumns.mp hm).1
  rw [hl.narrowed _ (hfreshl _), hr.narrowed _ (hfreshr _)]

end Join

end Widened

/-! ## Preparing -/

section Prepare

variable {z : Text} {t t' L L' : Tree}

theorem limitTo_of_kind (h : t.kind ≠ .orderBy) (k : Nat) :
    t.limitTo (some k) = Pipeline.orderBy t [] (some k) := by
  cases t with
  | orderBy source terms m => exact absurd rfl h
  | _ => rfl

/-- A limit does not tell the two apart. It looks at the root only, and that is an ordering in both or in
neither. -/
theorem Widened.limited {n : Option Nat} {wanted : List Text} (h : Widened z t t')
    (hL : t.limitTo n = .ok L) (hL' : t'.limitTo n = .ok L') (hw : z ∉ wanted) :
    L'.narrowed wanted = L.narrowed wanted := by
  have hsame := h.narrowed wanted hw
  by_cases hkind : t.kind = .orderBy
  · have hkind' := h.kind.trans hkind
    cases t with
    | orderBy source terms m =>
      cases t' with
      | orderBy source' terms' m' =>
        -- narrowing keeps terms and limit, so they are the same in both
        rw [Tree.narrowed, Tree.narrowed] at hsame
        obtain ⟨hsource, rfl, rfl⟩ := orderBy.inj hsame
        rw [limitTo_orderBy hL, limitTo_orderBy hL', Tree.narrowed, Tree.narrowed]
        exact congrArg (orderBy · _ _) hsource
      | _ => cases hkind'
    | _ => cases hkind
  · cases n with
    | none =>
      obtain rfl := Except.ok.inj hL
      obtain rfl := Except.ok.inj hL'
      exact hsame
    | some k =>
      rw [limitTo_of_kind hkind] at hL
      rw [limitTo_of_kind (h.kind ▸ hkind)] at hL'
      obtain ⟨-, rfl⟩ := Pipeline.orderBy_ok_iff.mp hL
      obtain ⟨-, rfl⟩ := Pipeline.orderBy_ok_iff.mp hL'
      have hasked : z ∉ wanted.filter t.schema.contains ++ ([] : List OrderTerm).map OrderTerm.column := by
        rw [List.map_nil, List.append_nil]
        exact fun hm => hw (List.mem_of_mem_filter hm)
      rw [Tree.narrowed, Tree.narrowed]
      simp only [Tree.schema, h.columns.needed hw, h.narrowed _ hasked]

/-- **The two trees are prepared to the same tree**, for any columns of the first one. -/
theorem Widened.prepare_eq {columns : List Text} {n m : Option Nat} (h : Widened z t t') (hv : t.Valid)
    (hz : z ∉ t.schema) (ha : t.Accepts (some columns)) :
    t'.prepare ⟨n, m, some columns⟩ = t.prepare ⟨n, m, some columns⟩ := by
  obtain ⟨hne, hnd, hknown⟩ := ha columns rfl
  obtain ⟨L, hL, hLv, hLs, -⟩ := limitTo_rows.{0} hv n
  obtain ⟨L', hL', hLv', hLs', -⟩ := limitTo_rows.{0} h.valid n
  have ha' : t'.Accepts (some columns) := by
    intro others he
    obtain rfl := Option.some.inj he
    exact ⟨hne, hnd, fun name hn => h.columns.subset name (hknown name hn)⟩
  -- the column is not asked for, so narrowing drops it wherever it came in
  have hsame : L'.narrowed columns = L.narrowed columns :=
    h.limited hL hL' fun hm => hz (hknown z hm)
  have hT : t.prepare ⟨n, m, some columns⟩ = .ok ((L.narrowed columns).projected columns) :=
    (prepare_ok_iff hv).mpr ⟨ha, L, hL, hLv, hLs, rfl⟩
  have hT' : t'.prepare ⟨n, m, some columns⟩ = .ok ((L'.narrowed columns).projected columns) :=
    (prepare_ok_iff h.valid).mpr ⟨ha', L', hL', hLv', hLs', rfl⟩
  rw [hT, hT', hsame]

end Prepare

end Tree

/-! ## The same calls -/

/-- Calls that build a tree, one inside the other. -/
inductive Recipe where
  | table (name : Text) (columns : List Text) (qualifier : Option Text)
  | extend (source : Recipe) (assignments : List Assignment) (partitionBy : List Text)
      (orderBy : List OrderTerm)
  | project (source : Recipe) (groupBy : List Text) (aggregates : List Assignment)
  | naturalJoin (left right : Recipe) (type : JoinType)
  | thetaJoin (left right : Recipe) (predicate : Expr) (type : JoinType) (suffixes : Suffixes)
  | selectRows (source : Recipe) (predicate : Expr)
  | selectColumns (source : Recipe) (columns : List Text)
  | renameColumns (source : Recipe) (mapping : List Rename)
  | orderBy (source : Recipe) (terms : List OrderTerm) (limit : Option Nat)
  | rawStatement (source : Recipe) (used produced : List Text) (template : Expr)
  | externalTransform (source : Recipe) (used produced : List Text) (transform : Option Transform)
      (incoming outgoing : Text) (temporary : Bool)

namespace Recipe

/-- Makes the calls, inputs first and the left side before the right one. -/
def build : Recipe → Except Error Tree
  | table name columns qualifier => Pipeline.table name columns qualifier
  | extend source assignments partitionBy order => do
    Pipeline.extend (← source.build) assignments partitionBy order
  | project source groupBy aggregates => do
    Pipeline.project (← source.build) groupBy aggregates
  | naturalJoin left right type => do
    let left ← left.build
    let right ← right.build
    Pipeline.naturalJoin left right type
  | thetaJoin left right predicate type suffixes => do
    let left ← left.build
    let right ← right.build
    Pipeline.thetaJoin left right predicate type suffixes
  | selectRows source predicate => do Pipeline.selectRows (← source.build) predicate
  | selectColumns source columns => do Pipeline.selectColumns (← source.build) columns
  | renameColumns source mapping => do Pipeline.renameColumns (← source.build) mapping
  | orderBy source terms limit => do Pipeline.orderBy (← source.build) terms limit
  | rawStatement source used produced template => do
    Pipeline.rawStatement (← source.build) used produced template
  | externalTransform source used produced transform incoming outgoing temporary => do
    Pipeline.externalTransform (← source.build) used produced transform incoming outgoing temporary

/-- The same calls, but one table, in one of its places, is described with the column `z` at its end. -/
inductive Widens (z : Text) : Recipe → Recipe → Prop where
  | table (name : Text) (columns : List Text) (qualifier : Option Text) :
      Widens z (.table name columns qualifier) (.table name (columns ++ [z]) qualifier)
  | extend {source source' : Recipe} (assignments : List Assignment) (partitionBy : List Text)
      (orderBy : List OrderTerm) : Widens z source source' →
      Widens z (.extend source assignments partitionBy orderBy)
        (.extend source' assignments partitionBy orderBy)
  | project {source source' : Recipe} (groupBy : List Text) (aggregates : List Assignment) :
      Widens z source source' →
      Widens z (.project source groupBy aggregates) (.project source' groupBy aggregates)
  | naturalLeft {left left' : Recipe} (right : Recipe) (type : JoinType) : Widens z left left' →
      Widens z (.naturalJoin left right type) (.naturalJoin left' right type)
  | naturalRight {right right' : Recipe} (left : Recipe) (type : JoinType) : Widens z right right' →
      Widens z (.naturalJoin left right type) (.naturalJoin left right' type)
  | thetaLeft {left left' : Recipe} (right : Recipe) (predicate : Expr) (type : JoinType)
      (suffixes : Suffixes) : Widens z left left' →
      Widens z (.thetaJoin left right predicate type suffixes)
        (.thetaJoin left' right predicate type suffixes)
  | thetaRight {right right' : Recipe} (left : Recipe) (predicate : Expr) (type : JoinType)
      (suffixes : Suffixes) : Widens z right right' →
      Widens z (.thetaJoin left right predicate type suffixes)
        (.thetaJoin left right' predicate type suffixes)
  | selectRows {source source' : Recipe} (predicate : Expr) : Widens z source source' →
      Widens z (.selectRows source predicate) (.selectRows source' predicate)
  | selectColumns {source source' : Recipe} (columns : List Text) : Widens z source source' →
      Widens z (.selectColumns source columns) (.selectColumns source' columns)
  | renameColumns {source source' : Recipe} (mapping : List Rename) : Widens z source source' →
      Widens z (.renameColumns source mapping) (.renameColumns source' mapping)
  | orderBy {source source' : Recipe} (terms : List OrderTerm) (limit : Option Nat) :
      Widens z source source' →
      Widens z (.orderBy source terms limit) (.orderBy source' terms limit)
  | rawStatement {source source' : Recipe} (used produced : List Text) (template : Expr) :
      Widens z source source' →
      Widens z (.rawStatement source used produced template)
        (.rawStatement source' used produced template)
  | externalTransform {source source' : Recipe} (used produced : List Text)
      (transform : Option Transform) (incoming outgoing : Text) (temporary : Bool) :
      Widens z source source' →
      Widens z (.externalTransform source used produced transform incoming outgoing temporary)
        (.externalTransform source' used produced transform incoming outgoing temporary)

variable {r r' : Recipe} {t : Tree} {z : Text}

theorem built (h : r.build = .ok t) : t.Built := by
  induction r generalizing t with
  | table name columns qualifier => exact .table h
  | naturalJoin left right type ihl ihr =>
    obtain ⟨l, hl, h⟩ := bind_ok_iff.mp h
    obtain ⟨r, hr, h⟩ := bind_ok_iff.mp h
    exact .naturalJoin (ihl hl) (ihr hr) h
  | thetaJoin left right predicate type suffixes ihl ihr =>
    obtain ⟨l, hl, h⟩ := bind_ok_iff.mp h
    obtain ⟨r, hr, h⟩ := bind_ok_iff.mp h
    exact .thetaJoin (ihl hl) (ihr hr) h
  | extend source assignments partitionBy orderBy ih =>
    obtain ⟨c, hc, h⟩ := bind_ok_iff.mp h
    exact .extend (ih hc) h
  | project source groupBy aggregates ih =>
    obtain ⟨c, hc, h⟩ := bind_ok_iff.mp h
    exact .project (ih hc) h
  | selectRows source predicate ih =>
    obtain ⟨c, hc, h⟩ := bind_ok_iff.mp h
    exact .selectRows (ih hc) h
  | selectColumns source columns ih =>
    obtain ⟨c, hc, h⟩ := bind_ok_iff.mp h
    exact .selectColumns (ih hc) h
  | renameColumns source mapping ih =>
    obtain ⟨c, hc, h⟩ := bind_ok_iff.mp h
    exact .renameColumns (ih hc) h
  | orderBy source terms limit ih =>
    obtain ⟨c, hc, h⟩ := bind_ok_iff.mp h
    exact .orderBy (ih hc) h
  | rawStatement source used produced template ih =>
    obtain ⟨c, hc, h⟩ := bind_ok_iff.mp h
    exact .rawStatement (ih hc) h
  | externalTransform source used produced transform incoming outgoing temporary ih =>
    obtain ⟨c, hc, h⟩ := bind_ok_iff.mp h
    exact .externalTransform (ih hc) h

/-- A call on one input builds its operator on the wider input. -/
theorem widened_call {call : Tree → Except Error Tree} {node : Tree → Tree}
    (hcall : ∀ {c t : Tree}, call c = .ok t ↔ (node c).Checked ∧ t = node c)
    (hinput : ∀ {c : Tree}, c ∈ (node c).children)
    (hkeeps : ∀ {c c' : Tree}, c.Widened z c' → (node c).Valid → (node c).Fresh z →
      (node c).Widened z (node c'))
    {source source' : Except Error Tree}
    (ih : ∀ {c : Tree}, source = .ok c → c.Fresh z → ∃ c', source' = .ok c' ∧ c.Widened z c')
    (hr : (source >>= call) = .ok t) (hv : t.Valid) (hfresh : t.Fresh z) :
    ∃ t', (source' >>= call) = .ok t' ∧ t.Widened z t' := by
  obtain ⟨c, hc, hr⟩ := bind_ok_iff.mp hr
  obtain ⟨-, rfl⟩ := hcall.mp hr
  obtain ⟨c', hc', hwide⟩ := ih hc (hfresh.input hinput)
  have hnode := hkeeps hwide hv hfresh
  exact ⟨_, bind_ok_iff.mpr ⟨c', hc', hcall.mpr ⟨hnode.valid.checked, rfl⟩⟩, hnode⟩

section Join

variable {left left' right right' : Tree} (hl : left.Widened z left') (hr : right.Widened z right')
  (hside : z ∉ left'.schema ∨ z ∉ right'.schema)

include hl hr hside

theorem widened_naturalJoin {type : JoinType} (h : Pipeline.naturalJoin left right type = .ok t)
    (hv : t.Valid) (hfresh : t.Fresh z) :
    ∃ t', Pipeline.naturalJoin left' right' type = .ok t' ∧ t.Widened z t' := by
  obtain ⟨-, rfl⟩ := Pipeline.naturalJoin_ok_iff.mp h
  have hnode := hl.of_naturalJoin hr hside hv hfresh
  exact ⟨_, Pipeline.naturalJoin_ok_iff.mpr ⟨hnode.valid.checked, rfl⟩, hnode⟩

/-- The colliding names are those that both sides have, and `z` is none of them. -/
theorem widened_thetaJoin {predicate : Expr} {type : JoinType} {suffixes : Suffixes} (hz : z ≠ [])
    (h : Pipeline.thetaJoin left right predicate type suffixes = .ok t) (hv : t.Valid)
    (hfresh : t.Fresh z) :
    ∃ t', Pipeline.thetaJoin left' right' predicate type suffixes = .ok t' ∧ t.Widened z t' := by
  obtain ⟨-, rfl⟩ := Pipeline.thetaJoinWith_ok_iff.mp h
  have hc : z ∉ sharedColumns left.schema right.schema := fun hm =>
    (hfresh.input List.mem_cons_self).root (mem_sharedColumns.mp hm).1
  have hnode := hl.of_thetaJoin hr hside hz hc hv hfresh
  refine ⟨_, ?_, hnode⟩
  rw [Pipeline.thetaJoin, hl.columns.shared hr.columns hside]
  exact Pipeline.thetaJoinWith_ok_iff.mpr ⟨hnode.valid.checked, rfl⟩

end Join

/-- **The same calls build a wider tree.** -/
theorem Widens.widened (h : Widens z r r') (hr : r.build = .ok t) (hz : z ≠ []) (hfresh : t.Fresh z) :
    ∃ t', r'.build = .ok t' ∧ t.Widened z t' := by
  have hv := (built hr).valid
  induction h generalizing t with
  | table name columns qualifier =>
    obtain ⟨-, rfl⟩ := Pipeline.table_ok_iff.mp hr
    have hnode := Tree.Widened.of_table hv hz hfresh.root
    exact ⟨_, Pipeline.table_ok_iff.mpr ⟨hnode.valid.checked, rfl⟩, hnode⟩
  | extend assignments partitionBy orderBy _ ih =>
    exact widened_call Pipeline.extend_ok_iff List.mem_cons_self .of_extend
      (fun hc hf => ih hc hf (built hc).valid) hr hv hfresh
  | project groupBy aggregates _ ih =>
    exact widened_call Pipeline.project_ok_iff List.mem_cons_self .of_project
      (fun hc hf => ih hc hf (built hc).valid) hr hv hfresh
  | naturalLeft right type _ ih =>
    obtain ⟨a, ha, hr⟩ := bind_ok_iff.mp hr
    obtain ⟨b, hb, hr⟩ := bind_ok_iff.mp hr
    obtain ⟨-, rfl⟩ := Pipeline.naturalJoin_ok_iff.mp hr
    -- the other side has no such column, or the join would have it too
    have hother := (hfresh.input (List.mem_cons_of_mem _ List.mem_cons_self)).root
    obtain ⟨a', ha', hwide⟩ := ih ha (hfresh.input List.mem_cons_self) (built ha).valid
    obtain ⟨t', ht', hnode⟩ :=
      widened_naturalJoin hwide (.refl (built hb).valid hother) (Or.inr hother) hr hv hfresh
    exact ⟨t', bind_ok_iff.mpr ⟨a', ha', bind_ok_iff.mpr ⟨b, hb, ht'⟩⟩, hnode⟩
  | naturalRight left type _ ih =>
    obtain ⟨a, ha, hr⟩ := bind_ok_iff.mp hr
    obtain ⟨b, hb, hr⟩ := bind_ok_iff.mp hr
    obtain ⟨-, rfl⟩ := Pipeline.naturalJoin_ok_iff.mp hr
    have hother := (hfresh.input List.mem_cons_self).root
    obtain ⟨b', hb', hwide⟩ :=
      ih hb (hfresh.input (List.mem_cons_of_mem _ List.mem_cons_self)) (built hb).valid
    obtain ⟨t', ht', hnode⟩ :=
      widened_naturalJoin (.refl (built ha).valid hother) hwide (Or.inl hother) hr hv hfresh
    exact ⟨t', bind_ok_iff.mpr ⟨a, ha, bind_ok_iff.mpr ⟨b', hb', ht'⟩⟩, hnode⟩
  | thetaLeft right predicate type suffixes _ ih =>
    obtain ⟨a, ha, hr⟩ := bind_ok_iff.mp hr
    obtain ⟨b, hb, hr⟩ := bind_ok_iff.mp hr
    obtain ⟨-, rfl⟩ := Pipeline.thetaJoinWith_ok_iff.mp hr
    have hother := (hfresh.input (List.mem_cons_of_mem _ List.mem_cons_self)).root
    obtain ⟨a', ha', hwide⟩ := ih ha (hfresh.input List.mem_cons_self) (built ha).valid
    obtain ⟨t', ht', hnode⟩ :=
      widened_thetaJoin hwide (.refl (built hb).valid hother) (Or.inr hother) hz hr hv hfresh
    exact ⟨t', bind_ok_iff.mpr ⟨a', ha', bind_ok_iff.mpr ⟨b, hb, ht'⟩⟩, hnode⟩
  | thetaRight left predicate type suffixes _ ih =>
    obtain ⟨a, ha, hr⟩ := bind_ok_iff.mp hr
    obtain ⟨b, hb, hr⟩ := bind_ok_iff.mp hr
    obtain ⟨-, rfl⟩ := Pipeline.thetaJoinWith_ok_iff.mp hr
    have hother := (hfresh.input List.mem_cons_self).root
    obtain ⟨b', hb', hwide⟩ :=
      ih hb (hfresh.input (List.mem_cons_of_mem _ List.mem_cons_self)) (built hb).valid
    obtain ⟨t', ht', hnode⟩ :=
      widened_thetaJoin (.refl (built ha).valid hother) hwide (Or.inl hother) hz hr hv hfresh
    exact ⟨t', bind_ok_iff.mpr ⟨a, ha, bind_ok_iff.mpr ⟨b', hb', ht'⟩⟩, hnode⟩
  | selectRows predicate _ ih =>
    exact widened_call Pipeline.selectRows_ok_iff List.mem_cons_self .of_selectRows
      (fun hc hf => ih hc hf (built hc).valid) hr hv hfresh
  | selectColumns columns _ ih =>
    exact widened_call Pipeline.selectColumns_ok_iff List.mem_cons_self .of_selectColumns
      (fun hc hf => ih hc hf (built hc).valid) hr hv hfresh
  | renameColumns mapping _ ih =>
    exact widened_call Pipeline.renameColumns_ok_iff List.mem_cons_self (.of_renameColumns · hz)
      (fun hc hf => ih hc hf (built hc).valid) hr hv hfresh
  | orderBy terms limit _ ih =>
    exact widened_call Pipeline.orderBy_ok_iff List.mem_cons_self .of_orderBy
      (fun hc hf => ih hc hf (built hc).valid) hr hv hfresh
  | rawStatement used produced template _ ih =>
    exact widened_call Pipeline.rawStatement_ok_iff List.mem_cons_self .of_rawStatement
      (fun hc hf => ih hc hf (built hc).valid) hr hv hfresh
  | externalTransform used produced transform incoming outgoing temporary _ ih =>
    cases transform with
    | none =>
      obtain ⟨c, hc, hr⟩ := bind_ok_iff.mp hr
      obtain ⟨work, hwork, -⟩ := Pipeline.externalTransform_ok_iff.mp hr
      cases hwork
    | some work =>
      have hcall : ∀ {c t : Tree},
          Pipeline.externalTransform c used produced (some work) incoming outgoing temporary = .ok t ↔
            (Tree.externalTransform c used produced work incoming outgoing temporary).Checked ∧
              t = .externalTransform c used produced work incoming outgoing temporary := by
        intro c t
        rw [Pipeline.externalTransform_ok_iff]
        exact ⟨fun ⟨_, he, h⟩ => Option.some.inj he ▸ h, fun h => ⟨work, rfl, h⟩⟩
      exact widened_call hcall List.mem_cons_self .of_externalTransform
        (fun hc hf => ih hc hf (built hc).valid) hr hv hfresh

/--
**A column that the tree does not know does not show.**

Let calls build a tree, and let the same calls be made with one table, in one of its places, described with
one more column `z` at its end. If no node of the tree puts out a column of that name, these calls build a
tree too. For every list of output columns that the first tree accepts, every dialect and all limits, the
two trees give the same: the same steps or the same error. Names in expressions need no mention, since what
a built tree reads is put out by a node of it.
-/
theorem generate_ignores_column (hr : r.build = .ok t) (h : Widens z r r') (hz : z ≠ [])
    (hfresh : t.Fresh z) :
    ∃ t', r'.build = .ok t' ∧
      ∀ columns, t.Accepts (some columns) → ∀ (d : Dialect) (outputLimit sourceLimit : Option Nat),
        t'.generate d ⟨outputLimit, sourceLimit, some columns⟩ =
          t.generate d ⟨outputLimit, sourceLimit, some columns⟩ := by
  obtain ⟨t', ht', hwide⟩ := h.widened hr hz hfresh
  refine ⟨t', ht', fun columns ha d n m => ?_⟩
  rw [Tree.generate, Tree.generate, hwide.prepare_eq (built hr).valid hfresh.root ha]

/-- `l` with `y := x + 1`, joined on `x = w` with `r(i, v)`, of which `v` is called `w`. -/
def pairOf (columns : List Text) : Recipe :=
  .thetaJoin
    (.extend (.table [108] columns none) [⟨[121], .binary (.var [120]) [43] (.lit (.int 1))⟩] [] [])
    (.renameColumns (.table [114] [[105], [118]] none) [⟨[119], [118]⟩])
    (.binary (.var [120]) [61] (.var [119])) .inner .default

/-- The tree for `l(i, x)`. -/
def pair : Tree :=
  .thetaJoin
    (.extend (.table ⟨[108], [[105], [120]], none⟩)
      [⟨[121], .binary (.var [120]) [43] (.lit (.int 1))⟩] [] [])
    (.renameColumns (.table ⟨[114], [[105], [118]], none⟩) [⟨[119], [118]⟩])
    (.binary (.var [120]) [61] (.var [119])) .inner .default [[105]]

/-- With `l(i, x, z)` the join has a sixth column, and `y` alone with a limit is computed alike. -/
theorem generate_ignores_column_pair :
    (pairOf [[105], [120]]).build = .ok pair ∧
      Widens [122] (pairOf [[105], [120]]) (pairOf [[105], [120], [122]]) ∧ pair.Fresh [122] ∧
      pair.Accepts (some [[121]]) ∧
      ∃ t', (pairOf [[105], [120], [122]]).build = .ok t' ∧ [122] ∈ t'.schema ∧
        ∃ steps, pair.generate .generic ⟨some 3, none, some [[121]]⟩ = .ok steps ∧
          t'.generate .generic ⟨some 3, none, some [[121]]⟩ = .ok steps := by
  have hr : (pairOf [[105], [120]]).build = .ok pair := by cbv
  have hw : Widens [122] (pairOf [[105], [120]]) (pairOf [[105], [120], [122]]) :=
    .thetaLeft _ _ _ _ (.extend _ _ _ (.table [108] [[105], [120]] none))
  have hfresh : pair.Fresh [122] := by
    rw [Tree.Fresh]
    decide
  have ha : pair.Accepts (some [[121]]) := by
    intro columns he
    obtain rfl := Option.some.inj he
    exact ⟨List.cons_ne_nil _ _, by decide, by decide⟩
  obtain ⟨t', ht', hsame⟩ := generate_ignores_column hr hw (by decide) hfresh
  have hschema : ((pairOf [[105], [120], [122]]).build.map fun t => t.schema.contains [122]) =
      .ok true := by cbv
  rw [ht'] at hschema
  have hmem : t'.schema.contains [122] = true := Except.ok.inj hschema
  obtain ⟨steps, hs⟩ :
      ∃ steps, pair.generate .generic ⟨some 3, none, some [[121]]⟩ = .ok steps := ⟨_, by cbv⟩
  exact ⟨hr, hw, hfresh, ha, t', ht', List.contains_iff_mem.mp hmem, steps, hs,
    (hsame _ ha .generic (some 3) none).trans hs⟩

end Recipe

end SqlPipeline
