import SqlPipeline.Proofs.NodeInvariant

/-!
# What a node reads of its inputs

The columns that the root of a tree uses are meant to be the columns of its inputs
that its own expressions and keys read. `Tree.Reads` says what a root reads without
the order and the bookkeeping of `Tree.localUses`, and the two agree at every node of a
tree that can be built. The one case with an argument is a batch of assignments:
what is read after it was written does not count, and what is read before is there,
because the batch is in scope.

Each use is a column of an input, with one exception. A join on a predicate is the only
operator whose expression is written over the columns that it puts out. Where both
sides have a column, the predicate names it with the suffix of its side, and the join
counts that name among its uses although no input has it.
-/

namespace SqlPipeline

/-- The columns that a batch reads before it writes them: those it has been given, and each column of
the input that some assignment reads while no assignment before it writes it. -/
theorem mem_readBeforeWritten {input assigned uses : List Text} {as : List Assignment} {name : Text} :
    name ∈ readBeforeWritten input assigned uses as ↔
      name ∈ uses ∨ name ∈ input ∧ name ∉ assigned ∧ ∃ before a after, as = before ++ a :: after ∧
        name ∈ a.reads ∧ name ∉ before.map Assignment.target := by
  induction as generalizing assigned uses with
  | nil => simp [readBeforeWritten]
  | cons first rest ih =>
    rw [readBeforeWritten, ih]
    simp only [mem_appendNew, List.mem_filter, List.contains_eq_mem, Bool.and_eq_true,
      decide_eq_true_eq, Bool.not_eq_true', decide_eq_false_iff_not, List.mem_cons, not_or]
    constructor
    · intro h
      rcases h with (h | ⟨hread, hin, hassigned⟩) |
        ⟨hin, ⟨hne, hassigned⟩, before, a, after, he, hread, hb⟩
      · exact Or.inl h
      · -- the first assignment reads it, or a later one that no target in between hides
        exact Or.inr ⟨hin, hassigned, [], first, rest, rfl, hread, by simp⟩
      · refine Or.inr ⟨hin, hassigned, first :: before, a, after, by rw [he]; rfl, hread, ?_⟩
        rw [List.map_cons, List.mem_cons, not_or]
        exact ⟨hne, hb⟩
    · intro h
      rcases h with h | ⟨hin, hassigned, before, a, after, he, hread, hb⟩
      · exact Or.inl (Or.inl h)
      · cases before with
        | nil =>
          obtain ⟨rfl, -⟩ := List.cons.inj he
          exact Or.inl (Or.inr ⟨hread, hin, hassigned⟩)
        | cons b before =>
          obtain ⟨rfl, hrest⟩ := List.cons.inj he
          rw [List.map_cons, List.mem_cons, not_or] at hb
          exact Or.inr ⟨hin, ⟨hb.1, hassigned⟩, before, a, after, hrest, hread, hb.2⟩

namespace Tree

/-- What the root's own expressions and keys read. A batch reads a column of the input where it reads a
name that it has not written before, and a template where it names one of them. -/
def Reads : Tree → Text → Prop
  | table _, _ => False
  | extend _ assignments partitionBy order, name =>
    (∃ before a after, assignments = before ++ a :: after ∧ name ∈ a.reads ∧
      name ∉ before.map Assignment.target) ∨ name ∈ windowColumns partitionBy order
  | project _ groupBy aggregates, name => name ∈ groupBy ∨ ∃ a ∈ aggregates, name ∈ a.reads
  | naturalJoin left right _, name => name ∈ left.schema ∧ name ∈ right.schema
  | thetaJoin _ _ predicate _ _ _, name => name ∈ predicate.columns
  | selectRows _ predicate, name => name ∈ predicate.columns
  | selectColumns _ columns, name => name ∈ columns
  | renameColumns _ mapping, name => ∃ r ∈ mapping, r.old = name
  | orderBy _ terms _, name => ∃ term ∈ terms, term.column = name
  | rawStatement source used _ template, name =>
    name ∈ used ∨ name ∈ template.columns ∧ name ∈ source.schema
  | externalTransform _ used _ _ _ _ _, name => name ∈ used

/-- The name is a column of an input. -/
def HasInput (t : Tree) (name : Text) : Prop := ∃ child ∈ t.children, name ∈ child.schema

/-- The name is that of a colliding column of one side of a join, with the suffix of the side. -/
def HasSuffixed : Tree → Text → Prop
  | thetaJoin left right _ _ suffixes collisions, name =>
    ∃ column ∈ collisions, column ∈ left.schema ∧ name = column ++ suffixes.left ∨
      column ∈ right.schema ∧ name = column ++ suffixes.right
  | _, _ => False

variable {t : Tree} {name : Text}

/-- **The uses of a root are what it reads.** -/
theorem Checked.mem_localUses (h : t.Checked) : name ∈ t.localUses ↔ t.Reads name := by
  cases t with
  | extend source assignments partitionBy order =>
    rw [localUses, mem_appendNew, mem_readBeforeWritten]
    refine or_congr_left ⟨fun hm => ?_, fun hread => ?_⟩
    · rcases hm with hm | ⟨-, -, hread⟩
      · exact absurd hm (by simp)
      · exact hread
    · obtain ⟨before, a, after, he, hread, hb⟩ := hread
      -- a name read before it is written can only be a column of the source
      have hscope : Scoped source.schema assignments := ExtendChecks.inScope h
      rw [he] at hscope
      have hin : name ∈ source.schema := (hscope.reads_before name hread).resolve_right hb
      exact Or.inr ⟨hin, by simp, before, a, after, he, hread, hb⟩
  | project source groupBy aggregates => rw [localUses, mem_appendNew, List.mem_flatMap, Reads]
  | naturalJoin left right type => exact mem_sharedColumns
  | rawStatement source used produced template =>
    rw [localUses, mem_appendNew, List.mem_filter, List.contains_eq_mem, decide_eq_true_eq, Reads]
  | renameColumns source mapping => exact List.mem_map
  | orderBy source terms limit => exact List.mem_map
  | table => simp [localUses, Reads]
  | thetaJoin | selectRows | selectColumns | externalTransform => exact Iff.rfl

theorem hasInput_of_source {source : Tree} (hc : t.children = [source]) (h : name ∈ source.schema) :
    t.HasInput name :=
  ⟨source, by rw [hc]; exact List.mem_singleton_self _, h⟩

/-- A name that a join on a predicate puts out is a column of a side, or has the suffix of the side. -/
theorem hasInput_or_hasSuffixed {left right : Tree} {predicate : Expr} {type : JoinType}
    {suffixes : Suffixes} {collisions : List Text}
    (h : name ∈ (thetaJoin left right predicate type suffixes collisions).schema) :
    (thetaJoin left right predicate type suffixes collisions).HasInput name ∨
      (thetaJoin left right predicate type suffixes collisions).HasSuffixed name := by
  rw [schema_eq_prescribed, prescribed, List.mem_append, List.mem_map, List.mem_map] at h
  rcases h with ⟨column, hc, rfl⟩ | ⟨column, hc, rfl⟩
  · -- a column that collides carries a suffix, and any other is an input as it stands
    by_cases hcollides : column ∈ collisions
    · rw [joinedName, if_pos (by simpa using hcollides)]
      exact Or.inr ⟨column, hcollides, Or.inl ⟨hc, rfl⟩⟩
    · rw [joinedName, if_neg (by simpa using hcollides)]
      exact Or.inl ⟨left, by simp [children], hc⟩
  · by_cases hcollides : column ∈ collisions
    · rw [joinedName, if_pos (by simpa using hcollides)]
      exact Or.inr ⟨column, hcollides, Or.inr ⟨hc, rfl⟩⟩
    · rw [joinedName, if_neg (by simpa using hcollides)]
      exact Or.inl ⟨right, by simp [children], hc⟩

/-- What a root reads is a column of an input, or a suffixed name in the predicate of a join. -/
theorem Checked.hasInput_of_reads (h : t.Checked) (hr : t.Reads name) :
    t.HasInput name ∨ t.HasSuffixed name := by
  cases t with
  | table t => exact hr.elim
  | extend source assignments partitionBy order =>
    rcases hr with ⟨before, a, after, he, hread, hb⟩ | hw
    · have hin := (h.resolves before a after he name hread).resolve_right hb
      exact Or.inl (hasInput_of_source rfl hin)
    · exact Or.inl (hasInput_of_source rfl (ExtendChecks.window h name hw))
  | project source groupBy aggregates =>
    rcases hr with hg | ⟨a, ha, hread⟩
    · exact Or.inl (hasInput_of_source rfl (ProjectChecks.groups h name hg))
    · exact Or.inl (hasInput_of_source rfl (h.resolves a ha name hread))
  | naturalJoin left right type => exact Or.inl ⟨left, by simp [children], hr.1⟩
  | thetaJoin left right predicate type suffixes collisions =>
    exact hasInput_or_hasSuffixed (h.resolves name hr)
  | selectRows source predicate => exact Or.inl (hasInput_of_source rfl (h.resolves name hr))
  | selectColumns source columns =>
    exact Or.inl (hasInput_of_source rfl (ColumnChecks.known h name hr))
  | renameColumns source mapping =>
    exact Or.inl (hasInput_of_source rfl (RenameChecks.known h name (List.mem_map.mpr hr)))
  | orderBy source terms limit =>
    exact Or.inl (hasInput_of_source rfl (OrderChecks.known h name (List.mem_map.mpr hr)))
  | rawStatement source used produced template =>
    rcases hr with hused | ⟨-, hin⟩
    · exact Or.inl (hasInput_of_source rfl (RawChecks.known h name hused))
    · exact Or.inl (hasInput_of_source rfl hin)
  | externalTransform source used produced transform incoming outgoing temporary =>
    exact Or.inl (hasInput_of_source rfl (TransformChecks.known h name hr))

/--
**The uses of a node are what it reads, and almost always of its inputs.**

At every node of a tree that can be built, the columns used are just those that the node's own
expressions and keys read. Each of them is a column of an input, or a name that the predicate of a join
gives to a colliding column of one of its sides.
-/
theorem built_uses_inputs {t : Tree} (h : t.Built) :
    ∀ s ∈ t.subtrees, ∀ name, (name ∈ s.localUses ↔ s.Reads name) ∧
      (name ∈ s.localUses → s.HasInput name ∨ s.HasSuffixed name) := by
  intro s hs name
  have hc : s.Checked := (h.valid.subtree hs).checked
  exact ⟨hc.mem_localUses, fun hu => hc.hasInput_of_reads (hc.mem_localUses.mp hu)⟩

/-- The join on `i_a = i_b` uses `i_a`, which stands for the column `i` of its left side. -/
theorem built_uses_inputs_joinedPair :
    joinedPair.Built ∧ [105, 95, 97] ∈ joinedPair.localUses ∧
      (joinedPair.HasInput [105, 95, 97] ∨ joinedPair.HasSuffixed [105, 95, 97]) := by
  have huses : [105, 95, 97] ∈ joinedPair.localUses := by decide
  have hself : joinedPair ∈ joinedPair.subtrees := by simp [joinedPair, subtrees]
  exact ⟨built_joinedPair, huses, (built_uses_inputs built_joinedPair _ hself _).2 huses⟩

/-- A tree can be built whose root uses a column that none of its inputs has. -/
theorem use_without_input :
    ¬∀ t : Tree, t.Built → ∀ name ∈ t.localUses, ∃ child ∈ t.children, name ∈ child.schema := by
  intro h
  have huses : [105, 95, 97] ∈ joinedPair.localUses := by decide
  obtain ⟨child, hchild, hname⟩ := h joinedPair built_joinedPair _ huses
  have hnone : ∀ child ∈ joinedPair.children, [105, 95, 97] ∉ child.schema := by
    simp [joinedPair, children, Tree.schema]
  exact hnone child hchild hname

end Tree

end SqlPipeline
