import SqlPipeline.Proofs.Stages
import SqlPipeline.Quantile

/-!
# Valid trees

What each builder checks, as a proposition about the columns of its inputs. A
builder succeeds exactly if its checks hold, and then it gives the operator on the
inputs and nothing else. So a node never has to be looked at through the builder
that made it: `Tree.Checked` says what is known of a root, and `Tree.Valid` says it
of every node of a tree.

The columns of a valid tree can head a relation: there is at least one, none is
empty and none is repeated.
-/

namespace SqlPipeline

/-! ## Success of a sequence of checks -/

section Except

variable {ε α β : Type}

theorem bind_ok_iff {x : Except ε α} {next : α → Except ε β} {b : β} :
    (do let a ← x; next a) = .ok b ↔ ∃ a, x = .ok a ∧ next a = .ok b := by
  cases x <;> simp [bind, Except.bind]

theorem pure_ok_iff {a b : α} : (pure a : Except ε α) = .ok b ↔ b = a := by
  simp [pure, Except.pure, eq_comm]

/-- A check in front of the rest: the rest counts only where the check does not fail. -/
theorem guard_ok_iff {c : Prop} [Decidable c] {e : ε} {next : Unit → Except ε α}
    {rest : Except ε α} {b : α} :
    (if c then (throw e : Except ε Unit) >>= next else rest) = .ok b ↔ ¬c ∧ rest = .ok b := by
  by_cases h : c
  · rw [if_pos h]
    exact ⟨nofun, fun hn => absurd h hn.1⟩
  · simp [h]

end Except

namespace Pipeline

theorem requireColumns_eq_ok {place : Place} {columns names : List Text} {u : Unit} :
    requireColumns place columns names = .ok u ↔ ∀ name ∈ names, name ∈ columns := by
  unfold requireColumns
  split
  · rename_i name hf
    have hmem := List.mem_of_find?_eq_some hf
    have hout := List.find?_some hf
    simp only [List.contains_eq_mem, Bool.not_eq_true', decide_eq_false_iff_not] at hout
    exact ⟨nofun, fun h => absurd (h name hmem) hout⟩
  · rename_i hf
    refine ⟨fun _ name hn => ?_, fun _ => rfl⟩
    simpa using List.find?_eq_none.mp hf name hn

theorem requireUnique_eq_ok {place : Place} {names : List Text} {u : Unit} :
    requireUnique place names = .ok u ↔ Named names := by
  unfold requireUnique
  split
  · rename_i he
    obtain ⟨name, hn, hempty⟩ := List.any_eq_true.mp he
    exact ⟨nofun,
      fun h => absurd (List.isEmpty_iff.mp hempty) (h.nonempty name hn)⟩
  · rename_i he
    -- the empty name is looked for first, so the repeats are among real names
    have hne : ∀ name ∈ names, name ≠ [] := by
      intro name hn hnil
      exact he (List.any_eq_true.mpr ⟨name, hn, List.isEmpty_iff.mpr hnil⟩)
    split
    · rename_i name hf
      refine ⟨nofun, fun h => ?_⟩
      rw [firstRepeat_eq_none_iff.mpr h.nodup] at hf
      exact absurd hf (by simp)
    · rename_i hf
      exact ⟨fun _ => ⟨hne, firstRepeat_eq_none_iff.mp hf⟩, fun _ => rfl⟩

theorem requireNoInput_eq_ok {kind : OperatorKind} {e : Expr} {u : Unit} :
    requireNoInput kind e = .ok u ↔ e.hasInput = false := by
  unfold requireNoInput
  split
  · rename_i h
    simp [h]
  · rename_i h
    simp [h]

theorem requireUnassigned_eq_ok {targets window : List Text} {u : Unit} :
    requireUnassigned targets window = .ok u ↔ ∀ name ∈ window, name ∉ targets := by
  unfold requireUnassigned
  split
  · rename_i name hf
    have hmem := List.mem_of_find?_eq_some hf
    have hin := List.find?_some hf
    simp only [List.contains_eq_mem, decide_eq_true_eq] at hin
    exact ⟨nofun, fun h => absurd hin (h name hmem)⟩
  · rename_i hf
    refine ⟨fun _ name hn => ?_, fun _ => rfl⟩
    simpa using List.find?_eq_none.mp hf name hn

theorem requireAssignments_eq_ok {visible : List Text} {as : List Assignment} {u : Unit} :
    requireAssignments visible as = .ok u ↔
      (∀ a ∈ as, a.target ≠ []) ∧ (∀ a ∈ as, a.expr.hasInput = false) ∧ Scoped visible as := by
  induction as generalizing visible with
  | nil => simp [requireAssignments, Scoped]
  | cons a rest ih =>
    -- the check adds a target behind the visible names, `Scoped` before them
    have hvisible : Scoped (Text.appendNew visible [a.target]) rest ↔
        Scoped (a.target :: visible) rest := by
      constructor
      · exact fun h => h.mono (by simp [or_comm])
      · exact fun h => h.mono (by simp [or_comm])
    simp only [requireAssignments, guard_ok_iff, bind_ok_iff, requireNoInput_eq_ok,
      requireColumns_eq_ok, ih, hvisible, Scoped, List.forall_mem_cons, List.isEmpty_iff]
    constructor
    · intro h
      obtain ⟨ht, -, hi, -, hr, hts, his, hs⟩ := h
      exact ⟨⟨ht, hts⟩, ⟨hi, his⟩, hr, hs⟩
    · intro h
      obtain ⟨⟨ht, hts⟩, ⟨hi, his⟩, hr, hs⟩ := h
      exact ⟨ht, (), hi, (), hr, hts, his, hs⟩

theorem requireAggregates_eq_ok {columns : List Text} {as : List Assignment} {u : Unit} :
    requireAggregates columns as = .ok u ↔
      (∀ a ∈ as, a.expr.hasInput = false) ∧ ∀ a ∈ as, ∀ name ∈ a.reads, name ∈ columns := by
  induction as with
  | nil => simp [requireAggregates]
  | cons a rest ih =>
    simp only [requireAggregates, bind_ok_iff, requireNoInput_eq_ok, requireColumns_eq_ok, ih,
      List.forall_mem_cons]
    constructor
    · intro h
      obtain ⟨-, hi, -, hr, his, hrs⟩ := h
      exact ⟨⟨hi, his⟩, hr, hrs⟩
    · intro h
      obtain ⟨⟨hi, his⟩, hr, hrs⟩ := h
      exact ⟨(), hi, (), hr, his, hrs⟩

theorem requireSuffixes_eq_ok {suffixes : Suffixes} {collisions : List Text} {u : Unit} :
    requireSuffixes suffixes collisions = .ok u ↔
      (collisions ≠ [] → suffixes.left ≠ suffixes.right) := by
  unfold requireSuffixes
  cases collisions with
  | nil => simp
  | cons name rest =>
    simp only
    split
    · rename_i h
      simp [h]
    · rename_i h
      simp [h]

end Pipeline

/-! ## What the builders check -/

/-- What is known of a table. -/
structure TableChecks (t : Table) : Prop where
  name : t.name ≠ []
  nonempty : t.columns ≠ []
  qualifier : t.qualifier ≠ some []
  named : Named t.columns

/-- What is known of an extension of a relation with the given columns. -/
structure ExtendChecks (columns : List Text) (assignments : List Assignment) (partitionBy : List Text)
    (orderBy : List OrderTerm) : Prop where
  nonempty : assignments ≠ []
  targets : ∀ a ∈ assignments, a.target ≠ []
  noInput : ∀ a ∈ assignments, a.expr.hasInput = false
  inScope : Scoped columns assignments
  window : ∀ name ∈ windowColumns partitionBy orderBy, name ∈ columns
  unassigned : ∀ name ∈ windowColumns partitionBy orderBy, name ∉ assignments.map Assignment.target
  partition : Named partitionBy

/-- What is known of a grouping. -/
structure ProjectChecks (columns groupBy : List Text) (aggregates : List Assignment) : Prop where
  nonempty : groupBy = [] → aggregates ≠ []
  groups : ∀ name ∈ groupBy, name ∈ columns
  noInput : ∀ a ∈ aggregates, a.expr.hasInput = false
  reads : ∀ a ∈ aggregates, ∀ name ∈ a.reads, name ∈ columns
  named : Named (groupBy ++ aggregates.map Assignment.target)

/-- What is known of a join on a predicate. -/
structure ThetaChecks (left right : List Text) (predicate : Expr) (suffixes : Suffixes)
    (collisions : List Text) : Prop where
  apart : collisions ≠ [] → suffixes.left ≠ suffixes.right
  named : Named ((joinColumns left right collisions suffixes).map JoinColumn.output)
  noInput : predicate.hasInput = false
  reads : ∀ name ∈ predicate.columns,
    name ∈ (joinColumns left right collisions suffixes).map JoinColumn.output

/-- What is known of a choice of rows. -/
structure RowChecks (columns : List Text) (predicate : Expr) : Prop where
  noInput : predicate.hasInput = false
  nonempty : predicate.pieces ≠ []
  reads : ∀ name ∈ predicate.columns, name ∈ columns

/-- What is known of a choice of columns. -/
structure ColumnChecks (columns chosen : List Text) : Prop where
  nonempty : chosen ≠ []
  known : ∀ name ∈ chosen, name ∈ columns
  named : Named chosen

/-- What is known of a renaming. -/
structure RenameChecks (columns : List Text) (mapping : List Rename) : Prop where
  known : ∀ name ∈ mapping.map Rename.old, name ∈ columns
  olds : Named (mapping.map Rename.old)
  news : Named (mapping.map Rename.new)
  named : Named (columns.map (renamed mapping))

/-- What is known of an ordering. -/
structure OrderChecks (columns : List Text) (terms : List OrderTerm) (limit : Option Nat) : Prop where
  nonempty : terms = [] → limit ≠ none
  known : ∀ name ∈ terms.map OrderTerm.column, name ∈ columns
  named : Named (terms.map OrderTerm.column)

/-- What is known of a statement written by hand. -/
structure RawChecks (columns used produced : List Text) (template : Expr) : Prop where
  input : template.hasInput = true
  nonempty : produced ≠ []
  known : ∀ name ∈ used, name ∈ columns
  named : Named produced
  reads : ∀ name ∈ template.columns, name ∈ columns ∨ name ∈ produced

/-- What is known of delegated work. -/
structure TransformChecks (columns used produced : List Text) (incoming outgoing : Text) : Prop where
  incomingNamed : incoming ≠ []
  outgoingNamed : outgoing ≠ []
  distinct : incoming ≠ outgoing
  nonempty : produced ≠ []
  known : ∀ name ∈ used, name ∈ columns
  inputs : Named used
  named : Named produced

namespace Tree

/-- The root passes the checks of its builder. -/
def Checked : Tree → Prop
  | table t => TableChecks t
  | extend source assignments partitionBy order =>
    ExtendChecks source.schema assignments partitionBy order
  | project source groupBy aggregates => ProjectChecks source.schema groupBy aggregates
  | naturalJoin left right _ => sharedColumns left.schema right.schema ≠ []
  | thetaJoin left right predicate _ suffixes collisions =>
    ThetaChecks left.schema right.schema predicate suffixes collisions
  | selectRows source predicate => RowChecks source.schema predicate
  | selectColumns source columns => ColumnChecks source.schema columns
  | renameColumns source mapping => RenameChecks source.schema mapping
  | orderBy source terms limit => OrderChecks source.schema terms limit
  | rawStatement source used produced template => RawChecks source.schema used produced template
  | externalTransform source used produced _ incoming outgoing _ =>
    TransformChecks source.schema used produced incoming outgoing

end Tree

namespace Pipeline

/-! ## A builder gives its operator exactly if the checks hold -/

variable {source left right t : Tree}

theorem table_ok_iff {name : Text} {columns : List Text} {qualifier : Option Text} :
    table name columns qualifier = .ok t ↔
      (Tree.table ⟨name, columns, qualifier⟩).Checked ∧ t = .table ⟨name, columns, qualifier⟩ := by
  simp only [table, describe, guard_ok_iff, bind_ok_iff, pure_ok_iff, requireUnique_eq_ok,
    List.isEmpty_iff]
  constructor
  · intro h
    obtain ⟨_, ⟨hname, hcolumns, hqualifier, -, hnamed, rfl⟩, rfl⟩ := h
    exact ⟨⟨hname, hcolumns, hqualifier, hnamed⟩, rfl⟩
  · intro h
    obtain ⟨⟨hname, hcolumns, hqualifier, hnamed⟩, rfl⟩ := h
    exact ⟨_, ⟨hname, hcolumns, hqualifier, (), hnamed, rfl⟩, rfl⟩

theorem extend_ok_iff {assignments : List Assignment} {partitionBy : List Text}
    {orderBy : List OrderTerm} :
    extend source assignments partitionBy orderBy = .ok t ↔
      (Tree.extend source assignments partitionBy orderBy).Checked ∧
        t = .extend source assignments partitionBy orderBy := by
  simp only [extend, guard_ok_iff, bind_ok_iff, pure_ok_iff, requireAssignments_eq_ok,
    requireColumns_eq_ok, requireUnassigned_eq_ok, requireUnique_eq_ok, List.isEmpty_iff]
  constructor
  · intro h
    obtain ⟨hne, -, ⟨ht, hi, hs⟩, -, hw, -, hu, -, hp, -, -, rfl⟩ := h
    exact ⟨⟨hne, ht, hi, hs, hw, hu, hp⟩, rfl⟩
  · intro h
    obtain ⟨⟨hne, ht, hi, hs, hw, hu, hp⟩, rfl⟩ := h
    -- the batch is in scope, so the last check cannot fail
    obtain ⟨stages, hstages⟩ := partition_of_scoped hs
    exact ⟨hne, (), ⟨ht, hi, hs⟩, (), hw, (), hu, (), hp, stages, hstages, rfl⟩

theorem project_ok_iff {groupBy : List Text} {aggregates : List Assignment} :
    project source groupBy aggregates = .ok t ↔
      (Tree.project source groupBy aggregates).Checked ∧
        t = .project source groupBy aggregates := by
  simp only [project, guard_ok_iff, bind_ok_iff, pure_ok_iff, requireColumns_eq_ok,
    requireAggregates_eq_ok, requireUnique_eq_ok, Bool.and_eq_true, List.isEmpty_iff, not_and]
  constructor
  · intro h
    obtain ⟨hne, -, hg, -, ⟨hi, hr⟩, -, hn, rfl⟩ := h
    exact ⟨⟨hne, hg, hi, hr, hn⟩, rfl⟩
  · intro h
    obtain ⟨⟨hne, hg, hi, hr, hn⟩, rfl⟩ := h
    exact ⟨hne, (), hg, (), ⟨hi, hr⟩, (), hn, rfl⟩

theorem naturalJoin_ok_iff {type : JoinType} :
    naturalJoin left right type = .ok t ↔
      (Tree.naturalJoin left right type).Checked ∧ t = .naturalJoin left right type := by
  simp only [naturalJoin, Tree.Checked, List.isEmpty_iff]
  split
  · rename_i h
    exact ⟨nofun, fun hc => absurd h hc.1⟩
  · rename_i h
    exact ⟨fun he => ⟨h, (Except.ok.inj he).symm⟩, fun hc => congrArg Except.ok hc.2.symm⟩

theorem thetaJoinWith_ok_iff {predicate : Expr} {type : JoinType} {suffixes : Suffixes}
    {collisions : List Text} :
    thetaJoinWith left right predicate type suffixes collisions = .ok t ↔
      (Tree.thetaJoin left right predicate type suffixes collisions).Checked ∧
        t = .thetaJoin left right predicate type suffixes collisions := by
  simp only [thetaJoinWith, bind_ok_iff, pure_ok_iff, requireSuffixes_eq_ok, requireUnique_eq_ok,
    requireNoInput_eq_ok, requireColumns_eq_ok]
  constructor
  · intro h
    obtain ⟨-, hs, -, hn, -, hi, -, hr, rfl⟩ := h
    exact ⟨⟨hs, hn, hi, hr⟩, rfl⟩
  · intro h
    obtain ⟨⟨hs, hn, hi, hr⟩, rfl⟩ := h
    exact ⟨(), hs, (), hn, (), hi, (), hr, rfl⟩

theorem selectRows_ok_iff {predicate : Expr} :
    selectRows source predicate = .ok t ↔
      (Tree.selectRows source predicate).Checked ∧ t = .selectRows source predicate := by
  simp only [selectRows, guard_ok_iff, bind_ok_iff, pure_ok_iff, requireNoInput_eq_ok,
    requireColumns_eq_ok, List.isEmpty_iff]
  constructor
  · intro h
    obtain ⟨-, hi, hne, -, hr, rfl⟩ := h
    exact ⟨⟨hi, hne, hr⟩, rfl⟩
  · intro h
    obtain ⟨⟨hi, hne, hr⟩, rfl⟩ := h
    exact ⟨(), hi, hne, (), hr, rfl⟩

theorem selectColumns_ok_iff {columns : List Text} :
    selectColumns source columns = .ok t ↔
      (Tree.selectColumns source columns).Checked ∧ t = .selectColumns source columns := by
  simp only [selectColumns, guard_ok_iff, bind_ok_iff, pure_ok_iff, requireColumns_eq_ok,
    requireUnique_eq_ok, List.isEmpty_iff]
  constructor
  · intro h
    obtain ⟨hne, -, hk, -, hn, rfl⟩ := h
    exact ⟨⟨hne, hk, hn⟩, rfl⟩
  · intro h
    obtain ⟨⟨hne, hk, hn⟩, rfl⟩ := h
    exact ⟨hne, (), hk, (), hn, rfl⟩

theorem renameColumns_ok_iff {mapping : List Rename} :
    renameColumns source mapping = .ok t ↔
      (Tree.renameColumns source mapping).Checked ∧ t = .renameColumns source mapping := by
  simp only [renameColumns, bind_ok_iff, pure_ok_iff, requireColumns_eq_ok, requireUnique_eq_ok]
  constructor
  · intro h
    obtain ⟨-, hk, -, ho, -, hn, -, hs, rfl⟩ := h
    exact ⟨⟨hk, ho, hn, hs⟩, rfl⟩
  · intro h
    obtain ⟨⟨hk, ho, hn, hs⟩, rfl⟩ := h
    exact ⟨(), hk, (), ho, (), hn, (), hs, rfl⟩

theorem orderBy_ok_iff {terms : List OrderTerm} {limit : Option Nat} :
    orderBy source terms limit = .ok t ↔
      (Tree.orderBy source terms limit).Checked ∧ t = .orderBy source terms limit := by
  simp only [orderBy, guard_ok_iff, bind_ok_iff, pure_ok_iff, requireColumns_eq_ok,
    requireUnique_eq_ok, Bool.and_eq_true, List.isEmpty_iff, Option.isNone_iff_eq_none, not_and]
  constructor
  · intro h
    obtain ⟨hne, -, hk, -, hn, rfl⟩ := h
    exact ⟨⟨hne, hk, hn⟩, rfl⟩
  · intro h
    obtain ⟨⟨hne, hk, hn⟩, rfl⟩ := h
    exact ⟨hne, (), hk, (), hn, rfl⟩

theorem rawStatement_ok_iff {used produced : List Text} {template : Expr} :
    rawStatement source used produced template = .ok t ↔
      (Tree.rawStatement source used produced template).Checked ∧
        t = .rawStatement source used produced template := by
  simp only [rawStatement, guard_ok_iff, bind_ok_iff, pure_ok_iff, requireColumns_eq_ok,
    requireUnique_eq_ok, mem_appendNew, List.isEmpty_iff, Bool.not_eq_true', Bool.not_eq_false]
  constructor
  · intro h
    obtain ⟨hi, hne, -, hk, -, hn, -, hr, rfl⟩ := h
    exact ⟨⟨hi, hne, hk, hn, hr⟩, rfl⟩
  · intro h
    obtain ⟨⟨hi, hne, hk, hn, hr⟩, rfl⟩ := h
    exact ⟨hi, hne, (), hk, (), hn, (), hr, rfl⟩

theorem externalTransform_ok_iff {used produced : List Text} {transform : Option Transform}
    {incoming outgoing : Text} {temporary : Bool} :
    externalTransform source used produced transform incoming outgoing temporary = .ok t ↔
      ∃ work, transform = some work ∧
        (Tree.externalTransform source used produced work incoming outgoing temporary).Checked ∧
        t = .externalTransform source used produced work incoming outgoing temporary := by
  have hwork : ∀ work, requireTransform transform = .ok work ↔ transform = some work := by
    intro work
    cases transform <;> simp [requireTransform]
  simp only [externalTransform, guard_ok_iff, bind_ok_iff, pure_ok_iff, hwork,
    requireColumns_eq_ok, requireUnique_eq_ok, Bool.or_eq_true, List.isEmpty_iff, not_or]
  constructor
  · intro h
    obtain ⟨work, hw, ⟨hin, hout⟩, hd, hne, -, hk, -, hu, -, hn, rfl⟩ := h
    exact ⟨work, hw, ⟨hin, hout, hd, hne, hk, hu, hn⟩, rfl⟩
  · intro h
    obtain ⟨work, hw, ⟨hin, hout, hd, hne, hk, hu, hn⟩, rfl⟩ := h
    exact ⟨work, hw, ⟨hin, hout⟩, hd, hne, (), hk, (), hu, (), hn, rfl⟩

end Pipeline

namespace Tree

/-! ## Valid trees -/

/-- A tree and all the trees below it. -/
def subtrees (tree : Tree) : List Tree :=
  tree ::
    match tree with
    | table _ => []
    | naturalJoin left right _ | thetaJoin left right _ _ _ _ => left.subtrees ++ right.subtrees
    | extend source .. | project source .. | selectRows source _ | selectColumns source _
    | renameColumns source _ | orderBy source .. | rawStatement source ..
    | externalTransform source .. => source.subtrees

/-- Every node passes the checks of its builder. -/
def Valid (tree : Tree) : Prop := ∀ t ∈ tree.subtrees, t.Checked

/-- What holds all over a tree holds of its root and all over its inputs. -/
theorem forall_subtrees_iff {p : Tree → Prop} {t : Tree} :
    (∀ s ∈ t.subtrees, p s) ↔ p t ∧ ∀ c ∈ t.children, ∀ s ∈ c.subtrees, p s := by
  cases t <;> simp [subtrees, children, or_imp, forall_and]

theorem valid_iff {t : Tree} : t.Valid ↔ t.Checked ∧ ∀ c ∈ t.children, c.Valid :=
  forall_subtrees_iff

theorem Valid.checked {t : Tree} (h : t.Valid) : t.Checked := (valid_iff.mp h).1

theorem Valid.input {t c : Tree} (h : t.Valid) (hc : c ∈ t.children) : c.Valid :=
  (valid_iff.mp h).2 c hc

/-- The trees below a tree have their own below them. -/
theorem subtrees_subset {t s : Tree} (h : s ∈ t.subtrees) : s.subtrees ⊆ t.subtrees := by
  induction t with
  | table t =>
    rw [subtrees, List.mem_singleton] at h
    rw [h]
    exact List.Subset.refl _
  | naturalJoin left right type ihl ihr =>
    rw [subtrees, List.mem_cons, List.mem_append] at h
    rcases h with rfl | h | h
    · exact List.Subset.refl _
    · intro x hx
      exact List.mem_cons_of_mem _ (List.mem_append_left _ (ihl h hx))
    · intro x hx
      exact List.mem_cons_of_mem _ (List.mem_append_right _ (ihr h hx))
  | thetaJoin left right predicate type suffixes collisions ihl ihr =>
    rw [subtrees, List.mem_cons, List.mem_append] at h
    rcases h with rfl | h | h
    · exact List.Subset.refl _
    · intro x hx
      exact List.mem_cons_of_mem _ (List.mem_append_left _ (ihl h hx))
    · intro x hx
      exact List.mem_cons_of_mem _ (List.mem_append_right _ (ihr h hx))
  | extend source _ _ _ ih | project source _ _ ih | selectRows source _ ih
  | selectColumns source _ ih | renameColumns source _ ih | orderBy source _ _ ih
  | rawStatement source _ _ _ ih | externalTransform source _ _ _ _ _ _ ih =>
    rw [subtrees, List.mem_cons] at h
    rcases h with rfl | h
    · exact List.Subset.refl _
    · exact List.Subset.trans (ih h) (List.subset_cons_self _ _)

theorem Valid.subtree {t s : Tree} (h : t.Valid) (hs : s ∈ t.subtrees) : s.Valid :=
  fun x hx => h x (subtrees_subset hs hx)

/-- **The columns of a valid tree** are neither empty nor repeated. -/
theorem Valid.named {t : Tree} (h : t.Valid) : Named t.schema := by
  induction t with
  | table t => exact h.checked.named
  | extend source assignments partitionBy order ih =>
    have hs := ih (h.input (by simp [children]))
    refine ⟨?_, nodup_appendNew _ hs.nodup⟩
    intro name hn
    -- a column of the source, or a target, which was checked not to be empty
    rcases mem_appendNew.mp hn with hn | hn
    · exact hs.nonempty name hn
    · obtain ⟨a, ha, rfl⟩ := List.mem_map.mp hn
      exact h.checked.targets a ha
  | project source groupBy aggregates _ => exact h.checked.named
  | naturalJoin left right type ihl ihr =>
    have hl := ihl (h.input (by simp [children]))
    have hr := ihr (h.input (by simp [children]))
    refine ⟨?_, nodup_naturalColumns hl.nodup hr.nodup⟩
    intro name hn
    rcases mem_naturalColumns.mp hn with hn | hn
    · exact hl.nonempty name hn
    · exact hr.nonempty name hn
  | thetaJoin left right predicate type suffixes collisions _ _ => exact h.checked.named
  | selectRows source predicate ih => exact ih (h.input (by simp [children]))
  | selectColumns source columns _ => exact h.checked.named
  | renameColumns source mapping _ => exact h.checked.named
  | orderBy source terms limit ih => exact ih (h.input (by simp [children]))
  | rawStatement source used produced template _ => exact h.checked.named
  | externalTransform source used produced transform incoming outgoing temporary _ =>
    exact h.checked.named

/-- A valid tree has a column. -/
theorem Valid.schema_ne_nil {t : Tree} (h : t.Valid) : t.schema ≠ [] := by
  have hne : ∀ {columns : List Text} {name : Text}, name ∈ columns → columns ≠ [] :=
    fun hm he => by simp [he] at hm
  induction t with
  | table t => exact h.checked.nonempty
  | extend source assignments partitionBy order ih =>
    -- what the source has is still there
    obtain ⟨name, hn⟩ := List.exists_mem_of_ne_nil _ (ih (h.input (by simp [children])))
    exact hne (mem_appendNew.mpr (Or.inl hn))
  | project source groupBy aggregates _ =>
    have hchecked := h.checked.nonempty
    cases groupBy with
    | nil => simpa [Tree.schema] using hchecked rfl
    | cons name rest => exact List.cons_ne_nil _ _
  | naturalJoin left right type ihl _ =>
    obtain ⟨name, hn⟩ := List.exists_mem_of_ne_nil _ (ihl (h.input (by simp [children])))
    exact hne (mem_naturalColumns.mpr (Or.inl hn))
  | thetaJoin left right predicate type suffixes collisions ihl _ =>
    have hl := ihl (h.input (by simp [children]))
    simp [Tree.schema, joinColumns, hl]
  | selectRows source predicate ih => exact ih (h.input (by simp [children]))
  | selectColumns source columns _ => exact h.checked.nonempty
  | renameColumns source mapping ih =>
    have hs := ih (h.input (by simp [children]))
    simpa [Tree.schema] using hs
  | orderBy source terms limit ih => exact ih (h.input (by simp [children]))
  | rawStatement source used produced template _ => exact h.checked.nonempty
  | externalTransform source used produced transform incoming outgoing temporary _ =>
    exact h.checked.nonempty

end Tree

end SqlPipeline
