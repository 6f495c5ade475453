import SqlPipeline.Proofs.Narrowing

/-!
# Trees that can be built

`Tree.Built` are the trees that come out of any finite sequence of successful calls
of the builders, the quantile summary and narrowing itself. All of them are valid,
so what is proved of valid trees holds of every tree that a caller can have in hand.

The main result says when narrowing succeeds, and what it gives: the wanted columns
in the wanted order, over the tables of the tree.
-/

namespace SqlPipeline.Tree

/-! ## Narrowing at the root -/

/-- Puts the given columns on top, unless the tree has just these. -/
def projected (t : Tree) (columns : List Text) : Tree :=
  if t.schema = columns then t else selectColumns t columns

@[simp] theorem schema_projected (t : Tree) (columns : List Text) :
    (t.projected columns).schema = columns := by
  unfold projected
  split
  · assumption
  · rfl

@[simp] theorem tables_projected (t : Tree) (columns : List Text) :
    (t.projected columns).tables = t.tables := by
  unfold projected
  split
  · rfl
  · rfl

/-- The output columns that narrowing takes: some of the tree's columns, each once, or no list at all. -/
def Accepts (t : Tree) (output : Option (List Text)) : Prop :=
  ∀ columns, output = some columns →
    columns ≠ [] ∧ columns.Nodup ∧ ∀ name ∈ columns, name ∈ t.schema

variable {t T : Tree} {output : Option (List Text)}

/-- What is asked of a valid tree by an accepted list can be chosen from it. -/
theorem Accepts.columnChecks (h : t.Valid) (ha : t.Accepts output) :
    ColumnChecks t.schema (output.getD t.schema) := by
  cases output with
  | none => exact ⟨h.schema_ne_nil, fun _ hn => hn, h.named⟩
  | some columns =>
    obtain ⟨hne, hnd, hk⟩ := ha columns rfl
    exact ⟨hne, hk, h.named.of_subset hk hnd⟩

/-- **When narrowing a valid tree succeeds**, and with what. -/
theorem narrow_ok_iff (h : t.Valid) :
    t.narrow output = .ok T ↔
      t.Accepts output ∧
        T = (t.narrowed (output.getD t.schema)).projected (output.getD t.schema) := by
  simp only [narrow, guard_ok_iff, bind_ok_iff, Pipeline.requireColumns_eq_ok,
    Pipeline.requireUnique_eq_ok, narrowTo_eq h, Except.ok.injEq, exists_eq_left',
    List.isEmpty_iff]
  -- the choice of columns on top cannot fail: narrowing has kept all that it lists
  have hout : ColumnChecks t.schema (output.getD t.schema) →
      (((if (t.narrowed (output.getD t.schema)).schema = output.getD t.schema then
            pure (t.narrowed (output.getD t.schema))
          else Pipeline.selectColumns (t.narrowed (output.getD t.schema)) (output.getD t.schema)) =
          .ok T) ↔
        T = (t.narrowed (output.getD t.schema)).projected (output.getD t.schema)) := by
    intro hc
    unfold projected
    split
    · exact pure_ok_iff
    · rw [Pipeline.selectColumns_ok_iff]
      have hnarrows := narrows_narrowed h (output.getD t.schema)
      exact and_iff_right ⟨hc.nonempty, fun name hn => hnarrows.keeps name hn (hc.known name hn),
        hc.named⟩
  constructor
  · intro h
    obtain ⟨hne, -, hk, -, hn, hT⟩ := h
    refine ⟨?_, (hout ⟨hne, hk, hn⟩).mp hT⟩
    intro columns he
    subst he
    exact ⟨hne, hn.nodup, hk⟩
  · intro h
    obtain ⟨ha, hT⟩ := h
    have hc := ha.columnChecks h
    exact ⟨hc.nonempty, (), hc.known, (), hc.named, (hout hc).mpr hT⟩

theorem narrow_valid (h : t.Valid) (hT : t.narrow output = .ok T) : T.Valid := by
  obtain ⟨ha, rfl⟩ := (narrow_ok_iff h).mp hT
  have hnarrows := narrows_narrowed h (output.getD t.schema)
  have hc := ha.columnChecks h
  unfold projected
  split
  · exact hnarrows.valid
  · exact Checked.valid₁
      ⟨hc.nonempty, fun name hn => hnarrows.keeps name hn (hc.known name hn), hc.named⟩ rfl
      hnarrows.valid

/-! ## Built trees -/

/-- A tree that comes out of a finite sequence of successful calls. -/
inductive Built : Tree → Prop where
  | table {name : Text} {columns : List Text} {qualifier : Option Text} {t : Tree} :
      Pipeline.table name columns qualifier = .ok t → Built t
  | extend {source t : Tree} {assignments : List Assignment} {partitionBy : List Text}
      {orderBy : List OrderTerm} :
      Built source → Pipeline.extend source assignments partitionBy orderBy = .ok t → Built t
  | project {source t : Tree} {groupBy : List Text} {aggregates : List Assignment} :
      Built source → Pipeline.project source groupBy aggregates = .ok t → Built t
  | naturalJoin {left right t : Tree} {type : JoinType} :
      Built left → Built right → Pipeline.naturalJoin left right type = .ok t → Built t
  | thetaJoin {left right t : Tree} {predicate : Expr} {type : JoinType} {suffixes : Suffixes} :
      Built left → Built right → Pipeline.thetaJoin left right predicate type suffixes = .ok t →
      Built t
  | selectRows {source t : Tree} {predicate : Expr} :
      Built source → Pipeline.selectRows source predicate = .ok t → Built t
  | selectColumns {source t : Tree} {columns : List Text} :
      Built source → Pipeline.selectColumns source columns = .ok t → Built t
  | renameColumns {source t : Tree} {mapping : List Rename} :
      Built source → Pipeline.renameColumns source mapping = .ok t → Built t
  | orderBy {source t : Tree} {terms : List OrderTerm} {limit : Option Nat} :
      Built source → Pipeline.orderBy source terms limit = .ok t → Built t
  | rawStatement {source t : Tree} {used produced : List Text} {template : Expr} :
      Built source → Pipeline.rawStatement source used produced template = .ok t → Built t
  | externalTransform {source t : Tree} {used produced : List Text} {transform : Option Transform}
      {incoming outgoing : Text} {temporary : Bool} :
      Built source →
      Pipeline.externalTransform source used produced transform incoming outgoing temporary = .ok t →
      Built t
  | quantile {source t : Tree} {digest : Text → Text} {tag : Text} {spec : QuantileSpec} :
      Built source → Pipeline.quantile digest tag source spec = .ok t → Built t
  | narrow {source t : Tree} {output : Option (List Text)} :
      Built source → source.narrow output = .ok t → Built t

/-- **Every tree that can be built is valid.** -/
theorem Built.valid {t : Tree} (h : t.Built) : t.Valid := by
  induction h with
  | table h =>
    obtain ⟨hc, rfl⟩ := Pipeline.table_ok_iff.mp h
    exact valid_iff.mpr ⟨hc, by simp [children]⟩
  | extend _ h ih =>
    obtain ⟨hc, rfl⟩ := Pipeline.extend_ok_iff.mp h
    exact Checked.valid₁ hc rfl ih
  | project _ h ih =>
    obtain ⟨hc, rfl⟩ := Pipeline.project_ok_iff.mp h
    exact Checked.valid₁ hc rfl ih
  | naturalJoin _ _ h ihl ihr =>
    obtain ⟨hc, rfl⟩ := Pipeline.naturalJoin_ok_iff.mp h
    exact Checked.valid₂ hc rfl ihl ihr
  | thetaJoin _ _ h ihl ihr =>
    obtain ⟨hc, rfl⟩ := Pipeline.thetaJoinWith_ok_iff.mp h
    exact Checked.valid₂ hc rfl ihl ihr
  | selectRows _ h ih =>
    obtain ⟨hc, rfl⟩ := Pipeline.selectRows_ok_iff.mp h
    exact Checked.valid₁ hc rfl ih
  | selectColumns _ h ih =>
    obtain ⟨hc, rfl⟩ := Pipeline.selectColumns_ok_iff.mp h
    exact Checked.valid₁ hc rfl ih
  | renameColumns _ h ih =>
    obtain ⟨hc, rfl⟩ := Pipeline.renameColumns_ok_iff.mp h
    exact Checked.valid₁ hc rfl ih
  | orderBy _ h ih =>
    obtain ⟨hc, rfl⟩ := Pipeline.orderBy_ok_iff.mp h
    exact Checked.valid₁ hc rfl ih
  | rawStatement _ h ih =>
    obtain ⟨hc, rfl⟩ := Pipeline.rawStatement_ok_iff.mp h
    exact Checked.valid₁ hc rfl ih
  | externalTransform _ h ih =>
    obtain ⟨work, -, hc, rfl⟩ := Pipeline.externalTransform_ok_iff.mp h
    exact Checked.valid₁ hc rfl ih
  | quantile _ h ih =>
    -- a summary ends in the builder of delegated work
    simp only [Pipeline.quantile, guard_ok_iff, bind_ok_iff] at h
    obtain ⟨-, -, -, -, -, -, -, -, -, -, h⟩ := h
    obtain ⟨work, -, hc, rfl⟩ := Pipeline.externalTransform_ok_iff.mp h
    exact Checked.valid₁ hc rfl ih
  | narrow _ h ih => exact narrow_valid ih h

/--
**Narrowing is total on built trees and exact on its interface.**

It succeeds exactly on the output lists that `Accepts` describes. The result has the wanted columns in
the wanted order and reads the same tables from left to right, each with some of its columns in table
order. Every call on a node below succeeds too, whatever is wanted of the node: the rebuilt node has
each wanted column of the node and no column beyond the node's own.
-/
theorem narrow_exact {t : Tree} (h : t.Built) (output : Option (List Text)) :
    ((∃ T, t.narrow output = .ok T) ↔ t.Accepts output) ∧
      (∀ T, t.narrow output = .ok T →
        T.schema = output.getD t.schema ∧ List.Forall₂ Table.Exposes t.tables T.tables) ∧
      ∀ s ∈ t.subtrees, ∀ wanted, ∃ s', s.narrowTo wanted = .ok s' ∧
        (∀ name ∈ wanted, name ∈ s.schema → name ∈ s'.schema) ∧
        ∀ name ∈ s'.schema, name ∈ s.schema := by
  have hv := h.valid
  refine ⟨⟨?_, ?_⟩, ?_, ?_⟩
  · intro h
    obtain ⟨T, hT⟩ := h
    exact ((narrow_ok_iff hv).mp hT).1
  · exact fun ha => ⟨_, (narrow_ok_iff hv).mpr ⟨ha, rfl⟩⟩
  · intro T hT
    obtain ⟨-, rfl⟩ := (narrow_ok_iff hv).mp hT
    rw [schema_projected, tables_projected]
    exact ⟨rfl, tables_narrowed hv _⟩
  · intro s hs wanted
    have hsub := hv.subtree hs
    have hnarrows := narrows_narrowed hsub wanted
    -- inside of the tree narrowing is total, so only the list of columns can be refused
    exact ⟨_, narrowTo_eq hsub wanted, hnarrows.keeps, hnarrows.within⟩

/-- The join of `l(i, x)` with `r(i, y)` on `i_a = i_b`. -/
def joinedPair : Tree :=
  .thetaJoin (.table ⟨[108], [[105], [120]], none⟩) (.table ⟨[114], [[105], [121]], none⟩)
    (.binary (.var [105, 95, 97]) [61] (.var [105, 95, 98])) .inner .default [[105]]

theorem built_joinedPair : joinedPair.Built := by
  have hl : Pipeline.table [108] [[105], [120]] none =
      .ok (.table ⟨[108], [[105], [120]], none⟩) := rfl
  have hr : Pipeline.table [114] [[105], [121]] none =
      .ok (.table ⟨[114], [[105], [121]], none⟩) := rfl
  have hj : Pipeline.thetaJoin (.table ⟨[108], [[105], [120]], none⟩)
      (.table ⟨[114], [[105], [121]], none⟩)
      (.binary (.var [105, 95, 97]) [61] (.var [105, 95, 98])) .inner .default =
        .ok joinedPair := rfl
  exact .thetaJoin (.table hl) (.table hr) hj

/-- Asked for `y` and `i_a`, the join gives them in this order. -/
theorem narrow_exact_joinedPair :
    joinedPair.Built ∧ joinedPair.Accepts (some [[121], [105, 95, 97]]) ∧
      ∃ T, joinedPair.narrow (some [[121], [105, 95, 97]]) = .ok T ∧
        T.schema = [[121], [105, 95, 97]] ∧
        List.Forall₂ Table.Exposes joinedPair.tables T.tables := by
  have haccepts : joinedPair.Accepts (some [[121], [105, 95, 97]]) := by
    intro columns hc
    obtain rfl := Option.some.inj hc
    decide
  have hexact := narrow_exact built_joinedPair (some [[121], [105, 95, 97]])
  obtain ⟨T, hT⟩ := hexact.1.mpr haccepts
  exact ⟨built_joinedPair, haccepts, T, hT, hexact.2.1 T hT⟩

end SqlPipeline.Tree
