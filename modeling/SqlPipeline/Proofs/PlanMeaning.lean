import SqlPipeline.Proofs.Compilation
import SqlPipeline.Proofs.Construction
import SqlPipeline.Sql.Generate

/-!
# Statements mean what the tree means

A tree without handwritten statements and delegated work becomes one statement, and
the query that the statement prints has the rows of the tree. Compiling only puts
the SELECTs of the operators together, so the argument goes through the rules of
compiling one by one and hands each node to the lemma about its operator. What is
left to see is that numbers of subqueries only go up, which keeps the two sides of a
join apart, and that no stage is added.
-/

namespace SqlPipeline.Sql

universe u

/-! ## Progress without stages -/

/-- No stage was added, and numbers have only gone up. -/
structure Progress.Grows (s s' : Progress) : Prop where
  aliases : s.aliases ≤ s'.aliases
  stages : s'.stages = s.stages

theorem Progress.Grows.refl (s : Progress) : s.Grows s := ⟨Nat.le_refl _, rfl⟩

theorem Progress.Grows.trans {s s₁ s' : Progress} (h : s.Grows s₁) (h' : s₁.Grows s') : s.Grows s' :=
  ⟨Nat.le_trans h.aliases h'.aliases, h'.stages.trans h.stages⟩

theorem Progress.grows_next (s : Progress) : s.Grows ⟨s.aliases + 1, s.stages⟩ :=
  ⟨Nat.le_succ _, rfl⟩

/-- The two sides of a join are finished one after the other and get different numbers. -/
theorem Progress.Grows.sides {s sl sr : Progress} (hl : s.Grows sl)
    (hr : Progress.Grows ⟨sl.aliases + 1, sl.stages⟩ sr) :
    s.Grows ⟨sr.aliases + 1, sr.stages⟩ ∧ sl.aliases + 1 ≠ sr.aliases + 1 := by
  refine ⟨((hl.trans sl.grows_next).trans hr).trans sr.grows_next, ?_⟩
  have hle : sl.aliases + 1 ≤ sr.aliases := hr.aliases
  omega

/-! ## Stages -/

section Stages

variable {stages : List (List Assignment)} {columns final : List Text} {q : Query}

/-- The SELECTs of the stages run the stages one after the other. -/
theorem rows_layers {V : Type u} [DecidableEq V] (R : Reading V) (db : Database V)
    {partitionBy : List Text} {order : List OrderTerm}
    (hq : q.output = columns) (hcolumns : ∀ name ∈ columns, name ∈ final)
    (htargets : ∀ stage ∈ stages, ∀ name ∈ stage.map Assignment.target, name ∈ final)
    (hnd : ∀ stage ∈ stages, (stage.map Assignment.target).Nodup) (n : Nat) :
    (layers (windowOf partitionBy order) final stages columns q n).rows R db =
      stages.foldl (rowStore R.meaning partitionBy order).stage (q.rows R db) := by
  induction stages generalizing columns q n with
  | nil => rfl
  | cons stage rest ih =>
    have hstage := htargets stage List.mem_cons_self
    -- the next columns are all the columns so far and all the targets of this stage
    obtain ⟨columns', hcolumns'⟩ : ∃ columns', columns' =
      (if rest.isEmpty then final else Text.appendNew columns (stage.map Assignment.target)) := ⟨_, rfl⟩
    have hnext : (∀ name ∈ columns, name ∈ columns') ∧
        (∀ name ∈ stage.map Assignment.target, name ∈ columns') ∧ ∀ name ∈ columns', name ∈ final := by
      rw [hcolumns']
      split
      · exact ⟨hcolumns, hstage, fun _ hn => hn⟩
      · refine ⟨fun _ hn => mem_appendNew.mpr (Or.inl hn), fun _ hn => mem_appendNew.mpr (Or.inr hn), ?_⟩
        exact fun name hn => (mem_appendNew.mp hn).elim (hcolumns name) (hstage name)
    rw [layers, ← hcolumns', List.foldl_cons, ← rows_stage R db partitionBy order (n + 1)
      (hnd stage List.mem_cons_self) (hq ▸ hnext.1) hnext.2.1]
    refine ih (q := .select _ q (n + 1) .empty) (output_columns (output_stageItem _ stage) columns')
      hnext.2.2 ?_ ?_ _
    · exact fun other ho => htargets other (List.mem_cons_of_mem _ ho)
    · exact fun other ho => hnd other (List.mem_cons_of_mem _ ho)

theorem Query.Renders.of_extend {limit : Option Nat} {source : Tree} {as : List Assignment}
    {partitionBy : List Text} {order : List OrderTerm}
    (hc : ExtendChecks source.schema as partitionBy order) (h : Renders.{u} limit source q) (n : Nat) :
    Renders.{u} limit (.extend source as partitionBy order)
      (layers (windowOf partitionBy order)
        (Text.appendNew source.schema (as.map Assignment.target)) (stagesOf source.schema as)
        source.schema q n) := by
  obtain ⟨stages, hstages⟩ := partition_of_scoped hc.inScope
  have hperm := partition_perm hstages
  have hof : stagesOf source.schema as = stages := by rw [stagesOf, hstages]
  rw [hof]
  -- a batch is not empty, so there is a SELECT that puts the columns in order
  have hne : stages ≠ [] := by
    intro hnil
    rw [hnil] at hperm
    exact hc.nonempty (List.nil_perm.mp hperm)
  refine ⟨output_layers hne n, fun R hR db => ?_⟩
  rw [rows_layers R db h.output ?_ ?_ (partition_nodup_targets hstages) n, h.rows R hR db]
  · -- here stages become the batch again, run in order
    exact (rowStore R.meaning partitionBy order).foldl_stage_partition hstages
      (fun a ha hp => hc.unassigned _ hp (List.mem_map.mpr ⟨a, ha, rfl⟩)) _
  · exact fun name hn => mem_appendNew.mpr (Or.inl hn)
  · intro stage hs name hn
    obtain ⟨a, ha, rfl⟩ := List.mem_map.mp hn
    have hmem : a ∈ as := hperm.subset (List.mem_flatten.mpr ⟨stage, hs, ha⟩)
    exact mem_appendNew.mpr (Or.inr (List.mem_map.mpr ⟨a, hmem, rfl⟩))

end Stages

/-! ## All operators -/

/-- No node is a handwritten statement or delegated work. -/
def Relational (t : Tree) : Prop :=
  ∀ s ∈ t.subtrees, s.kind ≠ .rawStatement ∧ s.kind ≠ .externalTransform

theorem Relational.input {t c : Tree} (h : Relational t) (hc : c ∈ t.children) : Relational c :=
  (Tree.forall_subtrees_iff.mp h).2 c hc

theorem Relational.root {t : Tree} (h : Relational t) :
    t.kind ≠ .rawStatement ∧ t.kind ≠ .externalTransform :=
  (Tree.forall_subtrees_iff.mp h).1

/-- **Compiling keeps the meaning of a tree.** -/
theorem Compiled.renders {d : Dialect} {limit : Option Nat} {t : Tree} {q : Query} {s s' : Progress}
    (h : Compiled d limit t s q s') (hv : t.Valid) (hr : Relational t) :
    s.Grows s' ∧ Query.Renders.{u} limit t q := by
  induction h with
  | table t s => exact ⟨Progress.Grows.refl s, .of_table limit t⟩
  | extend _ ih =>
    obtain ⟨hgrows, hrenders⟩ := ih (hv.input List.mem_cons_self) (hr.input List.mem_cons_self)
    refine ⟨hgrows.trans ⟨?_, rfl⟩, hrenders.of_extend hv.checked _⟩
    exact Nat.le_add_right _ _
  | @project source groupBy aggregates s s₁ q _ ih =>
    obtain ⟨hgrows, hrenders⟩ := ih (hv.input List.mem_cons_self) (hr.input List.mem_cons_self)
    exact ⟨hgrows.trans s₁.grows_next, hrenders.of_project hv.checked.nonempty _⟩
  | naturalJoin _ _ ihl ihr =>
    obtain ⟨hgl, hrl⟩ := ihl (hv.input List.mem_cons_self) (hr.input List.mem_cons_self)
    obtain ⟨hgr, hrr⟩ := ihr (hv.input (List.mem_cons_of_mem _ List.mem_cons_self))
      (hr.input (List.mem_cons_of_mem _ List.mem_cons_self))
    -- the right side is numbered after the left one, so the aliases differ
    obtain ⟨hgrows, hne⟩ := hgl.sides hgr
    exact ⟨hgrows, .of_naturalJoin hrl hrr hne rfl⟩
  | thetaJoin _ _ hcolumns ihl ihr =>
    obtain ⟨hgl, hrl⟩ := ihl (hv.input List.mem_cons_self) (hr.input List.mem_cons_self)
    obtain ⟨hgr, hrr⟩ := ihr (hv.input (List.mem_cons_of_mem _ List.mem_cons_self))
      (hr.input (List.mem_cons_of_mem _ List.mem_cons_self))
    obtain ⟨hgrows, hne⟩ := hgl.sides hgr
    exact ⟨hgrows, .of_thetaJoin hv.checked hrl hrr hne hcolumns⟩
  | @selectRows source predicate s s₁ q _ ih =>
    obtain ⟨hgrows, hrenders⟩ := ih (hv.input List.mem_cons_self) (hr.input List.mem_cons_self)
    exact ⟨hgrows.trans s₁.grows_next, hrenders.of_selectRows _⟩
  | @ordered source terms n columns s s₁ q _ ih =>
    -- the ordering below has no SELECT of its own, so the hypothesis is about what it orders
    have hchild := hv.input (c := source.orderBy terms n) List.mem_cons_self
    have hrel := hr.input (c := source.orderBy terms n) List.mem_cons_self
    obtain ⟨hgrows, hrenders⟩ := ih (hchild.input List.mem_cons_self) (hrel.input List.mem_cons_self)
    exact ⟨hgrows.trans s₁.grows_next, hrenders.of_ordered _⟩
  | @selectColumns source columns s s₁ q _ _ ih =>
    obtain ⟨hgrows, hrenders⟩ := ih (hv.input List.mem_cons_self) (hr.input List.mem_cons_self)
    exact ⟨hgrows.trans s₁.grows_next, hrenders.of_selectColumns _⟩
  | @renameColumns source mapping s s₁ q _ ih =>
    obtain ⟨hgrows, hrenders⟩ := ih (hv.input List.mem_cons_self) (hr.input List.mem_cons_self)
    exact ⟨hgrows.trans s₁.grows_next, hrenders.of_renameColumns _⟩
  | @orderBy source terms n s s₁ q _ ih =>
    obtain ⟨hgrows, hrenders⟩ := ih (hv.input List.mem_cons_self) (hr.input List.mem_cons_self)
    exact ⟨hgrows.trans s₁.grows_next, hrenders.of_orderBy _⟩
  | rawStatement _ _ => exact absurd rfl hr.root.1
  | externalTransform _ _ => exact absurd rfl hr.root.2

/--
**The statement of a tree means what the tree means.**

A built tree of relational operators becomes a single statement on every dialect that can write it. The
statement is the printed form of a query that has the columns of the tree in order, and on every
database, with tables cut to the limit for sources, it has the rows of the tree. This holds however
texts are read, as long as join keys that count as equal are the same value.
-/
theorem plan_rows {t : Tree} (h : t.Built) (hr : Relational t) {d : Dialect}
    {sourceLimit : Option Nat} {p : Plan} (hp : plan d sourceLimit t = .ok p) :
    p.steps d = [.statement (p.root.print d 0)] ∧ p.root.output = t.schema ∧
      ∀ {V : Type u} [DecidableEq V] (R : Reading V), R.Exact → ∀ db : Database V,
        p.root.rows R db = t.rows R.meaning (db.cut sourceLimit) := by
  obtain ⟨⟨root, progress⟩, hrun, hplan⟩ := bind_ok_iff.mp hp
  rw [pure_ok_iff] at hplan
  obtain ⟨hgrows, hrenders⟩ := (compiled_of_run hrun).renders.{u} h.valid hr
  subst hplan
  refine ⟨?_, hrenders.output, hrenders.rows⟩
  rw [Plan.steps, hgrows.stages, Query.statement_eq]
  rfl

/-- The full join of `l(i, x)` with `r(i, y)`, where `z` is `x` and `w` is `z`. -/
def stagedPair : Tree :=
  .extend
    (.naturalJoin (.table ⟨[108], [[105], [120]], none⟩) (.table ⟨[114], [[105], [121]], none⟩) .full)
    [⟨[122], .var [120]⟩, ⟨[119], .var [122]⟩] [] []

/-- The columns `w` and `i` of at most five rows, with the largest `z` first. -/
def chosenPair : Tree :=
  .selectColumns (.orderBy stagedPair [⟨[122], true⟩] (some 5)) [[119], [105]]

theorem built_chosenPair : chosenPair.Built := by
  have hl : Pipeline.table [108] [[105], [120]] none =
      .ok (.table ⟨[108], [[105], [120]], none⟩) := rfl
  have hr : Pipeline.table [114] [[105], [121]] none =
      .ok (.table ⟨[114], [[105], [121]], none⟩) := rfl
  have hj : Pipeline.naturalJoin (.table ⟨[108], [[105], [120]], none⟩)
      (.table ⟨[114], [[105], [121]], none⟩) .full =
        .ok (.naturalJoin (.table ⟨[108], [[105], [120]], none⟩)
          (.table ⟨[114], [[105], [121]], none⟩) .full) := rfl
  have he : Pipeline.extend (.naturalJoin (.table ⟨[108], [[105], [120]], none⟩)
      (.table ⟨[114], [[105], [121]], none⟩) .full)
      [⟨[122], .var [120]⟩, ⟨[119], .var [122]⟩] [] [] = .ok stagedPair := by cbv
  have ho : Pipeline.orderBy stagedPair [⟨[122], true⟩] (some 5) =
      .ok (.orderBy stagedPair [⟨[122], true⟩] (some 5)) := rfl
  have hs : Pipeline.selectColumns (.orderBy stagedPair [⟨[122], true⟩] (some 5)) [[119], [105]] =
      .ok chosenPair := rfl
  exact .selectColumns (.orderBy (.extend (.naturalJoin (.table hl) (.table hr) hj) he) ho) hs

/-- The query of `chosenPair` over the first ten rows of each table. -/
def chosenQuery : Query :=
  .select [.plain [119], .plain [105]]
    (.select [.plain [105], .plain [120], .plain [121], .plain [122],
        ⟨.computed [.ref (.bare [122])] none, some [119]⟩]
      (.select [.plain [105], .plain [120], .plain [121],
          ⟨.computed [.ref (.bare [120])] none, some [122]⟩]
        (.join [⟨.coalesce (.through 1 [105]) (.through 2 [105]), some [105]⟩,
            ⟨.column (.through 1 [120]), none⟩, ⟨.column (.through 2 [121]), none⟩] .full
          (.read [[105], [120]] none [108] (some 10)) 1
          (.read [[105], [121]] none [114] (some 10)) 2 (.keys [[105]]))
        3 .empty)
      4 .empty)
    5 ⟨none, [], [⟨[122], true⟩], some 5⟩

/-- Numbers with zero for null, where a text stands for the sum of its gaps. -/
def sumReading : Reading Nat where
  null := 0
  holds a := a != 0
  equal a b := a == b && a != 0
  precedes descending a b := if descending then b ≤ a else a ≤ b
  raw _ _ rows := rows
  work _ _ rows := rows
  scalar _ values := values.sum
  window _ _ rows _ := (rows.map fun r => r.values.sum).sum
  aggregate _ rows := (rows.map List.sum).sum
  template _ rows := rows

theorem plan_rows_chosenPair :
    chosenPair.Built ∧ Relational chosenPair ∧
      plan .generic (some 10) chosenPair = .ok ⟨[], chosenQuery⟩ ∧ sumReading.Exact ∧
      chosenQuery.output = [[119], [105]] ∧
      ∀ db, chosenQuery.rows sumReading db =
        chosenPair.rows sumReading.meaning (db.cut (some 10)) := by
  have hrelational : Relational chosenPair := by
    unfold Relational
    decide
  have hplan : plan .generic (some 10) chosenPair = .ok ⟨[], chosenQuery⟩ := by cbv
  have hexact : sumReading.Exact := by
    intro a b h
    exact eq_of_beq (Bool.and_eq_true_iff.mp h).1
  obtain ⟨-, houtput, hrows⟩ := plan_rows built_chosenPair hrelational hplan
  exact ⟨built_chosenPair, hrelational, hplan, hexact, houtput, hrows sumReading hexact⟩

end SqlPipeline.Sql
