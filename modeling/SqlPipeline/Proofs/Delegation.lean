import Mathlib.Data.List.Chain
import SqlPipeline.Proofs.PlanMeaning
import SqlPipeline.Proofs.Preparation

/-!
# The order of delegated work

A tree that delegates work becomes several statements with calls between them. The
steps are added while the tree is compiled, so their order is the order in which
compiling gets to the nodes. `Tree.delegations` says that order without compiling:
inputs come before the node they belong to, and the left side of a join before the
right one.

What a statement reads is said by `Tree.relations` in the same way. A node of
delegated work is read through its outgoing table, and nothing below it is read by
the same statement. Everything the statement reads of other work was therefore
delegated below it, and that work stands earlier in the order.
-/

namespace SqlPipeline

/-- A node of delegated work, without the columns that it asks for. -/
structure Delegation where
  source : Tree
  produced : List Text
  transform : Transform
  incoming : Text
  outgoing : Text
  temporary : Bool

/-- What a statement reads from: a table of the database, or the outgoing table of delegated work. -/
inductive Relation where
  | table (table : Table)
  | outgoing (work : Delegation)

namespace Tree

/-- The delegated work at the root. -/
def delegation? : Tree → Option Delegation
  | externalTransform source _ produced transform incoming outgoing temporary =>
    some ⟨source, produced, transform, incoming, outgoing, temporary⟩
  | _ => none

/-- The nodes of a tree, inputs before the node they belong to and left before right. -/
def postOrder (tree : Tree) : List Tree :=
  (match tree with
    | table _ => []
    | naturalJoin left right _ | thetaJoin left right _ _ _ _ => left.postOrder ++ right.postOrder
    | extend source .. | project source .. | selectRows source _ | selectColumns source _
    | renameColumns source _ | orderBy source .. | rawStatement source ..
    | externalTransform source .. => source.postOrder) ++ [tree]

/-- The delegated work of a tree, what comes first in the tree first. -/
def delegations (tree : Tree) : List Delegation := tree.postOrder.filterMap delegation?

/-- What the statement of a tree reads from, left to right. -/
def relations : Tree → List Relation
  | table t => [.table t]
  | externalTransform source _ produced transform incoming outgoing temporary =>
    [.outgoing ⟨source, produced, transform, incoming, outgoing, temporary⟩]
  | naturalJoin left right _ | thetaJoin left right _ _ _ _ => left.relations ++ right.relations
  | extend source .. | project source .. | selectRows source _ | selectColumns source _
  | renameColumns source _ | orderBy source .. | rawStatement source .. => source.relations

end Tree

/-- The SELECT that reads a relation; only tables of the database are cut. -/
def Relation.read (limit : Option Nat) : Relation → Sql.Query
  | table t => .read t.columns t.qualifier t.name limit
  | outgoing work => .read work.produced none work.outgoing none

/-- The SELECTs from tables inside a query, left to right. -/
def Sql.Query.reads : Sql.Query → List Sql.Query
  | read columns qualifier table limit => [read columns qualifier table limit]
  | select _ source _ _ | template _ _ source _ => source.reads
  | join _ _ left _ right _ _ => left.reads ++ right.reads

/-- Whether a step calls delegated work. -/
def Step.isTransform : Step → Bool
  | statement _ => false
  | transform .. => true

namespace Delegation

/-- The step that makes the incoming table of the rows of a query. -/
def create (d : Dialect) (work : Delegation) (query : Sql.Query) : Step :=
  .statement (Creation.statement d ⟨work.incoming, work.temporary && d.temporaryTables⟩
    (query.print d 0))

/-- The step that calls the work. -/
def call (work : Delegation) : Step := .transform work.incoming work.outgoing work.transform

/-- The steps for pieces of work one after the other, each with the query that it works on. -/
def steps (d : Dialect) (works : List Delegation) (queries : List Sql.Query) : List Step :=
  (works.zip queries).flatMap fun p => [p.1.create d p.2, p.1.call]

end Delegation

/-! ## Delegated work below a node -/

namespace Tree

variable {t c c' : Tree} {work other : Delegation}

/-- The work below an operator that delegates nothing itself is that of its inputs. -/
theorem delegations_eq (h : t.delegation? = none) :
    t.delegations = t.children.flatMap delegations := by
  unfold delegations
  cases t <;> simp_all [postOrder, children, delegation?]

theorem delegations_of_delegation (h : t.delegation? = some work) :
    t.delegations = work.source.delegations ++ [work] := by
  cases t with
  | externalTransform source used produced transform incoming outgoing temporary =>
    obtain rfl := Option.some.inj h
    simp [delegations, postOrder, delegation?]
  | _ => cases h

/-- What a statement reads of delegated work is work of its tree. -/
theorem mem_delegations_of_mem_relations (h : Relation.outgoing work ∈ t.relations) :
    work ∈ t.delegations := by
  induction t with
  | table t => simp [relations] at h
  | externalTransform source used produced transform incoming outgoing temporary =>
    -- a statement reads the outgoing table and nothing below the work
    rw [delegations_of_delegation rfl]
    simp only [relations, List.mem_singleton, Relation.outgoing.injEq] at h
    exact List.mem_append_right _ (List.mem_singleton.mpr h)
  | naturalJoin left right type ihl ihr | thetaJoin left right predicate type suffixes collisions ihl ihr =>
    rw [delegations_eq rfl]
    rcases List.mem_append.mp h with h | h
    · simpa [children] using Or.inl (ihl h)
    · simpa [children] using Or.inr (ihr h)
  | _ =>
    rename_i ih
    rw [delegations_eq rfl]
    simpa [children] using ih h

end Tree

/-- Whatever stands in the list has the work below it right before it. -/
def Delegation.Ordered (works : List Delegation) : Prop :=
  ∀ i work, works[i]? = some work → work.source.delegations <:+ works.take i

namespace Delegation.Ordered

theorem append {works others : List Delegation} (h : Ordered works) (h' : Ordered others) :
    Ordered (works ++ others) := by
  intro i work hi
  by_cases hlt : i < works.length
  · rw [List.getElem?_append_left hlt] at hi
    rw [List.take_append_of_le_length (Nat.le_of_lt hlt)]
    exact h i work hi
  · rw [List.getElem?_append_right (Nat.le_of_not_lt hlt)] at hi
    rw [List.take_append, List.take_of_length_le (Nat.le_of_not_lt hlt)]
    exact (h' _ work hi).trans (List.suffix_append _ _)

theorem flatMap {trees : List Tree} (h : ∀ c ∈ trees, Ordered c.delegations) :
    Ordered (trees.flatMap Tree.delegations) := by
  induction trees with
  | nil => intro i work hi; simp at hi
  | cons c rest ih =>
    rw [List.flatMap_cons]
    exact (h c List.mem_cons_self).append (ih fun c hc => h c (List.mem_cons_of_mem _ hc))

/-- The work at a root comes right after all the work below it. -/
theorem root {work : Delegation} (h : Ordered work.source.delegations) :
    Ordered (work.source.delegations ++ [work]) := by
  intro i other hi
  by_cases hlt : i < work.source.delegations.length
  · rw [List.getElem?_append_left hlt] at hi
    rw [List.take_append_of_le_length (Nat.le_of_lt hlt)]
    exact h i other hi
  · obtain ⟨hi, rfl⟩ : i = work.source.delegations.length ∧ other = work := by
      rw [List.getElem?_append_right (Nat.le_of_not_lt hlt)] at hi
      obtain ⟨hzero, hother⟩ := List.getElem?_eq_some_iff.mp hi
      simp only [List.length_singleton, List.getElem_singleton] at hzero hother
      exact ⟨by omega, hother.symm⟩
    have htake : (other.source.delegations ++ [other]).take i = other.source.delegations := by
      rw [hi, List.take_left]
    exact ⟨[], htake.symm⟩

end Delegation.Ordered

/-- **Work comes after the work below it**, in every tree. -/
theorem Tree.ordered_delegations (t : Tree) : Delegation.Ordered t.delegations := by
  induction t with
  | externalTransform source used produced transform incoming outgoing temporary ih =>
    rw [delegations_of_delegation rfl]
    exact .root ih
  | naturalJoin left right type ihl ihr | thetaJoin left right predicate type suffixes collisions ihl ihr =>
    rw [delegations_eq rfl]
    exact .flatMap (by simpa [children] using ⟨ihl, ihr⟩)
  | table t =>
    rw [delegations_eq rfl]
    exact .flatMap (by simp [children])
  | _ =>
    rename_i ih
    rw [delegations_eq rfl]
    exact .flatMap (by simpa [children] using ih)

/-! ## Compiling -/

namespace Sql

/-- Compiling may give this query for the tree, depending on what was compiled before it. -/
def Compiles (d : Dialect) (limit : Option Nat) (t : Tree) (q : Query) : Prop :=
  ∃ s s', (compile d limit t).run s = .ok (q, s')

/-- The stage makes the incoming table of the work from the rows below it and calls the work. -/
structure Stages (d : Dialect) (limit : Option Nat) (work : Delegation) (stage : Stage) : Prop where
  compiled : Compiles d limit work.source stage.query
  creation : stage.creation = ⟨work.incoming, work.temporary && d.temporaryTables⟩
  outgoing : stage.outgoing = work.outgoing
  transform : stage.transform = work.transform

/-- The query reads what the statement of the tree reads from, and compiling has added one stage for each
piece of delegated work. -/
structure Emits (d : Dialect) (limit : Option Nat) (t : Tree) (q : Query) (s s' : Progress) : Prop where
  reads : q.reads = t.relations.map (Relation.read limit)
  stages : ∃ made, s'.stages = s.stages ++ made ∧ List.Forall₂ (Stages d limit) t.delegations made

section Compile

variable {d : Dialect} {limit : Option Nat} {t c l r : Tree} {q q' : Query} {s s₁ s₂ s' : Progress}

/-- An operator with one input reads through a SELECT on top of it and adds nothing. -/
theorem Emits.over (h : Emits d limit c q s s₁) (hq : q'.reads = q.reads)
    (hs : s'.stages = s₁.stages) (hd : t.delegation? = none) (hc : t.children = [c])
    (hr : t.relations = c.relations) : Emits d limit t q' s s' := by
  refine ⟨by rw [hq, h.reads, hr], ?_⟩
  obtain ⟨made, hmade, hstaged⟩ := h.stages
  refine ⟨made, hs.trans hmade, ?_⟩
  rw [Tree.delegations_eq hd, hc]
  simpa using hstaged

/-- A join reads what its sides read, and the stages of the left side come first. -/
theorem Emits.join (hl : Emits d limit l q s s₁) (hr : Emits d limit r q' s₂ s')
    (hs : s₂.stages = s₁.stages) {items : List Item} {type : JoinType} {n n' m : Nat} {on : Condition}
    (hd : t.delegation? = none) (hc : t.children = [l, r])
    (hrel : t.relations = l.relations ++ r.relations) :
    Emits d limit t (.join items type q n q' n' on) s ⟨m, s'.stages⟩ := by
  refine ⟨by rw [Query.reads, hl.reads, hr.reads, hrel, List.map_append], ?_⟩
  obtain ⟨made, hmade, hstaged⟩ := hl.stages
  obtain ⟨made', hmade', hstaged'⟩ := hr.stages
  refine ⟨made ++ made', ?_, ?_⟩
  · rw [hmade', hs, hmade, List.append_assoc]
  · rw [Tree.delegations_eq hd, hc]
    simpa using List.rel_append hstaged hstaged'

/-- The SELECTs of a batch read what the query under them reads. -/
theorem reads_layers (window : Option Window) (final : List Text) (stages : List (List Assignment))
    (columns : List Text) (q : Query) (n : Nat) :
    (layers window final stages columns q n).reads = q.reads := by
  induction stages generalizing columns q n with
  | nil => rfl
  | cons stage rest ih => rw [layers, ih, Query.reads]

/-- **What compiling a tree adds**: a stage for each piece of its delegated work, in the order of the
tree. -/
theorem compile_emits (h : (compile d limit t).run s = .ok (q, s')) : Emits d limit t q s s' := by
  induction t using compile_induction generalizing s q s' with
  | table t =>
    obtain ⟨rfl, rfl⟩ := run_pure_ok h
    refine ⟨rfl, [], (List.append_nil _).symm, ?_⟩
    rw [Tree.delegations_eq rfl]
    exact .nil
  | extend source as partitionBy order ih =>
    obtain ⟨query, s₁, hsource, rfl, rfl⟩ := compile_extend_ok h
    exact (ih hsource).over (reads_layers _ _ _ _ _ _) rfl rfl rfl rfl
  | project source groupBy aggregates ih =>
    rw [compile] at h
    obtain ⟨items, s₁, hlift, hnext⟩ := run_bind_ok h
    obtain ⟨-, rfl⟩ := run_lift_ok hlift
    obtain ⟨query, s₂, hsource, rfl, rfl⟩ := run_under_ok hnext
    exact (ih hsource).over rfl rfl rfl rfl rfl
  | naturalJoin left right type ihl ihr =>
    rw [compile] at h
    obtain ⟨leftQuery, s₁, rightQuery, s₂, hleft, hright, hrest⟩ := run_sides_ok h
    obtain ⟨rfl, rfl⟩ := run_pure_ok hrest
    exact (ihl hleft).join (ihr hright) rfl rfl rfl rfl
  | thetaJoin left right predicate type suffixes collisions ihl ihr =>
    rw [compile] at h
    obtain ⟨leftQuery, s₁, rightQuery, s₂, hleft, hright, hnext⟩ := run_sides_ok h
    obtain ⟨on, s₃, hlift, hrest⟩ := run_bind_ok hnext
    obtain ⟨-, rfl⟩ := run_lift_ok hlift
    obtain ⟨rfl, rfl⟩ := run_pure_ok hrest
    exact (ihl hleft).join (ihr hright) rfl rfl rfl rfl
  | selectRows source predicate ih =>
    rw [compile] at h
    obtain ⟨query, s₁, hsource, rfl, rfl⟩ := run_under_term_ok h
    exact (ih hsource).over rfl rfl rfl rfl rfl
  | ordered source terms n columns ih =>
    rw [compile] at h
    obtain ⟨query, s₁, hsource, rfl, rfl⟩ := run_under_ok h
    -- the ordering below has no SELECT of its own, but it adds nothing either
    have hordered : Emits d limit (source.orderBy terms n) query s s₁ :=
      (ih hsource).over rfl rfl rfl rfl rfl
    exact hordered.over rfl rfl rfl rfl rfl
  | selectColumns source columns hkind ih =>
    rw [compile_selectColumns d limit hkind] at h
    obtain ⟨query, s₁, hsource, rfl, rfl⟩ := run_under_ok h
    exact (ih hsource).over rfl rfl rfl rfl rfl
  | renameColumns source mapping ih =>
    rw [compile] at h
    obtain ⟨query, s₁, hsource, rfl, rfl⟩ := run_under_ok h
    exact (ih hsource).over rfl rfl rfl rfl rfl
  | orderBy source terms n ih =>
    rw [compile] at h
    obtain ⟨query, s₁, hsource, rfl, rfl⟩ := run_under_ok h
    exact (ih hsource).over rfl rfl rfl rfl rfl
  | rawStatement source used produced template ih =>
    rw [compile] at h
    obtain ⟨query, s₁, hsource, rfl, rfl⟩ := run_under_term_ok h
    exact (ih hsource).over rfl rfl rfl rfl rfl
  | externalTransform source used produced transform incoming outgoing temporary ih =>
    obtain ⟨query, s₁, hsource, rfl, rfl⟩ := compile_externalTransform_ok h
    obtain ⟨made, hmade, hstaged⟩ := (ih hsource).stages
    -- the work of the node comes after all the work below it
    refine ⟨rfl, made ++ [⟨⟨incoming, temporary && d.temporaryTables⟩, query, outgoing, transform⟩],
      ?_, ?_⟩
    · rw [hmade, List.append_assoc]
    · rw [Tree.delegations_of_delegation rfl]
      exact List.rel_append hstaged (.cons ⟨⟨s, s₁, hsource⟩, rfl, rfl, rfl⟩ .nil)

end Compile

/-! ## The list of steps -/

section Steps

variable {d : Dialect} {limit : Option Nat} {works : List Delegation} {stages : List Stage}

/-- The steps of a stage are those of the work that it stages. -/
theorem Stages.steps {work : Delegation} {stage : Stage} (h : Stages d limit work stage) :
    stage.steps d = [work.create d stage.query, work.call] := by
  rw [Stage.steps, Query.statement_eq, h.creation, h.outgoing, h.transform]
  rfl

theorem steps_of_stages (h : List.Forall₂ (Stages d limit) works stages) :
    stages.flatMap (Stage.steps d) = Delegation.steps d works (stages.map Stage.query) := by
  induction h with
  | nil => rfl
  | cons hstage _ ih =>
    rw [List.flatMap_cons, ih, hstage.steps]
    rfl

/-- Statements and calls take turns. -/
theorem isChain_steps (d : Dialect) (works : List Delegation) (queries : List Query) (sql : Text) :
    List.IsChain (fun a b : Step => ¬(a.isTransform ∧ b.isTransform))
      (Delegation.steps d works queries ++ [Step.statement sql]) := by
  unfold Delegation.steps
  induction works.zip queries with
  | nil => exact .singleton _
  | cons p rest ih =>
    -- the steps after a call start with a statement
    have hnext : ∀ step ∈ ((rest.flatMap fun p => [p.1.create d p.2, p.1.call]) ++
        [Step.statement sql]).head?, step.isTransform = false := by
      cases rest with
      | nil => simp [Step.isTransform]
      | cons next others => simp [Delegation.create, Step.isTransform]
    rw [List.flatMap_cons, List.append_assoc]
    refine .cons_cons (by simp [Delegation.create, Step.isTransform]) (ih.cons fun step hstep => ?_)
    simp [hnext step hstep]

theorem filter_steps (d : Dialect) {queries : List Query} (h : queries.length = works.length)
    (sql : Text) :
    (Delegation.steps d works queries ++ [Step.statement sql]).filter Step.isTransform =
      works.map Delegation.call := by
  induction works generalizing queries with
  | nil => rfl
  | cons work rest ih =>
    obtain ⟨query, queries, rfl⟩ := List.exists_cons_of_length_eq_add_one h
    exact congrArg (work.call :: ·) (ih (by simpa using h))

end Steps

end Sql

namespace Tree

/--
**The steps of a tree.**

Let steps come out for a tree, and let `T` be its prepared form. For each piece of delegated work of `T`,
inputs before the node they belong to and left before right, there are two steps: a statement that makes
the incoming table of the query below the work, printed as a query of its own, and the call of the work.
After them comes one statement, for `T` itself. So no two calls follow each other, a statement is last,
and each piece of work is called once. The query of a step reads the tables of the database and the
outgoing tables in the part of the tree that it stands for, and the work behind those is called before.
-/
theorem generate_delegates_in_order {t : Tree} {d : Dialect} {options : GenerateOptions}
    {steps : List Step} (hs : t.generate d options = .ok steps) :
    ∃ T queries root, t.prepare options = .ok T ∧
      List.Forall₂ (fun work q => Sql.Compiles d options.sourceLimit work.source q)
        T.delegations queries ∧
      Sql.Compiles d options.sourceLimit T root ∧
      steps = Delegation.steps d T.delegations queries ++ [.statement (root.print d 0)] ∧
      steps.IsChain (fun a b => ¬(a.isTransform ∧ b.isTransform)) ∧
      steps.getLast? = some (.statement (root.print d 0)) ∧
      steps.filter Step.isTransform = T.delegations.map Delegation.call ∧
      (∀ (i : Nat) (work : Delegation) (q : Sql.Query),
        T.delegations[i]? = some work → queries[i]? = some q →
          q.reads = work.source.relations.map (Relation.read options.sourceLimit) ∧
          ∀ other, Relation.outgoing other ∈ work.source.relations → other ∈ T.delegations.take i) ∧
      root.reads = T.relations.map (Relation.read options.sourceLimit) ∧
      ∀ other, Relation.outgoing other ∈ T.relations → other ∈ T.delegations := by
  obtain ⟨T, hT⟩ : ∃ T, t.prepare options = .ok T := by
    rw [generate] at hs
    obtain ⟨T, hT, -⟩ := bind_ok_iff.mp hs
    exact ⟨T, hT⟩
  obtain ⟨root, progress, hrun, rfl⟩ := (generate_ok_iff hT).mp hs
  -- the run starts without stages, so those it has made are all there are
  obtain ⟨hreads, made, hmade, hstaged⟩ := Sql.compile_emits hrun
  obtain rfl : made = progress.stages := hmade.symm
  have hcompiled : List.Forall₂ (fun work q => Sql.Compiles d options.sourceLimit work.source q)
      T.delegations (progress.stages.map Sql.Stage.query) :=
    List.forall₂_map_right_iff.mpr (hstaged.imp fun _ _ h => h.compiled)
  have hsteps : Sql.Plan.steps d ⟨progress.stages, root⟩ =
      Delegation.steps d T.delegations (progress.stages.map Sql.Stage.query) ++
        [.statement (root.print d 0)] := by
    rw [Sql.Plan.steps, Sql.steps_of_stages hstaged, Sql.Query.statement_eq]
  refine ⟨T, progress.stages.map Sql.Stage.query, root, hT, hcompiled, ⟨_, _, hrun⟩, hsteps,
    ?_, ?_, ?_, ?_, hreads, fun other ho => mem_delegations_of_mem_relations ho⟩
  · rw [hsteps]
    exact Sql.isChain_steps d _ _ _
  · rw [hsteps, List.getLast?_append]
    rfl
  · rw [hsteps]
    exact Sql.filter_steps d hcompiled.length_eq.symm _
  · intro i work q hwork hq
    -- the query of a stage was compiled as well, so what it reads is known in the same way
    obtain ⟨s, s', hrun⟩ : Sql.Compiles d options.sourceLimit work.source q := by
      obtain ⟨hi, rfl⟩ := List.getElem?_eq_some_iff.mp hwork
      obtain ⟨hi', rfl⟩ := List.getElem?_eq_some_iff.mp hq
      exact (List.forall₂_iff_get.mp hcompiled).2 i hi hi'
    refine ⟨(Sql.compile_emits hrun).reads, fun other ho => ?_⟩
    exact (ordered_delegations T i work hwork).subset (mem_delegations_of_mem_relations ho)

/-- Work that is only named. -/
def namedWork (name : Text) : Transform := ⟨name, name, fun _ _ _ => .done⟩

/-- Work `f` on `t(a, b)` from table `i` to table `o`. -/
def workedTable : Tree :=
  .externalTransform (.table ⟨[116], [[97], [98]], none⟩) [[97]] [[97]] (namedWork [102]) [105] [111] true

/-- The rows of `t(a, b)` beside what work `g` makes, from table `j` to table `p`, of the rows of
`workedTable` that have a partner in `t`. -/
def workedTwice : Tree :=
  .naturalJoin (.table ⟨[116], [[97], [98]], none⟩)
    (.externalTransform (.naturalJoin workedTable (.table ⟨[116], [[97], [98]], none⟩) .inner)
      [[97], [98]] [[97], [99]] (namedWork [103]) [106] [112] false) .left

/-- Work on top of a join with other work below it. The second table is made of the first outgoing one,
and the last statement reads only the second. -/
theorem generate_delegates_in_order_workedTwice :
    ∃ steps, workedTwice.generate .generic ⟨none, some 5, none⟩ = .ok steps ∧ steps.length = 5 ∧
      ∃ T queries root, workedTwice.prepare ⟨none, some 5, none⟩ = .ok T ∧
        List.Forall₂ (fun work q => Sql.Compiles .generic (some 5) work.source q)
          T.delegations queries ∧
        Sql.Compiles .generic (some 5) T root ∧
        steps = Delegation.steps .generic T.delegations queries ++
          [.statement (root.print .generic 0)] ∧
        steps.IsChain (fun a b => ¬(a.isTransform ∧ b.isTransform)) ∧
        steps.getLast? = some (.statement (root.print .generic 0)) ∧
        steps.filter Step.isTransform = T.delegations.map Delegation.call ∧
        (∀ (i : Nat) (work : Delegation) (q : Sql.Query),
          T.delegations[i]? = some work → queries[i]? = some q →
            q.reads = work.source.relations.map (Relation.read (some 5)) ∧
            ∀ other, Relation.outgoing other ∈ work.source.relations →
              other ∈ T.delegations.take i) ∧
        root.reads = T.relations.map (Relation.read (some 5)) ∧
        ∀ other, Relation.outgoing other ∈ T.relations → other ∈ T.delegations := by
  obtain ⟨steps, hs, hlength⟩ :
      ∃ steps, workedTwice.generate .generic ⟨none, some 5, none⟩ = .ok steps ∧ steps.length = 5 :=
    ⟨_, by cbv, rfl⟩
  exact ⟨steps, hs, hlength, generate_delegates_in_order hs⟩

end Tree

end SqlPipeline
