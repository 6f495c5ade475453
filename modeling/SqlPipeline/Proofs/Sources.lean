import SqlPipeline.Proofs.Delegation

/-!
# What the statements of a tree read

A tree becomes one statement for each piece of delegated work and one for itself.
Between them they read every table of the tree, each as often as it stands in the
tree: a statement stops at the outgoing tables, and what lies below those is read by
an earlier statement.

Preparing a tree cuts columns and drops operators, but it loses nothing that is read.
The tables stay in their places with fewer columns, and so does delegated work, on a
narrowed input.
-/

namespace SqlPipeline

/-! ## Lists that are related place by place -/

theorem exists_related_of_mem {α β : Type} {R : α → β → Prop} {xs : List α} {ys : List β}
    (h : List.Forall₂ R xs ys) {y : β} (hy : y ∈ ys) : ∃ x ∈ xs, R x y := by
  induction h with
  | nil => cases hy
  | cons hxy _ ih =>
    rcases List.mem_cons.mp hy with rfl | hy
    · exact ⟨_, List.mem_cons_self, hxy⟩
    · obtain ⟨x, hx, hr⟩ := ih hy
      exact ⟨x, List.mem_cons_of_mem _ hx, hr⟩

theorem map_eq_map_of_forall₂ {α β γ : Type} {f : α → γ} {g : β → γ} {xs : List α} {ys : List β}
    (h : List.Forall₂ (fun x y => f x = g y) xs ys) : xs.map f = ys.map g := by
  rw [← List.forall₂_eq_eq_eq]
  exact List.forall₂_map_left_iff.mpr (List.forall₂_map_right_iff.mpr h)

/-! ## What is read -/

/-- The table of the database, if the relation is one. -/
def Relation.table? : Relation → Option Table
  | table t => some t
  | outgoing _ => none

/-- The same work on another input. -/
def Delegation.SameWork (work other : Delegation) : Prop :=
  ∃ source, other = { work with source := source }

namespace Tree

variable {t T L c : Tree} {options : GenerateOptions}

/-- What the statements of a tree read, one statement after the other. -/
def readings (t : Tree) : List Relation :=
  t.delegations.flatMap (fun work => work.source.relations) ++ t.relations

/-- The tables of the database that the statements of a tree read, as often as they read them. -/
def readTables (t : Tree) : List Table := t.readings.filterMap Relation.table?

/-! ## Every table is read -/

/-- An operator on one input reads what its input reads. -/
theorem readTables_over (h : c.readTables.Perm c.tables) (hd : t.delegation? = none)
    (hc : t.children = [c]) (hr : t.relations = c.relations) (ht : t.tables = c.tables) :
    t.readTables.Perm t.tables := by
  have hsame : t.readTables = c.readTables := by
    rw [readTables, readings, delegations_eq hd, hc, hr]
    simp [readTables, readings]
  rw [hsame, ht]
  exact h

/-- The statements of the sides of a join come one after the other, and its own reads both. -/
theorem readTables_join {l r : Tree} (hd : t.delegation? = none) (hc : t.children = [l, r])
    (hr : t.relations = l.relations ++ r.relations) :
    t.readTables.Perm (l.readTables ++ r.readTables) := by
  have hreadings : t.readings.Perm (l.readings ++ r.readings) := by
    rw [readings, delegations_eq hd, hc, hr]
    simp only [readings, List.flatMap_cons, List.flatMap_nil, List.append_nil, List.flatMap_append,
      List.append_assoc]
    refine List.Perm.append_left _ ?_
    rw [← List.append_assoc, ← List.append_assoc]
    exact List.perm_append_comm.append_right _
  rw [readTables, readTables, readTables, ← List.filterMap_append]
  exact hreadings.filterMap _

/-- **The statements of a tree read its tables**, each as often as it stands in the tree. -/
theorem readTables_perm (t : Tree) : t.readTables.Perm t.tables := by
  induction t with
  | table t =>
    rw [readTables, readings, delegations_eq rfl]
    exact .refl _
  | externalTransform source used produced transform incoming outgoing temporary ih =>
    -- the rows below the work are read by the statement that makes its incoming table
    have hsame : (externalTransform source used produced transform incoming outgoing
        temporary).readTables = source.readTables := by
      rw [readTables, readings, delegations_of_delegation rfl]
      simp [readTables, readings, relations, Relation.table?]
    exact hsame ▸ ih
  | naturalJoin left right type ihl ihr | thetaJoin left right predicate type suffixes collisions ihl ihr =>
    exact (readTables_join rfl rfl rfl).trans (ihl.append ihr)
  | _ =>
    rename_i ih
    exact readTables_over ih rfl rfl rfl rfl

/-! ## Preparing keeps what is read -/

/-- **What limiting does**: nothing, or another limit on the ordering at the root, or an ordering without
terms on top. -/
theorem limitTo_cases {n : Option Nat} (h : t.limitTo n = .ok L) :
    L = t ∨ (∃ source terms m k, t = orderBy source terms m ∧ L = orderBy source terms k) ∨
      ∃ k, L = orderBy t [] k := by
  unfold limitTo at h
  split at h
  · exact Or.inl (Except.ok.inj h).symm
  · exact Or.inr (Or.inl ⟨_, _, _, _, rfl, (Pipeline.orderBy_ok_iff.mp h).2⟩)
  · exact Or.inr (Or.inl ⟨_, _, _, _, rfl, (Pipeline.orderBy_ok_iff.mp h).2⟩)
  · exact Or.inr (Or.inr ⟨_, (Pipeline.orderBy_ok_iff.mp h).2⟩)

theorem limitTo_tables {n : Option Nat} (h : t.limitTo n = .ok L) : L.tables = t.tables := by
  rcases limitTo_cases h with rfl | ⟨source, terms, m, k, rfl, rfl⟩ | ⟨k, rfl⟩
  · rfl
  · rfl
  · rfl

theorem limitTo_delegations {n : Option Nat} (h : t.limitTo n = .ok L) :
    L.delegations = t.delegations := by
  rcases limitTo_cases h with rfl | ⟨source, terms, m, k, rfl, rfl⟩ | ⟨k, rfl⟩
  · rfl
  · rw [delegations_eq rfl, delegations_eq rfl]
    rfl
  · rw [delegations_eq rfl]
    simp [children]

theorem delegations_externalTransform (source : Tree) (used produced : List Text)
    (transform : Transform) (incoming outgoing : Text) (temporary : Bool) :
    (externalTransform source used produced transform incoming outgoing temporary).delegations =
      source.delegations ++ [⟨source, produced, transform, incoming, outgoing, temporary⟩] :=
  delegations_of_delegation (t := externalTransform source used produced transform incoming outgoing
    temporary) rfl

theorem delegations_projected (t : Tree) (columns : List Text) :
    (t.projected columns).delegations = t.delegations := by
  unfold projected
  split
  · rfl
  · rw [delegations_eq rfl]
    simp [children]

/-- **Narrowing keeps delegated work** and gives it a narrowed input. -/
theorem delegations_narrowed (t : Tree) (wanted : List Text) :
    List.Forall₂ Delegation.SameWork t.delegations (t.narrowed wanted).delegations := by
  -- an operator that delegates nothing has the work of the tree below it
  have hover : ∀ {s c s' c' : Tree}, s.delegation? = none → s'.delegation? = none →
      s.children = [c] → s'.children = [c'] →
      List.Forall₂ Delegation.SameWork c.delegations c'.delegations →
      List.Forall₂ Delegation.SameWork s.delegations s'.delegations := by
    intro s c s' c' hd hd' hc hc' h
    rw [delegations_eq hd, delegations_eq hd', hc, hc']
    simpa using h
  induction t generalizing wanted with
  | table t =>
    rw [narrowed, delegations_eq rfl, delegations_eq rfl]
    exact .nil
  | extend source as partitionBy order ih =>
    simp only [narrowed]
    split
    · rw [delegations_eq rfl]
      simpa [children] using ih _
    · exact hover rfl rfl rfl rfl (ih _)
  | naturalJoin left right type ihl ihr | thetaJoin left right predicate type suffixes collisions ihl ihr =>
    rw [narrowed, delegations_eq rfl, delegations_eq rfl]
    simpa [children] using List.rel_append (ihl _) (ihr _)
  | selectColumns source columns ih =>
    simp only [narrowed]
    split
    · rw [delegations_eq rfl]
      simpa [children] using ih _
    · exact hover rfl rfl rfl rfl (ih _)
  | renameColumns source mapping ih =>
    simp only [narrowed]
    split
    · rw [delegations_eq rfl]
      simpa [children] using ih _
    · exact hover rfl rfl rfl rfl (ih _)
  | externalTransform source used produced transform incoming outgoing temporary ih =>
    rw [narrowed, delegations_externalTransform, delegations_externalTransform]
    -- only the columns that come back can shrink, and they are not part of the work
    exact List.rel_append (ih _) (.cons ⟨_, rfl⟩ .nil)
  | project source groupBy aggregates ih | selectRows source predicate ih | orderBy source terms limit ih
  | rawStatement source used produced template ih =>
    exact hover rfl rfl rfl rfl (ih _)

/-- The prepared tree reads the tables of the tree, with some of their columns. -/
theorem prepare_tables (h : t.Valid) (hT : t.prepare options = .ok T) :
    List.Forall₂ Table.Exposes t.tables T.tables := by
  obtain ⟨-, L, hL, hvalid, -, rfl⟩ := (prepare_ok_iff h).mp hT
  rw [tables_projected, ← limitTo_tables hL]
  exact tables_narrowed hvalid _

/-- The prepared tree delegates the work of the tree. -/
theorem prepare_delegations (h : t.Valid) (hT : t.prepare options = .ok T) :
    List.Forall₂ Delegation.SameWork t.delegations T.delegations := by
  obtain ⟨-, L, hL, -, -, rfl⟩ := (prepare_ok_iff h).mp hT
  rw [delegations_projected, ← limitTo_delegations hL]
  exact delegations_narrowed L _

/-! ## From the tree to its steps -/

/-- **What steps are made of**: the prepared tree, a compiled query for each piece of its work, and one for
the tree itself. -/
theorem generate_parts {d : Dialect} {steps : List Step} (hs : t.generate d options = .ok steps) :
    ∃ T root progress, t.prepare options = .ok T ∧
      (Sql.compile d options.sourceLimit T).run ⟨0, []⟩ = .ok (root, progress) ∧
      List.Forall₂ (Sql.Stages d options.sourceLimit) T.delegations progress.stages ∧
      steps = Delegation.steps d T.delegations (progress.stages.map Sql.Stage.query) ++
        [.statement (root.print d 0)] := by
  obtain ⟨T, hT, -⟩ := bind_ok_iff.mp hs
  obtain ⟨root, progress, hrun, rfl⟩ := (generate_ok_iff hT).mp hs
  obtain ⟨-, made, hmade, hstaged⟩ := Sql.compile_emits hrun
  obtain rfl : made = progress.stages := hmade.symm
  refine ⟨T, root, progress, hT, hrun, hstaged, ?_⟩
  rw [Sql.Plan.steps, Sql.steps_of_stages hstaged, Sql.Query.statement_eq]

end Tree

end SqlPipeline
