import SqlPipeline.Proofs.NarrowingMeaning

/-!
# The prepared tree

Steps are never made from the tree that is given. A limit on the rows is folded into
it and then it is narrowed, and what comes out is compiled. On a tree that can be
built both go through whenever the output columns are accepted, and the prepared
tree is valid again. So what generating does is what compiling does with a valid
tree, from no subquery and no stage.
-/

namespace SqlPipeline.Tree

variable {t T : Tree} {options : GenerateOptions} {d : Dialect}

/-- **When a valid tree can be prepared**, and what comes out: its limited form, narrowed. -/
theorem prepare_ok_iff (h : t.Valid) :
    t.prepare options = .ok T ↔
      t.Accepts options.outputColumns ∧
        ∃ L, t.limitTo options.outputLimit = .ok L ∧ L.Valid ∧ L.schema = t.schema ∧
          T = (L.narrowed (options.outputColumns.getD t.schema)).projected
            (options.outputColumns.getD t.schema) := by
  obtain ⟨L, hL, hvalid, hschema, -⟩ := limitTo_rows.{0} h options.outputLimit
  have hprepare : t.prepare options = L.narrow options.outputColumns := by
    rw [prepare, hL]
    rfl
  -- the limit leaves the schema alone, so it accepts the same lists
  have haccepts : L.Accepts options.outputColumns ↔ t.Accepts options.outputColumns := by
    rw [Accepts, Accepts, hschema]
  rw [hprepare, narrow_ok_iff hvalid, haccepts, hschema]
  constructor
  · intro hT
    exact ⟨hT.1, L, hL, hvalid, hschema, hT.2⟩
  · intro hT
    obtain ⟨ha, L', hL', -, -, hT'⟩ := hT
    rw [hL] at hL'
    obtain rfl := Except.ok.inj hL'
    exact ⟨ha, hT'⟩

theorem prepare_valid (h : t.Valid) (hT : t.prepare options = .ok T) : T.Valid := by
  obtain ⟨L, hL, hvalid, -, -⟩ := limitTo_rows.{0} h options.outputLimit
  rw [prepare, hL] at hT
  exact narrow_valid hvalid hT

/-! ## From the prepared tree to steps -/

theorem generate_ok_iff {steps : List Step} (h : t.prepare options = .ok T) :
    t.generate d options = .ok steps ↔
      ∃ root progress, (Sql.compile d options.sourceLimit T).run ⟨0, []⟩ = .ok (root, progress) ∧
        steps = Sql.Plan.steps d ⟨progress.stages, root⟩ := by
  rw [generate_eq h, Sql.plan]
  cases (Sql.compile d options.sourceLimit T).run ⟨0, []⟩ with
  | error e => exact ⟨nofun, fun ⟨_, _, he, _⟩ => nomatch he⟩
  | ok r =>
    obtain ⟨root, progress⟩ := r
    constructor
    · intro hs
      exact ⟨root, progress, rfl, (Except.ok.inj hs).symm⟩
    · intro hs
      obtain ⟨root', progress', hr, hs⟩ := hs
      cases hr
      exact congrArg Except.ok hs.symm

theorem generate_error_iff {e : Error} (h : t.prepare options = .ok T) :
    t.generate d options = .error e ↔
      (Sql.compile d options.sourceLimit T).run ⟨0, []⟩ = .error e := by
  rw [generate_eq h, Sql.plan]
  cases (Sql.compile d options.sourceLimit T).run ⟨0, []⟩ with
  | error e' => exact ⟨fun hs => congrArg Except.error (Except.error.inj hs),
      fun hs => congrArg Except.error (Except.error.inj hs)⟩
  | ok r => exact ⟨nofun, nofun⟩

end SqlPipeline.Tree
