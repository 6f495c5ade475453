import SqlPipeline.Proofs.Preparation

/-!
# What compiling asks of a dialect

Compiling can fail for two reasons and no others. A node asks for what the dialect
lacks, or an expression holds a number that cannot be written. `Tree.Demands` and
`Dialect.Lacks` say the first without any compiling, and `Expr.Writable` the second.

Both directions come from one pass over the tree. `Judged` says of a computation what
holds if it succeeds and which errors it may end in. What holds of a whole step of
compiling is put together from its parts, so that each operator says once what it has
looked at on the way to a query and whom to blame if there is none.
-/

namespace SqlPipeline

/-- What the root asks of a dialect. -/
def Tree.Demands : Tree → Capability → Prop
  | .extend _ _ partitionBy order, .windowFunctions => partitionBy ≠ [] ∨ order ≠ []
  | .naturalJoin _ _ type, .joins asked | .thetaJoin _ _ _ type _ _, .joins asked =>
    asked = type ∧ (type = .right ∨ type = .full)
  | .externalTransform _ _ _ _ _ _ temporary, .temporaryTables => temporary = true
  | _, _ => False

/-- What a dialect cannot do. Temporary tables are waived where an ordinary one may stand in. -/
def Dialect.Lacks (d : Dialect) : Capability → Prop
  | .windowFunctions => d.windowFunctions = false
  | .joins _ => d.rightFullJoins = false
  | .temporaryTables => d.temporaryTables = false ∧ d.temporaryFallback = false

/-- The expressions of the root. -/
def Tree.expressions : Tree → List Expr
  | .extend _ assignments _ _ => assignments.map Assignment.expr
  | .project _ _ aggregates => aggregates.map Assignment.expr
  | .thetaJoin _ _ predicate _ _ _ | .selectRows _ predicate => [predicate]
  | .rawStatement _ _ _ template => [template]
  | _ => []

/-- The expression holds a number that is neither a NaN nor an infinity wherever it holds one. -/
def Expr.Writable (e : Expr) : Prop := ∀ x, Piece.const (.float x) ∈ e.pieces → x.isFinite = true

/-- The dialect can do all that the root asks for, and the root can be written. -/
structure Tree.Supported (d : Dialect) (t : Tree) : Prop where
  capable : ∀ c, t.Demands c → ¬d.Lacks c
  writable : ∀ e ∈ t.expressions, e.Writable

/-- The error is about a number of the expression that cannot be written. -/
def Expr.Blamed (e : Expr) (error : Error) : Prop :=
  ∃ x, Piece.const (.float x) ∈ e.pieces ∧ x.isFinite = false ∧ error = .nonFiniteNumber x

/-- The error is about the root: it names the kind of the node and what the dialect lacks, or a number
in one of its expressions. -/
inductive Tree.Blamed (d : Dialect) (t : Tree) : Error → Prop where
  | lacking {c : Capability} (demands : t.Demands c) (lacks : d.Lacks c) :
      Tree.Blamed d t (.unsupported (.operator t.kind) c d.name)
  | unwritable {e : Expr} {error : Error} (expression : e ∈ t.expressions) (blamed : e.Blamed error) :
      Tree.Blamed d t error

/-- What a dialect supports is not to blame. -/
theorem Tree.Supported.not_blamed {d : Dialect} {t : Tree} {error : Error} (h : t.Supported d) :
    ¬t.Blamed d error := by
  intro hb
  cases hb with
  | lacking demands lacks => exact h.capable _ demands lacks
  | unwritable expression blamed =>
    obtain ⟨x, hx, hfinite, -⟩ := blamed
    rw [h.writable _ expression x hx] at hfinite
    cases hfinite

/-! ## Success and failure of a computation -/

namespace Sql

/-- What is known when the computation succeeds, and of the error when it does not. -/
structure Judged {α : Type} (x : Except Error α) (known : Prop) (blamed : Error → Prop) : Prop where
  ok : ∀ {a}, x = .ok a → known
  error : ∀ {e}, x = .error e → blamed e

namespace Judged

variable {α β : Type} {known good : Prop} {blamed : Error → Prop} {s : Progress}

theorem of_ok {a : α} (h : good) : Judged (.ok a) good blamed := ⟨fun _ => h, nofun⟩

theorem of_error {e : Error} (h : blamed e) : Judged (.error e : Except Error α) good blamed :=
  ⟨nofun, fun he => Except.error.inj he ▸ h⟩

/-- What is known of the first part may be used for the rest. -/
theorem bind {x : Except Error α} {next : α → Except Error β} (hx : Judged x known blamed)
    (hnext : known → ∀ a, Judged (next a) good blamed) : Judged (x >>= next) good blamed := by
  cases x with
  | error e => exact .of_error (hx.error rfl)
  | ok a => exact hnext (hx.ok rfl) a

/-- Errors may be blamed on more. -/
theorem widen {x : Except Error α} (h : Judged x good blamed) (blamed' : Error → Prop)
    (hb : ∀ e, blamed e → blamed' e) : Judged x good blamed' :=
  ⟨h.ok, fun he => hb _ (h.error he)⟩

theorem run_bind {x : Compile α} {next : α → Compile β} (hx : Judged (x.run s) known blamed)
    (hnext : known → ∀ a s', Judged ((next a).run s') good blamed) :
    Judged ((x >>= next).run s) good blamed := by
  rw [StateT.run_bind]
  exact hx.bind fun hk r => hnext hk r.1 r.2

theorem run_lift {x : Except Error α} (h : Judged x good blamed) :
    Judged ((liftM x : Compile α).run s) good blamed := by
  cases x with
  | error e => exact .of_error (h.error rfl)
  | ok a => exact .of_ok (h.ok rfl)

theorem run_pure {a : α} (h : good) : Judged ((pure a : Compile α).run s) good blamed := .of_ok h

/-- A number for a subquery is always there. -/
theorem run_freshAlias {next : Nat → Compile β}
    (hnext : ∀ n s', Judged ((next n).run s') good blamed) :
    Judged ((freshAlias >>= next).run s) good blamed :=
  run_bind (.of_ok trivial : Judged (freshAlias.run s) True blamed) fun _ => hnext

end Judged

/-! ## Expressions -/

theorem judged_resolvePieces (resolve : Text → Ref) (pieces : List Piece) :
    Judged (resolvePieces resolve pieces) (Expr.Writable ⟨pieces⟩) (Expr.Blamed ⟨pieces⟩) := by
  induction pieces with
  | nil => exact .of_ok nofun
  | cons piece rest ih =>
    rw [resolvePieces]
    -- a float is the one kind of piece that may fail
    have hpiece : Judged (resolvePiece resolve piece)
        (∀ x, piece = .const (.float x) → x.isFinite = true) (Expr.Blamed ⟨piece :: rest⟩) := by
      unfold resolvePiece
      split
      · exact .of_ok nofun
      · rename_i x
        split
        · rename_i hfinite
          refine .of_ok fun y hy => ?_
          obtain rfl : x = y := by simpa using hy
          exact hfinite
        · rename_i hfinite
          exact .of_error ⟨x, List.mem_cons_self, by simpa using hfinite, rfl⟩
      · rename_i value hvalue
        exact .of_ok fun x hx => absurd (Piece.const.inj hx) (hvalue x)
      · exact .of_ok nofun
      · exact .of_ok nofun
    have hrest : Judged (resolvePieces resolve rest) (Expr.Writable ⟨rest⟩)
        (Expr.Blamed ⟨piece :: rest⟩) :=
      ih.widen _ fun e he => by
        obtain ⟨x, hx, hfinite, he⟩ := he
        exact ⟨x, List.mem_cons_of_mem _ hx, hfinite, he⟩
    refine hpiece.bind fun hfirst part => hrest.bind fun hothers parts => .of_ok ?_
    intro x hx
    rcases List.mem_cons.mp hx with he | hx
    · exact hfirst x he.symm
    · exact hothers x hx

theorem judged_resolveExpr (resolve : Text → Ref) (e : Expr) :
    Judged (resolveExpr resolve e) e.Writable e.Blamed :=
  judged_resolvePieces resolve e.pieces

theorem judged_aggregateItems (as : List Assignment) :
    Judged (aggregateItems as) (∀ a ∈ as, a.expr.Writable)
      (fun error => ∃ a ∈ as, a.expr.Blamed error) := by
  induction as with
  | nil => exact .of_ok nofun
  | cons a rest ih =>
    have hfirst : Judged (resolveExpr .bare a.expr) a.expr.Writable
        (fun error => ∃ b ∈ a :: rest, b.expr.Blamed error) :=
      (judged_resolveExpr .bare a.expr).widen _ fun e he => ⟨a, List.mem_cons_self, he⟩
    have hrest : Judged (aggregateItems rest) (∀ b ∈ rest, b.expr.Writable)
        (fun error => ∃ b ∈ a :: rest, b.expr.Blamed error) :=
      ih.widen _ fun e ⟨b, hb, he⟩ => ⟨b, List.mem_cons_of_mem _ hb, he⟩
    refine hfirst.bind fun ha _ => hrest.bind fun hothers _ => .of_ok ?_
    exact List.forall_mem_cons.mpr ⟨ha, hothers⟩

/-! ## Stages -/

section Stages

variable {stage : List Assignment}

/-- A SELECT writes the assignments whose targets it lists. -/
theorem judged_stageItems (window : Option Window) (hnd : (stage.map Assignment.target).Nodup)
    (columns : List Text) :
    Judged (stageItems window stage columns)
      (∀ a ∈ stage, a.target ∈ columns → a.expr.Writable)
      (fun error => ∃ a ∈ stage, a.expr.Blamed error) := by
  induction columns with
  | nil => exact .of_ok nofun
  | cons name rest ih =>
    rw [stageItems]
    have hlast : ∀ item : Item, (∀ a ∈ stage, a.target = name → a.expr.Writable) →
        Judged (do let items ← stageItems window stage rest; pure (item :: items))
          (∀ a ∈ stage, a.target ∈ name :: rest → a.expr.Writable)
          (fun error => ∃ a ∈ stage, a.expr.Blamed error) := by
      intro item hname
      refine ih.bind fun hrest _ => .of_ok fun a ha ht => ?_
      rcases List.mem_cons.mp ht with he | ht
      · exact hname a ha he
      · exact hrest a ha ht
    cases hfind : stage.find? fun a => a.target == name with
    | none =>
      refine hlast _ fun a ha he => ?_
      exact absurd (beq_iff_eq.mpr he) (List.find?_eq_none.mp hfind a ha)
    | some a =>
      have hmem := List.mem_of_find?_eq_some hfind
      have hterm : Judged (resolveExpr .bare a.expr) a.expr.Writable
          (fun error => ∃ b ∈ stage, b.expr.Blamed error) :=
        (judged_resolveExpr .bare a.expr).widen _ fun e he => ⟨a, hmem, he⟩
      refine hterm.bind fun ha term => hlast _ fun b hb he => ?_
      -- no other member of the stage has this target
      have hfound := find?_key_eq_some hnd hb
      rw [he, hfind] at hfound
      exact Option.some.inj hfound ▸ ha

/-- The SELECTs of the stages write every assignment. -/
theorem judged_compileStages (window : Option Window) (final : List Text)
    {stages : List (List Assignment)}
    (hnd : ∀ stage ∈ stages, (stage.map Assignment.target).Nodup)
    (htargets : ∀ stage ∈ stages, ∀ a ∈ stage, a.target ∈ final) (columns : List Text) (q : Query)
    (s : Progress) :
    Judged ((compileStages window final stages columns q).run s)
      (∀ stage ∈ stages, ∀ a ∈ stage, a.expr.Writable)
      (fun error => ∃ stage ∈ stages, ∃ a ∈ stage, a.expr.Blamed error) := by
  induction stages generalizing columns q s with
  | nil => exact .run_pure nofun
  | cons stage rest ih =>
    rw [compileStages]
    have hitems := (judged_stageItems window (hnd stage List.mem_cons_self)
      (if rest.isEmpty then final else Text.appendNew columns (stage.map Assignment.target))).widen
        (fun error => ∃ other ∈ stage :: rest, ∃ a ∈ other, a.expr.Blamed error)
        fun e he => ⟨stage, List.mem_cons_self, he⟩
    refine .run_bind (.run_lift hitems) fun hstage items s₁ => .run_freshAlias fun scope s₂ => ?_
    -- the columns of the SELECT hold all targets of the stage, whichever SELECT it is
    have hlisted : ∀ a ∈ stage, a.expr.Writable := by
      intro a ha
      refine hstage a ha ?_
      split
      · exact htargets stage List.mem_cons_self a ha
      · exact mem_appendNew.mpr (Or.inr (List.mem_map.mpr ⟨a, ha, rfl⟩))
    have hrest := ih (fun other ho => hnd other (List.mem_cons_of_mem _ ho))
      (fun other ho => htargets other (List.mem_cons_of_mem _ ho))
      (if rest.isEmpty then final else Text.appendNew columns (stage.map Assignment.target))
      (.select items q scope .empty) s₂
    exact ⟨fun hr => List.forall_mem_cons.mpr ⟨hlisted, hrest.ok hr⟩,
      fun he => (hrest.error he).imp fun other ho => ⟨List.mem_cons_of_mem _ ho.1, ho.2⟩⟩

/-- An extension over columns that put its batch in scope writes each of its assignments. -/
theorem judged_extend_stages (window : Option Window) {columns : List Text} {as : List Assignment}
    (h : Scoped columns as) (q : Query) (s : Progress) :
    Judged ((compileStages window (Text.appendNew columns (as.map Assignment.target))
        (stagesOf columns as) columns q).run s)
      (∀ a ∈ as, a.expr.Writable) (fun error => ∃ a ∈ as, a.expr.Blamed error) := by
  obtain ⟨stages, hstages⟩ := partition_of_scoped h
  have hof : stagesOf columns as = stages := by rw [stagesOf, hstages]
  -- staging moves assignments around, but loses none and adds none
  have hmem : ∀ a, (∃ stage ∈ stages, a ∈ stage) ↔ a ∈ as := by
    intro a
    rw [← (partition_perm hstages).mem_iff, List.mem_flatten]
  rw [hof]
  have hall := judged_compileStages window (Text.appendNew columns (as.map Assignment.target))
    (partition_nodup_targets hstages)
    (fun stage hs a ha => mem_appendNew.mpr
      (Or.inr (List.mem_map.mpr ⟨a, (hmem a).mp ⟨stage, hs, ha⟩, rfl⟩))) columns q s
  refine ⟨fun hr a ha => ?_, fun he => ?_⟩
  · obtain ⟨stage, hs, ha⟩ := (hmem a).mpr ha
    exact hall.ok hr stage hs a ha
  · obtain ⟨stage, hs, a, ha, he⟩ := hall.error he
    exact ⟨a, (hmem a).mp ⟨stage, hs, ha⟩, he⟩

end Stages

/-! ## What a dialect is asked for -/

section Requests

variable {d : Dialect}

theorem judged_requireWindows (requester : Requester) :
    Judged (d.requireWindows requester) (¬d.Lacks .windowFunctions)
      (fun e => d.Lacks .windowFunctions ∧ e = .unsupported requester .windowFunctions d.name) := by
  unfold Dialect.requireWindows
  split
  · rename_i hw
    exact .of_ok fun hl => by simp [Dialect.Lacks, hw] at hl
  · rename_i hw
    exact .of_error ⟨by simpa [Dialect.Lacks] using hw, rfl⟩

theorem judged_requireJoin (kind : OperatorKind) (type : JoinType) :
    Judged (d.requireJoin kind type) (type = .right ∨ type = .full → ¬d.Lacks (.joins type))
      (fun e => (type = .right ∨ type = .full) ∧ d.Lacks (.joins type) ∧
        e = .unsupported (.operator kind) (.joins type) d.name) := by
  unfold Dialect.requireJoin
  split
  · rename_i hj
    exact .of_error ⟨hj.1, by simpa [Dialect.Lacks] using hj.2, rfl⟩
  · rename_i hj
    exact .of_ok fun htype hl => hj ⟨htype, by simpa [Dialect.Lacks] using hl⟩

/-- A table with a name can be made unless it is to be temporary and cannot. -/
theorem judged_resolve (requester : Requester) {table : Text} (hne : table ≠ []) (temporary : Bool) :
    Judged (Creation.resolve d requester table temporary)
      (temporary = true → ¬d.Lacks .temporaryTables)
      (fun e => temporary = true ∧ d.Lacks .temporaryTables ∧
        e = .unsupported requester .temporaryTables d.name) := by
  unfold Creation.resolve
  rw [if_neg (by simpa using hne)]
  -- temporary tables may be waived, so there are two ways to succeed
  split
  · rename_i ht
    obtain ⟨ht, hsupported⟩ : temporary = true ∧ d.temporaryTables = false := by simpa using ht
    split
    · rename_i hfallback
      exact .of_ok fun _ hl => by simp [Dialect.Lacks, hfallback] at hl
    · rename_i hfallback
      exact .of_error ⟨ht, ⟨hsupported, by simpa using hfallback⟩, rfl⟩
  · rename_i ht
    refine .of_ok fun htrue hl => ht ?_
    simpa [htrue] using hl.1

end Requests

/-! ## All operators -/

/-- Every node is supported. -/
def Compilable (d : Dialect) (t : Tree) : Prop := ∀ n ∈ t.subtrees, n.Supported d

/-- The error is about one of the nodes. -/
def Accounted (d : Dialect) (t : Tree) (e : Error) : Prop := ∃ n ∈ t.subtrees, n.Blamed d e

section Nodes

variable {d : Dialect} {limit : Option Nat} {t c c' : Tree} {e : Error} {good : Prop} {s : Progress}

theorem compilable_iff : Compilable d t ↔ t.Supported d ∧ ∀ c ∈ t.children, Compilable d c :=
  Tree.forall_subtrees_iff

theorem Compilable.node₁ (h : t.Supported d) (hc : t.children = [c]) (hcompiles : Compilable d c) :
    Compilable d t := by
  rw [compilable_iff, hc]
  exact ⟨h, by simpa using hcompiles⟩

theorem Compilable.node₂ (h : t.Supported d) (hc : t.children = [c, c'])
    (hcompiles : Compilable d c) (hcompiles' : Compilable d c') : Compilable d t := by
  rw [compilable_iff, hc]
  exact ⟨h, by simpa using ⟨hcompiles, hcompiles'⟩⟩

/-- A tree is one of its own nodes, and the nodes of an input are nodes of the tree. -/
theorem mem_subtrees (t : Tree) :
    t ∈ t.subtrees ∧ ∀ c ∈ t.children, ∀ n ∈ c.subtrees, n ∈ t.subtrees :=
  Tree.forall_subtrees_iff.mp fun _ hn => hn

theorem Accounted.root (h : t.Blamed d e) : Accounted d t e := ⟨t, (mem_subtrees t).1, h⟩

theorem Accounted.input (hc : c ∈ t.children) (h : Accounted d c e) : Accounted d t e := by
  obtain ⟨n, hn, hb⟩ := h
  exact ⟨n, (mem_subtrees t).2 c hc n hn, hb⟩

/-- An input becomes a subquery, and its errors are errors of the tree. -/
theorem Judged.run_input (hc : c ∈ t.children)
    (h : ∀ s, Judged ((compile d limit c).run s) (Compilable d c) (Accounted d c))
    {next : Query → Nat → Compile Query}
    (hnext : Compilable d c → ∀ q n s', Judged ((next q n).run s') good (Accounted d t)) :
    Judged ((do let q ← compile d limit c; let n ← freshAlias; next q n).run s) good
      (Accounted d t) :=
  .run_bind ((h s).widen _ fun _ he => he.input hc) fun hcompiles q _ =>
    .run_freshAlias fun n s' => hnext hcompiles q n s'

/-- The term of an expression of the root. -/
theorem Judged.run_expression {expression : Expr} (he : expression ∈ t.expressions)
    (resolve : Text → Ref) {next : Term → Compile Query}
    (hnext : expression.Writable → ∀ term s', Judged ((next term).run s') good (Accounted d t)) :
    Judged ((liftM (resolveExpr resolve expression) >>= next : Compile Query).run s) good
      (Accounted d t) :=
  .run_bind (.run_lift ((judged_resolveExpr resolve expression).widen _ fun _ hb =>
    .root (.unwritable he hb))) hnext

/-- The operators that may ask for something. -/
theorem kind_of_demands {c : Capability} (h : t.Demands c) :
    t.kind ∈ [.extend, .naturalJoin, .thetaJoin, .externalTransform] := by
  cases t with
  | extend | naturalJoin | thetaJoin | externalTransform => simp [Tree.kind]
  | table | project | selectRows | selectColumns | renameColumns | orderBy | rawStatement =>
    cases c <;> exact h.elim

/-- Every other operator is supported if its expressions can be written. -/
theorem supported_of_writable
    (hk : t.kind ∉ [.extend, .naturalJoin, .thetaJoin, .externalTransform])
    (he : ∀ e ∈ t.expressions, e.Writable) : t.Supported d :=
  ⟨fun _ hc => absurd (kind_of_demands hc) hk, he⟩

/-- So is such an operator without expressions. -/
theorem supported_plain (hk : t.kind ∉ [.extend, .naturalJoin, .thetaJoin, .externalTransform])
    (he : t.expressions = []) : t.Supported d :=
  supported_of_writable hk (by simp [he])

/-- A join is supported if its type is and its expressions can be written. -/
theorem supported_join {left right : Tree} {type : JoinType}
    (ht : t = .naturalJoin left right type ∨
      ∃ predicate suffixes collisions, t = .thetaJoin left right predicate type suffixes collisions)
    (hj : type = .right ∨ type = .full → ¬d.Lacks (.joins type))
    (he : ∀ e ∈ t.expressions, e.Writable) : t.Supported d := by
  have hasked : ∀ asked, t.Demands asked →
      asked = .joins type ∧ (type = .right ∨ type = .full) := by
    intro asked hdemands
    rcases ht with rfl | ⟨predicate, suffixes, collisions, rfl⟩ <;> cases asked with
      | joins type' => exact ⟨congrArg Capability.joins hdemands.1, hdemands.2⟩
      | windowFunctions | temporaryTables => exact hdemands.elim
  refine ⟨fun asked hdemands => ?_, he⟩
  obtain ⟨rfl, htype⟩ := hasked asked hdemands
  exact hj htype

/-- An operator without expressions that asks for nothing, over one query. -/
theorem Judged.run_under (hc : t.children = [c])
    (hk : t.kind ∉ [.extend, .naturalJoin, .thetaJoin, .externalTransform])
    (he : t.expressions = [])
    (h : ∀ s, Judged ((compile d limit c).run s) (Compilable d c) (Accounted d c))
    {make : Query → Nat → Query} :
    Judged ((do
        let q ← compile d limit c
        let n ← freshAlias
        return make q n : Compile Query).run s)
      (Compilable d t) (Accounted d t) :=
  .run_input (by simp [hc]) h fun hbelow _ _ _ =>
    .run_pure (.node₁ (supported_plain hk he) hc hbelow)

/-- An operator that asks for nothing, over one query, with the one expression that it has. -/
theorem Judged.run_under_term {expression : Expr} (hc : t.children = [c])
    (hk : t.kind ∉ [.extend, .naturalJoin, .thetaJoin, .externalTransform])
    (he : t.expressions = [expression]) (resolve : Text → Ref)
    (h : ∀ s, Judged ((compile d limit c).run s) (Compilable d c) (Accounted d c))
    {make : Query → Nat → Term → Query} :
    Judged ((do
        let q ← compile d limit c
        let n ← freshAlias
        let term ← resolveExpr resolve expression
        return make q n term : Compile Query).run s)
      (Compilable d t) (Accounted d t) := by
  refine .run_input (by simp [hc]) h fun hbelow q n s₁ => ?_
  refine .run_expression (by simp [he]) resolve fun hwritable term s₂ => .run_pure ?_
  exact .node₁ (supported_of_writable hk (by simpa [he] using hwritable)) hc hbelow

/-- The two sides of a join, once it is known to be supported. -/
theorem Judged.run_sides {check : Except Error Unit} {known : Prop} (hc : t.children = [c, c'])
    (hcheck : Judged check known (Accounted d t))
    (hl : ∀ s, Judged ((compile d limit c).run s) (Compilable d c) (Accounted d c))
    (hr : ∀ s, Judged ((compile d limit c').run s) (Compilable d c') (Accounted d c'))
    {next : Query → Nat → Query → Nat → Compile Query}
    (hnext : known → Compilable d c → Compilable d c' →
      ∀ l n r m s', Judged ((next l n r m).run s') good (Accounted d t)) :
    Judged ((do
        check
        let l ← compile d limit c
        let n ← freshAlias
        let r ← compile d limit c'
        let m ← freshAlias
        next l n r m : Compile Query).run s)
      good (Accounted d t) := by
  refine .run_bind (.run_lift hcheck) fun hknown _ s₁ => ?_
  refine .run_input (by simp [hc]) hl fun hleft l n s₂ => ?_
  exact .run_input (by simp [hc]) hr fun hright r m s₃ => hnext hknown hleft hright l n r m s₃

/-- The batch of an extension, once its window is known to be supported. -/
theorem judged_extend {source : Tree} {as : List Assignment} {partitionBy : List Text}
    {order : List OrderTerm} (hscope : Scoped source.schema as)
    (h : ∀ s, Judged ((compile d limit source).run s) (Compilable d source) (Accounted d source))
    (hw : partitionBy ≠ [] ∨ order ≠ [] → ¬d.Lacks .windowFunctions) (window : Option Window)
    (s : Progress) :
    Judged ((do
        let query ← compile d limit source
        compileStages window (Text.appendNew source.schema (as.map Assignment.target))
          (stagesOf source.schema as) source.schema query).run s)
      (Compilable d (.extend source as partitionBy order))
      (Accounted d (.extend source as partitionBy order)) := by
  refine .run_bind ((h s).widen _ fun _ he => he.input (by simp [Tree.children]))
    fun hcompiles query s₁ => ?_
  -- the batch comes after the input, so its errors are errors of this node
  have hstages := judged_extend_stages window hscope query s₁
  refine ⟨fun hr => .node₁ ⟨fun c hc => ?_, ?_⟩ rfl hcompiles, fun he => ?_⟩
  · cases c with
    | windowFunctions => exact hw hc
    | joins type => exact hc.elim
    | temporaryTables => exact hc.elim
  · simpa [Tree.expressions] using hstages.ok hr
  · obtain ⟨a, ha, hb⟩ := hstages.error he
    exact .root (.unwritable (List.mem_map.mpr ⟨a, ha, rfl⟩) hb)

end Nodes

/-- **Compiling a valid tree** succeeds only if the dialect supports every node, and fails only with an
error that one of the nodes accounts for. -/
theorem judged_compile (d : Dialect) (limit : Option Nat) {t : Tree} (hv : t.Valid) (s : Progress) :
    Judged ((compile d limit t).run s) (Compilable d t) (Accounted d t) := by
  induction t using compile_induction generalizing s with
  | table t =>
    exact .run_pure (compilable_iff.mpr
      ⟨supported_plain (by simp [Tree.kind]) rfl, by simp [Tree.children]⟩)
  | extend source as partitionBy order ih =>
    have hsource := ih (hv.input List.mem_cons_self)
    rw [compile]
    -- windows are asked for exactly where the dialect is checked
    have hwindow : (windowOf partitionBy order).isSome = true ↔ partitionBy ≠ [] ∨ order ≠ [] := by
      cases partitionBy <;> cases order <;> simp [windowOf]
    by_cases hasked : partitionBy ≠ [] ∨ order ≠ []
    · simp only [hwindow.mpr hasked, if_true]
      have hwindows := (judged_requireWindows (d := d) (.operator .extend)).widen
        (Accounted d (.extend source as partitionBy order))
        fun e he => he.2 ▸ .root (.lacking hasked he.1)
      refine .run_bind (.run_lift hwindows) fun hsupported _ s₁ => ?_
      exact judged_extend hv.checked.inScope hsource (fun _ => hsupported) _ s₁
    · simp only [mt hwindow.mp hasked]
      exact judged_extend hv.checked.inScope hsource (fun h => absurd h hasked) _ s
  | project source groupBy aggregates ih =>
    rw [compile]
    -- the aggregates are written before the input is compiled
    have hitems := (judged_aggregateItems aggregates).widen
      (Accounted d (.project source groupBy aggregates))
      fun e he => by
        obtain ⟨a, ha, hblamed⟩ := he
        exact .root (.unwritable (List.mem_map.mpr ⟨a, ha, rfl⟩) hblamed)
    refine .run_bind (.run_lift hitems) fun hwritable items s₁ => ?_
    refine .run_input List.mem_cons_self (ih (hv.input List.mem_cons_self)) fun hbelow q n s₂ =>
      .run_pure (.node₁ (supported_of_writable (by simp [Tree.kind]) ?_) rfl hbelow)
    simpa [Tree.expressions] using hwritable
  | naturalJoin left right type ihl ihr =>
    rw [compile]
    have hjoin := (judged_requireJoin (d := d) .naturalJoin type).widen
      (Accounted d (.naturalJoin left right type))
      fun e he => he.2.2 ▸ .root (.lacking ⟨rfl, he.1⟩ he.2.1)
    refine .run_sides rfl hjoin (ihl (hv.input List.mem_cons_self))
      (ihr (hv.input (List.mem_cons_of_mem _ List.mem_cons_self)))
      fun hsupported hleft hright l n r m s₁ => .run_pure ?_
    exact .node₂ (supported_join (.inl rfl) hsupported (by simp [Tree.expressions])) rfl hleft hright
  | thetaJoin left right predicate type suffixes collisions ihl ihr =>
    rw [compile]
    have hjoin := (judged_requireJoin (d := d) .thetaJoin type).widen
      (Accounted d (.thetaJoin left right predicate type suffixes collisions))
      fun e he => he.2.2 ▸ .root (.lacking ⟨rfl, he.1⟩ he.2.1)
    refine .run_sides rfl hjoin (ihl (hv.input List.mem_cons_self))
      (ihr (hv.input (List.mem_cons_of_mem _ List.mem_cons_self)))
      fun hsupported hleft hright l n r m s₁ => ?_
    -- the predicate comes last, as its names stand for columns of the two sides
    refine .run_expression (by simp [Tree.expressions]) _ fun hwritable on s₂ => .run_pure ?_
    refine .node₂ (supported_join (.inr ⟨predicate, suffixes, collisions, rfl⟩) hsupported ?_) rfl
      hleft hright
    simpa [Tree.expressions] using hwritable
  | selectRows source predicate ih =>
    rw [compile]
    exact .run_under_term rfl (by simp [Tree.kind]) rfl _ (ih (hv.input List.mem_cons_self))
  | ordered source terms n columns ih =>
    rw [compile]
    -- the ordering below is passed over, but it asks for nothing
    have hchild := hv.input (c := source.orderBy terms n) List.mem_cons_self
    have hsource := (ih (hchild.input List.mem_cons_self) s).widen
      (Accounted d (.selectColumns (source.orderBy terms n) columns)) fun e he =>
        Accounted.input (c := source.orderBy terms n) List.mem_cons_self
          (he.input List.mem_cons_self)
    refine .run_bind hsource fun hbelow q s₁ => .run_freshAlias fun scope s₂ => .run_pure ?_
    have hordered : Compilable d (source.orderBy terms n) :=
      .node₁ (supported_plain (by simp [Tree.kind]) rfl) rfl hbelow
    exact .node₁ (supported_plain (by simp [Tree.kind]) rfl) rfl hordered
  | selectColumns source columns hkind ih =>
    rw [compile_selectColumns d limit hkind]
    exact .run_under rfl (by simp [Tree.kind]) rfl (ih (hv.input List.mem_cons_self))
  | renameColumns source mapping ih =>
    rw [compile]
    exact .run_under rfl (by simp [Tree.kind]) rfl (ih (hv.input List.mem_cons_self))
  | orderBy source terms n ih =>
    rw [compile]
    exact .run_under rfl (by simp [Tree.kind]) rfl (ih (hv.input List.mem_cons_self))
  | rawStatement source used produced template ih =>
    rw [compile]
    exact .run_under_term rfl (by simp [Tree.kind]) rfl _ (ih (hv.input List.mem_cons_self))
  | externalTransform source used produced transform incoming outgoing temporary ih =>
    rw [compile]
    have hcreation := (judged_resolve (d := d) (.operator .externalTransform)
      hv.checked.incomingNamed temporary).widen
      (Accounted d
        (.externalTransform source used produced transform incoming outgoing temporary))
      fun e he => he.2.2 ▸ .root (.lacking he.1 he.2.1)
    refine .run_bind ((ih (hv.input List.mem_cons_self) s).widen _
      fun e he => he.input List.mem_cons_self) fun hbelow q s₁ => ?_
    refine .run_bind (.run_lift hcreation) fun hsupported creation s₂ => ?_
    refine .run_bind (.of_ok trivial : Judged ((addStage _).run s₂) True _) fun _ _ s₃ =>
      .run_pure (.node₁ ⟨fun c hc => ?_, by simp [Tree.expressions]⟩ rfl hbelow)
    cases c with
    | temporaryTables => exact hsupported hc
    | windowFunctions | joins type => exact hc.elim

/-- An error of a dialect is blamed on a node that asks for what the dialect lacks. -/
theorem Accounted.exists_demands {d : Dialect} {t : Tree} {e : Error} (h : Accounted d t e)
    (hf : e.family = .dialect) :
    ∃ n ∈ t.subtrees, ∃ c, n.Demands c ∧ d.Lacks c ∧
      e = .unsupported (.operator n.kind) c d.name := by
  obtain ⟨n, hn, hb⟩ := h
  cases hb with
  | lacking demands lacks => exact ⟨n, hn, _, demands, lacks, rfl⟩
  | unwritable expression blamed =>
    -- a number that cannot be written is not the dialect's fault
    obtain ⟨x, -, -, rfl⟩ := blamed
    cases hf

end Sql

namespace Tree

/--
**Generating succeeds exactly on what the dialect supports.**

Let the tree be built and the output columns accepted. Then there is a prepared tree, and on every
dialect steps come out exactly if each of its nodes is supported: no window where there are none, no
right or full join where there are none, no temporary table where there is none and no ordinary one may
stand in for it, and no number in an expression that cannot be written. An error of the dialect names
the kind of a node of the prepared tree and what that node asks for, and the dialect lacks it.
-/
theorem generate_exactly_supported {t : Tree} (h : t.Built) (options : GenerateOptions)
    (ha : t.Accepts options.outputColumns) :
    ∃ T, t.prepare options = .ok T ∧ ∀ d : Dialect,
      ((∃ steps, t.generate d options = .ok steps) ↔ ∀ n ∈ T.subtrees, n.Supported d) ∧
      ∀ e, t.generate d options = .error e → e.family = .dialect →
        ∃ n ∈ T.subtrees, ∃ c, n.Demands c ∧ d.Lacks c ∧
          e = .unsupported (.operator n.kind) c d.name := by
  obtain ⟨L, hL, hvalid, hschema, -⟩ := limitTo_rows.{0} h.valid options.outputLimit
  have hprepare := (prepare_ok_iff h.valid).mpr ⟨ha, L, hL, hvalid, hschema, rfl⟩
  refine ⟨_, hprepare, fun d => ?_⟩
  -- the narrowed tree is valid again, which is all that judging it needs
  have hjudged := Sql.judged_compile d options.sourceLimit
    (prepare_valid h.valid hprepare) ⟨0, []⟩
  refine ⟨⟨?_, ?_⟩, ?_⟩
  · intro hs
    obtain ⟨steps, hs⟩ := hs
    obtain ⟨root, progress, hrun, -⟩ := (generate_ok_iff hprepare).mp hs
    exact hjudged.ok hrun
  · intro hsupported
    -- an error would blame a node, and every node is supported
    cases hg : t.generate d options with
    | ok steps => exact ⟨steps, rfl⟩
    | error e =>
      obtain ⟨n, hn, hb⟩ := hjudged.error ((generate_error_iff hprepare).mp hg)
      exact absurd hb (hsupported n hn).not_blamed
  · intro e hg hf
    exact (hjudged.error ((generate_error_iff hprepare).mp hg)).exists_demands hf

/-- The number `r` of each row of `t(a, b)` among those with the same `a`, in the order of `b`. -/
def numberedRows : Tree :=
  .extend (.table ⟨[116], [[97], [98]], none⟩) [⟨[114], .call [110] []⟩] [[97]] [⟨[98], false⟩]

theorem built_numberedRows : numberedRows.Built := by
  have ht : Pipeline.table [116] [[97], [98]] none =
      .ok (.table ⟨[116], [[97], [98]], none⟩) := rfl
  have he : Pipeline.extend (.table ⟨[116], [[97], [98]], none⟩) [⟨[114], .call [110] []⟩] [[97]]
      [⟨[98], false⟩] = .ok numberedRows := by cbv
  exact .extend (.table ht) he

/-- At most three of the numbers. The window survives narrowing, so it decides on which dialects. -/
theorem generate_exactly_supported_numberedRows :
    numberedRows.Built ∧ numberedRows.Accepts (some [[114]]) ∧
      ∃ T, numberedRows.prepare ⟨some 3, none, some [[114]]⟩ = .ok T ∧ ∀ d : Dialect,
        ((∃ steps, numberedRows.generate d ⟨some 3, none, some [[114]]⟩ = .ok steps) ↔
          ∀ n ∈ T.subtrees, n.Supported d) ∧
        ∀ e, numberedRows.generate d ⟨some 3, none, some [[114]]⟩ = .error e →
          e.family = .dialect → ∃ n ∈ T.subtrees, ∃ c, n.Demands c ∧ d.Lacks c ∧
            e = .unsupported (.operator n.kind) c d.name := by
  have haccepts : numberedRows.Accepts (some [[114]]) := by
    intro columns hc
    obtain rfl := Option.some.inj hc
    decide
  exact ⟨built_numberedRows, haccepts,
    generate_exactly_supported built_numberedRows ⟨some 3, none, some [[114]]⟩ haccepts⟩

end Tree

end SqlPipeline
