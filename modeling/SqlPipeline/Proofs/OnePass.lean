import SqlPipeline.Proofs.Preparation

/-!
# Writing statements in one pass

Statements are made in two passes: a tree is compiled to nested SELECTs, and these are
printed with the depth of each handed down to it. The same text can be written in one
pass that goes over the tree and keeps the depth in a variable. Such a writer has to put
the variable back after every input: it goes one level down for a subquery and up again,
it sets the depth of each SELECT of a batch, and it starts at zero for a statement of its
own and must then remember where it was.

`writeTree` is that writer, and this file shows that it goes in step with compiling. It
fails where compiling fails, it writes what is printed, and it leaves the depth as it was.
-/

namespace SqlPipeline.Sql

/-- What a writer keeps: how deep it is, the number of subqueries so far, and the steps it has made. -/
structure Pen where
  depth : Nat
  aliases : Nat
  steps : List Step

/-- A step of writing. -/
abbrev Write := StateT Pen (Except Error)

namespace Write

/-- How deep the writer is. -/
def depth : Write Nat := modifyGet fun p => (p.depth, p)

/-- Goes to a depth. -/
def goTo (depth : Nat) : Write Unit := modify fun p => { p with depth := depth }

/-- The next number for a subquery. -/
def freshAlias : Write Nat := modifyGet fun p => (p.aliases + 1, { p with aliases := p.aliases + 1 })

/-- Adds steps after those there are. -/
def addSteps (steps : List Step) : Write Unit := modify fun p => { p with steps := p.steps ++ steps }

/-- Goes one level down for an input and one level up after it. -/
def nested (input : Write Text) : Write Text := do
  goTo ((← depth) + 1)
  let text ← input
  goTo ((← depth) - 1)
  return text

end Write

/-- A SELECT over a subquery whose text is given. -/
def selectText (d : Dialect) (depth : Nat) (items : List Item) (inner : Text) (scope : Nat)
    (clauses : Clauses) : Text :=
  indent depth ++ printItems d items ++ line depth ("FROM " ++ subquery depth inner scope) ++
    clauses.print d depth

/-- A join of two subqueries whose texts are given. -/
def joinText (d : Dialect) (depth : Nat) (items : List Item) (type : JoinType) (left : Text)
    (leftAlias : Nat) (right : Text) (rightAlias : Nat) (on : Condition) : Text :=
  indent depth ++ printItems d items ++ line depth ("FROM " ++ subquery depth left leftAlias) ++
    line depth (type.name ++ " JOIN " ++ subquery depth right rightAlias) ++
    line depth ("ON " ++ on.print d leftAlias rightAlias)

/-- Writes the SELECTs of a batch around a text, the last one at depth `base` and each of the others as
many levels deeper as there are SELECTs still to come. In the end the writer is at `base`. -/
def writeStages (d : Dialect) (base : Nat) (window : Option Window) (final : List Text) :
    List (List Assignment) → List Text → Text → Write Text
  | [], _, text => do
    Write.goTo base
    return text
  | stage :: rest, columns, text => do
    let columns :=
      if rest.isEmpty then final else Text.appendNew columns (stage.map Assignment.target)
    let items ← stageItems window stage columns
    Write.goTo (base + rest.length)
    let scope ← Write.freshAlias
    writeStages d base window final rest columns
      (selectText d (← Write.depth) items text scope .empty)

/-- Writes the statement of a tree from the current depth on; every table read is cut to `limit` rows. -/
def writeTree (d : Dialect) (limit : Option Nat) : Tree → Write Text
  | .table t => do
    return Query.print d (← Write.depth) (.read t.columns t.qualifier t.name limit)
  | .extend source assignments partitionBy orderBy => do
    let window := windowOf partitionBy orderBy
    if window.isSome then d.requireWindows (.operator .extend)
    let columns := source.schema
    let stages := stagesOf columns assignments
    let base ← Write.depth
    Write.goTo (base + stages.length)
    let inner ← writeTree d limit source
    writeStages d base window (Text.appendNew columns (assignments.map Assignment.target)) stages
      columns inner
  | .project source groupBy aggregates => do
    let aggregated ← aggregateItems aggregates
    let inner ← Write.nested (writeTree d limit source)
    let scope ← Write.freshAlias
    return selectText d (← Write.depth) (groupBy.map Item.plain ++ aggregated) inner scope
      ⟨none, groupBy, [], none⟩
  | .naturalJoin left right type => do
    d.requireJoin .naturalJoin type
    let leftText ← Write.nested (writeTree d limit left)
    let leftAlias ← Write.freshAlias
    let rightText ← Write.nested (writeTree d limit right)
    let rightAlias ← Write.freshAlias
    let shared := sharedColumns left.schema right.schema
    let items := (naturalColumns left.schema right.schema).map
      (naturalItem type left.schema shared leftAlias rightAlias)
    return joinText d (← Write.depth) items type leftText leftAlias rightText rightAlias (.keys shared)
  | .thetaJoin left right predicate type suffixes collisions => do
    d.requireJoin .thetaJoin type
    let leftText ← Write.nested (writeTree d limit left)
    let leftAlias ← Write.freshAlias
    let rightText ← Write.nested (writeTree d limit right)
    let rightAlias ← Write.freshAlias
    let columns := joinColumns left.schema right.schema collisions suffixes
    let on ← resolveExpr (resolveJoin leftAlias rightAlias columns) predicate
    return joinText d (← Write.depth) (columns.map (joinItem leftAlias rightAlias)) type leftText
      leftAlias rightText rightAlias (.predicate on)
  | .selectRows source predicate => do
    let inner ← Write.nested (writeTree d limit source)
    let scope ← Write.freshAlias
    let filter ← resolveExpr .bare predicate
    return selectText d (← Write.depth) (source.schema.map Item.plain) inner scope
      ⟨some filter, [], [], none⟩
  | .selectColumns (.orderBy source terms n) columns => do
    let inner ← Write.nested (writeTree d limit source)
    let scope ← Write.freshAlias
    return selectText d (← Write.depth) (columns.map Item.plain) inner scope ⟨none, [], terms, n⟩
  | .selectColumns source columns => do
    let inner ← Write.nested (writeTree d limit source)
    let scope ← Write.freshAlias
    return selectText d (← Write.depth) (columns.map Item.plain) inner scope .empty
  | .renameColumns source mapping => do
    let inner ← Write.nested (writeTree d limit source)
    let scope ← Write.freshAlias
    return selectText d (← Write.depth) (source.schema.map (renameItem mapping)) inner scope .empty
  | .orderBy source terms n => do
    let inner ← Write.nested (writeTree d limit source)
    let scope ← Write.freshAlias
    return selectText d (← Write.depth) (source.schema.map Item.plain) inner scope ⟨none, [], terms, n⟩
  | .rawStatement source _ _ template => do
    let inner ← Write.nested (writeTree d limit source)
    let scope ← Write.freshAlias
    let body ← resolveExpr .bare template
    let depth ← Write.depth
    return indent depth ++ body.print d (subquery depth inner scope)
  | .externalTransform source _ produced transform incoming outgoing temporary => do
    let saved ← Write.depth
    Write.goTo 0
    let inner ← writeTree d limit source
    Write.goTo saved
    let creation ← Creation.resolve d (.operator .externalTransform) incoming temporary
    Write.addSteps [.statement (creation.statement d inner),
      .transform creation.table outgoing transform]
    return Query.print d (← Write.depth) (.read produced none outgoing none)

/-- A choice of columns over anything but an ordering is written as a SELECT of its own. -/
theorem writeTree_selectColumns (d : Dialect) (limit : Option Nat) {source : Tree}
    (h : source.kind ≠ .orderBy) (columns : List Text) :
    writeTree d limit (.selectColumns source columns) = do
      let inner ← Write.nested (writeTree d limit source)
      let scope ← Write.freshAlias
      return selectText d (← Write.depth) (columns.map Item.plain) inner scope .empty := by
  cases source with
  | orderBy => exact absurd rfl h
  | _ => rfl

/-- The steps of a tree, written in one pass. -/
def writeSteps (d : Dialect) (limit : Option Nat) (tree : Tree) : Except Error (List Step) := do
  let (text, pen) ← (writeTree d limit tree).run ⟨0, 0, []⟩
  return pen.steps ++ [.statement text]

/-! ## Going in step -/

section Follows

variable {α β γ δ : Type} {d : Dialect} {m k n : Nat} {f : α → β} {g : γ → δ} {x : Compile α}
  {y : Write β}

/-- The writer goes in step with compiling: from depth `m` it comes to depth `n`, fails where compiling
fails, and else has the same number of subqueries, the steps of the same stages, and the result that `f`
makes of what is compiled. -/
def Follows (d : Dialect) (m n : Nat) (f : α → β) (x : Compile α) (y : Write β) : Prop :=
  ∀ (before : List Step) (s : Progress),
    y.run ⟨m, s.aliases, before ++ s.stages.flatMap (Stage.steps d)⟩ =
      (x.run s).map fun r => (f r.1, ⟨n, r.2.aliases, before ++ r.2.stages.flatMap (Stage.steps d)⟩)

namespace Follows

theorem pure (a : α) : Follows d m m f (Pure.pure a) (Pure.pure (f a)) := fun _ _ => rfl

theorem lift (e : Except Error α) : Follows d m m id (liftM e) (liftM e) := by
  intro before s
  cases e with
  | error e => rfl
  | ok a => rfl

theorem bind {next : α → Compile γ} {next' : β → Write δ} (hx : Follows d m k f x y)
    (hnext : ∀ a, Follows d k n g (next a) (next' (f a))) :
    Follows d m n g (x >>= next) (y >>= next') := by
  intro before s
  rw [StateT.run_bind, StateT.run_bind, hx before s]
  cases x.run s with
  | error e => rfl
  | ok r => exact hnext r.1 before r.2

theorem freshAlias : Follows d m m id Sql.freshAlias Write.freshAlias := fun _ _ => rfl

theorem depth {next : Nat → Write β} (h : Follows d m n f x (next m)) :
    Follows d m n f x (Write.depth >>= next) := h

theorem goTo {next : Unit → Write β} (h : Follows d k n f x (next ())) :
    Follows d m n f x (Write.goTo k >>= next) := h

theorem addStage (stage : Stage) : Follows d m m id (Sql.addStage stage)
    (Write.addSteps (stage.steps d)) := by
  intro before s
  have hsteps : before ++ (s.stages ++ [stage]).flatMap (Stage.steps d) =
      before ++ s.stages.flatMap (Stage.steps d) ++ stage.steps d := by
    simp
  exact congrArg (fun steps => Except.ok ((), Pen.mk m s.aliases steps)) hsteps.symm

/-- The writer may go on where compiling is done, to get back to a depth. -/
theorem settle {next : β → Write β} (hx : Follows d m k f x y)
    (hnext : ∀ a, Follows d k n (fun _ : Unit => f a) (Pure.pure ()) (next (f a))) :
    Follows d m n f x (y >>= next) := by
  intro before s
  rw [StateT.run_bind, hx before s]
  cases x.run s with
  | error e => rfl
  | ok r => exact hnext r.1 before r.2

/-- An input that leaves the depth alone does so one level down too. -/
theorem nested {f : α → Text} {y : Write Text} (hx : Follows d (m + 1) (m + 1) f x y) :
    Follows d m m f x (Write.nested y) :=
  .depth <| .goTo <| hx.settle fun _ => .depth <| .goTo <| .pure ()

/-- A check that is only made on a condition. -/
theorem check {c : Prop} [Decidable c] {e : Except Error Unit} (h : Follows d m n f x y) :
    Follows d m n f
      (do
        if c then liftM e
        x)
      (do
        if c then liftM e
        y) := by
  by_cases hc : c
  · simp only [if_pos hc]
    exact .bind (.lift e) fun _ => h
  · simp only [if_neg hc]
    exact h

/-- An input under its alias. -/
theorem subquery {f : α → Text} {y : Write Text} {next : α → Nat → Compile γ}
    {next' : Text → Nat → Write δ} (hx : Follows d (m + 1) (m + 1) f x y)
    (hnext : ∀ a scope, Follows d m n g (next a scope) (next' (f a) scope)) :
    Follows d m n g (do let a ← x; let scope ← Sql.freshAlias; next a scope)
      (do let text ← Write.nested y; let scope ← Write.freshAlias; next' text scope) :=
  .bind (.nested hx) fun a => .bind .freshAlias (hnext a)

end Follows

end Follows

section

variable {d : Dialect} {limit : Option Nat}

/-- The SELECTs of a batch are written from the inside out, each at a depth of its own. -/
theorem follows_stages (window : Option Window) (final : List Text) (stages : List (List Assignment))
    (columns : List Text) (q : Query) (m base : Nat) :
    Follows d m base (fun q => q.print d base) (compileStages window final stages columns q)
      (writeStages d base window final stages columns (q.print d (base + stages.length))) := by
  induction stages generalizing columns q m with
  | nil => exact .goTo (.pure q)
  | cons stage rest ih =>
    -- the depth that the stages before have left is not used
    exact .bind (.lift _) fun items => .goTo <| .bind .freshAlias fun scope => .depth <|
      ih _ (.select items q scope .empty) _

/-- **Writing goes in step with compiling**, and leaves the depth as it was. -/
theorem follows_tree (d : Dialect) (limit : Option Nat) (t : Tree) (depth : Nat) :
    Follows d depth depth (fun q => q.print d depth) (compile d limit t) (writeTree d limit t) := by
  induction t using compile_induction generalizing depth with
  | table t => exact .depth (.pure _)
  | extend source as partitionBy order ih =>
    exact .check <| .depth <| .goTo <| .bind (ih _) fun q => follows_stages _ _ _ _ q _ depth
  | project source groupBy aggregates ih =>
    exact .bind (.lift _) fun items => .subquery (ih _) fun q scope => .depth <|
      .pure (Query.select (_ ++ items) q scope _)
  | naturalJoin left right type ihl ihr =>
    refine .bind (.lift _) fun _ => .subquery (ihl _) fun l leftAlias => ?_
    exact .subquery (ihr _) fun r rightAlias => .depth <|
      .pure (Query.join _ _ l leftAlias r rightAlias _)
  | thetaJoin left right predicate type suffixes collisions ihl ihr =>
    refine .bind (.lift _) fun _ => .subquery (ihl _) fun l leftAlias => ?_
    refine .subquery (ihr _) fun r rightAlias => .bind (.lift _) fun on => ?_
    exact .depth <| .pure (Query.join _ _ l leftAlias r rightAlias (.predicate on))
  | selectRows source predicate ih =>
    exact .subquery (ih _) fun q scope => .bind (.lift _) fun filter => .depth <|
      .pure (Query.select _ q scope ⟨some filter, [], [], none⟩)
  | selectColumns source columns hkind ih =>
    rw [compile_selectColumns d limit hkind, writeTree_selectColumns d limit hkind]
    exact .subquery (ih _) fun q scope => .depth <| .pure (Query.select _ q scope _)
  | ordered source terms n columns ih | renameColumns source mapping ih | orderBy source terms n ih =>
    exact .subquery (ih _) fun q scope => .depth <| .pure (Query.select _ q scope _)
  | rawStatement source used produced template ih =>
    exact .subquery (ih _) fun q scope => .bind (.lift _) fun body => .depth <|
      .pure (Query.template produced body q scope)
  | externalTransform source used produced transform incoming outgoing temporary ih =>
    -- the statement of its own starts at depth zero, whatever the depth around the node is
    refine .depth <| .goTo <| .bind (ih 0) fun q => .goTo <| .bind (.lift _) fun creation => ?_
    have hsteps : [.statement (creation.statement d (q.print d 0)),
        .transform creation.table outgoing transform] =
        Stage.steps d ⟨creation, q, outgoing, transform⟩ := by
      rw [Stage.steps, Query.statement_eq]
    rw [id, hsteps]
    exact .bind (.addStage _) fun _ => .depth <| .pure _

/-- What is written from any pen is what is compiled from as many subqueries, printed at its depth. -/
theorem writeTree_run (t : Tree) (pen : Pen) :
    (writeTree d limit t).run pen =
      ((compile d limit t).run ⟨pen.aliases, []⟩).map fun r =>
        (r.1.print d pen.depth,
          ⟨pen.depth, r.2.aliases, pen.steps ++ r.2.stages.flatMap (Stage.steps d)⟩) := by
  have h := follows_tree d limit t pen.depth pen.steps ⟨pen.aliases, []⟩
  rwa [List.flatMap_nil, List.append_nil] at h

/-- **A node leaves the depth as it found it**, wherever it stands. -/
theorem writeTree_depth {t : Tree} {pen pen' : Pen} {text : Text}
    (h : (writeTree d limit t).run pen = .ok (text, pen')) : pen'.depth = pen.depth := by
  rw [writeTree_run] at h
  cases hrun : (compile d limit t).run ⟨pen.aliases, []⟩ with
  | error e =>
    rw [hrun] at h
    cases h
  | ok r =>
    rw [hrun] at h
    obtain ⟨-, rfl⟩ := Prod.mk.inj (Except.ok.inj h)
    rfl

/-- **One pass makes the same steps as two.** -/
theorem writeSteps_eq (t : Tree) :
    writeSteps d limit t = (plan d limit t).map (Plan.steps d) := by
  rw [writeSteps, writeTree_run, plan]
  cases (compile d limit t).run ⟨0, []⟩ with
  | error e => rfl
  | ok r =>
    have hsteps : Plan.steps d ⟨r.2.stages, r.1⟩ =
        r.2.stages.flatMap (Stage.steps d) ++ [.statement (r.1.print d 0)] := by
      rw [Plan.steps, Query.statement_eq]
    exact congrArg Except.ok hsteps.symm

end

end SqlPipeline.Sql
