import SqlPipeline.Sql.Query

/-!
# Plans

Compiling a tree gives a plan: one query for the root, and before it one stage for
each transform in the tree. A stage makes the incoming table of its transform from
a query of its own, then the transform runs, and the transform's node becomes a
read of the outgoing table. Stages come in the order in which they have to run, a
transform below another one first.

Subqueries are numbered from one in the order in which they are finished, over all
queries of the plan. Compiling fails at the first node that needs what the dialect
lacks, or at the first constant that cannot be written.
-/

namespace SqlPipeline.Sql

/-- A table to make, and the transform that reads it and makes another. -/
structure Stage where
  creation : Creation
  query : Query
  outgoing : Text
  transform : Transform

/-- The stages of a tree and the query of its root. -/
structure Plan where
  stages : List Stage
  root : Query

/-- What has been made so far: the number of subqueries and the stages. -/
structure Progress where
  aliases : Nat
  stages : List Stage

/-- A step of compiling. -/
abbrev Compile := StateT Progress (Except Error)

/-- The next number for a subquery. -/
def freshAlias : Compile Nat :=
  modifyGet fun p => (p.aliases + 1, ⟨p.aliases + 1, p.stages⟩)

/-- Adds a stage after those there are. -/
def addStage (stage : Stage) : Compile Unit :=
  modify fun p => ⟨p.aliases, p.stages ++ [stage]⟩

/-- A piece with its column resolved; a constant has to be one that can be written. -/
def resolvePiece (resolve : Text → Ref) : Piece → Except Error Part
  | .var name => .ok (.ref (resolve name))
  | .const (.float x) =>
    if x.isFinite then .ok (.literal (.float x)) else .error (.nonFiniteNumber x)
  | .const value => .ok (.literal value)
  | .text value => .ok (.text value)
  | .input => .ok .input

/-- The pieces with their columns resolved, up to the first constant that cannot be written. -/
def resolvePieces (resolve : Text → Ref) : List Piece → Except Error Term
  | [] => .ok []
  | piece :: rest => do
    let part ← resolvePiece resolve piece
    let parts ← resolvePieces resolve rest
    return part :: parts

/-- An expression with its columns resolved. -/
def resolveExpr (resolve : Text → Ref) (e : Expr) : Except Error Term := resolvePieces resolve e.pieces

/-- An item for each column, computed where the stage assigns it. -/
def stageItems (window : Option Window) (stage : List Assignment) :
    List Text → Except Error (List Item)
  | [] => .ok []
  | name :: rest => do
    let item ←
      match stage.find? fun a => a.target == name with
      | some a => do
        let term ← resolveExpr .bare a.expr
        pure ⟨.computed term window, some name⟩
      | none => pure (Item.plain name)
    let items ← stageItems window stage rest
    return item :: items

/-- Wraps a query that puts out `columns` into one SELECT for each stage; the last one lists the
columns in their final order. -/
def compileStages (window : Option Window) (final : List Text) :
    List (List Assignment) → List Text → Query → Compile Query
  | [], _, query => pure query
  | stage :: rest, columns, query => do
    let columns :=
      if rest.isEmpty then final else Text.appendNew columns (stage.map Assignment.target)
    let items ← stageItems window stage columns
    let scope ← freshAlias
    compileStages window final rest columns (.select items query scope .empty)

/-- The aggregates of a grouping, each under its name. -/
def aggregateItems : List Assignment → Except Error (List Item)
  | [] => .ok []
  | a :: rest => do
    let term ← resolveExpr .bare a.expr
    let items ← aggregateItems rest
    return ⟨.aggregate term, some a.target⟩ :: items

/-- A column of a natural join. A shared column comes from a side that has every row. -/
def naturalItem (type : JoinType) (left shared : List Text) (leftAlias rightAlias : Nat)
    (name : Text) : Item :=
  let l := Ref.through leftAlias name
  let r := Ref.through rightAlias name
  if shared.contains name then
    match type with
    | .inner | .left => ⟨.column l, some name⟩
    | .right => ⟨.column r, some name⟩
    | .full => ⟨.coalesce l r, some name⟩
  else ⟨.column (if left.contains name then l else r), none⟩

/-- Where a column of a join on a predicate comes from. -/
def joinRef (leftAlias rightAlias : Nat) (column : JoinColumn) : Ref :=
  .through (if column.fromLeft then leftAlias else rightAlias) column.input

/-- A column of a join on a predicate, under its new name if it has one. -/
def joinItem (leftAlias rightAlias : Nat) (column : JoinColumn) : Item :=
  ⟨.column (joinRef leftAlias rightAlias column),
    if column.output = column.input then none else some column.output⟩

/-- What a name in the predicate of a join refers to. -/
def resolveJoin (leftAlias rightAlias : Nat) (columns : List JoinColumn) (name : Text) : Ref :=
  match columns.find? fun column => column.output == name with
  | some column => joinRef leftAlias rightAlias column
  | none => .bare name

/-- A column of a renaming, under its new name if it has one. -/
def renameItem (mapping : List Rename) (name : Text) : Item :=
  let new := renamed mapping name
  ⟨.column (.bare name), if new = name then none else some new⟩

/-- The window of an extension; without columns there is none. -/
def windowOf (partitionBy : List Text) (orderBy : List OrderTerm) : Option Window :=
  if partitionBy.isEmpty && orderBy.isEmpty then none else some ⟨partitionBy, orderBy⟩

/-- Compiles a tree; every table read is cut to `sourceLimit` rows. -/
def compile (d : Dialect) (sourceLimit : Option Nat) : Tree → Compile Query
  | .table t => pure (.read t.columns t.qualifier t.name sourceLimit)
  | .extend source assignments partitionBy orderBy => do
    let window := windowOf partitionBy orderBy
    if window.isSome then d.requireWindows (.operator .extend)
    let query ← compile d sourceLimit source
    let columns := source.schema
    compileStages window (Text.appendNew columns (assignments.map Assignment.target))
      (stagesOf columns assignments) columns query
  | .project source groupBy aggregates => do
    let aggregated ← aggregateItems aggregates
    let query ← compile d sourceLimit source
    let scope ← freshAlias
    return .select (groupBy.map Item.plain ++ aggregated) query scope ⟨none, groupBy, [], none⟩
  | .naturalJoin left right type => do
    d.requireJoin .naturalJoin type
    let leftQuery ← compile d sourceLimit left
    let leftAlias ← freshAlias
    let rightQuery ← compile d sourceLimit right
    let rightAlias ← freshAlias
    let leftColumns := left.schema
    let rightColumns := right.schema
    let shared := sharedColumns leftColumns rightColumns
    let items := (naturalColumns leftColumns rightColumns).map
      (naturalItem type leftColumns shared leftAlias rightAlias)
    return .join items type leftQuery leftAlias rightQuery rightAlias (.keys shared)
  | .thetaJoin left right predicate type suffixes collisions => do
    d.requireJoin .thetaJoin type
    let leftQuery ← compile d sourceLimit left
    let leftAlias ← freshAlias
    let rightQuery ← compile d sourceLimit right
    let rightAlias ← freshAlias
    let columns := joinColumns left.schema right.schema collisions suffixes
    let on ← resolveExpr (resolveJoin leftAlias rightAlias columns) predicate
    return .join (columns.map (joinItem leftAlias rightAlias)) type leftQuery leftAlias rightQuery
      rightAlias (.predicate on)
  | .selectRows source predicate => do
    let query ← compile d sourceLimit source
    let scope ← freshAlias
    let filter ← resolveExpr .bare predicate
    return .select (source.schema.map Item.plain) query scope ⟨some filter, [], [], none⟩
  | .selectColumns (.orderBy source terms limit) columns => do
    -- the order of a subquery's rows is not kept, so the ordering moves out of it
    let query ← compile d sourceLimit source
    let scope ← freshAlias
    return .select (columns.map Item.plain) query scope ⟨none, [], terms, limit⟩
  | .selectColumns source columns => do
    let query ← compile d sourceLimit source
    let scope ← freshAlias
    return .select (columns.map Item.plain) query scope .empty
  | .renameColumns source mapping => do
    let query ← compile d sourceLimit source
    let scope ← freshAlias
    return .select (source.schema.map (renameItem mapping)) query scope .empty
  | .orderBy source terms limit => do
    let query ← compile d sourceLimit source
    let scope ← freshAlias
    return .select (source.schema.map Item.plain) query scope ⟨none, [], terms, limit⟩
  | .rawStatement source _ produced template => do
    let query ← compile d sourceLimit source
    let scope ← freshAlias
    let body ← resolveExpr .bare template
    return .template produced body query scope
  | .externalTransform source _ produced transform incoming outgoing temporary => do
    let query ← compile d sourceLimit source
    let creation ← Creation.resolve d (.operator .externalTransform) incoming temporary
    addStage ⟨creation, query, outgoing, transform⟩
    return .read produced none outgoing none

/-- A choice of columns over anything but an ordering is a SELECT of its own. -/
theorem compile_selectColumns (d : Dialect) (sourceLimit : Option Nat) {source : Tree}
    (h : source.kind ≠ .orderBy) (columns : List Text) :
    compile d sourceLimit (.selectColumns source columns) = do
      let query ← compile d sourceLimit source
      let scope ← freshAlias
      return .select (columns.map Item.plain) query scope .empty := by
  cases source with
  | orderBy => exact absurd rfl h
  | _ => rfl

/-- Induction over the trees in the way in which they are compiled: a choice of columns right over an
ordering takes the ordering with it, and goes on with what is ordered. -/
@[elab_as_elim]
theorem compile_induction {motive : Tree → Prop}
    (table : ∀ t, motive (.table t))
    (extend : ∀ source assignments partitionBy orderBy, motive source →
      motive (.extend source assignments partitionBy orderBy))
    (project : ∀ source groupBy aggregates, motive source →
      motive (.project source groupBy aggregates))
    (naturalJoin : ∀ left right type, motive left → motive right →
      motive (.naturalJoin left right type))
    (thetaJoin : ∀ left right predicate type suffixes collisions, motive left → motive right →
      motive (.thetaJoin left right predicate type suffixes collisions))
    (selectRows : ∀ source predicate, motive source → motive (.selectRows source predicate))
    (ordered : ∀ source terms limit columns, motive source →
      motive (.selectColumns (.orderBy source terms limit) columns))
    (selectColumns : ∀ source columns, source.kind ≠ .orderBy → motive source →
      motive (.selectColumns source columns))
    (renameColumns : ∀ source mapping, motive source → motive (.renameColumns source mapping))
    (orderBy : ∀ source terms limit, motive source → motive (.orderBy source terms limit))
    (rawStatement : ∀ source used produced template, motive source →
      motive (.rawStatement source used produced template))
    (externalTransform : ∀ source used produced transform incoming outgoing temporary,
      motive source →
        motive (.externalTransform source used produced transform incoming outgoing temporary))
    (t : Tree) : motive t := by
  -- an ordering needs both: what holds of itself, and of what it orders
  have both : motive t ∧ ∀ source terms limit, t = .orderBy source terms limit → motive source := by
    induction t with
    | table t => exact ⟨table t, nofun⟩
    | extend source assignments partitionBy order ih => exact ⟨extend _ _ _ _ ih.1, nofun⟩
    | project source groupBy aggregates ih => exact ⟨project _ _ _ ih.1, nofun⟩
    | naturalJoin left right type ihl ihr => exact ⟨naturalJoin _ _ _ ihl.1 ihr.1, nofun⟩
    | thetaJoin left right predicate type suffixes collisions ihl ihr =>
      exact ⟨thetaJoin _ _ _ _ _ _ ihl.1 ihr.1, nofun⟩
    | selectRows source predicate ih => exact ⟨selectRows _ _ ih.1, nofun⟩
    | selectColumns source columns ih =>
      refine ⟨?_, nofun⟩
      by_cases hkind : source.kind = .orderBy
      · cases source with
        | orderBy source terms limit => exact ordered _ _ _ _ (ih.2 _ _ _ rfl)
        | _ => cases hkind
      · exact selectColumns _ _ hkind ih.1
    | renameColumns source mapping ih => exact ⟨renameColumns _ _ ih.1, nofun⟩
    | orderBy source terms limit ih =>
      refine ⟨orderBy _ _ _ ih.1, fun source' terms' limit' he => ?_⟩
      cases he
      exact ih.1
    | rawStatement source used produced template ih => exact ⟨rawStatement _ _ _ _ ih.1, nofun⟩
    | externalTransform source used produced transform incoming outgoing temporary ih =>
      exact ⟨externalTransform _ _ _ _ _ _ _ ih.1, nofun⟩
  exact both.1

/-- The plan of a tree. -/
def plan (d : Dialect) (sourceLimit : Option Nat) (tree : Tree) : Except Error Plan := do
  let (root, progress) ← (compile d sourceLimit tree).run ⟨0, []⟩
  return ⟨progress.stages, root⟩

end SqlPipeline.Sql
