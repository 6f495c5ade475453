import SqlPipeline.Tree

/-!
# Building trees

One function for each operator. Each checks its names against the columns of its
inputs before it builds anything, and the first rule that is broken is the error.
A tree built by these functions has columns that are neither empty nor repeated,
and every column that an expression names is there.
-/

namespace SqlPipeline.Pipeline

/-- Fails on the first of the names that is not among the columns. -/
def requireColumns (place : Place) (columns names : List Text) : Except Error Unit :=
  match names.find? fun name => !columns.contains name with
  | some name => .error (.unknownColumn place name columns)
  | none => .ok ()

/-- Fails on an empty name, and then on the first repeated one. -/
def requireUnique (place : Place) (names : List Text) : Except Error Unit :=
  if names.any List.isEmpty then .error (.emptyColumn place)
  else
    match Text.firstRepeat names with
    | some name => .error (.duplicateColumn place name)
    | none => .ok ()

/-- Fails on an expression that refers to the incoming relation. -/
def requireNoInput (kind : OperatorKind) (e : Expr) : Except Error Unit :=
  if e.hasInput then .error (.inputOutsideTemplate kind) else .ok ()

/-! ## Tables -/

/-- Describes a table. -/
def describe (name : Text) (columns : List Text) (qualifier : Option Text) : Except Error Table := do
  if name.isEmpty then throw .emptyTableName
  if columns.isEmpty then throw (.noTableColumns name)
  if qualifier = some [] then throw (.emptySchemaQualifier name)
  requireUnique (.table name) columns
  return ⟨name, columns, qualifier⟩

/-- Reads a table. -/
def table (name : Text) (columns : List Text) (qualifier : Option Text) : Except Error Tree := do
  return .table (← describe name columns qualifier)

/-! ## Computed columns -/

/-- Checks assignments in order; each sees the columns before it and its own target from then on. -/
def requireAssignments (visible : List Text) : List Assignment → Except Error Unit
  | [] => .ok ()
  | a :: rest => do
    if a.target.isEmpty then throw .emptyTarget
    requireNoInput .extend a.expr
    requireColumns (.operator .extend) visible a.reads
    requireAssignments (Text.appendNew visible [a.target]) rest

/-- Fails on the first window column that is assigned. -/
def requireUnassigned (targets window : List Text) : Except Error Unit :=
  match window.find? targets.contains with
  | some name => .error (.windowColumnAssigned name)
  | none => .ok ()

/-- Adds or overwrites columns. -/
def extend (source : Tree) (assignments : List Assignment) (partitionBy : List Text)
    (orderBy : List OrderTerm) : Except Error Tree := do
  if assignments.isEmpty then throw .noAssignments
  requireAssignments source.schema assignments
  let window := windowColumns partitionBy orderBy
  requireColumns (.operator .extend) source.schema window
  requireUnassigned (assignments.map Assignment.target) window
  requireUnique .partitionColumns partitionBy
  let _ ← partition source.schema assignments
  return .extend source assignments partitionBy orderBy

/-- Checks that each aggregate reads columns that are there. -/
def requireAggregates (columns : List Text) : List Assignment → Except Error Unit
  | [] => .ok ()
  | a :: rest => do
    requireNoInput .project a.expr
    requireColumns (.operator .project) columns a.reads
    requireAggregates columns rest

/-- Groups the rows and aggregates each group. -/
def project (source : Tree) (groupBy : List Text) (aggregates : List Assignment) :
    Except Error Tree := do
  if groupBy.isEmpty && aggregates.isEmpty then throw .emptyProject
  requireColumns (.operator .project) source.schema groupBy
  requireAggregates source.schema aggregates
  requireUnique (.operator .project) (groupBy ++ aggregates.map Assignment.target)
  return .project source groupBy aggregates

/-! ## Joins -/

/-- Joins on equality of all shared columns. -/
def naturalJoin (left right : Tree) (type : JoinType) : Except Error Tree :=
  if (sharedColumns left.schema right.schema).isEmpty then
    .error (.noSharedColumns left.schema right.schema)
  else .ok (.naturalJoin left right type)

/-- Fails when the suffixes cannot tell the colliding names apart. -/
def requireSuffixes (suffixes : Suffixes) (collisions : List Text) : Except Error Unit :=
  match collisions with
  | [] => .ok ()
  | name :: _ => if suffixes.left = suffixes.right then .error (.equalSuffixes name) else .ok ()

/-- Joins on a predicate over the given colliding names, which outlive the columns themselves. -/
def thetaJoinWith (left right : Tree) (predicate : Expr) (type : JoinType) (suffixes : Suffixes)
    (collisions : List Text) : Except Error Tree := do
  requireSuffixes suffixes collisions
  let columns :=
    (joinColumns left.schema right.schema collisions suffixes).map JoinColumn.output
  requireUnique (.operator .thetaJoin) columns
  requireNoInput .thetaJoin predicate
  requireColumns (.operator .thetaJoin) columns predicate.columns
  return .thetaJoin left right predicate type suffixes collisions

/-- Joins on a predicate. -/
def thetaJoin (left right : Tree) (predicate : Expr) (type : JoinType) (suffixes : Suffixes) :
    Except Error Tree :=
  thetaJoinWith left right predicate type suffixes (sharedColumns left.schema right.schema)

/-! ## Rows and columns -/

/-- Keeps the rows of which the predicate is true. -/
def selectRows (source : Tree) (predicate : Expr) : Except Error Tree := do
  requireNoInput .selectRows predicate
  if predicate.pieces.isEmpty then throw .emptyPredicate
  requireColumns (.operator .selectRows) source.schema predicate.columns
  return .selectRows source predicate

/-- Keeps the columns, in the order given. -/
def selectColumns (source : Tree) (columns : List Text) : Except Error Tree := do
  if columns.isEmpty then throw .noSelectedColumns
  requireColumns (.operator .selectColumns) source.schema columns
  requireUnique (.operator .selectColumns) columns
  return .selectColumns source columns

/-- Gives columns new names, all at once, so that names can be swapped. -/
def renameColumns (source : Tree) (mapping : List Rename) : Except Error Tree := do
  requireColumns (.operator .renameColumns) source.schema (mapping.map Rename.old)
  requireUnique .renameSources (mapping.map Rename.old)
  requireUnique .renameTargets (mapping.map Rename.new)
  requireUnique (.operator .renameColumns) (source.schema.map (renamed mapping))
  return .renameColumns source mapping

/-- Sorts the rows and keeps at most so many. -/
def orderBy (source : Tree) (terms : List OrderTerm) (limit : Option Nat) : Except Error Tree := do
  if terms.isEmpty && limit.isNone then throw .emptyOrdering
  requireColumns (.operator .orderBy) source.schema (terms.map OrderTerm.column)
  requireUnique (.operator .orderBy) (terms.map OrderTerm.column)
  return .orderBy source terms limit

/-! ## Statements and transforms of the caller -/

/-- Puts a statement written by hand around the incoming relation. Its names are columns of the input
or of the output. -/
def rawStatement (source : Tree) (used produced : List Text) (template : Expr) :
    Except Error Tree := do
  if !template.hasInput then throw .templateWithoutInput
  if produced.isEmpty then throw (.noProducedColumns .rawStatement)
  requireColumns (.operator .rawStatement) source.schema used
  requireUnique (.operator .rawStatement) produced
  requireColumns (.operator .rawStatement) (Text.appendNew source.schema produced) template.columns
  return .rawStatement source used produced template

/-- A transform that has to be there. -/
def requireTransform : Option Transform → Except Error Transform
  | some t => .ok t
  | none => .error .missingTransform

/-- Delegates work to the caller between two staging tables. -/
def externalTransform (source : Tree) (used produced : List Text) (transform : Option Transform)
    (incoming outgoing : Text) (temporary : Bool) : Except Error Tree := do
  let transform ← requireTransform transform
  if incoming.isEmpty || outgoing.isEmpty then throw .emptyStagingName
  if incoming = outgoing then throw (.equalStagingNames incoming)
  if produced.isEmpty then throw (.noProducedColumns .externalTransform)
  requireColumns (.operator .externalTransform) source.schema used
  requireUnique .transformInputs used
  requireUnique (.operator .externalTransform) produced
  return .externalTransform source used produced transform incoming outgoing temporary

end SqlPipeline.Pipeline
