import SqlPipeline.Expr.Reader
import SqlPipeline.Operator
import SqlPipeline.Pipeline.StepFault

/-!
# Errors

Every way in which building, narrowing, compiling or running a pipeline can fail
is one constructor of `Error`, with what the failure is about. `Error.message` is
the one place that words them, and `Error.family` sorts them. A message ends at
the first NUL byte, whatever name it quotes.
-/

namespace SqlPipeline

/-- Where a rule about column names was broken. -/
inductive Place where
  | operator (kind : OperatorKind)
  | table (name : Text)
  | partitionColumns
  | renameSources
  | renameTargets
  | transformInputs
  | quantile
  | quantileColumns
  | narrowing
  deriving Repr, DecidableEq

/-- The words that open a message about the place. -/
def Place.label : Place → Text
  | operator kind => kind.name
  | table name => Text.untilNul ("Table '" ++ name ++ "'")
  | partitionColumns => "Extend partition_by"
  | renameSources => "RenameColumns sources"
  | renameTargets => "RenameColumns targets"
  | transformInputs => "ExternalTransform inputs"
  | quantile => "Quantile"
  | quantileColumns => "Quantile columns"
  | narrowing => "narrow"

/-- What asks a dialect for a capability. -/
inductive Requester where
  | operator (kind : OperatorKind)
  | quantile
  | materialize
  deriving Repr, DecidableEq

/-- The name of what asks. -/
def Requester.name : Requester → Text
  | operator kind => kind.name
  | quantile => "Quantile"
  | materialize => "Materialize"

/-- What a dialect may lack. -/
inductive Capability where
  | windowFunctions
  | joins (type : JoinType)
  | temporaryTables
  deriving Repr, DecidableEq

/-- The name of a capability. -/
def Capability.name : Capability → Text
  | windowFunctions => "window functions"
  | joins type => type.name ++ " joins"
  | temporaryTables => "temporary tables"

/-- Why a request failed. -/
inductive Error where
  -- inputs that are not there
  | missingInput (kind : OperatorKind)
  | missingQuantileSource
  | missingTransform
  | nothingToNarrow
  | nothingToGenerate
  -- rules about tables and columns
  | emptyTableName
  | noTableColumns (table : Text)
  | emptySchemaQualifier (table : Text)
  | emptyColumn (place : Place)
  | duplicateColumn (place : Place) (name : Text)
  | unknownColumn (place : Place) (name : Text) (available : List Text)
  | inputOutsideTemplate (kind : OperatorKind)
  | noAssignments
  | emptyTarget
  | windowColumnAssigned (name : Text)
  | emptyProject
  | equalSuffixes (shared : Text)
  | emptyPredicate
  | noSelectedColumns
  | emptyOrdering
  | templateWithoutInput
  | noProducedColumns (kind : OperatorKind)
  | noOutputColumns
  | emptyProbabilityName
  | probabilityNameTaken (name : Text)
  | reservedColumn (name : Text)
  -- assignments and joins
  | circularAssignments (targets : List Text)
  | noSharedColumns (left right : List Text)
  -- staging tables and quantiles
  | emptyStagingName
  | equalStagingNames (name : Text)
  | noProbability
  | probabilityOutOfRange (value : Binary64)
  | countMismatch (columns counts : Nat)
  | unexpectedCount (value column : Text)
  -- statements
  | unsupported (requester : Requester) (capability : Capability) (dialect : Text)
  | unnamedTable
  | nonFiniteNumber (value : Binary64)
  | unknownDialect (name : Text)
  -- expression text and documents
  | badExpression (error : SyntaxError)
  | badStep (path : Text) (fault : Pipeline.StepFault)
  | badJson (words : Text)
  /-- A failure of the JSON library that is no fault of the document's form. -/
  | jsonFailure (words : Text)
  | unreadableFile (path : Text)
  deriving Repr

namespace Error

/-- The sorts of errors that callers tell apart. -/
inductive Family where
  | general
  | schema
  | partition
  | joinKey
  | dialect
  | expression
  | system
  deriving Repr, DecidableEq

/-- The sort of an error. -/
def family : Error → Family
  | emptyTableName | noTableColumns _ | emptySchemaQualifier _ | emptyColumn _ | duplicateColumn ..
  | unknownColumn .. | inputOutsideTemplate _ | noAssignments | emptyTarget | windowColumnAssigned _
  | emptyProject | equalSuffixes _ | emptyPredicate | noSelectedColumns | emptyOrdering
  | templateWithoutInput | noProducedColumns _ | noOutputColumns | emptyProbabilityName
  | probabilityNameTaken _ | reservedColumn _ => .schema
  | circularAssignments _ => .partition
  | noSharedColumns .. => .joinKey
  | unsupported .. => .dialect
  | badExpression _ => .expression
  | jsonFailure _ | unreadableFile _ => .system
  | _ => .general

/-- The column or table a schema error is about, empty when there is none. -/
def subject : Error → Text
  | noTableColumns table | emptySchemaQualifier table => table
  | duplicateColumn _ name | unknownColumn _ name _ | windowColumnAssigned name | equalSuffixes name
  | probabilityNameTaken name | reservedColumn name => name
  | _ => []

/-- A list of names with commas between them. -/
def nameList (names : List Text) : Text := Text.join ", " names

/-- The wording of an error, before the cut at a NUL byte. -/
def wording : Error → Text
  | missingInput kind => kind.name ++ ": missing input node"
  | missingQuantileSource => "Quantile: missing source"
  | missingTransform => "ExternalTransform: missing transform"
  | nothingToNarrow => "narrow: missing tree"
  | nothingToGenerate => "generate: missing tree"
  | emptyTableName => "Table name must not be empty"
  | noTableColumns table => "Table '" ++ table ++ "' must have at least one column"
  | emptySchemaQualifier table => "Schema qualifier of table '" ++ table ++ "' must not be empty"
  | emptyColumn place => place.label ++ ": empty column name"
  | duplicateColumn place name => place.label ++ ": duplicate column '" ++ name ++ "'"
  | unknownColumn place name available =>
    place.label ++ ": unknown column '" ++ name ++ "' (available: " ++ nameList available ++ ")"
  | inputOutsideTemplate kind =>
    kind.name ++ ": \x7binput\x7d is only allowed in raw statement templates"
  | noAssignments => "Extend: at least one assignment is required"
  | emptyTarget => "Extend: empty assignment target"
  | windowColumnAssigned name => "Extend: window column '" ++ name ++ "' is also assigned"
  | emptyProject => "Project: needs at least one group column or aggregate"
  | equalSuffixes shared => "ThetaJoin: suffixes must differ to separate shared column '" ++ shared ++ "'"
  | emptyPredicate => "SelectRows: empty predicate"
  | noSelectedColumns => "SelectColumns: at least one column is required"
  | emptyOrdering => "OrderBy: needs at least one order column or a limit"
  | templateWithoutInput =>
    "RawStatement: template must reference the incoming relation as \x7binput\x7d"
  | noProducedColumns kind => kind.name ++ ": at least one produced column is required"
  | noOutputColumns => "narrow: at least one output column is required"
  | emptyProbabilityName => "Quantile: probability column name must not be empty"
  | probabilityNameTaken name =>
    "Quantile: probability column '" ++ name ++ "' must differ from the quantile columns"
  | reservedColumn name => "Quantile: column name '" ++ name ++ "' is reserved"
  | circularAssignments targets =>
    "Cannot order assignments (circular dependency among: " ++ nameList targets ++ ")"
  | noSharedColumns left right =>
    "NaturalJoin: no shared columns between (" ++ nameList left ++ ") and (" ++ nameList right ++ ")"
  | emptyStagingName => "ExternalTransform: staging table names must not be empty"
  | equalStagingNames name =>
    "ExternalTransform: incoming and outgoing tables must differ ('" ++ name ++ "')"
  | noProbability => "Quantile: at least one probability is required"
  | probabilityOutOfRange value => "Quantile: probability " ++ value.toText ++ " is outside [0, 1]"
  | countMismatch columns counts =>
    "Quantile: expected " ++ Text.ofNat columns ++ " column counts, got " ++ Text.ofNat counts
  | unexpectedCount value column =>
    "Quantile: unexpected count '" ++ value ++ "' for column '" ++ column ++ "'"
  | unsupported requester capability dialect =>
    requester.name ++ " node requires " ++ capability.name ++ ", which dialect '" ++ dialect ++
      "' does not support"
  | unnamedTable => "CREATE TABLE needs a table name"
  | nonFiniteNumber value => "Cannot render non-finite number " ++ value.toText ++ " as SQL"
  | unknownDialect name =>
    "Unknown dialect: " ++ name ++ " (expected generic, postgresql, sqlite or spark)"
  | badExpression error => error.fault.message ++ " at position " ++ Text.ofNat error.position
  | badStep path fault => path ++ ": " ++ fault.message
  | badJson words => "Invalid pipeline JSON: " ++ words
  | jsonFailure words => words
  | unreadableFile path => "Failed to open file: " ++ path

/-- The message of an error, which ends at the first NUL byte. -/
def message (e : Error) : Text := Text.untilNul e.wording

end Error

end SqlPipeline
