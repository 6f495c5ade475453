import SqlPipeline.Partition
import SqlPipeline.Transform

/-!
# Operator trees

A tree of relational operators over described tables. It carries no data: what is
known of a node is the columns it puts out, in order (`Tree.schema`), and the
columns its own expressions and keys read (`Tree.localUses`), both computed from
the operator and the columns of its inputs. A node keeps its columns once they are
computed, so that a tree used as an input of several others is looked at once and
not once for each path to it. Whether a tree makes sense is not a
matter of this type; the functions of `Pipeline` build only trees that do.
-/

namespace SqlPipeline

/-- A table and the columns it has, by name only. -/
structure Table where
  name : Text
  columns : List Text
  /-- The schema that holds the table. -/
  qualifier : Option Text
  deriving Repr, DecidableEq

/-- The name of a table after the name of the schema that holds it. -/
def Table.qualifiedName (t : Table) : Text :=
  match t.qualifier with
  | some schema => schema ++ "." ++ t.name
  | none => t.name

/-- One column under a new name. -/
structure Rename where
  new : Text
  old : Text
  deriving Repr, DecidableEq

/-- What is added to the shared names of the two sides of a join. -/
structure Suffixes where
  left : Text
  right : Text
  deriving Repr, DecidableEq

/-- The suffixes used when none are given. -/
def Suffixes.default : Suffixes := ⟨"_a", "_b"⟩

/-! ## Columns -/

/-- The columns of the left side that the right side has too. -/
def sharedColumns (left right : List Text) : List Text := left.filter right.contains

/-- The columns of a natural join: those of the left side, then the right side's own. -/
def naturalColumns (left right : List Text) : List Text :=
  let shared := sharedColumns left right
  left ++ right.filter fun name => !shared.contains name

/-- A column of a join on a predicate, and where it comes from. -/
structure JoinColumn where
  fromLeft : Bool
  input : Text
  output : Text
  deriving Repr, DecidableEq

/-- The columns of a join on a predicate. A colliding name gets its side's suffix even where only one
side still has it. -/
def joinColumns (left right collisions : List Text) (suffixes : Suffixes) : List JoinColumn :=
  let column (fromLeft : Bool) (suffix name : Text) : JoinColumn :=
    ⟨fromLeft, name, if collisions.contains name then name ++ suffix else name⟩
  left.map (column true suffixes.left) ++ right.map (column false suffixes.right)

/-- The new name of a column. -/
def renamed (mapping : List Rename) (name : Text) : Text :=
  match mapping.find? fun r => r.old == name with
  | some r => r.new
  | none => name

/-- A relational operator on its inputs. -/
inductive Tree where
  | table (table : Table)
  /-- Adds or overwrites columns, one assignment after the other, over windows if columns are given. -/
  | extend (source : Tree) (assignments : List Assignment) (partitionBy : List Text)
      (orderBy : List OrderTerm)
  /-- One row for each group. -/
  | project (source : Tree) (groupBy : List Text) (aggregates : List Assignment)
  /-- Joins on equality of all shared columns. -/
  | naturalJoin (left right : Tree) (type : JoinType)
  /-- Joins on a predicate; the colliding names get the suffixes. -/
  | thetaJoin (left right : Tree) (predicate : Expr) (type : JoinType) (suffixes : Suffixes)
      (collisions : List Text)
  | selectRows (source : Tree) (predicate : Expr)
  | selectColumns (source : Tree) (columns : List Text)
  /-- Gives all the new names at once. -/
  | renameColumns (source : Tree) (mapping : List Rename)
  | orderBy (source : Tree) (terms : List OrderTerm) (limit : Option Nat)
  /-- A statement written by hand around the incoming relation. -/
  | rawStatement (source : Tree) (used produced : List Text) (template : Expr)
  /-- Work delegated to the caller between two staging tables. -/
  | externalTransform (source : Tree) (used produced : List Text) (transform : Transform)
      (incoming outgoing : Text) (temporary : Bool)
with
  /-- The columns that a tree puts out, in order; each node keeps its own. -/
  @[computed_field]
  schema : Tree → List Text
    | .table t => t.columns
    | .extend source assignments _ _ =>
      Text.appendNew source.schema (assignments.map Assignment.target)
    | .project _ groupBy aggregates => groupBy ++ aggregates.map Assignment.target
    | .naturalJoin left right _ => naturalColumns left.schema right.schema
    | .thetaJoin left right _ _ suffixes collisions =>
      (joinColumns left.schema right.schema collisions suffixes).map JoinColumn.output
    | .selectRows source _ => source.schema
    | .selectColumns _ columns => columns
    | .renameColumns source mapping => source.schema.map (renamed mapping)
    | .orderBy source _ _ => source.schema
    | .rawStatement _ _ produced _ => produced
    | .externalTransform _ _ produced _ _ _ _ => produced

/-! ## Reads -/

/-- The stages of a batch, or none when the batch has no order. -/
def stagesOf (available : List Text) (as : List Assignment) : List (List Assignment) :=
  match partition available as with
  | .ok stages => stages
  | .error _ => []

/-- The columns that a window is cut and ordered by. -/
def windowColumns (partitionBy : List Text) (orderBy : List OrderTerm) : List Text :=
  partitionBy ++ orderBy.map OrderTerm.column

/-- The input columns that a batch reads before it writes them, added to `uses` in reading order. -/
def readBeforeWritten (input assigned uses : List Text) : List Assignment → List Text
  | [] => uses
  | a :: rest =>
    let fresh := a.reads.filter fun name => input.contains name && !assigned.contains name
    readBeforeWritten input (a.target :: assigned) (Text.appendNew uses fresh) rest

namespace Tree

/-- The columns that the root's own expressions and keys read. -/
def localUses : Tree → List Text
  | table _ => []
  | extend source assignments partitionBy order =>
    Text.appendNew (readBeforeWritten source.schema [] [] assignments)
      (windowColumns partitionBy order)
  | project _ groupBy aggregates => Text.appendNew groupBy (aggregates.flatMap Assignment.reads)
  | naturalJoin left right _ => sharedColumns left.schema right.schema
  | thetaJoin _ _ predicate _ _ _ => predicate.columns
  | selectRows _ predicate => predicate.columns
  | selectColumns _ columns => columns
  | renameColumns _ mapping => mapping.map Rename.old
  | orderBy _ terms _ => terms.map OrderTerm.column
  | rawStatement source used _ template =>
    Text.appendNew used (template.columns.filter source.schema.contains)
  | externalTransform _ used _ _ _ _ _ => used

/-- The kind of the root. -/
def kind : Tree → OperatorKind
  | table _ => .tableSource
  | extend .. => .extend
  | project .. => .project
  | naturalJoin .. => .naturalJoin
  | thetaJoin .. => .thetaJoin
  | selectRows .. => .selectRows
  | selectColumns .. => .selectColumns
  | renameColumns .. => .renameColumns
  | orderBy .. => .orderBy
  | rawStatement .. => .rawStatement
  | externalTransform .. => .externalTransform

/-- The inputs of the root, left before right. -/
def children : Tree → List Tree
  | table _ => []
  | naturalJoin left right _ | thetaJoin left right _ _ _ _ => [left, right]
  | extend source .. | project source .. | selectRows source _ | selectColumns source _
  | renameColumns source _ | orderBy source .. | rawStatement source ..
  | externalTransform source .. => [source]

/-- The table sources of a tree, from left to right. -/
def tables : Tree → List Table
  | table t => [t]
  | naturalJoin left right _ | thetaJoin left right _ _ _ _ => left.tables ++ right.tables
  | extend source .. | project source .. | selectRows source _ | selectColumns source _
  | renameColumns source _ | orderBy source .. | rawStatement source ..
  | externalTransform source .. => source.tables

/-- A tree that has to be there. -/
def require (error : Error) : Option Tree → Except Error Tree
  | some t => .ok t
  | none => .error error

end Tree

end SqlPipeline
