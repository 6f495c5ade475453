import SqlPipeline.Tree

/-!
# The plain view of a tree

One line for each operator, the inputs below it and two spaces further in. The
view shows everything that tells two trees apart except the identity of a
transform, of which it shows the name.
-/

namespace SqlPipeline

/-- Names in parentheses with commas between them. -/
def parenthesized (names : List Text) : Text := "(" ++ Error.nameList names ++ ")"

/-- A batch of assignments in plain notation. -/
def displayAssignments (as : List Assignment) : Text := Text.join ", " (as.map Assignment.display)

/-- The terms of an ordering in plain notation. -/
def displayOrder (terms : List OrderTerm) : Text := Text.join ", " (terms.map OrderTerm.display)

namespace Tree

/-- The root without its inputs. -/
def headline : Tree → Text
  | table t => "TableSource " ++ t.qualifiedName ++ " " ++ parenthesized t.columns
  | extend source assignments partitionBy order =>
    let stages := (stagesOf source.schema assignments).length
    "Extend " ++ displayAssignments assignments ++
      Text.onlyIf (!partitionBy.isEmpty) (" partition by " ++ parenthesized partitionBy) ++
      Text.onlyIf (!order.isEmpty) (" order by (" ++ displayOrder order ++ ")") ++
      Text.onlyIf (stages > 1) (" [" ++ Text.ofNat stages ++ " stages]")
  | project _ groupBy aggregates =>
    "Project group by " ++ parenthesized groupBy ++
      Text.onlyIf (!aggregates.isEmpty) (" " ++ displayAssignments aggregates)
  | naturalJoin left right type =>
    "NaturalJoin " ++ type.name ++ " by " ++ parenthesized (sharedColumns left.schema right.schema)
  | thetaJoin _ _ predicate type _ _ => "ThetaJoin " ++ type.name ++ " on " ++ predicate.display
  | selectRows _ predicate => "SelectRows " ++ predicate.display
  | selectColumns _ columns => "SelectColumns " ++ parenthesized columns
  | renameColumns _ mapping =>
    "RenameColumns " ++ parenthesized (mapping.map fun r => r.new ++ " := " ++ r.old)
  | orderBy _ terms limit =>
    "OrderBy (" ++ displayOrder terms ++ ")" ++
      Text.ofOption (fun n => " limit " ++ Text.ofNat n) limit
  | rawStatement _ used produced template =>
    "RawStatement uses " ++ parenthesized used ++ " produces " ++ parenthesized produced ++ ": " ++
      template.display
  | externalTransform _ used produced transform incoming outgoing _ =>
    "ExternalTransform " ++ transform.name ++ " uses " ++ parenthesized used ++ " produces " ++
      parenthesized produced ++ " via " ++ incoming ++ " -> " ++ outgoing

/-- The lines of a tree whose root stands `depth` levels in. -/
def formatAt (depth : Nat) (tree : Tree) : Text :=
  let line := Text.spaces (2 * depth) ++ tree.headline ++ "\n"
  match tree with
  | table _ => line
  | naturalJoin left right _ | thetaJoin left right _ _ _ _ =>
    line ++ left.formatAt (depth + 1) ++ right.formatAt (depth + 1)
  | extend source .. | project source .. | selectRows source _ | selectColumns source _
  | renameColumns source _ | orderBy source .. | rawStatement source ..
  | externalTransform source .. => line ++ source.formatAt (depth + 1)

/-- The plain view of a tree. -/
def format (tree : Tree) : Text := tree.formatAt 0

end Tree

end SqlPipeline
