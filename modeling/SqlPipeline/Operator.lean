import SqlPipeline.Text

/-!
# The vocabulary of relational operators

The kinds of operators a tree is made of, the four joins, and the terms of an
ordering, with the words by which messages and statements call them.
-/

namespace SqlPipeline

/-- The eleven kinds of operators. -/
inductive OperatorKind where
  | tableSource
  | extend
  | project
  | naturalJoin
  | thetaJoin
  | selectRows
  | selectColumns
  | renameColumns
  | orderBy
  | rawStatement
  | externalTransform
  deriving Repr, DecidableEq

/-- The name of a kind. -/
def OperatorKind.name : OperatorKind → Text
  | tableSource => "TableSource"
  | extend => "Extend"
  | project => "Project"
  | naturalJoin => "NaturalJoin"
  | thetaJoin => "ThetaJoin"
  | selectRows => "SelectRows"
  | selectColumns => "SelectColumns"
  | renameColumns => "RenameColumns"
  | orderBy => "OrderBy"
  | rawStatement => "RawStatement"
  | externalTransform => "ExternalTransform"

/-- Which side of a join keeps its rows without a partner. -/
inductive JoinType where
  | inner
  | left
  | right
  | full
  deriving Repr, DecidableEq, Inhabited

/-- The keyword of a join. -/
def JoinType.name : JoinType → Text
  | inner => "INNER"
  | left => "LEFT"
  | right => "RIGHT"
  | full => "FULL"

/-- The join that a keyword in capitals stands for. -/
def JoinType.ofName? (name : Text) : Option JoinType :=
  [inner, left, right, full].find? fun t => t.name == name

/-- A column to sort by. -/
structure OrderTerm where
  column : Text
  descending : Bool
  deriving Repr, DecidableEq, Inhabited

/-- The term in plain notation. -/
def OrderTerm.display (t : OrderTerm) : Text :=
  if t.descending then t.column ++ " DESC" else t.column

end SqlPipeline
