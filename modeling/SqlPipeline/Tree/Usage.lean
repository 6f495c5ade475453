import SqlPipeline.Tree.Narrow

/-!
# What a tree reads

The tables of a tree and, for each of them, the columns it has to have so that the
tree can put out all of its own. The latter is read off the narrowed tree, because
that is the one from which statements are made. Names come in byte order.
-/

namespace SqlPipeline.Tree

/-- The qualified names of the tables of a tree, in order. -/
def tableNames (tree : Tree) : List Text :=
  Text.sortedSet (tree.tables.map Table.qualifiedName)

/-- The columns that the sources of one qualified name have together, in order. -/
def columnsOf (tables : List Table) (name : Text) : List Text :=
  Text.sortedSet ((tables.filter fun t => t.qualifiedName == name).flatMap Table.columns)

/-- The columns that each table has to have, by qualified name. -/
def columnsUsed (tree : Tree) : Except Error (List (Text × List Text)) := do
  let narrowed ← tree.narrow none
  return narrowed.tableNames.map fun name => (name, columnsOf narrowed.tables name)

end SqlPipeline.Tree
