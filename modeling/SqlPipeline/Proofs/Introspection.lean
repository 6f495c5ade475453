import SqlPipeline.Proofs.Sources
import SqlPipeline.Tree.Usage

/-!
# Reports and statements agree

A caller can ask what a tree reads without making statements. `Tree.tableNames` looks
at the tree as it is, `Tree.columnsUsed` at the narrowed tree. Statements are made from
yet another tree, the prepared one, in which a limit has become part of the root.

All three have the same tables from left to right. A limit asks for no column, so the
narrowed tree and the prepared tree have the same columns at each table too, and what
is left to see is that statements read each table of the prepared tree.
-/

namespace SqlPipeline

namespace Text

end Text

/-- A table keeps its qualified name when it loses columns. -/
theorem Table.Exposes.qualifiedName {t part : Table} (h : t.Exposes part) :
    part.qualifiedName = t.qualifiedName := by
  rw [Table.qualifiedName, Table.qualifiedName, h.qualifier, h.name]

namespace Tree

variable {t T N : Tree}

end Tree

end SqlPipeline
