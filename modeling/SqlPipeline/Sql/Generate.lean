import SqlPipeline.Sql.Plan
import SqlPipeline.Sql.Printer
import SqlPipeline.Tree.Narrow

/-!
# Generating steps

What an execution layer runs: statements, and between them the transforms it has
to call. A limit on the rows of the result becomes part of the root's ordering
before the tree is narrowed, so that it survives a choice of output columns.
-/

namespace SqlPipeline

/-- One unit of work. -/
inductive Step where
  | statement (sql : Text)
  | transform (incoming outgoing : Text) (transform : Transform)

/-- Equality of steps; transforms are the same if they have the same tag. -/
def Step.same : Step → Step → Bool
  | statement a, statement b => a == b
  | transform i o t, transform i' o' t' => i == i' && o == o' && t.tag == t'.tag
  | _, _ => false

/-- What to generate. -/
structure GenerateOptions where
  outputLimit : Option Nat
  sourceLimit : Option Nat
  /-- The columns wanted; all of the tree's when none are given. -/
  outputColumns : Option (List Text)
  deriving Repr

/-- The statement and the transform of a stage. -/
def Sql.Stage.steps (d : Dialect) (stage : Sql.Stage) : List Step :=
  [.statement (stage.creation.statement d (stage.query.statement d)),
    .transform stage.creation.table stage.outgoing stage.transform]

/-- The steps of a plan. -/
def Sql.Plan.steps (d : Dialect) (plan : Sql.Plan) : List Step :=
  plan.stages.flatMap (Sql.Stage.steps d) ++ [.statement (plan.root.statement d)]

/-- The steps line by line: a statement of a stage has the lines of its query below a first line that
names the new table, and the statement of the root is its query alone. -/
theorem Sql.Plan.steps_eq_lines (d : Dialect) (plan : Sql.Plan) :
    plan.steps d =
      plan.stages.flatMap (fun stage =>
        [.statement (Text.join "\n"
            (Text.join " " (stage.creation.words d) :: stage.query.lines d 0)),
          .transform stage.creation.table stage.outgoing stage.transform]) ++
        [.statement (Text.join "\n" (plan.root.lines d 0))] := by
  have hstage : ∀ stage : Sql.Stage, stage.creation.statement d (stage.query.statement d) =
      Text.join "\n" (Text.join " " (stage.creation.words d) :: stage.query.lines d 0) := by
    intro stage
    obtain ⟨first, rest, hlines⟩ := List.exists_cons_of_ne_nil (stage.query.lines_ne_nil (d := d) 0)
    rw [Creation.statement_eq_words, Sql.Query.statement_eq, Sql.Query.print_eq_lines, hlines,
      Text.join_cons, Text.join_cons, List.flatMap_cons, List.append_assoc, List.append_assoc]
  rw [Sql.Plan.steps, Sql.Query.statement_eq, Sql.Query.print_eq_lines]
  refine congrArg (fun steps => plan.stages.flatMap steps ++ _) (funext fun stage => ?_)
  rw [Sql.Stage.steps, hstage]

namespace Tree

/-- Limits the rows of a tree; the smaller of two limits counts. -/
def limitTo (tree : Tree) (limit : Option Nat) : Except Error Tree :=
  match limit, tree with
  | none, tree => .ok tree
  | some n, orderBy source terms (some m) => Pipeline.orderBy source terms (some (min n m))
  | some n, orderBy source terms none => Pipeline.orderBy source terms (some n)
  | some n, tree => Pipeline.orderBy tree [] (some n)

/-- The tree from which statements are made: limited, then narrowed. -/
def prepare (tree : Tree) (options : GenerateOptions) : Except Error Tree := do
  let limited ← tree.limitTo options.outputLimit
  limited.narrow options.outputColumns

/-- The steps that compute a tree. -/
def generate (tree : Tree) (d : Dialect) (options : GenerateOptions) : Except Error (List Step) := do
  let prepared ← tree.prepare options
  let plan ← Sql.plan d options.sourceLimit prepared
  return plan.steps d

end Tree

end SqlPipeline
