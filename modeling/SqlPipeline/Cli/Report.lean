import SqlPipeline.Json
import SqlPipeline.Sql.Generate
import SqlPipeline.Tree.Usage

/-!
# Reports

The two forms, plain text and JSON, in which the steps of a pipeline and the
description of a tree are shown.
-/

namespace SqlPipeline.Cli

/-- A step in plain text; a transform is a comment. -/
def stepPlain : Step → Text
  | .statement sql => sql
  | .transform incoming outgoing transform =>
    "-- external transform: " ++ transform.name ++ " (" ++ incoming ++ " -> " ++ outgoing ++ ")"

/-- Steps in plain text, each ended by a semicolon. -/
def stepsPlain (steps : List Step) : Text :=
  Text.join ";\n\n" (steps.map stepPlain) ++ Text.onlyIf (!steps.isEmpty) ";\n"

/-- An object, whatever the order of its fields. -/
def objectOf (fields : List (Text × Json)) : Json :=
  .object (fields.foldl (fun fs (key, value) => Json.insertField key value fs) [])

/-- A step as a JSON value. -/
def stepJson : Step → Json
  | .statement sql => objectOf [("kind", .string "statement"), ("sql", .string sql)]
  | .transform incoming outgoing transform =>
    objectOf [("kind", .string "external_transform"), ("name", .string transform.name),
      ("incoming_table_name", .string incoming), ("outgoing_table_name", .string outgoing)]

/-- The text of a value, if the library can write it. -/
def printJson (codec : Json.Codec) (value : Json) : Except Error Text :=
  (codec.print value).mapError .jsonFailure

/-- Steps as JSON text. -/
def stepsJson (codec : Json.Codec) (d : Dialect) (steps : List Step) : Except Error Text :=
  printJson codec (objectOf [("dialect", .string d.name), ("steps", .array (steps.map stepJson))])

/-- A line on the columns that are read of a table. -/
def usageLine (usage : Text × List Text) : Text :=
  "  " ++ usage.1 ++ ": " ++ Error.nameList usage.2 ++ "\n"

/-- The columns of a tree, its tables and what it reads of them, in plain text. -/
def describePlain (tree : Tree) : Except Error Text := do
  let used ← tree.columnsUsed
  return "columns: " ++ Error.nameList tree.schema ++ "\ntables: " ++ Error.nameList tree.tableNames ++
    "\ncolumns used:\n" ++ used.flatMap usageLine

/-- The columns of a tree, its tables and what it reads of them, as JSON text. -/
def describeJson (codec : Json.Codec) (tree : Tree) : Except Error Text := do
  let used ← tree.columnsUsed
  let fields := used.map fun (name, columns) => (name, Json.ofTexts columns)
  printJson codec (objectOf [("columns", Json.ofTexts tree.schema),
    ("tables", Json.ofTexts tree.tableNames), ("columns_used", objectOf fields)])

end SqlPipeline.Cli
