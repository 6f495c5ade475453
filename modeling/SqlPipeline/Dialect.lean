import SqlPipeline.Error

/-!
# Dialects

A dialect says how an engine writes names and constants and what it can do. Four
presets exist and each of their switches can be set by hand. A capability that a
dialect lacks is an error and never an approximation, with one exception that the
dialect itself has to allow: `temporaryFallback` makes an ordinary table where a
temporary one is asked for.
-/

namespace SqlPipeline

/-- The rules of writing statements for one engine. -/
structure Dialect where
  name : Text
  quoteOpen : UInt8
  quoteClose : UInt8
  windowFunctions : Bool
  temporaryTables : Bool
  /-- Make an ordinary table where a temporary one is not supported. -/
  temporaryFallback : Bool
  /-- Write booleans as words rather than as `1` and `0`. -/
  booleanLiterals : Bool
  rightFullJoins : Bool
  /-- The storage clause between the name of a new table and its `AS`. -/
  createOptions : Text
  deriving Repr, DecidableEq

namespace Dialect

/-- An engine of the common kind. -/
def generic : Dialect :=
  { name := "generic"
    quoteOpen := Text.doubleQuote
    quoteClose := Text.doubleQuote
    windowFunctions := true
    temporaryTables := true
    temporaryFallback := false
    booleanLiterals := true
    rightFullJoins := true
    createOptions := [] }

/-- PostgreSQL follows the generic rules. -/
def postgresql : Dialect := { generic with name := "postgresql" }

/-- SQLite has no boolean constants. -/
def sqlite : Dialect := { generic with name := "sqlite", booleanLiterals := false }

/-- Spark quotes with backticks and has no temporary tables. -/
def spark : Dialect :=
  { generic with
    name := "spark"
    quoteOpen := Text.backtick
    quoteClose := Text.backtick
    temporaryTables := false
    createOptions := "USING PARQUET" }

/-- The preset of a name, whose case and surrounding blanks do not matter. -/
def byName (name : Text) : Except Error Dialect :=
  let key := Text.toLower (Text.trim name)
  if key = "generic" ∨ key = "ansi" then .ok generic
  else if key = "postgresql" ∨ key = "postgres" then .ok postgresql
  else if key = "sqlite" ∨ key = "sqlite3" then .ok sqlite
  else if key = "spark" ∨ key = "sparksql" then .ok spark
  else .error (.unknownDialect name)

/-- A name between the quotes of the dialect, its closing quotes doubled. -/
def quote (d : Dialect) (name : Text) : Text := Literal.enclose d.quoteOpen d.quoteClose name

/-- Names in quotes with commas between them. -/
def quoteList (d : Dialect) (names : List Text) : Text := Text.join ", " (names.map d.quote)

/-- A constant as the dialect writes it. -/
def writeLiteral (d : Dialect) : Literal → Text
  | .bool value =>
    if d.booleanLiterals then (Literal.bool value).display else if value then "1" else "0"
  | value => value.display

/-- A constant as the dialect writes it, if it can be written at all. -/
def literal (d : Dialect) (value : Literal) : Except Error Text :=
  match value with
  | .float x => if x.isFinite then .ok (d.writeLiteral value) else .error (.nonFiniteNumber x)
  | _ => .ok (d.writeLiteral value)

/-- Fails when the dialect has no windows. -/
def requireWindows (d : Dialect) (requester : Requester) : Except Error Unit :=
  if d.windowFunctions then .ok () else .error (.unsupported requester .windowFunctions d.name)

/-- Fails when the dialect lacks the join. -/
def requireJoin (d : Dialect) (kind : OperatorKind) (type : JoinType) : Except Error Unit :=
  if (type = .right ∨ type = .full) ∧ !d.rightFullJoins then
    .error (.unsupported (.operator kind) (.joins type) d.name)
  else .ok ()

end Dialect

/-! ## New tables -/

/-- A table to be made from a query, as far as the dialect allows it. -/
structure Creation where
  table : Text
  temporary : Bool
  deriving Repr, DecidableEq

namespace Creation

/-- Settles whether the new table is temporary: it is if that is asked for and supported, and it is an
error if it is asked for and neither supported nor waived. -/
def resolve (d : Dialect) (requester : Requester) (table : Text) (temporary : Bool) :
    Except Error Creation :=
  if table.isEmpty then .error .unnamedTable
  else if temporary && !d.temporaryTables then
    if d.temporaryFallback then .ok ⟨table, false⟩
    else .error (.unsupported requester .temporaryTables d.name)
  else .ok ⟨table, temporary⟩

/-- The statement that makes the table from a query. -/
def statement (d : Dialect) (c : Creation) (query : Text) : Text :=
  (if c.temporary then "CREATE TEMPORARY TABLE " else "CREATE TABLE ") ++ d.quote c.table ++
    Text.onlyIf (!d.createOptions.isEmpty) (" " ++ d.createOptions) ++ " AS\n" ++ query

/-- The words before the query. -/
def words (d : Dialect) (c : Creation) : List Text :=
  (if c.temporary then "CREATE TEMPORARY TABLE" else "CREATE TABLE") :: d.quote c.table ::
    ((if d.createOptions = [] then [] else [d.createOptions]) ++ [Text.ofString "AS"])

/-- The words stand on the first line, and the query below. -/
theorem statement_eq_words (d : Dialect) (c : Creation) (query : Text) :
    c.statement d query = Text.join " " (c.words d) ++ "\n" ++ query := by
  have hend : ∀ t : Text, " AS\n" ++ t = " " ++ ("AS" ++ ("\n" ++ t)) := fun t => rfl
  have htemporary : ("CREATE TEMPORARY TABLE " : Text) = "CREATE TEMPORARY TABLE" ++ " " := rfl
  have hordinary : ("CREATE TABLE " : Text) = "CREATE TABLE" ++ " " := rfl
  obtain ⟨table, temporary⟩ := c
  unfold statement words
  by_cases hoptions : d.createOptions = [] <;> cases temporary <;>
    simp [hoptions, hend, htemporary, hordinary, Text.onlyIf, Text.join]

end Creation

/-- The statement that makes a table of a query's rows. -/
def materialize (d : Dialect) (query table : Text) (temporary : Bool) : Except Error Text := do
  let creation ← Creation.resolve d .materialize table temporary
  return creation.statement d query

end SqlPipeline
