import SqlPipeline.Number.Count
import SqlPipeline.Pipeline.Build
import SqlPipeline.Tree.Format

/-!
# Quantiles

A quantile summary has one row for each probability and, in it, the value that
stands at the probability's place among the sorted values of each column. No value
is interpolated and absent values do not count. It takes two rounds with an engine,
first the number of values of each column and then one statement that picks them
by their places, so it runs as a transform between two staging tables.

The staging tables get names that depend on the source and the specification, by a
digest that the caller chooses: building the same summary twice gives the same
names.
-/

namespace SqlPipeline

/-- What to summarize. No columns stands for all of them, and an empty table name for a made one. -/
structure QuantileSpec where
  columns : List Text
  probs : List Binary64
  probsName : Text
  temporary : Bool
  incoming : Text
  outgoing : Text
  deriving Repr

namespace Quantile

/-- Minimum, quartiles and maximum of every column. -/
def defaultSpec : QuantileSpec :=
  { columns := []
    probs := [(0, 1), (1, 4), (1, 2), (3, 4), (1, 1)].map fun (num, den) =>
      Binary64.ofFraction false num den
    probsName := "quantile_probability"
    temporary := true
    incoming := []
    outgoing := [] }

/-! ## Places -/

/-- The place of a probability among `count` sorted values, counted from one: `(count + 1/2) * p` in
double precision, rounded to an integer and kept between one and `count`. -/
def position (count : Nat) (p : Binary64) : Nat :=
  let total := Binary64.ofNat count
  let place := ((total.add .half).mul p).roundToInteger
  let place := if place.lt (.ofNat 1) then Binary64.ofNat 1 else place
  let place := if total.lt place then total else place
  place.toWord

/-- The places of the probabilities; there are none among no values. -/
def positions (count : Nat) (probs : List Binary64) : List Nat :=
  if count = 0 then [] else probs.map (position count)

/-! ## Statements -/

/-- The column that holds the place of a value, which no quantile column may be called. -/
def indexColumn : Text := "relq_idx"

/-- Counts the values of a column. -/
def countSql (d : Dialect) (table column : Text) : Text :=
  "SELECT COUNT(1)\nFROM " ++ d.quote table ++ "\nWHERE " ++ d.quote column ++ " IS NOT NULL"

/-- Numbers the values of a column in increasing order. -/
def indexSql (d : Dialect) (table column : Text) : Text :=
  let quoted := d.quote column
  "SELECT " ++ quoted ++ ", ROW_NUMBER() OVER (ORDER BY " ++ quoted ++ ") AS " ++
    d.quote indexColumn ++ "\nFROM " ++ d.quote table ++ "\nWHERE " ++ quoted ++ " IS NOT NULL"

/-- The value of a column at the place of a probability; a column without values has none. -/
def valueItem (d : Dialect) (incoming : Text) (p : Binary64) (column : Text) (count : Nat) : Text :=
  let quoted := d.quote column
  if count = 0 then "NULL AS " ++ quoted
  else
    "(SELECT " ++ quoted ++ " FROM (" ++ indexSql d incoming column ++ ") relq_ranked WHERE " ++
      d.quote indexColumn ++ " = " ++ Text.ofNat (position count p) ++ ") AS " ++ quoted

/-- The row of one probability. -/
def rowSql (d : Dialect) (spec : QuantileSpec) (incoming : Text) (counts : List Nat) (p : Binary64) :
    Except Error Text := do
  let written ← d.literal (.float p)
  let first := written ++ " AS " ++ d.quote spec.probsName
  let values := (spec.columns.zip counts).map fun (column, count) => valueItem d incoming p column count
  return "SELECT " ++ Text.join ", " (first :: values)

/-- The rows of the probabilities, up to the first one that cannot be written. -/
def rowsSql (d : Dialect) (spec : QuantileSpec) (incoming : Text) (counts : List Nat) :
    List Binary64 → Except Error (List Text)
  | [] => .ok []
  | p :: rest => do
    let row ← rowSql d spec incoming counts p
    let rows ← rowsSql d spec incoming counts rest
    return row :: rows

/-- The statement that makes the summary, given the number of values of each column. -/
def tableSql (d : Dialect) (spec : QuantileSpec) (incoming outgoing : Text) (counts : List Nat) :
    Except Error Text := do
  if counts.length ≠ spec.columns.length then
    throw (.countMismatch spec.columns.length counts.length)
  let rows ← rowsSql d spec incoming counts spec.probs
  let creation ← Creation.resolve d .quantile outgoing spec.temporary
  return creation.statement d (Text.join "\nUNION ALL\n" rows)

/-! ## The transform -/

/-- Reads the answer to a count; no answer counts nothing, and the text ends at a NUL byte. -/
def readCount (column : Text) (answer : Option Text) : Except Error Nat :=
  match answer with
  | none => .ok 0
  | some value =>
    match Count.word value.untilNul with
    | some n => .ok n
    | none => .error (.unexpectedCount value column)

/-- Asks for the number of values of each column, then makes the summary. -/
def scriptFrom (d : Dialect) (spec : QuantileSpec) (incoming outgoing : Text) (counts : List Nat) :
    List Text → Script
  | [] =>
    match tableSql d spec incoming outgoing counts with
    | .ok sql => .execute sql .done
    | .error e => .fail e
  | column :: rest =>
    .query (countSql d incoming column) fun answer =>
      match readCount column answer with
      | .ok n => scriptFrom d spec incoming outgoing (counts ++ [n]) rest
      | .error e => .fail e

/-- What the summary asks of an engine; without windows it asks nothing. -/
def script (spec : QuantileSpec) (d : Dialect) (incoming outgoing : Text) : Script :=
  match d.requireWindows .quantile with
  | .ok () => scriptFrom d spec incoming outgoing [] spec.columns
  | .error e => .fail e

/-! ## The node -/

/-- What a probability adds to the staging key. -/
def probabilityKey (p : Binary64) : Text := "|" ++ p.toText

/-- What the names of the staging tables depend on. -/
def stagingKey (source : Tree) (spec : QuantileSpec) : Text :=
  source.format ++ "|" ++ spec.probsName ++ "|" ++ Text.join "," spec.columns ++
    spec.probs.flatMap probabilityKey ++ (if spec.temporary then "|t" else "|p")

/-- What the names of the staging tables start with. -/
def stagingStem (digest : Text → Text) (source : Tree) (spec : QuantileSpec) : Text :=
  "relq_quantile_" ++ digest (stagingKey source spec)

/-- Fails on the first column that is called like the probabilities or the places. -/
def requireNames (probsName : Text) : List Text → Except Error Unit
  | [] => .ok ()
  | column :: rest =>
    if column = probsName then .error (.probabilityNameTaken column)
    else if column = indexColumn then .error (.reservedColumn column)
    else requireNames probsName rest

/-- Fails on the first number that is no probability. -/
def requireProbabilities : List Binary64 → Except Error Unit
  | [] => .ok ()
  | p :: rest =>
    if !p.isFinite || p.lt (.ofNat 0) || (Binary64.ofNat 1).lt p then
      .error (.probabilityOutOfRange p)
    else requireProbabilities rest

/-- The specification with its columns and its table names filled in. -/
def resolve (digest : Text → Text) (source : Tree) (spec : QuantileSpec) : QuantileSpec :=
  let spec := { spec with columns := if spec.columns.isEmpty then source.schema else spec.columns }
  let stem := stagingStem digest source spec
  { spec with
    incoming := if spec.incoming.isEmpty then stem ++ "_in" else spec.incoming
    outgoing := if spec.outgoing.isEmpty then stem ++ "_out" else spec.outgoing }

end Quantile

/-- Summarizes the columns of a tree by a transform of the given tag. -/
def Pipeline.quantile (digest : Text → Text) (tag : Text) (source : Tree) (spec : QuantileSpec) :
    Except Error Tree := do
  let spec := Quantile.resolve digest source spec
  requireColumns .quantile source.schema spec.columns
  requireUnique .quantileColumns spec.columns
  if spec.probsName.isEmpty then throw .emptyProbabilityName
  Quantile.requireNames spec.probsName spec.columns
  if spec.probs.isEmpty then throw .noProbability
  Quantile.requireProbabilities spec.probs
  let transform : Transform := ⟨tag, "quantile", Quantile.script spec⟩
  externalTransform source spec.columns (spec.probsName :: spec.columns) (some transform)
    spec.incoming spec.outgoing spec.temporary

end SqlPipeline
