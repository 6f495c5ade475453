import SqlPipeline.Json

/-!
# Writing JSON

JSON text with one value on each line and two spaces for each level. Only what has
to be escaped inside a string is; every byte from 32 on is written as it is.
-/

namespace SqlPipeline.Json

/-- A hexadecimal digit in small letters. -/
def hexDigit (n : Nat) : UInt8 := UInt8.ofNat (if n < 10 then 48 + n else 87 + n)

/-- A byte inside a string. -/
def escapeByte (b : UInt8) : Text :=
  if b = 34 then "\\\""
  else if b = 92 then "\\\\"
  else if b = 8 then "\\b"
  else if b = 12 then "\\f"
  else if b = 10 then "\\n"
  else if b = 13 then "\\r"
  else if b = 9 then "\\t"
  else if b < 32 then "\\u00" ++ [hexDigit (b.toNat / 16), hexDigit (b.toNat % 16)]
  else [b]

/-- A string in quotes. -/
def quoteText (t : Text) : Text := 34 :: t.flatMap escapeByte ++ [34]

/-- A number as a whole number or as a double. -/
def Number.print (n : Number) : Text :=
  Text.onlyIf n.negative "-" ++ Text.ofNat n.magnitude.coefficient ++
    Text.onlyIf (n.magnitude.exponent ≠ 0) ("e" ++ Text.ofInt n.magnitude.exponent)

/-- A new line so many levels in. -/
def newLine (depth : Nat) : Text := 10 :: Text.spaces (2 * depth)

mutual

/-- A value whose first line stands so many levels in. -/
def print (depth : Nat) : Json → Text
  | null => "null"
  | bool value => if value then "true" else "false"
  | number value => value.print
  | string value => quoteText value
  | array [] => "[]"
  | array (item :: rest) =>
    "[" ++ newLine (depth + 1) ++ print (depth + 1) item ++ printItems (depth + 1) rest ++
      newLine depth ++ "]"
  | object [] => "\x7b\x7d"
  | object ((key, value) :: rest) =>
    "\x7b" ++ newLine (depth + 1) ++ quoteText key ++ ": " ++ print (depth + 1) value ++
      printFields (depth + 1) rest ++ newLine depth ++ "\x7d"

/-- The items after the first. -/
def printItems (depth : Nat) : List Json → Text
  | [] => []
  | item :: rest => "," ++ newLine depth ++ print depth item ++ printItems depth rest

/-- The fields after the first. -/
def printFields (depth : Nat) : List (Text × Json) → Text
  | [] => []
  | (key, value) :: rest =>
    "," ++ newLine depth ++ quoteText key ++ ": " ++ print depth value ++ printFields depth rest

end

end SqlPipeline.Json
