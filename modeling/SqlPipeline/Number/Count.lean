import SqlPipeline.Text

/-!
# Counts

Row counts and limits are words of 64 bits. Three readers exist: `digits` takes
digits alone and keeps the low 64 bits of their value, `word` also takes blanks
and one sign in front and refuses a value that does not fit, and `flag` is `word`
for a text that does not itself start with a sign.
-/

namespace SqlPipeline.Count

/-- The number of values of a word. -/
def wordSize : Nat := UInt64.size

/-- Reads a run of digits, keeping the low 64 bits of the value. -/
def digits (t : Text) : Option Nat :=
  if t.isEmpty || !t.all Text.isDigit then none
  else some (t.foldl (fun n b => (n * 10 + Text.digitValue b) % wordSize) 0)

/-- Reads the digits of a word, whose value must fit. -/
def unsigned (t : Text) : Option Nat :=
  if t.isEmpty || !t.all Text.isDigit then none
  else if Text.toNat t < wordSize then some (Text.toNat t)
  else none

/-- Reads blanks, at most one sign and the digits of a word; a minus negates modulo `2 ^ 64`. -/
def word (t : Text) : Option Nat :=
  match t.dropWhile Text.isBlank with
  | 45 :: rest => (unsigned rest).map fun n => (wordSize - n) % wordSize
  | 43 :: rest => unsigned rest
  | rest => unsigned rest

/-- Reads the value of a count flag, which must not start with a sign. -/
def flag (t : Text) : Option Nat :=
  match t with
  | [] => none
  | b :: _ => if b == 45 || b == 43 then none else word t

end SqlPipeline.Count
