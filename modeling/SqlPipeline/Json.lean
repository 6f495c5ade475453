import SqlPipeline.Number.Decimal

/-!
# JSON values

The values of JSON. A number keeps what it was written as, because a limit has to
be written as a whole number without a sign. The fields of an object stand in byte
order of their keys, each key once.

Their text form is left to a library: what a program does with JSON text is said for
every `Json.Codec`.
-/

namespace SqlPipeline

/-- A number as it was written. -/
structure Json.Number where
  negative : Bool
  /-- The value without its sign. -/
  magnitude : Decimal
  /-- Written without point and exponent. -/
  whole : Bool
  deriving Repr, DecidableEq

/-- A JSON value. -/
inductive Json where
  | null
  | bool (value : Bool)
  | number (value : Json.Number)
  | string (value : Text)
  | array (items : List Json)
  | object (fields : List (Text × Json))
  deriving Repr, Inhabited

namespace Json

/-- The number as a word of 64 bits, if it is written as one. -/
def Number.unsigned? (n : Number) : Option Nat :=
  if n.whole && !n.negative && n.magnitude.coefficient < UInt64.size then some n.magnitude.coefficient
  else none

/-- The double nearest to the number. -/
def Number.toBinary64 (n : Number) : Binary64 := n.magnitude.nearest n.negative

/-- Puts a field at its place, over an earlier one of the same key. -/
def insertField (key : Text) (value : Json) : List (Text × Json) → List (Text × Json)
  | [] => [(key, value)]
  | (other, v) :: rest =>
    if key = other then (key, value) :: rest
    else if key < other then (key, value) :: (other, v) :: rest
    else (other, v) :: insertField key value rest

/-- The value of the first field of that key. -/
def lookup (key : Text) : List (Text × Json) → Option Json
  | [] => none
  | (other, value) :: rest => if key = other then some value else lookup key rest

/-- The value of a field, if this is an object that has it. -/
def get? (key : Text) : Json → Option Json
  | object fields => lookup key fields
  | _ => none

/-- A text as a value. -/
def ofTexts (texts : List Text) : Json := array (texts.map string)

/-- A field is smaller than the list of fields that it is looked up in. -/
theorem sizeOf_lookup {key : Text} {fields : List (Text × Json)} {value : Json}
    (h : lookup key fields = some value) : sizeOf value < sizeOf fields := by
  induction fields with
  | nil => simp [lookup] at h
  | cons field rest ih =>
    obtain ⟨other, v⟩ := field
    rw [lookup] at h
    split at h
    · simp only [Option.some.injEq] at h
      subst h
      simp
      omega
    · have := ih h
      simp
      omega

/-! ## Text -/

/-- Why a text gives no value, in the words of the library that reads it. -/
inductive ReadFault where
  /-- The text is not JSON. -/
  | malformed (words : Text)
  /-- The text holds a number too large for a double. -/
  | outOfRange (words : Text)
  deriving Repr, DecidableEq

/-- A library that reads and writes the text form of values. A program is given one, and nothing is
known of it but that the same text or value always gives the same result. -/
structure Codec where
  read : Text → Except ReadFault Json
  /-- Writes a value with two spaces for each level, or says why it cannot. -/
  print : Json → Except Text Text

end Json

end SqlPipeline
