import SqlPipeline.Json.Printer
import SqlPipeline.Json.Reader

/-!
# A JSON library

The library that the command runs with. It takes the reader and the printer of this
folder and adds what JSON asks of the bytes and of the numbers: a text is UTF-8, which
may have a byte order mark in front, and a number is a finite double. Its faults carry
no words.
-/

namespace SqlPipeline.Json

/-! ## UTF-8 -/

/-- The bounds of each byte that follows the first byte of a character, if one can start with it. -/
def tailBounds (first : UInt8) : Option (List (UInt8 × UInt8)) :=
  let tail : UInt8 × UInt8 := (0x80, 0xBF)
  if first < 0x80 then some []
  else if first < 0xC2 then none
  else if first < 0xE0 then some [tail]
  else if first = 0xE0 then some [(0xA0, 0xBF), tail]
  else if first = 0xED then some [(0x80, 0x9F), tail]
  else if first < 0xF0 then some [tail, tail]
  else if first = 0xF0 then some [(0x90, 0xBF), tail, tail]
  else if first < 0xF4 then some [tail, tail, tail]
  else if first = 0xF4 then some [(0x80, 0x8F), tail, tail]
  else none

/-- Whether a text is UTF-8 after a part that waits for bytes within these bounds. -/
def isUtf8After : List (UInt8 × UInt8) → Text → Bool
  | waiting, [] => waiting.isEmpty
  | [], b :: rest =>
    match tailBounds b with
    | some waiting => isUtf8After waiting rest
    | none => false
  | (low, high) :: waiting, b :: rest => low ≤ b && b ≤ high && isUtf8After waiting rest

/-- Whether a text is UTF-8. -/
def isUtf8 (t : Text) : Bool := isUtf8After [] t

/-- A text without the mark that may stand in front of UTF-8. -/
def withoutMark : Text → Text
  | 0xEF :: 0xBB :: 0xBF :: rest => rest
  | t => t

/-! ## Numbers in range -/

mutual

/-- Whether each number of a value is near to a finite double. -/
def inRange : Json → Bool
  | number n =>
    match n.toBinary64 with
    | .finite .. => true
    | _ => false
  | array items => itemsInRange items
  | object fields => fieldsInRange fields
  | _ => true

/-- The same of the items of an array. -/
def itemsInRange : List Json → Bool
  | [] => true
  | item :: rest => inRange item && itemsInRange rest

/-- The same of the fields of an object. -/
def fieldsInRange : List (Text × Json) → Bool
  | [] => true
  | (_, value) :: rest => inRange value && fieldsInRange rest

end

/-! ## The library -/

/-- Reads and writes UTF-8. -/
def Codec.strict : Codec where
  read t :=
    if isUtf8 t then
      match Json.read (withoutMark t) with
      | some value => if value.inRange then .ok value else .error (.outOfRange [])
      | none => .error (.malformed [])
    else .error (.malformed [])
  print value :=
    let t := value.print 0
    if isUtf8 t then .ok t else .error []

end SqlPipeline.Json
