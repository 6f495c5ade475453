import SqlPipeline.Json
import SqlPipeline.Token

/-!
# Reading JSON

A strict reader of JSON text: no comments, no trailing commas, no leading zeros,
no raw control bytes inside strings, and nothing but blanks around the value. Each
reader takes a text and gives back a value and the rest of the text. The three that
call one another are bounded by a number that `Json.read` takes from the length of
the text: reading a value spends at most two of it for each byte.
-/

namespace SqlPipeline.Json

/-- The four blanks of JSON. -/
def isBlank (b : UInt8) : Bool := b == 32 || b == 9 || b == 10 || b == 13

/-- The text after its blanks. -/
def skip (t : Text) : Text := t.dropWhile isBlank

/-! ## Strings -/

/-- The value of a hexadecimal digit. -/
def hexValue? (b : UInt8) : Option Nat :=
  if Text.isDigit b then some (b.toNat - 48)
  else if 97 ≤ b && b ≤ 102 then some (b.toNat - 87)
  else if 65 ≤ b && b ≤ 70 then some (b.toNat - 55)
  else none

/-- Four hexadecimal digits. -/
def hex4? : Text → Option (Nat × Text)
  | a :: b :: c :: d :: rest => do
    let a ← hexValue? a
    let b ← hexValue? b
    let c ← hexValue? c
    let d ← hexValue? d
    return (((a * 16 + b) * 16 + c) * 16 + d, rest)
  | _ => none

/-- The UTF-8 bytes of a code point. -/
def utf8 (code : Nat) : Text :=
  if code < 0x80 then [UInt8.ofNat code]
  else if code < 0x800 then [UInt8.ofNat (0xC0 + code / 64), UInt8.ofNat (0x80 + code % 64)]
  else if code < 0x10000 then
    [UInt8.ofNat (0xE0 + code / 4096), UInt8.ofNat (0x80 + code / 64 % 64),
      UInt8.ofNat (0x80 + code % 64)]
  else
    [UInt8.ofNat (0xF0 + code / 262144), UInt8.ofNat (0x80 + code / 4096 % 64),
      UInt8.ofNat (0x80 + code / 64 % 64), UInt8.ofNat (0x80 + code % 64)]

/-- A code point after `\u`: four digits, or two surrogates in a row. -/
def codePoint? (t : Text) : Option (Nat × Text) := do
  let (first, rest) ← hex4? t
  if 0xD800 ≤ first && first < 0xDC00 then
    match rest with
    | 92 :: 117 :: rest =>
      let (second, rest) ← hex4? rest
      if 0xDC00 ≤ second && second < 0xE000 then
        return (0x10000 + (first - 0xD800) * 1024 + (second - 0xDC00), rest)
      else none
    | _ => none
  else if 0xDC00 ≤ first && first < 0xE000 then none
  else return (first, rest)

/-- The byte that a one-letter escape stands for. -/
def escape? : UInt8 → Option UInt8
  | 34 => some 34
  | 92 => some 92
  | 47 => some 47
  | 98 => some 8
  | 102 => some 12
  | 110 => some 10
  | 114 => some 13
  | 116 => some 9
  | _ => none

/-- The text of a string after its opening quote, and what follows the closing one. -/
def readString : Nat → Text → Option (Text × Text)
  | 0, _ => none
  | _, [] => none
  | fuel + 1, b :: rest =>
    if b = 34 then some ([], rest)
    else if b < 32 then none
    else if b = 92 then
      match rest with
      | [] => none
      | 117 :: rest => do
        let (code, rest) ← codePoint? rest
        let (t, rest) ← readString fuel rest
        return (utf8 code ++ t, rest)
      | e :: rest => do
        let byte ← escape? e
        let (t, rest) ← readString fuel rest
        return (byte :: t, rest)
    else do
      let (t, rest) ← readString fuel rest
      return (b :: t, rest)

/-! ## Numbers -/

/-- The digits before the point: a zero, or digits that do not start with one. -/
def wholePart (t : Text) : Text :=
  match t with
  | 48 :: _ => [48]
  | _ => t.takeWhile Text.isDigit

/-- Reads a number without its sign. -/
def readMagnitude (negative : Bool) (t : Text) : Option (Number × Text) :=
  let whole := wholePart t
  let afterWhole := t.drop whole.length
  let fraction := Lexeme.fraction afterWhole
  let afterFraction := afterWhole.drop fraction.length
  let exponent := Lexeme.exponent afterFraction
  let rest := afterFraction.drop exponent.length
  let dangling := (rest.head?.map Decimal.isExponentMark).getD false && exponent.isEmpty
  if whole.isEmpty || fraction.length = 1 || dangling then none
  else
    let written := whole ++ fraction ++ exponent
    some (⟨negative, Decimal.ofText written, fraction.isEmpty && exponent.isEmpty⟩, rest)

/-- Reads a number. -/
def readNumber (t : Text) : Option (Number × Text) :=
  match t with
  | 45 :: rest => readMagnitude true rest
  | _ => readMagnitude false t

/-- Drops a word from the front of a text. -/
def readWord (word : Text) (value : Json) (t : Text) : Option (Json × Text) :=
  if word.isPrefixOf t then some (value, t.drop word.length) else none

/-! ## Values -/

mutual

/-- Reads a value that has no blanks in front. -/
def readValue : Nat → Text → Option (Json × Text)
  | 0, _ => none
  | fuel + 1, t =>
    match t with
    | 123 :: rest =>
      match skip rest with
      | 125 :: rest => some (object [], rest)
      | rest => do
        let (fields, rest) ← readFields fuel [] rest
        return (object fields, rest)
    | 91 :: rest =>
      match skip rest with
      | 93 :: rest => some (array [], rest)
      | rest => do
        let (items, rest) ← readItems fuel rest
        return (array items, rest)
    | 34 :: rest => do
      let (value, rest) ← readString fuel rest
      return (string value, rest)
    | 116 :: _ => readWord "true" (bool true) t
    | 102 :: _ => readWord "false" (bool false) t
    | 110 :: _ => readWord "null" null t
    | _ => do
      let (value, rest) ← readNumber t
      return (number value, rest)

/-- Reads the items of an array up to its end. -/
def readItems : Nat → Text → Option (List Json × Text)
  | 0, _ => none
  | fuel + 1, t => do
    let (value, rest) ← readValue fuel t
    match skip rest with
    | 93 :: rest => return ([value], rest)
    | 44 :: rest =>
      let (values, rest) ← readItems fuel (skip rest)
      return (value :: values, rest)
    | _ => none

/-- Reads the fields of an object up to its end, after those already read. -/
def readFields : Nat → List (Text × Json) → Text → Option (List (Text × Json) × Text)
  | 0, _, _ => none
  | fuel + 1, fields, t =>
    match t with
    | 34 :: rest => do
      let (key, rest) ← readString fuel rest
      match skip rest with
      | 58 :: rest =>
        let (value, rest) ← readValue fuel (skip rest)
        let fields := insertField key value fields
        match skip rest with
        | 125 :: rest => return (fields, rest)
        | 44 :: rest => readFields fuel fields (skip rest)
        | _ => none
      | _ => none
    | _ => none

end

/-- Reads a JSON text, which may have blanks around its one value. -/
def read (t : Text) : Option Json := do
  let (value, rest) ← readValue (2 * t.length + 2) (skip t)
  if (skip rest).isEmpty then return value else none

end SqlPipeline.Json
