/-!
# Text

Names, expressions and statements are sequences of bytes. No operation here
looks for characters wider than one byte: a letter is an ASCII letter, case maps
leave every byte above 127 alone, and texts are ordered byte by byte. A text
written in the source is its UTF-8 encoding, and the coercion from `String` lets
the two mix in a concatenation.
-/

namespace SqlPipeline

/-- A sequence of bytes, usually but not always UTF-8. -/
abbrev Text := List UInt8

instance : LawfulBEq Text := inferInstance

namespace Text

/-- The UTF-8 bytes of a string. -/
def ofString (s : String) : Text := s.toUTF8.data.toList

instance : Coe String Text := ⟨ofString⟩

/-! ## Bytes by class -/

/-- The byte `'`. -/
def apostrophe : UInt8 := 39

/-- The byte `"`. -/
def doubleQuote : UInt8 := 34

/-- The grave accent, byte 96. -/
def backtick : UInt8 := 96

/-- Blanks are the space and the five control bytes from tab to carriage return. -/
def isBlank (b : UInt8) : Bool := b == 32 || (9 ≤ b && b ≤ 13)

/-- The bytes `0` to `9`. -/
def isDigit (b : UInt8) : Bool := 48 ≤ b && b ≤ 57

/-- The bytes `A` to `Z`. -/
def isUpper (b : UInt8) : Bool := 65 ≤ b && b ≤ 90

/-- The bytes `a` to `z`. -/
def isLower (b : UInt8) : Bool := 97 ≤ b && b ≤ 122

/-- ASCII letters of either case. -/
def isLetter (b : UInt8) : Bool := isUpper b || isLower b

/-- The number a digit stands for. -/
def digitValue (b : UInt8) : Nat := b.toNat - 48

/-! ## Case and trimming -/

/-- Every ASCII capital turned small. -/
def toLower (t : Text) : Text := t.map fun b => if isUpper b then b + 32 else b

/-- Every ASCII small letter turned capital. -/
def toUpper (t : Text) : Text := t.map fun b => if isLower b then b - 32 else b

/-- The text without the longest run of such bytes at either end. -/
def trimWhile (p : UInt8 → Bool) (t : Text) : Text :=
  ((t.dropWhile p).reverse.dropWhile p).reverse

/-- The text without the blanks at either end. -/
def trim (t : Text) : Text := trimWhile isBlank t

/-- The part before the first NUL byte, which is where a message ends. -/
def untilNul (t : Text) : Text := t.takeWhile (· != 0)

/-- So many spaces. -/
def spaces (n : Nat) : Text := List.replicate n 32

/-- The text if the condition holds, and nothing otherwise. -/
def onlyIf (condition : Bool) (t : Text) : Text := if condition then t else []

/-- The text made of a value that is there, and nothing otherwise. -/
def ofOption {α : Type} (write : α → Text) (value : Option α) : Text := (value.map write).getD []

/-! ## Numbers as text -/

/-- The decimal digits of a number, without leading zeros. -/
def ofNat (n : Nat) : Text :=
  if n < 10 then [UInt8.ofNat (48 + n)]
  else ofNat (n / 10) ++ [UInt8.ofNat (48 + n % 10)]

/-- The decimal digits of a number, after `-` when it is negative. -/
def ofInt : Int → Text
  | .ofNat n => ofNat n
  | .negSucc n => 45 :: ofNat (n + 1)

/-- The number that a run of digits stands for, most significant first. -/
def toNat (t : Text) : Nat := t.foldl (fun n b => n * 10 + digitValue b) 0

/-! ## Lists of texts -/

/-- The items with the separator between each two of them. -/
def join (separator : Text) (items : List Text) : Text := separator.intercalate items

theorem join_cons (separator first : Text) (rest : List Text) :
    join separator (first :: rest) = first ++ rest.flatMap (separator ++ ·) := by
  induction rest generalizing first with
  | nil => simp [join]
  | cons next rest ih =>
    rw [join, List.intercalate_cons_cons, List.flatMap_cons, ← join, ih]
    simp only [List.append_assoc]

/-- The pieces between the occurrences of a byte; a text without it is one piece. -/
def splitOn (separator : UInt8) : Text → List Text
  | [] => [[]]
  | b :: rest =>
    if b == separator then [] :: splitOn separator rest
    else
      match splitOn separator rest with
      | [] => [[b]]
      | piece :: pieces => (b :: piece) :: pieces

/-- The first item that is in `seen` or stood earlier in the list. -/
def firstRepeatAfter (seen : List Text) : List Text → Option Text
  | [] => none
  | name :: rest => if name ∈ seen then some name else firstRepeatAfter (name :: seen) rest

/-- The first item that stood earlier in the list. -/
def firstRepeat (names : List Text) : Option Text := firstRepeatAfter [] names

/-- Adds at the end, one after the other, the names that are not there yet. -/
def appendNew (names : List Text) : List Text → List Text
  | [] => names
  | name :: rest =>
    if name ∈ names then appendNew names rest else appendNew (names ++ [name]) rest

/-- Puts a name at its place in an increasing list, unless it is there already. -/
def insertSorted (name : Text) : List Text → List Text
  | [] => [name]
  | other :: rest =>
    if name = other then other :: rest
    else if name < other then name :: other :: rest
    else other :: insertSorted name rest

/-- The distinct names in increasing byte order. -/
def sortedSet (names : List Text) : List Text := names.foldr insertSorted []

end Text

end SqlPipeline
