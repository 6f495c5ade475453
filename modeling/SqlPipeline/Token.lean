import SqlPipeline.Text

/-!
# Tokens of expression text

`Token.scan` cuts a text into tokens and drops the blanks between them. It never
gives up: a byte that starts nothing is an `invalid` token of its own, and a quote
that is never closed is one `invalid` token up to the end. Each token knows the
offsets of its first byte and of the byte after its last one, so the blanks can be
read off the text again.

A lexeme is what stands at the front of a text: `Lexeme.front` takes the first
byte and the rest, and says how many bytes of the rest belong to it. The scan
drops those bytes and goes on, which is why it ends.
-/

namespace SqlPipeline

/-- What a token is. -/
inductive Token.Kind where
  | identifier
  | quotedIdentifier
  | string
  | number
  | openParen
  | closeParen
  | comma
  | operator
  | input
  | invalid
  deriving Repr, DecidableEq

/-- A token with its decoded text and its place `[pos, stop)`. -/
structure Token where
  kind : Token.Kind
  text : Text
  pos : Nat
  stop : Nat
  deriving Repr, DecidableEq

/-- What stands at the front of a text: `extra` bytes belong to it after the first. -/
structure Lexeme where
  kind : Token.Kind
  text : Text
  extra : Nat
  deriving Repr, DecidableEq

namespace Lexeme

/-- The placeholder for the incoming relation. -/
def inputMark : Text := "\x7binput\x7d"

/-- Letters and the underscore start a name. -/
def isNameStart (b : UInt8) : Bool := Text.isLetter b || b == 95

/-- Letters, digits and the underscore continue a name. -/
def isNameByte (b : UInt8) : Bool := isNameStart b || Text.isDigit b

/-- The bytes `+ - * / % < > = ! | & ^ ~ : . ;` form operators. -/
def isOperatorByte (b : UInt8) : Bool :=
  [43, 45, 42, 47, 37, 60, 62, 61, 33, 124, 38, 94, 126, 58, 46, 59].contains b

/-- Reads what follows an opening quote: the text with doubled quotes undone, and the number of bytes up
to and with the closing quote. -/
def quotedBody (quote : UInt8) : Text → Option (Text × Nat)
  | [] => none
  | b :: rest =>
    if b = quote then
      match rest with
      | [] => some ([], 1)
      | c :: rest' =>
        if c = quote then (quotedBody quote rest').map fun (t, n) => (quote :: t, n + 2)
        else some ([], 1)
    else (quotedBody quote rest).map fun (t, n) => (b :: t, n + 1)

/-- A quoted text, or one invalid lexeme to the end when the quote is never closed. -/
def quoted (kind : Token.Kind) (complaint : Text) (quote : UInt8) (rest : Text) : Lexeme :=
  match quotedBody quote rest with
  | some (t, n) => ⟨kind, t, n⟩
  | none => ⟨.invalid, complaint, rest.length⟩

/-- The sign in front of the digits of an exponent. -/
def sign (t : Text) : Text :=
  match t with
  | b :: _ => if b == 43 || b == 45 then [b] else []
  | [] => []

/-- A point and the digits after it, when the text starts with a point. -/
def fraction (t : Text) : Text :=
  match t with
  | b :: rest => if b == 46 then b :: rest.takeWhile Text.isDigit else []
  | [] => []

/-- An exponent at the front of the text; a mark without digits is none. -/
def exponent (t : Text) : Text :=
  match t with
  | b :: rest =>
    if b == 101 || b == 69 then
      let s := sign rest
      let digits := (rest.drop s.length).takeWhile Text.isDigit
      if digits.isEmpty then [] else b :: (s ++ digits)
    else []
  | [] => []

/-- The number at the front of a text. -/
def number (t : Text) : Text :=
  let whole := t.takeWhile Text.isDigit
  let afterWhole := t.drop whole.length
  let part := fraction afterWhole
  whole ++ part ++ exponent (afterWhole.drop part.length)

/-- Whether a number starts with byte `b`: a digit does, and a point before a digit. -/
def startsNumber (b : UInt8) (rest : Text) : Bool :=
  Text.isDigit b || (b == 46 && (rest.head?.map Text.isDigit).getD false)

/-- A lexeme that is spelled as it stands. -/
def plain (kind : Token.Kind) (t : Text) : Lexeme := ⟨kind, t, t.length - 1⟩

/-- The lexeme at the front of `b :: rest`, where `b` is no blank. -/
def front (b : UInt8) (rest : Text) : Lexeme :=
  if b == 40 then ⟨.openParen, [b], 0⟩
  else if b == 41 then ⟨.closeParen, [b], 0⟩
  else if b == 44 then ⟨.comma, [b], 0⟩
  else if b == 123 then
    if inputMark.isPrefixOf (b :: rest) then plain .input inputMark else ⟨.invalid, [b], 0⟩
  else if b == Text.apostrophe then quoted .string "unterminated string literal" b rest
  else if b == Text.doubleQuote || b == Text.backtick then
    quoted .quotedIdentifier "unterminated quoted identifier" b rest
  else if startsNumber b rest then plain .number (number (b :: rest))
  else if isNameStart b then plain .identifier (b :: rest.takeWhile isNameByte)
  else if isOperatorByte b then plain .operator (b :: rest.takeWhile isOperatorByte)
  else ⟨.invalid, [b], 0⟩

end Lexeme

namespace Token

/-- The tokens of a text that starts at offset `pos`. -/
def scanFrom (pos : Nat) : Text → List Token
  | [] => []
  | b :: rest =>
    if Text.isBlank b then scanFrom (pos + 1) rest
    else
      let lexeme := Lexeme.front b rest
      let stop := pos + 1 + lexeme.extra
      ⟨lexeme.kind, lexeme.text, pos, stop⟩ :: scanFrom stop (rest.drop lexeme.extra)
termination_by t => t.length
decreasing_by
  · exact Nat.lt_succ_self _
  · simp only [List.length_drop, List.length_cons]; omega

/-- The tokens of a text. -/
def scan (t : Text) : List Token := scanFrom 0 t

end Token

end SqlPipeline
