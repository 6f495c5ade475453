import SqlPipeline.Expr
import SqlPipeline.Number.Decimal
import SqlPipeline.Token

/-!
# Reading expression text

`Expr.read` walks over the tokens of a text from left to right and turns each of
them into one piece, with the blanks before it copied as text. What a name means
depends on where it stands, and the walk carries just enough to know: the groups
that are open, innermost first, and what the next parenthesis would open.

* A name before a parenthesis is the name of a function.
* Inside `CAST( … )` every name after `AS` belongs to a type.
* The first token inside `EXTRACT( … )` names a field.
* Otherwise a name is a constant, a keyword or a column.

The first token that fits nowhere ends the walk with an error at its offset.
-/

namespace SqlPipeline

/-- Why expression text is refused. -/
inductive SyntaxFault where
  | expectedExpression
  | unexpectedClose
  | expectedClose
  | emptyQuotedIdentifier
  | inputNotAllowed
  | unexpectedInput (text : Text)
  | invalidNumber (text : Text)
  deriving Repr, DecidableEq

/-- The wording of a fault. -/
def SyntaxFault.message : SyntaxFault → Text
  | expectedExpression => "Expected expression"
  | unexpectedClose => "Unexpected )"
  | expectedClose => "Expected ) to close expression"
  | emptyQuotedIdentifier => "Empty quoted identifier"
  | inputNotAllowed => "\x7binput\x7d placeholder is only valid in raw statement templates"
  | unexpectedInput text => "Unexpected input: " ++ text
  | invalidNumber text => "Invalid numeric literal: " ++ text

/-- A fault and the offset of the token that shows it. -/
structure SyntaxError where
  fault : SyntaxFault
  position : Nat
  deriving Repr, DecidableEq

namespace Expr

/-- Words that are never columns, in capitals. -/
def keywords : List Text :=
  [ "AND", "OR", "NOT", "IS", "IN", "LIKE", "ILIKE", "BETWEEN", "CASE", "WHEN", "THEN", "ELSE", "END",
    "AS", "CAST", "DISTINCT", "OVER", "PARTITION", "BY", "ORDER", "ASC", "DESC", "NULLS", "FIRST",
    "LAST", "ROWS", "RANGE", "UNBOUNDED", "PRECEDING", "FOLLOWING", "CURRENT", "ROW", "SELECT", "FROM",
    "WHERE", "GROUP", "HAVING", "LIMIT", "JOIN", "ON", "INNER", "LEFT", "RIGHT", "FULL", "OUTER",
    "UNION", "ALL", "EXISTS", "INTERVAL", "ESCAPE", "USING" ].map Text.ofString

/-- The constant that a word stands for, whatever its case. -/
def wordConstant? (word : Text) : Option Literal :=
  let upper := Text.toUpper word
  if upper = "TRUE" then some (.bool true)
  else if upper = "FALSE" then some (.bool false)
  else if upper = "NULL" then some .null
  else none

/-- What the names inside a group can mean. -/
inductive GroupKind where
  | plain
  | cast
  | extract
  deriving Repr, DecidableEq

/-- The kind of group that a function's parenthesis opens. -/
def GroupKind.ofCall (name : Text) : GroupKind :=
  let upper := Text.toUpper name
  if upper = "CAST" ∨ upper = "TRY_CAST" then .cast
  else if upper = "EXTRACT" then .extract
  else .plain

/-- A group that is open. -/
structure Group where
  kind : GroupKind
  /-- Names now belong to a type. -/
  typeWords : Bool
  /-- The next token is the first of its group and names a field. -/
  fieldWord : Bool
  deriving Repr, DecidableEq

/-- A group whose parenthesis was just read. -/
def Group.opened (kind : GroupKind) : Group := ⟨kind, false, kind == .extract⟩

/-- Where the walk stands. -/
structure Position where
  /-- The innermost group; the whole text counts as one. -/
  group : Group
  /-- The groups around it, innermost first. -/
  outer : List Group
  /-- What a parenthesis would open here. -/
  next : GroupKind
  deriving Repr, DecidableEq

/-- Before the first token. -/
def Position.start : Position := ⟨Group.opened .plain, [], .plain⟩

/-- Where the walk stands after a token that opens and closes nothing. -/
def Position.pass (p : Position) : Position :=
  ⟨⟨p.group.kind, p.group.typeWords, false⟩, p.outer, .plain⟩

/-- The constant written by a number: an integer of 64 bits if it is one, else a double. -/
def numberConstant? (t : Text) : Option Literal :=
  if t.all Text.isDigit ∧ Text.toNat t < Binary64.exp2 63 then some (.int (Text.toNat t))
  else
    let d := Decimal.ofText t
    if d.outOfRange then none else some (.float (d.nearest false))

/-- The piece of a name that stands in neither type nor field position. -/
def namePiece (name : Text) (beforeParen : Bool) : Piece :=
  match wordConstant? name with
  | some value => .const value
  | none =>
    if beforeParen || keywords.contains (Text.toUpper name) then .text name else .var name

/-- Where the walk stands after a name, and the name's piece. -/
def readName (p : Position) (name : Text) (beforeParen : Bool) : Position × Piece :=
  if p.group.typeWords || p.group.fieldWord then (p.pass, .text name)
  else
    let opensType := p.group.kind == .cast && Text.toUpper name == Text.ofString "AS"
    let isCall := beforeParen && (wordConstant? name).isNone
    (⟨⟨p.group.kind, opensType, false⟩, p.outer, if isCall then .ofCall name else .plain⟩,
      namePiece name beforeParen)

/-- Reads one token; `beforeParen` tells whether a parenthesis opens right after it. -/
def readToken (allowInput : Bool) (p : Position) (token : Token) (beforeParen : Bool) :
    Except SyntaxFault (Position × Piece) :=
  match token.kind with
  | .openParen => .ok (⟨.opened p.next, p.pass.group :: p.outer, .plain⟩, .text "(")
  | .closeParen =>
    match p.outer with
    | [] => .error .unexpectedClose
    | group :: outer => .ok (⟨group, outer, .plain⟩, .text ")")
  | .identifier => .ok (readName p token.text beforeParen)
  | .quotedIdentifier =>
    if token.text.isEmpty then .error .emptyQuotedIdentifier else .ok (p.pass, .var token.text)
  | .string => .ok (p.pass, .const (.string token.text))
  | .number =>
    match numberConstant? token.text with
    | some value => .ok (p.pass, .const value)
    | none => .error (.invalidNumber token.text)
  | .input => if allowInput then .ok (p.pass, .input) else .error .inputNotAllowed
  | .comma | .operator => .ok (p.pass, .text token.text)
  | .invalid => .error (.unexpectedInput token.text)

/-- Whether a parenthesis opens at the front of the tokens. -/
def opensParen : List Token → Bool
  | token :: _ => token.kind == .openParen
  | [] => false

/-- Reads the tokens that follow offset `last` into pieces; `source` is the text from there on. -/
def readTokens (allowInput : Bool) (source : Text) (p : Position) (last : Nat) :
    List Token → Except SyntaxError (List Piece)
  | [] => if p.outer.isEmpty then .ok [] else .error ⟨.expectedClose, last + source.length⟩
  | token :: rest =>
    match readToken allowInput p token (opensParen rest) with
    | .error fault => .error ⟨fault, token.pos⟩
    | .ok (p', piece) =>
      match readTokens allowInput (source.drop (token.stop - last)) p' token.stop rest with
      | .error e => .error e
      | .ok pieces => .ok (.text (source.take (token.pos - last)) :: piece :: pieces)

/-- Reads expression text; `allowInput` admits the place of the incoming relation. -/
def read (source : Text) (allowInput : Bool) : Except SyntaxError Expr :=
  match Token.scan source with
  | [] => .error ⟨.expectedExpression, source.length⟩
  | tokens =>
    match readTokens allowInput source .start 0 tokens with
    | .error e => .error e
    | .ok pieces => .ok (ofPieces pieces)

end Expr

end SqlPipeline
