import SqlPipeline.Number.Shortest

/-!
# Expressions

An expression is a row of pieces: column names, constants, text that is copied as
it stands, and the place where a template takes its incoming relation. Nothing is
known of operators or precedence. `Expr.ofPieces` is the normal form, in which no
text piece is empty and no two stand side by side; the builders and the reader of
expression text both end in it, so expressions built and read compare equal.
-/

namespace SqlPipeline

/-- A constant. -/
inductive Literal where
  | null
  | bool (value : Bool)
  | int (value : Int)
  | float (value : Binary64)
  | string (value : Text)
  deriving Repr, Inhabited, BEq

namespace Literal

/-- A text with each quote doubled, between quotes. -/
def enclose (opening closing : UInt8) (t : Text) : Text :=
  opening :: (t.flatMap fun b => if b = closing then [b, b] else [b]) ++ [closing]

/-- The literal in plain notation. -/
def display : Literal → Text
  | null => "NULL"
  | bool value => if value then "TRUE" else "FALSE"
  | int value => Text.ofInt value
  | float value => value.toText
  | string value => enclose Text.apostrophe Text.apostrophe value

/-- Neither a NaN nor an infinity. -/
def isFinite : Literal → Bool
  | float value => value.isFinite
  | _ => true

end Literal

/-- One piece of an expression. -/
inductive Piece where
  | var (name : Text)
  | const (value : Literal)
  | text (value : Text)
  | input
  deriving Repr, Inhabited, BEq

namespace Piece

/-- The piece in plain notation. -/
def display : Piece → Text
  | var name => name
  | const value => value.display
  | text value => value
  | input => "\x7binput\x7d"

/-- The column a piece names. -/
def column? : Piece → Option Text
  | var name => some name
  | _ => none

/-- Whether the piece stands for the incoming relation. -/
def isInput : Piece → Bool
  | input => true
  | _ => false

/-- Puts a piece in front of normal pieces: empty text vanishes and text joins text. -/
def glue : Piece → List Piece → List Piece
  | text [], rest => rest
  | text t, text u :: rest => text (t ++ u) :: rest
  | piece, rest => piece :: rest

end Piece

/-- An expression as a row of pieces. -/
structure Expr where
  pieces : List Piece
  deriving Repr, Inhabited, BEq

/-- What an expression amounts to as a whole. -/
inductive Expr.Kind where
  | var
  | const
  | fragment
  deriving Repr, DecidableEq

namespace Expr

/-- The normal expression of a row of pieces. -/
def ofPieces (pieces : List Piece) : Expr := ⟨pieces.foldr Piece.glue []⟩

/-- A lone column or constant is of its own kind, all else is a fragment. -/
def kind (e : Expr) : Kind :=
  match e.pieces with
  | [.var _] => .var
  | [.const _] => .const
  | _ => .fragment

/-- The columns the expression names, each at its first place. -/
def columns (e : Expr) : List Text := Text.appendNew [] (e.pieces.filterMap Piece.column?)

/-- Whether the expression refers to the incoming relation. -/
def hasInput (e : Expr) : Bool := e.pieces.any Piece.isInput

/-- The expression in plain notation. -/
def display (e : Expr) : Text := e.pieces.flatMap Piece.display

/-! ## Builders -/

/-- A column. -/
def var (name : Text) : Expr := ⟨[.var name]⟩

/-- A constant. -/
def lit (value : Literal) : Expr := ⟨[.const value]⟩

/-- The call of a function. -/
def call (name : Text) (args : List Expr) : Expr :=
  ofPieces (.text (name ++ "(") :: [Piece.text ", "].intercalate (args.map Expr.pieces) ++ [.text ")"])

/-- Two expressions with an operator and a space on either side of it. -/
def binary (left : Expr) (op : Text) (right : Expr) : Expr :=
  ofPieces (left.pieces ++ .text (" " ++ op ++ " ") :: right.pieces)

/-- An expression in parentheses. -/
def paren (inner : Expr) : Expr := ofPieces (.text "(" :: inner.pieces ++ [.text ")"])

end Expr

/-- A column computed from others. -/
structure Assignment where
  target : Text
  expr : Expr
  deriving Repr, Inhabited, BEq

/-- The assignment in plain notation. -/
def Assignment.display (a : Assignment) : Text := a.target ++ " := " ++ a.expr.display

/-- The columns the assignment reads. -/
def Assignment.reads (a : Assignment) : List Text := a.expr.columns

end SqlPipeline
