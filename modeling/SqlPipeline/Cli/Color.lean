import SqlPipeline.Text

/-!
# Coloring JSON for a terminal

`segments` cuts a text into runs, each with the color it is shown in, and `colorize`
puts the codes of the color around each run. The cut never looks back and never
changes a byte, so the codes are all that is added, whether the text is JSON or not.
-/

namespace SqlPipeline.Cli

/-- The colors of the palette. -/
inductive Color where
  | red
  | green
  | yellow
  | cyan
  | magenta
  | dim
  deriving Repr, DecidableEq

/-- The code that ends every color. -/
def Color.reset : Text := "\x1b[0m"

/-- The code that starts a color. -/
def Color.code : Color → Text
  | red => "\x1b[31m"
  | green => "\x1b[32m"
  | yellow => "\x1b[33m"
  | cyan => "\x1b[36m"
  | magenta => "\x1b[35m"
  | dim => "\x1b[2m"

/-- A text between the codes of a color. -/
def Color.paint (c : Color) (t : Text) : Text := c.code ++ t ++ Color.reset

/-- A run of bytes and its color, if it has one. -/
structure Segment where
  color : Option Color
  text : Text
  deriving Repr, DecidableEq

/-- A segment as it is shown. -/
def Segment.show (s : Segment) : Text :=
  match s.color with
  | some c => c.paint s.text
  | none => s.text

/-- The number of bytes from after an opening quote to the closing one, or to the end. A backslash takes
the byte after it along. -/
def stringExtent : Text → Nat
  | [] => 0
  | [_] => 1
  | b :: c :: rest =>
    if b = 34 then 1
    else if b = 92 then 2 + stringExtent rest
    else 1 + stringExtent (c :: rest)

/-- The bytes that continue a number. -/
def isNumberByte (b : UInt8) : Bool :=
  Text.isDigit b || b == 46 || b == 45 || b == 101 || b == 69 || b == 43

/-- The bytes that stand between values. -/
def isPunctuation (b : UInt8) : Bool := [123, 125, 91, 93, 58, 44].contains b

/-- The color of the run that starts with `b`, and how many bytes of the rest belong to it. -/
def runAt (b : UInt8) (rest : Text) : Option Color × Nat :=
  if b == 34 then (some .green, stringExtent rest)
  else if Text.isDigit b || b == 45 then (some .cyan, (rest.takeWhile isNumberByte).length)
  else if (Text.ofString "true").isPrefixOf (b :: rest) then (some .yellow, 3)
  else if (Text.ofString "false").isPrefixOf (b :: rest) then (some .yellow, 4)
  else if (Text.ofString "null").isPrefixOf (b :: rest) then (some .magenta, 3)
  else if isPunctuation b then (some .dim, 0)
  else (none, 0)

/-- The runs of a text. -/
def segments : Text → List Segment
  | [] => []
  | b :: rest =>
    let (color, extra) := runAt b rest
    ⟨color, b :: rest.take extra⟩ :: segments (rest.drop extra)
termination_by t => t.length
decreasing_by simp only [List.length_drop, List.length_cons]; omega

/-- The text with its runs in color. -/
def colorize (t : Text) : Text := (segments t).flatMap Segment.show

end SqlPipeline.Cli
