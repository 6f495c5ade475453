import SqlPipeline.Cli.Options
import SqlPipeline.Dialect

/-!
# The configuration file

A configuration file is read line by line. A line in brackets opens a section, and
a line `key = value` under it sets the key `section.key`. Blank lines, comments,
lines without a key and keys that nobody knows mean nothing. `Config.entries` is
what is left: the keys that are set, with their values and the numbers of their
lines. `Config.load` applies them in order up to the first value that its key
does not take.
-/

namespace SqlPipeline.Cli

/-- How identifiers are quoted. -/
inductive QuoteStyle where
  | double
  | backtick
  | bracket
  deriving Repr, DecidableEq

/-- The name of a style. -/
def QuoteStyle.name : QuoteStyle → Text
  | double => "double"
  | backtick => "backtick"
  | bracket => "bracket"

/-- The style of a name. -/
def QuoteStyle.ofName? (name : Text) : Option QuoteStyle :=
  [double, backtick, bracket].find? fun style => style.name == name

/-- The opening and the closing quote of a style. -/
def QuoteStyle.quotes : QuoteStyle → UInt8 × UInt8
  | double => (Text.doubleQuote, Text.doubleQuote)
  | backtick => (Text.backtick, Text.backtick)
  | bracket => (91, 93)

/-- What a configuration file sets. -/
structure Settings where
  dialectName : Option Text
  identifierQuote : Option QuoteStyle
  windowFunctions : Option Bool
  temporaryTables : Option Bool
  temporaryFallback : Option Bool
  booleanLiterals : Option Bool
  rightFullJoins : Option Bool
  createOptions : Option Text
  outputMode : Option OutputMode
  outputLimit : Option Nat
  deriving Repr, DecidableEq

/-- Nothing is set. -/
def Settings.unset : Settings :=
  ⟨.none, .none, .none, .none, .none, .none, .none, .none, .none, .none⟩

namespace Config

/-! ## Values -/

/-- The blanks of a configuration file. -/
def isBlank (b : UInt8) : Bool := b == 32 || b == 9 || b == 13 || b == 10

/-- A text without the blanks at either end. -/
def strip (t : Text) : Text := Text.trimWhile isBlank t

/-- A text without its quotes: bare words stand for themselves, and a quote has to be closed by the
same quote at the end. -/
def textValue? (value : Text) : Option Text :=
  match value with
  | [] => none
  | opening :: rest =>
    if opening = Text.doubleQuote ∨ opening = Text.apostrophe then
      if rest.getLast? = some opening then some rest.dropLast else none
    else some value

/-- The words `true` and `false` in any case. -/
def boolValue? (value : Text) : Option Bool :=
  let lower := Text.toLower value
  if lower = "true" then some true else if lower = "false" then some false else none

/-! ## Keys -/

/-- The keys that are known. -/
inductive Key where
  | dialectName
  | identifierQuote
  | windowFunctions
  | temporaryTables
  | temporaryFallback
  | booleanLiterals
  | rightFullJoins
  | createOptions
  | outputMode
  | outputLimit
  deriving Repr, DecidableEq

namespace Key

/-- A key with its section. -/
def name : Key → Text
  | dialectName => "dialect.name"
  | identifierQuote => "dialect.identifier_quote"
  | windowFunctions => "dialect.window_functions"
  | temporaryTables => "dialect.temporary_tables"
  | temporaryFallback => "dialect.temporary_fallback"
  | booleanLiterals => "dialect.boolean_literals"
  | rightFullJoins => "dialect.right_full_joins"
  | createOptions => "dialect.create_options"
  | outputMode => "output.mode"
  | outputLimit => "output.limit"

/-- The key of a name. -/
def ofName? (t : Text) : Option Key :=
  [dialectName, identifierQuote, windowFunctions, temporaryTables, temporaryFallback,
    booleanLiterals, rightFullJoins, createOptions, outputMode, outputLimit].find? fun key =>
      key.name == t

/-- What a message says about the values that a key takes. -/
def hint : Key → Text
  | dialectName | createOptions => []
  | identifierQuote => " (use double|backtick|bracket)"
  | windowFunctions | temporaryTables | temporaryFallback | booleanLiterals | rightFullJoins =>
    " (use true|false)"
  | outputMode => " (use plain|json)"
  | outputLimit => " (use a non-negative integer)"

/-- Sets a key, if it takes the value. -/
def set (key : Key) (value : Text) (s : Settings) : Option Settings :=
  match key with
  | dialectName => (textValue? value).map fun v => { s with dialectName := some v }
  | createOptions => (textValue? value).map fun v => { s with createOptions := some v }
  | identifierQuote =>
    ((textValue? value).bind fun v => QuoteStyle.ofName? (Text.toLower v)).map fun v =>
      { s with identifierQuote := some v }
  | outputMode =>
    ((textValue? value).bind fun v => OutputMode.ofName? (Text.toLower v)).map fun v =>
      { s with outputMode := some v }
  | windowFunctions => (boolValue? value).map fun v => { s with windowFunctions := some v }
  | temporaryTables => (boolValue? value).map fun v => { s with temporaryTables := some v }
  | temporaryFallback => (boolValue? value).map fun v => { s with temporaryFallback := some v }
  | booleanLiterals => (boolValue? value).map fun v => { s with booleanLiterals := some v }
  | rightFullJoins => (boolValue? value).map fun v => { s with rightFullJoins := some v }
  | outputLimit => (Count.digits value).map fun v => { s with outputLimit := some v }

end Key

/-! ## Lines -/

/-- What one line says. -/
inductive Line where
  | nothing
  | heading (name : Text)
  | setting (key value : Text)
  deriving Repr, DecidableEq

/-- Reads a line. An opening bracket without the closing one means nothing. -/
def readLine (t : Text) : Line :=
  match strip t with
  | [] => .nothing
  | 35 :: _ => .nothing
  | 91 :: rest =>
    if rest.getLast? = some 93 then .heading (strip rest.dropLast) else .nothing
  | content =>
    let key := strip (content.takeWhile (· != 61))
    match content.dropWhile (· != 61) with
    | [] => .nothing
    | _ :: value => if key.isEmpty then .nothing else .setting key (strip value)

/-- A key that a line sets. -/
structure Entry where
  line : Nat
  key : Key
  value : Text
  deriving Repr, DecidableEq

/-- A key under the section that is open. -/
def fullKey (current key : Text) : Text := if current.isEmpty then key else current ++ "." ++ key

/-- The known keys that lines set under the section that is open; the first line has the given
number. -/
def entriesFrom (number : Nat) (current : Text) : List Text → List Entry
  | [] => []
  | t :: rest =>
    match readLine t with
    | .nothing => entriesFrom (number + 1) current rest
    | .heading name => entriesFrom (number + 1) name rest
    | .setting key value =>
      let entries := entriesFrom (number + 1) current rest
      match Key.ofName? (fullKey current key) with
      | some key => ⟨number, key, value⟩ :: entries
      | none => entries

/-- The known keys that a file sets, in order. -/
def entries (t : Text) : List Entry := entriesFrom 1 [] (Text.splitOn 10 t)

/-! ## Loading -/

/-- A key and the line that gives it a value it does not take. -/
structure Fault where
  key : Key
  line : Nat
  deriving Repr, DecidableEq

/-- The wording of a fault. -/
def Fault.message (f : Fault) : Text :=
  "Invalid " ++ f.key.name ++ " at line " ++ Text.ofNat f.line ++ f.key.hint

/-- Sets the keys in order, up to the first value that is not taken. -/
def applyAll (s : Settings) : List Entry → Settings × Option Fault
  | [] => (s, none)
  | entry :: rest =>
    match entry.key.set entry.value s with
    | some s => applyAll s rest
    | none => (s, some ⟨entry.key, entry.line⟩)

/-- Loads a file. What stands before a fault is set. -/
def load (t : Text) : Settings × Option Fault := applyAll .unset (entries t)

/-! ## Where the file is -/

/-- The variables that say where the file is; an empty one counts as unset. -/
structure Environment where
  config : Text
  configHome : Text
  home : Text
  deriving Repr, DecidableEq

/-- A path below another one. -/
def joinPath (base name : Text) : Text :=
  if base.getLast? = some 47 then base ++ name else base ++ "/" ++ name

/-- The path of the file: the one given, the one of the environment, or the usual place. -/
def resolvePath (given : Text) (env : Environment) : Text :=
  if !given.isEmpty then given
  else if !env.config.isEmpty then env.config
  else
    let below (base : Text) : Text := joinPath (joinPath base "relq") "config.toml"
    if !env.configHome.isEmpty then below env.configHome
    else if !env.home.isEmpty then below (joinPath env.home ".config")
    else "relq.config.toml"

end Config

/-- The dialect of a run: the flag's preset, else the file's, else the generic one, changed as the file
says. -/
def Settings.dialect (s : Settings) (flag : Text) : Except Error Dialect := do
  let base ← Dialect.byName (if flag.isEmpty then s.dialectName.getD "generic" else flag)
  let (opening, closing) :=
    match s.identifierQuote with
    | some style => style.quotes
    | none => (base.quoteOpen, base.quoteClose)
  return { base with
    quoteOpen := opening
    quoteClose := closing
    windowFunctions := s.windowFunctions.getD base.windowFunctions
    temporaryTables := s.temporaryTables.getD base.temporaryTables
    temporaryFallback := s.temporaryFallback.getD base.temporaryFallback
    booleanLiterals := s.booleanLiterals.getD base.booleanLiterals
    rightFullJoins := s.rightFullJoins.getD base.rightFullJoins
    createOptions := s.createOptions.getD base.createOptions }

end SqlPipeline.Cli
