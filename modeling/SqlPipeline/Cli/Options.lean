import SqlPipeline.Number.Count

/-!
# Command line options

`Options.parse` reads the arguments from left to right and stops at the first that
it cannot use. What was read up to there stays, next to the fault.
-/

namespace SqlPipeline.Cli

/-- How results are written. -/
inductive OutputMode where
  | plain
  | json
  deriving Repr, DecidableEq

/-- The name of a mode. -/
def OutputMode.name : OutputMode → Text
  | plain => "plain"
  | json => "json"

/-- The mode of a name. -/
def OutputMode.ofName? (name : Text) : Option OutputMode :=
  [plain, json].find? fun mode => mode.name == name

/-- What the arguments ask for. An empty text is one that was not given. -/
structure Options where
  pipelineFile : Text
  dialect : Text
  configPath : Text
  outputMode : Option OutputMode
  outputLimit : Option Nat
  sourceLimit : Option Nat
  outputColumns : List Text
  formatTree : Bool
  describe : Bool
  verbose : Bool
  color : Bool
  showHelp : Bool
  deriving Repr, DecidableEq

/-- No arguments. -/
def Options.default : Options :=
  { pipelineFile := []
    dialect := []
    configPath := []
    outputMode := none
    outputLimit := none
    sourceLimit := none
    outputColumns := []
    formatTree := false
    describe := false
    verbose := false
    color := true
    showHelp := false }

/-- What is wrong with the arguments. -/
inductive ArgumentFault where
  | badMode
  | badCount (flag : Text)
  | badColumns
  | missingValue (flag : Text)
  | unknown (argument : Text)
  deriving Repr, DecidableEq

/-- The wording of a fault. -/
def ArgumentFault.message : ArgumentFault → Text
  | badMode => "Invalid --mode value (use plain|json)"
  | badCount flag => "Invalid " ++ flag ++ " value (use a non-negative integer)"
  | badColumns => "Invalid --columns value (use a comma-separated list)"
  | missingValue flag => "Missing value for " ++ flag
  | unknown argument => "Unknown argument: " ++ argument

/-- The flags that take a value. -/
inductive ValueFlag where
  | pipeline
  | dialect
  | config
  | mode
  | limit
  | sourceLimit
  | columns
  deriving Repr, DecidableEq

/-- A flag as it is written. -/
def ValueFlag.name : ValueFlag → Text
  | pipeline => "--pipeline"
  | dialect => "--dialect"
  | config => "--config"
  | mode => "--mode"
  | limit => "--limit"
  | sourceLimit => "--source-limit"
  | columns => "--columns"

/-- The flag that an argument is. -/
def ValueFlag.ofName? (argument : Text) : Option ValueFlag :=
  [pipeline, dialect, config, mode, limit, sourceLimit, columns].find? fun flag =>
    flag.name == argument

/-- The blanks around a column of a list. -/
def isColumnBlank (b : UInt8) : Bool := b == 32 || b == 9

/-- The columns of a list with commas between them; those without a name are left out. -/
def splitColumns (t : Text) : List Text :=
  ((Text.splitOn 44 t).map (Text.trimWhile isColumnBlank)).filter fun name => !name.isEmpty

namespace Options

/-- Sets what a flag and its value say. The columns of a bad list are dropped with it. -/
def setValue (o : Options) (flag : ValueFlag) (value : Text) : Options × Option ArgumentFault :=
  match flag with
  | .pipeline => ({ o with pipelineFile := value }, none)
  | .dialect => ({ o with dialect := value }, none)
  | .config => ({ o with configPath := value }, none)
  | .mode =>
    match OutputMode.ofName? value with
    | some mode => ({ o with outputMode := some mode }, none)
    | none => (o, some .badMode)
  | .limit =>
    match Count.flag value with
    | some n => ({ o with outputLimit := some n }, none)
    | none => (o, some (.badCount flag.name))
  | .sourceLimit =>
    match Count.flag value with
    | some n => ({ o with sourceLimit := some n }, none)
    | none => (o, some (.badCount flag.name))
  | .columns =>
    let columns := splitColumns value
    ({ o with outputColumns := columns }, if columns.isEmpty then some .badColumns else none)

/-- Sets what a flag without a value says. -/
def setSwitch (o : Options) (argument : Text) : Option Options :=
  if argument = "--format" then some { o with formatTree := true }
  else if argument = "--describe" then some { o with describe := true }
  else if argument = "--verbose" then some { o with verbose := true }
  else if argument = "--color=disabled" then some { o with color := false }
  else if argument = "--help" then some { o with showHelp := true }
  else none

/-- Reads arguments into options, up to the first fault. -/
def parseFrom (o : Options) : List Text → Options × Option ArgumentFault
  | [] => (o, none)
  | argument :: rest =>
    match ValueFlag.ofName? argument, rest with
    | some flag, value :: rest =>
      match o.setValue flag value with
      | (o, none) => parseFrom o rest
      | (o, some fault) => (o, some fault)
    | some flag, [] => (o, some (.missingValue flag.name))
    | none, rest =>
      match o.setSwitch argument with
      | some o => parseFrom o rest
      | none => (o, some (.unknown argument))

/-- Reads the arguments of a run. -/
def parse (args : List Text) : Options × Option ArgumentFault := parseFrom default args

end Options

end SqlPipeline.Cli
