import SqlPipeline.Cli.Color
import SqlPipeline.Cli.Config
import SqlPipeline.Cli.Help
import SqlPipeline.Cli.Report
import SqlPipeline.Digest
import SqlPipeline.Pipeline.Load

/-!
# A run of the command

`Command.run` is the whole program as a function: from the arguments, the input,
the files, the environment and the terminals to an exit code and two texts. The
JSON library that it runs with is a parameter. The work happens in `Run`, which can
fail with a message and keeps what has been said on the error stream so far. Only
the result of a run that did not fail reaches the output, so a failing run prints
nothing there.
-/

namespace SqlPipeline.Cli

/-- Which streams are terminals. -/
structure Terminals where
  input : Bool
  output : Bool
  error : Bool
  deriving Repr, DecidableEq

/-- What there is at a path. -/
inductive File where
  | absent
  /-- Whether something is there cannot be found out; the words say why. -/
  | unknown (words : Text)
  /-- Something is there that cannot be opened. -/
  | closed
  | readable (content : Text)
  deriving Repr, DecidableEq

/-- What a run can see. -/
structure World where
  args : List Text
  input : Text
  files : Text → File
  environment : Config.Environment
  terminals : Terminals

/-- What a run leaves. -/
structure Outcome where
  exitCode : UInt32
  output : Text
  error : Text
  deriving Repr, DecidableEq

/-- Work that may fail with a message and notes what it does. -/
abbrev Run := ExceptT Text (StateM Text)

namespace Run

/-- Notes something on the error stream. -/
def note (t : Text) : Run Unit := modify (· ++ t)

/-- Goes on with a result, or fails with the message of its error. -/
def of {α : Type} : Except Error α → Run α
  | .ok a => pure a
  | .error e => throw e.message

end Run

namespace Command

/-- A message for the error stream. -/
def report (color : Bool) (message : Text) : Text :=
  (if color then Color.red.paint "Error: " else "Error: ") ++ message ++ "\n"

/-- The settings of the file at a path; a file that is not there sets nothing. -/
def settings (w : World) (path : Text) : Run Settings :=
  if path.isEmpty then pure .unset
  else
    match w.files path with
    | .absent => pure .unset
    | .unknown words => throw words
    | .closed => throw ("Failed to open config: " ++ path)
    | .readable content =>
      match Config.load content with
      | (s, none) => pure s
      | (_, some f) => throw f.message

/-- The text of the pipeline. -/
def pipelineText (w : World) (o : Options) : Run Text :=
  if o.pipelineFile.isEmpty then pure w.input
  else
    match w.files o.pipelineFile with
    | .readable content => pure content
    | .absent | .unknown _ | .closed => throw (Error.unreadableFile o.pipelineFile).message

/-- JSON text for the output, in color on a terminal. -/
def showJson (w : World) (o : Options) (json : Text) : Text :=
  (if o.color && w.terminals.output then colorize json else json) ++ "\n"

/-- What to generate: a flag counts before the file. -/
def generateOptions (o : Options) (s : Settings) : GenerateOptions :=
  { outputLimit := o.outputLimit.or s.outputLimit
    sourceLimit := o.sourceLimit
    outputColumns := if o.outputColumns.isEmpty then none else some o.outputColumns }

/-- Notes what will be compiled. -/
def noteTree (d : Dialect) (tree : Tree) (g : GenerateOptions) : Run Unit := do
  Run.note ("relq: dialect " ++ d.name ++ "\n")
  Run.note "relq: narrowed tree\n"
  let narrowed ← Run.of (tree.narrow g.outputColumns)
  Run.note narrowed.format
  let used ← Run.of tree.columnsUsed
  for (name, columns) in used do
    Run.note ("relq: reads " ++ name ++ " (" ++ Text.ofNat columns.length ++ " columns)\n")

/-- Compiles the pipeline and gives the steps in the mode asked for. -/
def compileSteps (codec : Json.Codec) (w : World) (o : Options) (s : Settings) (d : Dialect)
    (mode : OutputMode) (tree : Tree) : Run Text := do
  let g := generateOptions o s
  if o.verbose then noteTree d tree g
  let steps ← Run.of (tree.generate d g)
  if o.verbose then Run.note ("relq: " ++ Text.ofNat steps.length ++ " step(s)\n")
  match mode with
  | .json =>
    let json ← Run.of (stepsJson codec d steps)
    return showJson w o json
  | .plain => return stepsPlain steps

/-- Describes the tree in the mode asked for. -/
def describe (codec : Json.Codec) (w : World) (o : Options) (mode : OutputMode) (tree : Tree) :
    Run Text := do
  match mode with
  | .json =>
    let json ← Run.of (describeJson codec tree)
    return showJson w o json
  | .plain => Run.of (describePlain tree)

/-- The work of a run that has something to do. -/
def work (codec : Json.Codec) (w : World) (o : Options) : Run Text := do
  let path := Config.resolvePath o.configPath w.environment
  let s ← settings w path
  if o.verbose then Run.note ("relq: config " ++ path ++ "\n")
  let d ← Run.of (s.dialect o.dialect)
  let mode := (o.outputMode.or s.outputMode).getD .plain
  let content ← pipelineText w o
  let tree ← Run.of (Pipeline.loadText codec Digest.hex content)
  if o.formatTree then return tree.format
  else if o.describe then describe codec w o mode tree
  else compileSteps codec w o s d mode tree

/-- Runs the program with a JSON library. -/
def run (codec : Json.Codec) (w : World) : Outcome :=
  match Options.parse w.args with
  | (_, some fault) => ⟨1, [], fault.message ++ "\n" ++ fullHelp⟩
  | (o, none) =>
    if o.showHelp then ⟨0, fullHelp, []⟩
    else if o.pipelineFile.isEmpty && w.terminals.input then ⟨0, startupHelp, []⟩
    else
      match (work codec w o).run [] with
      | (.ok output, notes) => ⟨0, output, notes⟩
      | (.error message, notes) =>
        ⟨1, [], notes ++ report (o.color && w.terminals.error) message⟩

end Command

end SqlPipeline.Cli
