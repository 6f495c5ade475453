import SqlPipeline.Cli.Command
import SqlPipeline.Json.Codec

/-!
# The command

Gathers what a run can see, runs it with a JSON library and writes what it leaves. Of
the files only the two that a run can ask for are read: the configuration and the
pipeline.
-/

open SqlPipeline Cli

/-- What there is at the path of a name. A directory opens and holds nothing; what does not open is
there if its path can be resolved. -/
def lookAt (name : String) : IO File := do
  match ← (IO.FS.Handle.mk name .read).toBaseIO with
  | .ok handle =>
    match ← handle.readBinToEnd.toBaseIO with
    | .ok bytes => return .readable bytes.data.toList
    | .error _ => return .readable []
  | .error (.noFileOrDirectory ..) | .error (.inappropriateType ..) => return .absent
  | .error e =>
    match ← (IO.FS.realPath name).toBaseIO with
    | .ok _ => return .closed
    | .error _ => return .unknown (Text.ofString e.toString)

/-- What there is at a path; only a path in UTF-8 can be asked for. -/
def fileAt (path : Text) : IO File :=
  match String.fromUTF8? ⟨path.toArray⟩ with
  | none => return .absent
  | some name => lookAt name

/-- Everything that a stream holds, after what has been read of it. -/
partial def readAll (stream : IO.FS.Stream) (read : ByteArray) : IO ByteArray := do
  let bytes ← stream.read 65536
  if bytes.isEmpty then return read else readAll stream (read ++ bytes)

/-- An environment variable, empty when it is not set. -/
def variableText (name : String) : IO Text := do
  return Text.ofString ((← IO.getEnv name).getD "")

/-- Writes a text to a stream. -/
def writeText (stream : IO.FS.Stream) (t : Text) : IO Unit := do
  stream.write ⟨t.toArray⟩
  stream.flush

/-- Runs the program. -/
def main (args : List String) : IO UInt32 := do
  let texts := args.map Text.ofString
  let environment : Config.Environment :=
    ⟨← variableText "RELQ_CONFIG", ← variableText "XDG_CONFIG_HOME", ← variableText "HOME"⟩
  let input ← IO.getStdin
  let output ← IO.getStdout
  let error ← IO.getStderr
  let terminals : Terminals := ⟨← input.isTty, ← output.isTty, ← error.isTty⟩
  let (options, fault) := Options.parse texts
  let configPath := Config.resolvePath options.configPath environment
  let config ← fileAt configPath
  let pipeline ← fileAt options.pipelineFile
  let fromInput :=
    options.pipelineFile.isEmpty && !terminals.input && !options.showHelp && fault.isNone
  let content ← if fromInput then readAll input .empty else pure .empty
  let files (path : Text) : File :=
    if path = options.pipelineFile then pipeline
    else if path = configPath then config
    else .absent
  let world : World := ⟨texts, content.data.toList, files, environment, terminals⟩
  let outcome := Command.run .strict world
  writeText error outcome.error
  writeText output outcome.output
  return outcome.exitCode
