import SqlPipeline.Text

/-!
# Help texts
-/

namespace SqlPipeline.Cli

/-- Shown when there is nothing to read and nobody asked for anything. -/
def startupHelp : Text :=
  "relq - relational pipeline to SQL compiler\n\n" ++
  "Usage:\n" ++
  "  relq --pipeline <file.json> [--dialect <name>]\n" ++
  "  relq --pipeline <file.json> --mode plain|json\n" ++
  "  relq --pipeline <file.json> --describe\n" ++
  "  relq --pipeline <file.json> --format\n\n" ++
  "Notes:\n" ++
  "  - If --pipeline is omitted, the pipeline JSON is read from stdin.\n" ++
  "  - Dialects: generic, postgresql, sqlite, spark.\n" ++
  "  - Settings are read from $RELQ_CONFIG or ~/.config/relq/config.toml.\n\n" ++
  "Examples:\n" ++
  "  relq --pipeline ./softmax.json --dialect sqlite\n" ++
  "  relq --pipeline ./softmax.json --columns subjectID,diagnosis --limit 10\n"

/-- Shown on request and after a fault in the arguments. -/
def fullHelp : Text :=
  "Usage: relq [--pipeline <file.json>] [options]\n" ++
  "  --pipeline <file>      Pipeline description (JSON); stdin when omitted\n" ++
  "  --dialect <name>       generic|postgresql|sqlite|spark\n" ++
  "  --config <path>        Config file (overrides RELQ_CONFIG)\n" ++
  "  --mode plain|json      Output format for generated steps\n" ++
  "  --limit <n>            Limit rows of the final statement\n" ++
  "  --source-limit <n>     Limit rows read from every table\n" ++
  "  --columns <a,b,...>    Output columns (defaults to the pipeline's columns)\n" ++
  "  --format               Print the operator tree instead of SQL\n" ++
  "  --describe             Print columns, tables and columns used per table\n" ++
  "  --verbose              Print diagnostics to stderr\n" ++
  "  --color=disabled       Disable colored JSON output\n"

end SqlPipeline.Cli
