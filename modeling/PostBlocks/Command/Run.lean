import PostBlocks.Command.Arguments
import PostBlocks.Command.Script
import PostBlocks.Record.Import

/-!
# Carrying out commands

What each command does, as a script. Settings are read first: those of the folder, if it has any,
and those of the file named on the command line, which has to be there. Then the command reads its
input, and only when everything has worked is anything printed or written.
-/

namespace PostBlocks

/-- The name of the program and its version. -/
def versionLine : String :=
  "npf 0.1.0\n"

/-- The settings that a folder holds for itself. -/
def folderSettings : String :=
  "npf.toml"

/-- Lines, each ended by a line feed. -/
def linesText (lines : List String) : String :=
  String.join (lines.map (· ++ "\n"))

/-- How the program is used. -/
def usageText : String :=
  linesText
    ["A tool for converting NPF posts to block markup",
      "",
      "Usage:",
      "  npf <input> [--from <format>] [--to <format>] [--output <file>]",
      "  npf convert <input> [--from <format>] [--to <format>] [--output <file>]",
      "  npf inspect <path> [<transform>]",
      "  npf import <input> [--pages] [--output <file>]",
      "  npf --list-transforms",
      "",
      "Options:",
      "  --config <path>      Path to a npf.toml configuration file",
      "  --list-transforms    List available transforms",
      "  -o, --output <path>  Output file path (defaults to stdout)",
      "  -h, --help           Print help",
      "  -V, --version        Print version"]

/-- The list of views and formats. -/
def stagesText : String :=
  linesText <|
    ["Available transforms:",
      "",
      "Stages:",
      "  source      - Decoded content blocks",
      "  spans       - Formatting ranges resolved into flat spans",
      "  tree        - Block tree after conversion",
      "",
      "Formats:",
      "  json        - JSON output (all stages)",
      "  treeviz     - Tree visualization (tree only)",
      "",
      "Available transform combinations:"]
    ++ Stage.all.map (fun stage ↦ "  " ++ stage.name)
    ++ ["", "Conversion formats:"]
    ++ Registry.standard.names.map (fun name ↦ "  " ++ name)

namespace Script

/-! ### Settings -/

/-- Goes on with a settings file, which may be named without its extension. -/
def withSettingsFile (path : String) (next : Reading → Script) : Script :=
  read path fun
    | .absent =>
      match FileName.addExtension? path "toml" with
      | some path => read path next
      | none => next .absent
    | found => next found

/-- A settings file as a layer; one that is no text counts as missing. -/
def layerOf (required : Bool) : Reading → Settings.Layer
  | .text s => .file required (some s)
  | .absent | .binary => .file required none

/-- Goes on with the settings of some layers. -/
def withLayers (layers : List Settings.Layer) (next : Settings → Script) : Script :=
  withOk .settings (Settings.load layers) next

/-- Goes on with the settings of the folder and of a file named besides. -/
def withSettings (path : Option String) (next : Settings → Script) : Script :=
  withSettingsFile folderSettings fun own ↦
    match path with
    | none => withLayers [layerOf false own] next
    | some path => withSettingsFile path fun named ↦
      withLayers [layerOf false own, layerOf true named] next

/-! ### Commands -/

/-- Reads a file in one format and writes it in another. -/
def convert (r : Registry) (input source target : String) (output : Option String) : Script :=
  withOk .unknownFormat (r.get source) fun _ ↦
  withOk .unknownFormat (r.get target) fun _ ↦
  withText input fun text ↦
  withOk .parsing (r.parse source text) fun bs ↦
  withOk .serialization (r.serialize target bs) fun result ↦
  finish output result

/-- Shows a post in a view. -/
def inspect (table : TagTable) (path : String) (stage : Stage) : Script :=
  withText path fun text ↦
  withOk .inspection (Post.inspect table stage.name text) fun view ↦
  done 0 (.ofList (Text.trimEnd view.toList ++ ['\n']))

/-- Reports the entries without a record, then goes on. -/
def reportSkipped (kind : String) (index : Nat) :
    List (Except ConvertError Json) → Script → Script
  | [], next => next
  | .ok _ :: rs, next => reportSkipped kind (index + 1) rs next
  | .error e :: rs, next => report (.skipped kind index e) (reportSkipped kind (index + 1) rs next)

/-- The records that there are. -/
def kept (rs : List (Except ConvertError Json)) : List Json :=
  rs.filterMap Except.toOption

/-- Ends with the records of a response. -/
def finishRecords (kind : String) (output : Option String)
    (records : Except ConvertError (List (Except ConvertError Json))) : Script :=
  withOk .importing records fun rs ↦
  reportSkipped kind 0 rs (finish output ((Json.array (kept rs)).pretty ++ "\n"))

/-- Turns a response into records. -/
def importRecords (defaults : RecordDefaults) (table : TagTable) (input : String) (pages : Bool)
    (output : Option String) : Script :=
  withText input fun text ↦
  if pages then
    finishRecords "page" output
      ((PageRecord.importAll defaults table text).map (·.map (·.map PageRecord.toJson)))
  else
    finishRecords "post" output
      ((PostRecord.importAll defaults table text).map (·.map (·.map PostRecord.toJson)))

/-- A command under some settings. -/
def ofCommand (s : Settings) : Option Command → Script
  | none => fail .noCommand
  | some (.inspect path stage) => inspect s.table path (stage.getD .outline)
  | some (.convert input source target output) =>
    let r := Registry.withTable s.table
    match source.or (r.detect? input) with
    | none => fail (.undetected input)
    | some source => convert r input source (target.getD s.format) output
  | some (.importing input pages output) =>
    importRecords s.defaults s.table input pages output

/-- What the program does with a command line. -/
def ofArguments (args : List String) : Script :=
  match Arguments.parse args with
  | .error .usage => done 2 ""
  | .error .help => done 0 usageText
  | .error .version => done 0 versionLine
  | .ok invocation =>
    if invocation.listStages then done 0 stagesText
    else withSettings invocation.settingsPath (ofCommand · invocation.command)

end Script

end PostBlocks
