import PromptOutline.Command.Arguments
import PromptOutline.Compile
import PromptOutline.Render.Registry

/-!
# The command

The command reads an outline from a workspace and writes the document in one of the formats. It goes
through four stages: `plan` checks the arguments and builds the settings, `openOutput` opens the
file to write, `render` makes the text, `deliver` writes it. The first stage that fails decides the
exit code and what is said on the error stream, and only `openOutput` and `deliver` change the
workspace.
-/

namespace PromptOutline

namespace Command

/-- Why the command gives up. -/
inductive Fault where
  | missingInput (path : String)
  | notDirectory (path : String)
  | settings (fault : SettingsFault)
  | unopened (path : String) (fault : FileFault)
  | unreadable (path : String) (fault : FileFault)
  /-- The outline has problems. -/
  | problems (found : List Diagnostic)
  | format (fault : FormatFault)
  | unwritten (fault : FileFault)
  deriving Repr, DecidableEq

namespace Fault

/-- The exit code: problems of the outline have one of their own. -/
def code : Fault → Nat
  | problems _ => 255
  | _ => 1

/-- The line that divides problems. -/
def divider : String := "----------------\n"

/-- Problems as they are listed: each below a divider, and a divider and an empty line at the
end. -/
def listing (found : List Diagnostic) : String :=
  Text.joinWith "" (found.map fun d => divider ++ d.render ++ "\n") ++ divider ++ "\n"

/-- What is said on the error stream. -/
def report : Fault → String
  | missingInput path => s!"Error: File {path} not found\n"
  | notDirectory path => s!"Error: {path}: is not a valid directory\n"
  | settings fault => s!"Error: {fault.message}\n"
  | unopened path fault => s!"Error: Could not open output file {path}: {fault.message}\n"
  | unreadable path fault => s!"Error: Could not read {path}: {fault.message}\n"
  | problems found => listing found
  | format fault => s!"Error: {fault.message}\n"
  | unwritten fault => s!"Error: Could not write output: {fault.message}\n"

end Fault

/-- The settings file that is read if the working directory holds it. -/
def localSettings : String := "metaphor.toml"

/-- The layers of settings that a command line asks for: the local file, the file it names, and its
own switches over both. -/
def Choices.layers (c : Choices) : List Layer :=
  .file localSettings false ::
    ((c.settings.map fun path => Layer.file path true).toList ++
      (c.format.map fun f => Layer.override "output.format" (.scalar none (.text f.name))).toList ++
      (c.width.map fun n =>
        Layer.override "parser.indent_spaces" (.scalar none (.integer n))).toList ++
      if c.noPreamble then [.override "output.preamble" (.scalar none (.bool false))] else [])

/-- Whether all paths lead to directories. The first one that does not is the fault. -/
def checkDirectories (w : Workspace) (paths : List String) : Except Fault Unit :=
  match paths.find? fun path => !w.isDirectory path with
  | some path => .error (.notDirectory path)
  | none => .ok ()

/-- The settings to work with, once all checks on the arguments have passed. Directories named by
the command line are searched before those of the settings files. -/
def plan (w : Workspace) (a : Arguments) : Except Fault Settings :=
  if !w.exists? a.input then .error (.missingInput a.input)
  else do
    checkDirectories w a.searchPaths
    match Settings.build w a.layers with
    | .error fault => .error (.settings fault)
    | .ok s =>
      checkDirectories w s.searchPaths
      .ok { s with searchPaths := a.searchPaths ++ s.searchPaths }

/-- Open the file to write, which leaves it empty. Without a file there is nothing to open. -/
def openOutput (w : Workspace) : Option String → Except Fault (Workspace × Option Location)
  | none => .ok (w, none)
  | some path => match w.create path with
    | .ok (w, target) => .ok (w, some target)
    | .error fault => .error (.unopened path fault)

/-- The tokens of the input alone, without those of files that it includes. -/
def renderTokens (w : Workspace) (input : String) (width : UInt64) : Except Fault String :=
  match w.readText input with
  | .ok source => .ok (Token.renderAll (Outline.tokens width input source) ++ "\n")
  | .error fault => .error (.unreadable input fault)

/-- The document that the input leads to, in the format of the settings. -/
def renderDocument (w : Workspace) (input : String) (s : Settings) : Except Fault String :=
  match Compile.file w { width := s.width.toUInt64, searchPaths := s.searchPaths } input with
  | .error found => .error (.problems found)
  | .ok d =>
    match (Registry.standard.register (Format.prompt s.preamble)).write d s.format.name with
    | .ok text => .ok text
    | .error fault => .error (.format fault)

/-- The text to write. -/
def render (w : Workspace) (input : String) (s : Settings) : Except Fault String :=
  match s.format with
  | .tokens => renderTokens w input s.width.toUInt64
  | _ => renderDocument w input s

/-- Write the text to the file that was opened, or else to the output stream. -/
def deliver (w : Workspace) (target : Option Location) (text : String) :
    Except Fault (Workspace × String) :=
  match target with
  | none => .ok (w, text)
  | some l => match w.write l text with
    | .ok w => .ok (w, "")
    | .error fault => .error (.unwritten fault)

/-- What a run of the command leaves behind. -/
structure Result where
  code : Nat
  out : String := ""
  err : String := ""
  workspace : Workspace
  deriving Repr, DecidableEq

/-- A run that gives up. -/
def Fault.result (f : Fault) (w : Workspace) : Result :=
  { code := f.code, err := f.report, workspace := w }

/-- Run the command with arguments that have been read. -/
def execute (w : Workspace) (a : Arguments) : Result :=
  match plan w a with
  | .error fault => fault.result w
  | .ok settings =>
    match openOutput w a.output with
    | .error fault => fault.result w
    | .ok (opened, target) =>
      match render opened a.input settings >>= deliver opened target with
      | .error fault => fault.result opened
      | .ok (done, out) => { code := 0, out, workspace := done }

/-- What the command calls itself, with its version. -/
def versionText : String := "m6rc 0.1.0\n"

/-- The explanation of the arguments. -/
def helpText : String :=
  Text.joinWith "\n"
    ["Compile Metaphor files into prompts",
     "",
     "Usage: m6rc [OPTIONS] <input>",
     "",
     "Arguments:",
     "  <input>  Input file to parse",
     "",
     "Options:",
     "  -o, --outputFile <output>            Output file (default: stdout) [aliases: --output]",
     "  -I, --include <include>              Specify an include path, searched in the order given",
     "  -f, --format <format>                Output format (default from config: prompt) " ++
       "[possible values: " ++ Text.joinWith ", " (OutputFormat.all.map OutputFormat.name) ++ "]",
     "  -c, --config <config>                TOML file layered over the built-in defaults",
     "      --indent-spaces <indent-spaces>  Spaces per indentation level",
     "      --no-preamble                    Omit the explanation of Metaphor from prompt output",
     "  -h, --help                           Print help",
     "  -V, --version                        Print version",
     ""]

/-- Run the command with the words of a command line. -/
def run (w : Workspace) (words : List String) : Result :=
  match Arguments.parse words with
  | .ok a => execute w a
  | .error .help => { code := 0, out := helpText, workspace := w }
  | .error .version => { code := 0, out := versionText, workspace := w }
  | .error (.fault f) =>
    { code := 2, workspace := w,
      err := s!"error: {f.message}\n\nFor more information, try '--help'.\n" }

end Command

end PromptOutline
