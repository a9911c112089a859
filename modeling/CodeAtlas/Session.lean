import CodeAtlas.CommandLine.Invocation
import CodeAtlas.Request
import CodeAtlas.Settings.OfToml

/-!
# Sessions

A session carries out an invocation: it loads the settings and the tree files, asks the workspace,
and answers the text to print. Where files come from is a parameter, so that nothing here depends on a
file system.
-/

namespace CodeAtlas.Session

open CommandLine (Invocation Spot Task)

variable {m : Type → Type} [Monad m]

/-- A way to read files. A file that cannot be read has a reason in words. -/
abbrev Files (m : Type → Type) := String → m (Except String String)

def ofOutcome {α : Type} (result : Failure.Outcome α) : ExceptT Failure m α :=
  ExceptT.mk (pure result)

/-- The content of a file that an activity needs. -/
def readText (files : Files m) (activity path : String) : ExceptT Failure m String := do
  ofOutcome (Failure.during activity (some [("path", path)]) (← files path))

def loadSettings (files : Files m) : Option String → ExceptT Failure m Settings
  | none => pure .default
  | some path => do ofOutcome (Settings.ofTomlFile (← readText files "read query config" path))

def loadSource (files : Files m) (path : String) : ExceptT Failure m Source := do
  let text ← readText files "read source tree" path
  ofOutcome (Failure.during "load source tree" none (Source.ofJson text))

/-! ## Tasks as requests -/

def questionActivity : String :=
  "crates/lectern-cli/src/query.rs"

def unclear {α : Type} (reason : String) : Failure.Outcome α :=
  .error (Failure.because questionActivity none reason)

def document (first path : Option String) : Failure.Outcome String :=
  Failure.needing "no document to query" none (path <|> first)

def locate (w : Workspace) (first path : Option String) (spot : Option Spot) :
    Failure.Outcome (String × Position) := do
  let path ← document first path
  let source ← w.source path
  match spot with
  | none => unclear "a position is required, pass --offset or --line and --character"
  | some (.position p) => .ok (path, p)
  | some (.offset bytes) =>
      if source.byteLength < bytes then unclear s!"offset {bytes} is past the end of {path}"
      else .ok (path, w.toPosition source bytes)

def request (w : Workspace) (first : Option String) : Task → Failure.Outcome Request
  | .index start => .ok (.workspaceSymbols (some start))
  | .outline path => (document first path).map .outline
  | .folding path => (document first path).map .folding
  | .highlight path spot => (locate w first path spot).map fun (path, p) => .highlight path p
  | .definition path spot => (locate w first path spot).map fun (path, p) => .definition path p
  | .selection path spot => (locate w first path spot).map fun (path, p) => .selection path [p]

/-! ## What the program says of itself -/

def versionLine : String :=
  "lectern 0.1.0"

def usageLines : List String :=
  ["Usage: lectern [OPTIONS] <COMMAND>", "", "Commands:"] ++
    CommandLine.Command.all.map (fun c => "  " ++ c.name) ++
    ["", "Options:"] ++
    (CommandLine.Flag.version :: CommandLine.Flag.common).map fun flag => "  --" ++ flag.name

/-! ## Running -/

def run (files : Files m) (i : Invocation) : ExceptT Failure m String := do
  let settings ← loadSettings files i.config
  let sources ← i.inputs.mapM (loadSource files)
  let w := sources.foldl Workspace.add (Workspace.empty settings)
  let question ← ofOutcome (request w (sources.head?.map Source.path) i.task)
  pure ((w.query question).toValue.renderLines ++ "\n")

end CodeAtlas.Session
