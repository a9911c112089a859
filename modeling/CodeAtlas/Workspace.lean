import CodeAtlas.FileUrl
import CodeAtlas.Settings
import CodeAtlas.Symbol.Index

/-!
# Workspaces

A workspace is the state from which queries are answered: the source files that are loaded, the index
of their symbols, and the settings.
-/

namespace CodeAtlas

/-- Loaded source files, their symbols, and the settings of queries. -/
structure Workspace where
  settings : Settings
  sources : Std.TreeMap String Source
  index : WorkspaceIndex

/-- A range in a file, as clients are told of it. -/
structure Location where
  url : FileUrl
  range : PositionRange
deriving DecidableEq

namespace Workspace

def empty (settings : Settings) : Workspace :=
  ⟨settings, ∅, .empty⟩

/-- Adds a source file in place of the one that its path had before. -/
def add (w : Workspace) (source : Source) : Workspace :=
  { w with
    sources := w.sources.insert source.path source
    index := w.index.indexSource source }

/-- Removes a source file with its symbols, and answers it. -/
def remove (w : Workspace) (path : String) : Option Source × Workspace :=
  (w.sources[path]?,
    { w with
      sources := w.sources.erase path
      index := w.index.removeFile path })

def source? (w : Workspace) (path : String) : Option Source :=
  w.sources[path]?

def source (w : Workspace) (path : String) : Failure.Outcome Source :=
  Failure.needing "source not loaded" (some [("path", path)]) (w.source? path)

def toOffset (w : Workspace) (s : Source) (p : Position) : Nat :=
  s.toOffset w.settings.positionEncoding p

def toPosition (w : Workspace) (s : Source) (offset : Nat) : Position :=
  s.toPosition w.settings.positionEncoding offset

def toPositionRange (w : Workspace) (s : Source) (r : ByteRange) : PositionRange :=
  s.toPositionRange w.settings.positionEncoding r

def locate? (w : Workspace) (path : String) (range : ByteRange) : Option Location :=
  (w.source? path).map fun s => ⟨.ofPath path, w.toPositionRange s range⟩

end Workspace

end CodeAtlas
