import Std.Data.TreeMap
import CodeAtlas.PrefixIndex.Listing
import CodeAtlas.Source
import CodeAtlas.Symbol.Collector

/-!
# The index of symbols

The index knows the definitions of all files of a workspace. It answers which symbols have a given
full name, and which have one that begins in a given way.

Three stores are kept in step: a prefix index in which each name stands under itself, the definitions
of each name in the order in which their files were indexed, and the names that each file defines.
-/

namespace CodeAtlas

/-- The symbols defined in a workspace. -/
structure WorkspaceIndex where
  names : PrefixIndex String
  entries : Std.TreeMap String (List SymbolEntry)
  files : Std.TreeMap String (List String)

namespace WorkspaceIndex

def empty : WorkspaceIndex :=
  ⟨.empty, ∅, ∅⟩

def size (ix : WorkspaceIndex) : Nat :=
  ix.names.size

def isEmpty (ix : WorkspaceIndex) : Bool :=
  ix.names.isEmpty

def resolve (ix : WorkspaceIndex) (name : String) : List SymbolEntry :=
  (ix.entries[name]?).getD []

/-- The definitions of the names that begin with `start`, in the order of the prefix index. -/
def search (ix : WorkspaceIndex) (start : String) : List SymbolEntry :=
  (ix.names.search start).flatMap ix.resolve

def paths (ix : WorkspaceIndex) : List String :=
  ix.files.keys

/-- Drops the definitions of a name that stand in a file, and the name with its last definition. -/
def dropName (path : String) (ix : WorkspaceIndex) (name : String) : WorkspaceIndex :=
  match ix.entries[name]? with
  | none => ix
  | some entries =>
      match entries.filter fun entry => entry.path ≠ path with
      | [] => { ix with entries := ix.entries.erase name, names := (ix.names.remove name).2 }
      | kept => { ix with entries := ix.entries.insert name kept }

def removeFile (ix : WorkspaceIndex) (path : String) : WorkspaceIndex :=
  match ix.files[path]? with
  | none => ix
  | some names => names.foldl (dropName path) { ix with files := ix.files.erase path }

def addEntry (ix : WorkspaceIndex) (entry : SymbolEntry) : WorkspaceIndex :=
  { ix with
    names :=
      if ix.names.contains entry.name then ix.names
      else (ix.names.insert entry.name entry.name).2
    entries := ix.entries.insert entry.name (ix.resolve entry.name ++ [entry]) }

/-- The names of entries, each once, in the order of their first entries. -/
def distinctNames (entries : List SymbolEntry) : List String :=
  entries.foldl
    (fun names entry => if names.contains entry.name then names else names ++ [entry.name]) []

def indexSource (ix : WorkspaceIndex) (source : Source) : WorkspaceIndex :=
  let found := definitions source.path source.root
  let ix := found.foldl addEntry (ix.removeFile source.path)
  { ix with files := ix.files.insert source.path (distinctNames found) }

end WorkspaceIndex

end CodeAtlas
