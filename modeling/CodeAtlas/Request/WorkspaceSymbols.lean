import CodeAtlas.Workspace

/-!
# Symbols of a workspace

The symbols of all files whose full names begin in a given way, in the order of the index.
-/

namespace CodeAtlas

structure SymbolInformation where
  name : String
  kind : SymbolKind
  location : Location
  container : Option String
deriving DecidableEq

namespace WorkspaceSymbols

/-- What clients are told about a symbol, if its file is loaded. -/
def describe? (w : Workspace) (entry : SymbolEntry) : Option SymbolInformation :=
  (w.locate? entry.path entry.range).map fun location =>
    ⟨entry.name, entry.kind, location, entry.container⟩

def answer (w : Workspace) (start : String) : List SymbolInformation :=
  (w.settings.limit (w.index.search start)).filterMap (describe? w)

end WorkspaceSymbols

end CodeAtlas
