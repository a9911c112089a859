import CodeAtlas.Proofs.Checked.Walk
import CodeAtlas.Proofs.Workspace

/-!
# Changes of a workspace with checked steps

Here the names of a workspace are a bare graph, in which each step from node to node is checked. Adding
and removing source files never fails, and leaves the graph of the prefix index that it leaves unchecked.
-/

namespace CodeAtlas.Checked

open WorkspaceIndex (Change)

/-- A run in the graph of a prefix index. -/
def Run.index {α : Type} (r : PrefixIndex.Run α) : Run α :=
  Option.map (Except.mapError .index) r

theorem Run.index_pure {α : Type} (x : α) : Run.index (pure x) = pure x := rfl

/-- Steps that come to what they come to unchecked do so one after another. -/
theorem Run.foldlM_of {σ τ α : Type} {of : σ → τ} {step : τ → α → Run τ} {step' : σ → α → σ}
    (same : ∀ s x, step (of s) x = pure (of (step' s x))) (s : σ) (xs : List α) :
    xs.foldlM step (of s) = pure (of (xs.foldl step' s)) := by
  induction xs generalizing s with
  | nil => rfl
  | cons x xs ih => rw [List.foldlM_cons, same, pure_bind, ih, List.foldl_cons]

structure Index where
  names : PrefixIndex.Graph String
  entries : Std.TreeMap String (List SymbolEntry)
  files : Std.TreeMap String (List String)

namespace Index

def of (ix : WorkspaceIndex) : Index :=
  ⟨ix.names.graph, ix.entries, ix.files⟩

def resolve (ix : Index) (name : String) : List SymbolEntry :=
  (ix.entries[name]?).getD []

def dropName (path : String) (ix : Index) (name : String) : Run Index :=
  match ix.entries[name]? with
  | none => return ix
  | some entries =>
      match entries.filter fun entry => entry.path ≠ path with
      | [] => do
          let (_, names) ← Run.index (ix.names.remove name)
          return { ix with names, entries := ix.entries.erase name }
      | kept => return { ix with entries := ix.entries.insert name kept }

def removeFile (ix : Index) (path : String) : Run Index :=
  match ix.files[path]? with
  | none => return ix
  | some names => names.foldlM (dropName path) { ix with files := ix.files.erase path }

def addEntry (ix : Index) (entry : SymbolEntry) : Run Index := do
  let entries := ix.entries.insert entry.name (ix.resolve entry.name ++ [entry])
  if (← Run.index (ix.names.get? entry.name)).isSome then
    return { ix with entries }
  else
    let (_, names) ← Run.index (ix.names.insert entry.name entry.name)
    return { ix with names, entries }

def indexSource (ix : Index) (source : Source) : Run Index := do
  let ix ← ix.removeFile source.path
  let collector := Collector.listener source.path
  let collected ← run collector.subscriptions (steady collector) Collector.start source.root
  let found := collected.found.reverse
  let ix ← found.foldlM addEntry ix
  return { ix with files := ix.files.insert source.path (WorkspaceIndex.distinctNames found) }

/-! ## No change fails -/

theorem dropName_of (path : String) (ix : WorkspaceIndex) (name : String) :
    dropName path (of ix) name = pure (of (ix.dropName path name)) := by
  have removed : ix.names.graph.remove name = pure _ :=
    PrefixIndex.Run.eq_pure_answer (ix.names.remove_ends name)
  rw [dropName, WorkspaceIndex.dropName]
  cases known : ix.entries[name]? with
  | none =>
      rw [show (of ix).entries[name]? = none from known]
  | some entries =>
      rw [show (of ix).entries[name]? = some entries from known]
      dsimp only
      cases kept : entries.filter fun entry => entry.path ≠ path with
      | nil =>
          rw [show (of ix).names.remove name = pure _ from removed, Run.index_pure, pure_bind]
          rfl
      | cons entry kept => rfl

theorem removeFile_of (ix : WorkspaceIndex) (path : String) :
    removeFile (of ix) path = pure (of (ix.removeFile path)) := by
  rw [removeFile, WorkspaceIndex.removeFile]
  dsimp only [of]
  cases ix.files[path]? with
  | none => rfl
  | some names => exact Run.foldlM_of (dropName_of path) { ix with files := ix.files.erase path } names

theorem addEntry_of (ix : WorkspaceIndex) (entry : SymbolEntry) :
    addEntry (of ix) entry = pure (of (ix.addEntry entry)) := by
  have found := PrefixIndex.Run.eq_pure_answer (ix.names.get?_ends entry.name)
  have inserted := PrefixIndex.Run.eq_pure_answer (ix.names.insert_ends entry.name entry.name)
  rw [addEntry, show (of ix).names.get? entry.name = pure (ix.names.get? entry.name) from found,
    Run.index_pure, pure_bind, WorkspaceIndex.addEntry, PrefixIndex.contains]
  dsimp only
  cases known : (ix.names.get? entry.name).isSome with
  | true => rfl
  | false =>
      rw [show (of ix).names.insert entry.name entry.name = pure _ from inserted, Run.index_pure,
        if_neg Bool.false_ne_true, pure_bind]
      rfl

theorem indexSource_of (ix : WorkspaceIndex) (source : Source) :
    indexSource (of ix) source = pure (of (ix.indexSource source)) := by
  rw [indexSource, removeFile_of, pure_bind]
  dsimp only
  rw [run_steady, pure_bind, Run.foldlM_of addEntry_of, pure_bind]
  rfl

end Index

structure Workspace where
  settings : Settings
  sources : Std.TreeMap String Source
  index : Index

namespace Workspace

def of (w : CodeAtlas.Workspace) : Workspace :=
  ⟨w.settings, w.sources, .of w.index⟩

def change (w : Workspace) : Change → Run Workspace
  | .index source => do
      let index ← w.index.indexSource source
      return { w with sources := w.sources.insert source.path source, index }
  | .remove path => do
      let index ← w.index.removeFile path
      return { w with sources := w.sources.erase path, index }

/-- The workspace that some changes of an empty one leave. -/
def afterChanges (settings : Settings) (cs : List Change) : Run Workspace :=
  cs.foldlM change ⟨settings, ∅, .empty, ∅, ∅⟩

theorem change_of (w : CodeAtlas.Workspace) (c : Change) : change (of w) c = pure (of (w.change c)) := by
  cases c with
  | index source =>
      rw [change]
      dsimp only [of]
      rw [Index.indexSource_of]
      rfl
  | remove path =>
      rw [change]
      dsimp only [of]
      rw [Index.removeFile_of]
      rfl

theorem afterChanges_eq (settings : Settings) (cs : List Change) :
    afterChanges settings cs = pure (of ((CodeAtlas.Workspace.empty settings).changes cs)) :=
  Run.foldlM_of change_of (.empty settings) cs

end Workspace

end CodeAtlas.Checked
