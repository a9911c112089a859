import CodeAtlas.Proofs.Symbol.Answers
import CodeAtlas.Workspace

/-!
# What a workspace holds

A workspace that has come about by adding and removing source files holds the sources that are live, and
its index reflects just these.
-/

namespace CodeAtlas.Workspace

open WorkspaceIndex (Change live elsewhere mem_elsewhere)

def change (w : Workspace) : Change → Workspace
  | .index source => w.add source
  | .remove path => (w.remove path).2

def changes (w : Workspace) (cs : List Change) : Workspace :=
  cs.foldl change w

/-- Workspaces that come about by adding and removing source files. -/
def Reachable (w : Workspace) : Prop :=
  ∃ settings cs, w = (empty settings).changes cs

/-- The workspace has loaded some sources, and its index knows their symbols. -/
structure Reflects (w : Workspace) (sources : List Source) : Prop where
  source? : ∀ path s, w.source? path = some s ↔ s ∈ sources ∧ s.path = path
  index : w.index.Reflects sources

theorem reflects_empty (settings : Settings) : (empty settings).Reflects [] where
  source? path s := by simp [empty, Workspace.source?]
  index := WorkspaceIndex.reflects_empty

theorem source?_change (w : Workspace) (c : Change) (path : String) :
    (w.change c).source? path = if c.path = path then c.source? else w.source? path := by
  by_cases same : c.path = path
  · cases c with
    | index new => simp_all [change, add, source?]
    | remove gone => simp_all [change, remove, source?]
  · cases c with
    | index new => simp_all [change, add, source?, Std.TreeMap.getElem?_insert]
    | remove gone => simp_all [change, remove, source?, Std.TreeMap.getElem?_erase]

theorem path_of_source? {c : Change} {s : Source} (new : c.source? = some s) : s.path = c.path := by
  cases c with
  | index source =>
      cases new
      rfl
  | remove path => cases new

theorem Reflects.change {w : Workspace} {sources : List Source} (reflects : w.Reflects sources)
    (c : Change) : (w.change c).Reflects (elsewhere sources c.path ++ c.source?.toList) where
  source? path s := by
    rw [source?_change, List.mem_append, mem_elsewhere, Option.mem_toList]
    by_cases same : c.path = path
    · rw [if_pos same]
      constructor
      · intro new
        exact ⟨.inr new, (path_of_source? new).trans same⟩
      · rintro ⟨⟨-, other⟩ | new, here⟩
        · exact absurd (here.trans same.symm) other
        · exact new
    · rw [if_neg same, reflects.source?]
      constructor
      · rintro ⟨mem, here⟩
        exact ⟨.inl ⟨mem, fun there => same (there.symm.trans here)⟩, here⟩
      · rintro ⟨⟨mem, -⟩ | new, here⟩
        · exact ⟨mem, here⟩
        · exact absurd ((path_of_source? new).symm.trans here) same
  index := by
    cases c with
    | index new => exact reflects.index.change (.index new)
    | remove gone => exact reflects.index.change (.remove gone)

theorem reflects_changes (settings : Settings) (cs : List Change) :
    ((empty settings).changes cs).Reflects (live cs) := by
  induction cs using List.reverseRecOn with
  | nil => exact reflects_empty settings
  | append_singleton cs c ih =>
      rw [changes, List.foldl_concat, WorkspaceIndex.live_append_singleton]
      exact ih.change c

/-- A workspace that one source was added to holds it. -/
theorem source?_changes_index (settings : Settings) (s : Source) :
    ((empty settings).changes [.index s]).source? s.path = some s := by
  rw [changes, List.foldl_cons, List.foldl_nil, source?_change]
  exact if_pos rfl

theorem settings_changes (settings : Settings) (cs : List Change) :
    ((empty settings).changes cs).settings = settings := by
  refine List.foldlRecOn (motive := fun w : Workspace => w.settings = settings) cs change rfl ?_
  intro w same c _
  cases c with
  | index source => exact same
  | remove path => exact same

theorem Reachable.exists_reflects {w : Workspace} (reachable : w.Reachable) :
    ∃ sources, w.Reflects sources := by
  obtain ⟨settings, cs, rfl⟩ := reachable
  exact ⟨live cs, reflects_changes settings cs⟩

section Reflects

variable {w : Workspace} {sources : List Source}

/-- The files that are loaded are the files that the index knows. -/
theorem Reflects.source?_isSome_iff (reflects : w.Reflects sources) {path : String} :
    (w.source? path).isSome ↔ path ∈ w.index.paths := by
  simp only [Option.isSome_iff_exists, reflects.source?, reflects.index.mem_paths]

/-- What the index holds of a file is what the source that is loaded for it defines. -/
theorem Reflects.filter_resolve (reflects : w.Reflects sources)
    (nodup : (sources.map Source.path).Nodup) {path : String} {s : Source}
    (loaded : w.source? path = some s) (name : String) :
    (w.index.resolve name).filter (·.path = path) = s.symbols.filter (·.name = name) := by
  obtain ⟨mem, rfl⟩ := (reflects.source? path s).mp loaded
  rw [reflects.index.holds.resolve_eq, ← WorkspaceIndex.filter_symbols_path nodup mem,
    WorkspaceIndex.named, List.filter_comm]

/-- Every symbol in the index can be located. -/
theorem Reflects.locate?_isSome (reflects : w.Reflects sources) {name : String} {e : SymbolEntry}
    (mem : e ∈ w.index.resolve name) : (w.locate? e.path e.range).isSome := by
  rw [reflects.index.holds.resolve_eq] at mem
  obtain ⟨s, live, defines⟩ := List.mem_flatMap.mp (List.mem_of_mem_filter mem)
  have here : s.path = e.path := (Source.path_of_mem_symbols defines).symm
  rw [locate?, (reflects.source? e.path s).mpr ⟨live, here⟩]
  rfl

end Reflects

end CodeAtlas.Workspace
