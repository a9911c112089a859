import CodeAtlas.Proofs.Related
import CodeAtlas.Proofs.Workspace
import CodeAtlas.Request

/-!
# Every symbol that is found is listed

An answer about the symbols of a workspace is cut off before its symbols are located, so that one whose
file is not loaded would leave a gap in it. The files that are loaded are the files that are indexed, and
there is no such symbol.
-/

namespace CodeAtlas

theorem Settings.limit_eq {α : Type} (settings : Settings) (xs : List α) :
    settings.limit xs = xs.take (settings.symbolLimit.getD xs.length) := by
  rw [limit]
  cases settings.symbolLimit with
  | none => exact xs.take_length.symm
  | some n => rfl

namespace WorkspaceSymbols

open WorkspaceIndex (Change live)

/-- What clients are told about a symbol in the index. -/
structure Describes (w : Workspace) (e : SymbolEntry) (info : SymbolInformation) : Prop where
  name : info.name = e.name
  kind : info.kind = e.kind
  container : info.container = e.container
  url : info.location.url = .ofPath e.path
  range : ∃ s, w.source? e.path = some s ∧ info.location.range = w.toPositionRange s e.range

section Describe

variable {w : Workspace} {e : SymbolEntry}

theorem exists_describes (located : (w.locate? e.path e.range).isSome) :
    ∃ info, describe? w e = some info ∧ Describes w e info := by
  obtain ⟨location, found⟩ := Option.isSome_iff_exists.mp located
  obtain ⟨s, loaded, location_eq⟩ := Option.map_eq_some_iff.mp found
  refine ⟨⟨e.name, e.kind, location, e.container⟩, ?_, rfl, rfl, rfl, ?_, s, loaded, ?_⟩
  · rw [describe?, found]
    rfl
  · rw [← location_eq]
  · rw [← location_eq]

/-- Symbols that can be located are all described, in their order. -/
theorem describes_filterMap {es : List SymbolEntry}
    (located : ∀ e ∈ es, (w.locate? e.path e.range).isSome) :
    List.Forall₂ (Describes w) es (es.filterMap (describe? w)) :=
  forall₂_filterMap_of_exists fun e mem => exists_describes (located e mem)

/-- An answer has as many symbols as have been found, up to the limit, and they are the first ones. -/
theorem describes_answer {start : String}
    (located : ∀ e ∈ w.index.search start, (w.locate? e.path e.range).isSome) :
    let found := w.index.search start
    let infos := answer w start
    infos.length = min (w.settings.symbolLimit.getD found.length) found.length ∧
      List.Forall₂ (Describes w) (found.take infos.length) infos := by
  intro found infos
  have cut := w.settings.limit_eq found
  have described : List.Forall₂ (Describes w) (w.settings.limit found) infos := by
    refine describes_filterMap fun e mem => ?_
    rw [cut] at mem
    exact located e (List.mem_of_mem_take mem)
  have length_eq : infos.length = min (w.settings.symbolLimit.getD found.length) found.length := by
    rw [← described.length_eq, cut, List.length_take]
  refine ⟨length_eq, ?_⟩
  rwa [length_eq, ← List.take_eq_take_min, ← cut]

end Describe

/-- After any changes the sources that are live are loaded, their files are those that the index knows,
and of each file the index holds what the source that is loaded for it defines. So every symbol in the
index can be located, and an answer about symbols lists the first ones that a search finds, as many as
the settings allow. -/
theorem symbols_of_search (settings : Settings) (cs : List Change) :
    let w := (Workspace.empty settings).changes cs
    (∀ path s, w.source? path = some s ↔ s ∈ live cs ∧ s.path = path) ∧
      (∀ path, (w.source? path).isSome ↔ path ∈ w.index.paths) ∧
      (∀ path s, w.source? path = some s → ∀ name,
        (w.index.resolve name).filter (·.path = path) =
          (definitions path s.root).filter (·.name = name)) ∧
      (∀ name, ∀ e ∈ w.index.resolve name, (w.locate? e.path e.range).isSome) ∧
      ∀ start, ∃ infos, w.query (.workspaceSymbols start) = .workspaceSymbols infos ∧
        let found := w.index.search (start.getD "")
        infos.length = min (settings.symbolLimit.getD found.length) found.length ∧
          List.Forall₂ (Describes w) (found.take infos.length) infos := by
  intro w
  have reflects : w.Reflects (live cs) := Workspace.reflects_changes settings cs
  refine ⟨reflects.source?, fun path => reflects.source?_isSome_iff, fun path s loaded name => ?_,
    fun name e mem => reflects.locate?_isSome mem, fun start => ?_⟩
  · obtain ⟨-, rfl⟩ := (reflects.source? path s).mp loaded
    exact reflects.filter_resolve (WorkspaceIndex.nodup_live cs) loaded name
  · have located : ∀ e ∈ w.index.search (start.getD ""), (w.locate? e.path e.range).isSome := by
      intro e mem
      obtain ⟨name, -, mem⟩ := WorkspaceIndex.mem_search.mp mem
      exact reflects.locate?_isSome mem
    refine ⟨_, rfl, ?_⟩
    have described := describes_answer located
    rwa [Workspace.settings_changes] at described

end WorkspaceSymbols

end CodeAtlas
