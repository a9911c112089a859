import CodeAtlas.Proofs.Symbol.Answers

/-!
# Indexing a file again

To index a source a second time changes nothing, and neither does it change anything to index a source
that is removed at once. The names that have to go and to come again leave the order of all others as it
was, so that no later question tells the difference.
-/

namespace CodeAtlas

/-! ## The order of names -/

theorem filter_mem_sublist {xs zs : List String} (sub : xs.Sublist zs) (nodup : zs.Nodup) :
    zs.filter (· ∈ xs) = xs := by
  induction sub with
  | slnil => rfl
  | @cons xs zs z sub ih =>
      obtain ⟨new, nodup⟩ := List.nodup_cons.mp nodup
      have out : z ∉ xs := fun mem => new (sub.subset mem)
      rw [List.filter_cons_of_neg (by simpa using out), ih nodup]
  | @cons_cons xs zs z sub ih =>
      obtain ⟨new, nodup⟩ := List.nodup_cons.mp nodup
      have rest : zs.filter (· ∈ z :: xs) = zs.filter (· ∈ xs) := by
        refine List.filter_congr fun x mem => ?_
        have : x ≠ z := fun same => new (same ▸ mem)
        simp [this]
      rw [List.filter_cons_of_pos (by simp), rest, ih nodup]

theorem eq_of_sublists {xs ys zs : List String} (nodup : zs.Nodup) (sub : xs.Sublist zs)
    (sub' : ys.Sublist zs) (same : ∀ x, x ∈ xs ↔ x ∈ ys) : xs = ys := by
  rw [← filter_mem_sublist sub nodup, ← filter_mem_sublist sub' nodup]
  exact List.filter_congr fun x _ => decide_eq_decide.mpr (same x)

namespace PrefixIndex

theorem sublist_place (keys : List String) (key : String) : keys.Sublist (place keys key) := by
  have behind {before after : List String} (whole : before ++ after = keys) :
      keys.Sublist (before ++ key :: after) := by
    rw [← whole]
    exact (List.Sublist.refl before).append (List.sublist_cons_self key after)
  rw [place]
  split
  · exact behind List.takeWhile_append_dropWhile
  · exact behind (List.rdropWhile_append_rtakeWhile ..)

theorem keys_sublist_insert {α : Type} (ix : PrefixIndex α) (key : String) (v : α) :
    ix.keys.Sublist (ix.insert key v).2.keys := by
  by_cases e : key = ""
  · rw [e, insert_empty_key]
  · rw [keys_insert ix e]
    split
    · exact List.Sublist.refl _
    · exact sublist_place ix.keys key

theorem keys_remove_sublist {α : Type} (ix : PrefixIndex α) (key : String) :
    (ix.remove key).2.keys.Sublist ix.keys := by
  rw [keys_remove]
  exact List.filter_sublist

end PrefixIndex

namespace WorkspaceIndex

theorem keys_addEntry (ix : WorkspaceIndex) (e : SymbolEntry) :
    ix.names.keys.Sublist (ix.addEntry e).names.keys := by
  rw [addEntry]
  dsimp only
  split
  · exact List.Sublist.refl _
  · exact ix.names.keys_sublist_insert e.name e.name

theorem keys_addEntries (ix : WorkspaceIndex) (es : List SymbolEntry) :
    ix.names.keys.Sublist (es.foldl addEntry ix).names.keys := by
  refine List.foldlRecOn (motive := fun ix' => ix.names.keys.Sublist ix'.names.keys) es addEntry
    (List.Sublist.refl _) ?_
  intro ix' sub e _
  exact sub.trans (ix'.keys_addEntry e)

theorem keys_dropName (ix : WorkspaceIndex) (path name : String) :
    (ix.dropName path name).names.keys.Sublist ix.names.keys := by
  rw [dropName]
  split
  · exact List.Sublist.refl _
  · split
    · exact ix.names.keys_remove_sublist name
    · exact List.Sublist.refl _

theorem keys_dropNames (ix : WorkspaceIndex) (path : String) (names : List String) :
    (names.foldl (dropName path) ix).names.keys.Sublist ix.names.keys := by
  refine List.foldlRecOn (motive := fun ix' => ix'.names.keys.Sublist ix.names.keys) names
    (dropName path) (List.Sublist.refl _) ?_
  intro ix' sub name _
  exact (ix'.keys_dropName path name).trans sub

theorem keys_removeFile (ix : WorkspaceIndex) (path : String) :
    (ix.removeFile path).names.keys.Sublist ix.names.keys := by
  rw [removeFile]
  split
  · exact List.Sublist.refl _
  · exact keys_dropNames _ path _

theorem keys_indexSource (ix : WorkspaceIndex) (s : Source) :
    (ix.removeFile s.path).names.keys.Sublist (ix.indexSource s).names.keys :=
  keys_addEntries (ix.removeFile s.path) s.symbols

/-! ## Stores with the same contents -/

/-- All questions have the same answers. -/
structure Alike (ix ix' : WorkspaceIndex) : Prop where
  resolve : ∀ name, ix.resolve name = ix'.resolve name
  search : ∀ start, ix.search start = ix'.search start
  size : ix.size = ix'.size
  isEmpty : ix.isEmpty = ix'.isEmpty
  paths : ∀ path, path ∈ ix.paths ↔ path ∈ ix'.paths

structure SameStores (ix ix' : WorkspaceIndex) : Prop where
  names : ix.names.entries "" = ix'.names.entries ""
  entries : ∀ name : String, ix.entries[name]? = ix'.entries[name]?
  files : ∀ path : String, ix.files[path]? = ix'.files[path]?

section SameStores

variable {ix ix' : WorkspaceIndex}

theorem SameStores.resolve_eq (same : ix.SameStores ix') (name : String) :
    ix.resolve name = ix'.resolve name := by
  rw [resolve, resolve, same.entries]

theorem SameStores.alike (same : ix.SameStores ix') : ix.Alike ix' := by
  have names := PrefixIndex.alike_of_entries same.names
  refine ⟨same.resolve_eq, fun start => ?_, names.size, names.isEmpty, fun path => ?_⟩
  · rw [search, search, names.search, funext same.resolve_eq]
  · rw [paths, paths, Std.TreeMap.mem_keys, Std.TreeMap.mem_keys, Std.TreeMap.mem_iff_isSome_getElem?,
      Std.TreeMap.mem_iff_isSome_getElem?, same.files]

theorem SameStores.addEntry (same : ix.SameStores ix') (e : SymbolEntry) :
    (ix.addEntry e).SameStores (ix'.addEntry e) where
  names := by
    have contains_eq := (PrefixIndex.alike_of_entries same.names).contains e.name
    rw [WorkspaceIndex.addEntry, WorkspaceIndex.addEntry, contains_eq]
    dsimp only
    split
    · exact same.names
    · exact (PrefixIndex.edit_congr same.names (.insert e.name e.name)).2
  entries name := by
    rw [WorkspaceIndex.addEntry, WorkspaceIndex.addEntry, Std.TreeMap.getElem?_insert,
      Std.TreeMap.getElem?_insert, same.resolve_eq, same.entries]
  files := same.files

theorem SameStores.addEntries (same : ix.SameStores ix') (es : List SymbolEntry) :
    (es.foldl WorkspaceIndex.addEntry ix).SameStores (es.foldl WorkspaceIndex.addEntry ix') :=
  List.foldl_rel same fun e _ _ _ same => same.addEntry e

theorem SameStores.dropName (same : ix.SameStores ix') (path name : String) :
    (ix.dropName path name).SameStores (ix'.dropName path name) := by
  rw [WorkspaceIndex.dropName, WorkspaceIndex.dropName, same.entries]
  split
  · exact same
  · split
    · refine ⟨(PrefixIndex.edit_congr same.names (.remove name)).2, fun name' => ?_, same.files⟩
      rw [Std.TreeMap.getElem?_erase, Std.TreeMap.getElem?_erase, same.entries]
    · refine ⟨same.names, fun name' => ?_, same.files⟩
      rw [Std.TreeMap.getElem?_insert, Std.TreeMap.getElem?_insert, same.entries]

theorem SameStores.dropNames (same : ix.SameStores ix') (path : String) (names : List String) :
    (names.foldl (WorkspaceIndex.dropName path) ix).SameStores
      (names.foldl (WorkspaceIndex.dropName path) ix') :=
  List.foldl_rel same fun name _ _ _ same => same.dropName path name

theorem SameStores.removeFile (same : ix.SameStores ix') (path : String) :
    (ix.removeFile path).SameStores (ix'.removeFile path) := by
  rw [WorkspaceIndex.removeFile, WorkspaceIndex.removeFile, same.files]
  split
  · exact same
  · have erased : SameStores { ix with files := ix.files.erase path }
        { ix' with files := ix'.files.erase path } := by
      refine ⟨same.names, same.entries, fun path' => ?_⟩
      rw [Std.TreeMap.getElem?_erase, Std.TreeMap.getElem?_erase, same.files]
    exact erased.dropNames path _

/-- What the file of a source held before does not matter once the source is indexed. -/
theorem SameStores.indexSource_of_removeFile {s : Source}
    (same : (ix.removeFile s.path).SameStores (ix'.removeFile s.path)) :
    (ix.indexSource s).SameStores (ix'.indexSource s) := by
  have added := same.addEntries s.symbols
  refine ⟨added.names, added.entries, fun path => ?_⟩
  rw [WorkspaceIndex.indexSource, WorkspaceIndex.indexSource, Std.TreeMap.getElem?_insert,
    Std.TreeMap.getElem?_insert, files_addEntries, files_addEntries, same.files]

theorem SameStores.change (same : ix.SameStores ix') (c : Change) :
    (ix.change c).SameStores (ix'.change c) := by
  cases c with
  | index s => exact (same.removeFile s.path).indexSource_of_removeFile
  | remove path => exact same.removeFile path

theorem SameStores.changes (same : ix.SameStores ix') (cs : List Change) :
    (ix.changes cs).SameStores (ix'.changes cs) :=
  List.foldl_rel same fun c _ _ _ same => same.change c

/-! ## Indexing twice, and indexing in vain -/

variable {sources : List Source}

theorem Reflects.sameStores (reflects : ix.Reflects sources) (reflects' : ix'.Reflects sources)
    (keys_eq : ix.names.keys = ix'.names.keys) : ix.SameStores ix' where
  names := PrefixIndex.entries_congr keys_eq fun name => Option.ext fun v => by
    rw [reflects.holds.names, reflects'.holds.names]
  entries name := Option.ext fun kept => by
    rw [reflects.holds.entries, reflects'.holds.entries]
  files path := Option.ext fun names => by
    rw [reflects.files, reflects'.files]

theorem elsewhere_replaced (sources : List Source) (s : Source) :
    elsewhere (elsewhere sources s.path ++ [s]) s.path = elsewhere sources s.path := by
  simp [elsewhere, List.filter_filter]

/-- The names that come with a source and go with it leave the others in their order. -/
theorem Reflects.removeFile_indexSource (reflects : ix.Reflects sources) (s : Source) :
    ((ix.indexSource s).removeFile s.path).SameStores (ix.removeFile s.path) := by
  have reflects₁ := reflects.removeFile s.path
  have reflects₂ := (reflects.indexSource s).removeFile s.path
  rw [elsewhere_replaced] at reflects₂
  refine reflects₂.sameStores reflects₁ (eq_of_sublists (ix.indexSource s).names.nodup_keys
    (keys_removeFile _ s.path) (ix.keys_indexSource s) fun name => ?_)
  rw [reflects₁.holds.mem_keys, reflects₂.holds.mem_keys]

end SameStores

/-- After any changes, to index a source twice is to index it once, and to index a source and remove its
file is to remove the file. No question tells the difference, then or after the same later changes. -/
theorem repeated_changes_alike (cs : List Change) (s : Source) (later : List Change) :
    let ix := empty.changes cs
    (((ix.indexSource s).indexSource s).changes later).Alike ((ix.indexSource s).changes later) ∧
      (((ix.indexSource s).removeFile s.path).changes later).Alike
        ((ix.removeFile s.path).changes later) := by
  intro ix
  have same := (reflects_changes cs).removeFile_indexSource s
  exact ⟨(same.indexSource_of_removeFile.changes later).alike, (same.changes later).alike⟩

end WorkspaceIndex

end CodeAtlas
