import CodeAtlas.Proofs.PrefixIndex.Order
import CodeAtlas.Proofs.Symbol.Contents

/-!
# What the index of symbols answers

The answers of an index depend on the sources that are live, and not on how it came to hold them. Only
the order of the names in the answer to a search is left open. A search finds each symbol whose name
begins with a text, once.
-/

namespace CodeAtlas.WorkspaceIndex

section Holds

variable {ix ix' : WorkspaceIndex} {es : List SymbolEntry}

theorem Holds.mem_keys (holds : ix.Holds es) {name : String} :
    name ∈ ix.names.keys ↔ name ≠ "" ∧ named es name ≠ [] := by
  rw [PrefixIndex.mem_keys, holds.contains_iff]

/-- Each name stands under itself. -/
theorem Holds.names_search (holds : ix.Holds es) (start : String) :
    ix.names.search start = ix.names.keys.filter fun name => start.toList.isPrefixOf name.toList := by
  rw [PrefixIndex.search_eq, ← PrefixIndex.map_fst_entries]
  refine List.map_congr_left fun e mem => ?_
  rw [PrefixIndex.entries_eq_filter] at mem
  exact ((holds.names e.1 e.2).mp (PrefixIndex.mem_entries.mp (List.mem_of_mem_filter mem))).1

theorem Holds.search_eq (holds : ix.Holds es) (start : String) :
    ix.search start =
      (ix.names.keys.filter fun name => start.toList.isPrefixOf name.toList).flatMap (named es) := by
  rw [search, holds.names_search, funext holds.resolve_eq]

/-- Indexes that hold the same symbols list the same names, maybe in another order. -/
theorem Holds.perm_keys (holds : ix.Holds es) (holds' : ix'.Holds es) :
    ix.names.keys.Perm ix'.names.keys :=
  (List.perm_ext_iff_of_nodup ix.names.nodup_keys ix'.names.nodup_keys).mpr fun name => by
    rw [← PrefixIndex.keys, ← PrefixIndex.keys, holds.mem_keys, holds'.mem_keys]

theorem mem_search {start : String} {e : SymbolEntry} :
    e ∈ ix.search start ↔ ∃ name ∈ ix.names.search start, e ∈ ix.resolve name :=
  List.mem_flatMap

theorem size_eq_length_keys (ix : WorkspaceIndex) : ix.size = ix.names.keys.length := by
  rw [size, PrefixIndex.size_eq_length, PrefixIndex.keys, List.length_map]

end Holds

/-! ## One history and a fresh index -/

theorem Reflects.mem_paths {ix : WorkspaceIndex} {sources : List Source}
    (reflects : ix.Reflects sources) {path : String} :
    path ∈ ix.paths ↔ ∃ s ∈ sources, s.path = path := by
  rw [paths, Std.TreeMap.mem_keys, Std.TreeMap.mem_iff_isSome_getElem?, Option.isSome_iff_exists]
  constructor
  · rintro ⟨names, found⟩
    obtain ⟨s, hs, here, -⟩ := (reflects.files path names).mp found
    exact ⟨s, hs, here⟩
  · rintro ⟨s, hs, here⟩
    exact ⟨_, (reflects.files path _).mpr ⟨s, hs, here, rfl⟩⟩

theorem nodup_live (cs : List Change) : ((live cs).map Source.path).Nodup := by
  induction cs using List.reverseRecOn with
  | nil => exact List.nodup_nil
  | append_singleton cs c ih =>
      have kept : ((elsewhere (live cs) c.path).map Source.path).Nodup :=
        ih.sublist (List.filter_sublist.map _)
      rw [live_append_singleton, List.map_append, List.nodup_append]
      refine ⟨kept, ?_, fun p hp q hq => ?_⟩
      · cases c <;> simp
      · obtain ⟨s, hs, rfl⟩ := List.mem_map.mp hp
        cases c with
        | index s' =>
            obtain rfl : q = s'.path := by simpa using hq
            exact (mem_elsewhere.mp hs).2
        | remove path => simp at hq

/-- An index into which sources with different paths go once reflects these. -/
theorem reflects_fresh {sources : List Source} (nodup : (sources.map Source.path).Nodup) :
    (sources.foldl indexSource empty).Reflects sources := by
  induction sources using List.reverseRecOn with
  | nil => exact reflects_empty
  | append_singleton sources s ih =>
      rw [List.map_append, List.nodup_append] at nodup
      obtain ⟨nodup, -, apart⟩ := nodup
      have none' : elsewhere sources s.path = sources := by
        refine List.filter_eq_self.mpr fun s' hs' => decide_eq_true ?_
        exact apart s'.path (List.mem_map_of_mem hs') s.path (by simp)
      have reflects := (ih nodup).indexSource s
      rw [none'] at reflects
      rwa [List.foldl_concat]

/-- After any changes an index answers as a fresh one does into which the sources that are live went
once, in the order of their last changes. It resolves a name to the symbols of that name in these
sources. -/
theorem changes_agree_with_fresh (cs : List Change) :
    let ix := empty.changes cs
    let fresh := (live cs).foldl indexSource empty
    (∀ name, ix.resolve name = fresh.resolve name ∧
        ix.resolve name = named ((live cs).flatMap Source.symbols) name) ∧
      ix.size = fresh.size ∧ ix.isEmpty = fresh.isEmpty ∧
      (∀ path, path ∈ ix.paths ↔ path ∈ fresh.paths) ∧
      ∀ start, ∃ names names' : List String, names.Perm names' ∧ names.Nodup ∧
        ix.search start = names.flatMap ix.resolve ∧
        fresh.search start = names'.flatMap fresh.resolve := by
  intro ix fresh
  have reflects : ix.Reflects (live cs) := reflects_changes cs
  have reflects' : fresh.Reflects (live cs) := reflects_fresh (nodup_live cs)
  have perm : ix.names.keys.Perm fresh.names.keys := reflects.holds.perm_keys reflects'.holds
  have size_eq : ix.size = fresh.size := by
    rw [size_eq_length_keys, size_eq_length_keys, perm.length_eq]
  refine ⟨fun name => ⟨?_, reflects.holds.resolve_eq name⟩, size_eq, ?_, fun path => ?_, fun start => ?_⟩
  · rw [reflects.holds.resolve_eq, reflects'.holds.resolve_eq]
  · rw [isEmpty, isEmpty, PrefixIndex.isEmpty, PrefixIndex.isEmpty, ← size, ← size, size_eq]
  · rw [reflects.mem_paths, reflects'.mem_paths]
  · refine ⟨ix.names.search start, fresh.names.search start, ?_, ?_, rfl, rfl⟩
    · rw [reflects.holds.names_search, reflects'.holds.names_search]
      exact perm.filter _
    · rw [reflects.holds.names_search]
      exact ix.names.nodup_keys.filter _

/-! ## Searches -/

section Search

variable (es : List SymbolEntry) {names : List String}

theorem name_of_mem_named {es : List SymbolEntry} {name : String} {e : SymbolEntry}
    (mem : e ∈ named es name) : e.name = name :=
  of_decide_eq_true (List.mem_filter.mp mem).2

theorem flatMap_named_filter (names : List String) (p : String → Bool) :
    (names.filter p).flatMap (named es) = (names.flatMap (named es)).filter (p ·.name) := by
  induction names with
  | nil => rfl
  | cons name names ih =>
      rw [List.flatMap_cons, List.filter_append, ← ih]
      cases chosen : p name with
      | true =>
          have all : (named es name).filter (p ·.name) = named es name :=
            List.filter_eq_self.mpr fun e mem => by rw [name_of_mem_named mem, chosen]
          rw [List.filter_cons_of_pos chosen, List.flatMap_cons, all]
      | false =>
          have none' : (named es name).filter (p ·.name) = [] :=
            List.filter_eq_nil_iff.mpr fun e mem => by simp [name_of_mem_named mem, chosen]
          rw [List.filter_cons_of_neg (by simp [chosen]), none', List.nil_append]

/-- The symbols of different names, name after name. -/
theorem flatMap_named_perm (nodup : names.Nodup) :
    (names.flatMap (named es)).Perm (es.filter (·.name ∈ names)) := by
  induction names with
  | nil => simp
  | cons name names ih =>
      obtain ⟨new, nodup⟩ := List.nodup_cons.mp nodup
      have head : (es.filter (·.name ∈ name :: names)).filter (·.name = name) = named es name := by
        rw [List.filter_filter, named]
        refine List.filter_congr fun e _ => ?_
        by_cases same : e.name = name
        · simp [same]
        · simp [same]
      have rest : (es.filter (·.name ∈ name :: names)).filter (fun e => !decide (e.name = name)) =
          es.filter (·.name ∈ names) := by
        rw [List.filter_filter]
        refine List.filter_congr fun e _ => ?_
        by_cases same : e.name = name
        · simp [same, new]
        · simp [same]
      have split := List.filter_append_perm (fun e : SymbolEntry => decide (e.name = name))
        (es.filter (·.name ∈ name :: names))
      rw [head, rest] at split
      exact ((ih nodup).append_left _).trans split

end Search

/-- After any changes a search finds the symbols in the live sources whose names begin with a text and
are not empty, each once. They come name after name in the order of the prefix index, and those of one
name as that name is resolved. -/
theorem search_by_start (cs : List Change) (start : String) :
    let ix := empty.changes cs
    let names := (ix.names.entries start).map Prod.fst
    (ix.search start).Perm (((live cs).flatMap Source.symbols).filter
        fun e => e.name ≠ "" ∧ start.toList <+: e.name.toList) ∧
      ix.search start = names.flatMap ix.resolve ∧ names.Nodup ∧
      (∀ name ∈ names, ix.resolve name ≠ [] ∧ ∀ e ∈ ix.resolve name, e.name = name) ∧
      ix.search start = (ix.search "").filter fun e => start.toList.isPrefixOf e.name.toList := by
  intro ix names
  have holds : ix.Holds ((live cs).flatMap Source.symbols) := (reflects_changes cs).holds
  have names_eq : names = ix.names.keys.filter fun name => start.toList.isPrefixOf name.toList :=
    ix.names.map_fst_entries start
  have nodup : names.Nodup := names_eq ▸ ix.names.nodup_keys.filter _
  have search_eq : ix.search start = names.flatMap (named ((live cs).flatMap Source.symbols)) := by
    rw [holds.search_eq, names_eq]
  refine ⟨?_, ?_, nodup, fun name mem => ?_, ?_⟩
  · rw [search_eq]
    convert flatMap_named_perm _ nodup using 1
    refine List.filter_congr fun e mem => ?_
    have found : named ((live cs).flatMap Source.symbols) e.name ≠ [] := named_ne_nil.mpr ⟨e, mem, rfl⟩
    simp [names_eq, holds.mem_keys, found]
  · rw [search_eq, funext holds.resolve_eq]
  · rw [names_eq, List.mem_filter, holds.mem_keys] at mem
    rw [holds.resolve_eq]
    exact ⟨mem.1.2, fun e => name_of_mem_named⟩
  · rw [holds.search_eq "", search_eq, names_eq]
    simp [flatMap_named_filter]

end CodeAtlas.WorkspaceIndex
