import CodeAtlas.Proofs.PrefixIndex.FiniteMap
import CodeAtlas.Proofs.Walk
import CodeAtlas.Symbol.Index

/-!
# What the index of symbols holds

Whatever files have been indexed and removed, the three stores hold the symbols of the sources that are
indexed now, and nothing else.
-/

namespace CodeAtlas

/-! ## The symbols of a source -/

def Source.symbols (s : Source) : List SymbolEntry :=
  definitions s.path s.root

theorem Collector.path_of_mem_record {c : Collector} {path name : String} {n : SyntaxNode}
    {container : Option String} (all : ∀ e ∈ c.found, e.path = path) :
    ∀ e ∈ (c.record path n name container).found, e.path = path := by
  rw [record]
  split
  · exact all
  · intro e mem
    rcases List.mem_cons.mp mem with rfl | mem
    · rfl
    · exact all e mem

theorem Collector.path_of_mem_handle {c : Collector} {path : String} (event : Event) (n : SyntaxNode)
    (all : ∀ e ∈ c.found, e.path = path) : ∀ e ∈ (c.handle path event n).found, e.path = path := by
  unfold handle
  split
  · dsimp only
    split
    · exact all
    · exact path_of_mem_record all
  · dsimp only
    split
    · exact all
    · exact path_of_mem_record all
  · exact all
  · split
    · exact all
    · exact path_of_mem_record all
  · split
    · exact all
    · exact path_of_mem_record all
  · exact all
  · exact all

theorem Source.path_of_mem_symbols {s : Source} {e : SymbolEntry} (mem : e ∈ s.symbols) :
    e.path = s.path := by
  have all : ∀ e ∈ ((Collector.listener s.path).run Collector.start s.root).found, e.path = s.path := by
    refine Listener.run_induction _ (P := fun c : Collector => ∀ e ∈ c.found, e.path = s.path) ?_ ?_ _
    · intro e mem
      cases mem
    · intro c event n all
      exact Collector.path_of_mem_handle event n all
  exact all e (List.mem_reverse.mp mem)

namespace WorkspaceIndex

theorem mem_distinctNames {es : List SymbolEntry} {name : String} :
    name ∈ distinctNames es ↔ ∃ e ∈ es, e.name = name := by
  suffices more : ∀ names, name ∈ es.foldl
      (fun names entry => if names.contains entry.name then names else names ++ [entry.name]) names ↔
        name ∈ names ∨ ∃ e ∈ es, e.name = name by
    rw [distinctNames, more]
    simp
  induction es with
  | nil => simp
  | cons e es ih =>
      intro names
      rw [List.foldl_cons, ih]
      split
      · rename_i old
        have old : e.name = name → name ∈ names := fun same => same ▸ List.contains_iff_mem.mp old
        simp only [List.mem_cons, exists_eq_or_imp]
        tauto
      · simp [or_assoc, eq_comm]

/-! ## The symbols of a name -/

/-- Those of some symbols that have a name. -/
def named (es : List SymbolEntry) (name : String) : List SymbolEntry :=
  es.filter (·.name = name)

/-- Some symbols without those of a name that stand in a file. -/
def without (es : List SymbolEntry) (path name : String) : List SymbolEntry :=
  es.filter fun e => ¬(e.name = name ∧ e.path = path)

section Named

variable {es : List SymbolEntry} {path name : String}

theorem named_append (es es' : List SymbolEntry) (name : String) :
    named (es ++ es') name = named es name ++ named es' name :=
  List.filter_append ..

theorem named_singleton (e : SymbolEntry) (name : String) :
    named [e] name = if e.name = name then [e] else [] := by
  simp [named, List.filter_cons]

theorem named_ne_nil : named es name ≠ [] ↔ ∃ e ∈ es, e.name = name := by
  simp [named]

theorem named_without (es : List SymbolEntry) (path name : String) :
    named (without es path name) name = (named es name).filter (·.path ≠ path) := by
  rw [named, named, without, List.filter_filter, List.filter_filter]
  refine List.filter_congr fun e _ => ?_
  by_cases same : e.name = name
  · simp [same]
  · simp [same]

theorem named_without_of_ne (es : List SymbolEntry) (path : String) {name name' : String}
    (ne : name' ≠ name) : named (without es path name) name' = named es name' := by
  rw [named, named, without, List.filter_filter]
  refine List.filter_congr fun e _ => ?_
  by_cases same : e.name = name'
  · simp [same, ne]
  · simp [same]

theorem without_of_named_eq_nil (none' : named es name = []) : without es path name = es := by
  refine List.filter_eq_self.mpr fun e mem => decide_eq_true fun both => ?_
  exact named_ne_nil.mpr ⟨e, mem, both.1⟩ none'

end Named

/-! ## The stores of names and of entries -/

/-- The stores of names and of entries hold some symbols, in the order in which these have come. -/
structure Holds (ix : WorkspaceIndex) (es : List SymbolEntry) : Prop where
  entries : ∀ name kept, ix.entries[name]? = some kept ↔ kept ≠ [] ∧ named es name = kept
  names : ∀ name v, ix.names.get? name = some v ↔ v = name ∧ name ≠ "" ∧ named es name ≠ []

section Holds

variable {ix : WorkspaceIndex} {es : List SymbolEntry}

theorem holds_empty : empty.Holds [] where
  entries name kept := by simp [empty, named, eq_comm]
  names name v := by simp [empty, named, PrefixIndex.get?_empty]

theorem Holds.entries_eq_none (holds : ix.Holds es) {name : String} :
    ix.entries[name]? = none ↔ named es name = [] := by
  rw [Option.eq_none_iff_forall_ne_some]
  constructor
  · intro none'
    by_contra ne
    exact none' _ ((holds.entries name _).mpr ⟨ne, rfl⟩)
  · intro none' kept found
    obtain ⟨ne, rfl⟩ := (holds.entries name kept).mp found
    exact ne none'

theorem Holds.resolve_eq (holds : ix.Holds es) (name : String) : ix.resolve name = named es name := by
  rw [resolve]
  cases found : ix.entries[name]? with
  | none => exact (holds.entries_eq_none.mp found).symm
  | some kept => exact ((holds.entries name kept).mp found).2.symm

theorem Holds.contains_iff (holds : ix.Holds es) {name : String} :
    ix.names.contains name ↔ name ≠ "" ∧ named es name ≠ [] := by
  simp [PrefixIndex.contains, Option.isSome_iff_exists, holds.names]

theorem Holds.addEntry (holds : ix.Holds es) (e : SymbolEntry) :
    (ix.addEntry e).Holds (es ++ [e]) where
  entries name kept := by
    rw [WorkspaceIndex.addEntry, Std.TreeMap.getElem?_insert, holds.resolve_eq, named_append,
      named_singleton]
    by_cases same : e.name = name
    · subst same
      rw [if_pos Std.ReflCmp.compare_self, if_pos rfl, Option.some_inj]
      exact ⟨fun last => ⟨last ▸ List.append_ne_nil_of_right_ne_nil _ (List.cons_ne_nil e []), last⟩,
        And.right⟩
    · simp [same, holds.entries]
  names name v := by
    rw [WorkspaceIndex.addEntry, named_append, named_singleton]
    dsimp only
    split
    · rename_i old
      have old := (holds.contains_iff.mp old).2
      rw [holds.names]
      by_cases same : e.name = name
      · simp [← same, old]
      · simp [same]
    · rw [PrefixIndex.get?_insert]
      by_cases same : name = e.name
      · subst same
        by_cases anonymous : e.name = ""
        · rw [anonymous, PrefixIndex.get?_empty_key]
          simp
        · simpa [anonymous] using eq_comm
      · simp [same, Ne.symm same, holds.names]

theorem Holds.addEntries (holds : ix.Holds es) (new : List SymbolEntry) :
    (new.foldl WorkspaceIndex.addEntry ix).Holds (es ++ new) := by
  induction new generalizing ix es with
  | nil => simpa using holds
  | cons e new ih => simpa using ih (holds.addEntry e)

theorem Holds.dropName (holds : ix.Holds es) (path name : String) :
    (ix.dropName path name).Holds (without es path name) := by
  rw [WorkspaceIndex.dropName]
  split
  · rename_i none'
    rwa [without_of_named_eq_nil (holds.entries_eq_none.mp none')]
  · rename_i entries found
    obtain ⟨some', rfl⟩ := (holds.entries name entries).mp found
    split
    · rename_i none'
      rw [← named_without] at none'
      refine ⟨fun name' kept => ?_, fun name' v => ?_⟩
      · rw [Std.TreeMap.getElem?_erase]
        by_cases same : name = name'
        · subst same
          simp [none', eq_comm]
        · simp [same, holds.entries, named_without_of_ne es path (Ne.symm same)]
      · rw [PrefixIndex.get?_remove]
        by_cases same : name' = name
        · subst same
          simp [none']
        · simp [same, holds.names, named_without_of_ne es path same]
    · rename_i left
      have left : named (without es path name) name ≠ [] := by
        rw [named_without]
        exact left
      refine ⟨fun name' kept => ?_, fun name' v => ?_⟩
      · rw [Std.TreeMap.getElem?_insert]
        by_cases same : name = name'
        · subst same
          rw [← named_without, if_pos Std.ReflCmp.compare_self, Option.some_inj]
          exact ⟨fun e => ⟨e ▸ left, e⟩, And.right⟩
        · simp [same, holds.entries, named_without_of_ne es path (Ne.symm same)]
      · by_cases same : name' = name
        · subst same
          simp [holds.names, some', left]
        · simp [holds.names, named_without_of_ne es path same]

theorem Holds.dropNames (holds : ix.Holds es) (path : String) (names : List String) :
    (names.foldl (WorkspaceIndex.dropName path) ix).Holds
      (es.filter fun e => ¬(e.name ∈ names ∧ e.path = path)) := by
  induction names generalizing ix es with
  | nil =>
      rw [List.filter_eq_self.mpr fun e _ => by simp]
      exact holds
  | cons name names ih =>
      have step : (without es path name).filter (fun e => ¬(e.name ∈ names ∧ e.path = path)) =
          es.filter fun e => ¬(e.name ∈ name :: names ∧ e.path = path) := by
        rw [without, List.filter_filter]
        refine List.filter_congr fun e _ => ?_
        rw [Bool.eq_iff_iff]
        simp only [Bool.and_eq_true, decide_eq_true_eq, List.mem_cons]
        tauto
      rw [← step]
      exact ih (holds.dropName path name)

end Holds

/-! ## The store of files -/

theorem files_addEntries (ix : WorkspaceIndex) (es : List SymbolEntry) :
    (es.foldl addEntry ix).files = ix.files := by
  refine List.foldlRecOn (motive := fun ix' => ix'.files = ix.files) es addEntry rfl ?_
  intro ix' same e _
  exact same

theorem files_dropName (ix : WorkspaceIndex) (path name : String) :
    (ix.dropName path name).files = ix.files := by
  rw [dropName]
  split
  · rfl
  · split
    · rfl
    · rfl

theorem files_dropNames (ix : WorkspaceIndex) (path : String) (names : List String) :
    (names.foldl (dropName path) ix).files = ix.files := by
  refine List.foldlRecOn (motive := fun ix' => ix'.files = ix.files) names (dropName path) rfl ?_
  intro ix' same name _
  exact (ix'.files_dropName path name).trans same

/-- Those of some sources that do not stand at a path. -/
def elsewhere (sources : List Source) (path : String) : List Source :=
  sources.filter (·.path ≠ path)

theorem mem_elsewhere {sources : List Source} {path : String} {s : Source} :
    s ∈ elsewhere sources path ↔ s ∈ sources ∧ s.path ≠ path := by
  simp [elsewhere]

/-- The index holds the symbols of some sources, and knows for each path which names are defined there. -/
structure Reflects (ix : WorkspaceIndex) (sources : List Source) : Prop where
  holds : ix.Holds (sources.flatMap Source.symbols)
  files : ∀ path names, ix.files[path]? = some names ↔
    ∃ s ∈ sources, s.path = path ∧ distinctNames s.symbols = names

section Reflects

variable {ix : WorkspaceIndex} {sources : List Source}

/-- The symbols in the files at some paths. -/
theorem filter_symbols (sources : List Source) (p : String → Bool) :
    (sources.flatMap Source.symbols).filter (p ·.path) =
      (sources.filter (p ·.path)).flatMap Source.symbols := by
  induction sources with
  | nil => rfl
  | cons s sources ih =>
      rw [List.flatMap_cons, List.filter_append, ih]
      cases chosen : p s.path with
      | true =>
          have all : s.symbols.filter (p ·.path) = s.symbols :=
            List.filter_eq_self.mpr fun e mem => by rw [Source.path_of_mem_symbols mem, chosen]
          rw [List.filter_cons_of_pos (by simpa using chosen), List.flatMap_cons, all]
      | false =>
          have none' : s.symbols.filter (p ·.path) = [] :=
            List.filter_eq_nil_iff.mpr fun e mem => by simp [Source.path_of_mem_symbols mem, chosen]
          rw [List.filter_cons_of_neg (by simpa using chosen), none', List.nil_append]

theorem symbols_elsewhere (sources : List Source) (path : String) :
    (elsewhere sources path).flatMap Source.symbols =
      (sources.flatMap Source.symbols).filter (·.path ≠ path) :=
  (filter_symbols sources fun p => decide (p ≠ path)).symm

/-- If different sources stand at different paths, the symbols in a file are those of its source. -/
theorem filter_symbols_path {sources : List Source} (nodup : (sources.map Source.path).Nodup)
    {s : Source} (mem : s ∈ sources) :
    (sources.flatMap Source.symbols).filter (·.path = s.path) = s.symbols := by
  obtain ⟨before, after, rfl⟩ := List.append_of_mem mem
  rw [List.map_append, List.map_cons, List.nodup_append, List.nodup_cons] at nodup
  obtain ⟨-, ⟨last, -⟩, apart⟩ := nodup
  have before_apart : before.filter (·.path = s.path) = [] := by
    refine List.filter_eq_nil_iff.mpr fun s' mem' => ?_
    have := apart s'.path (List.mem_map_of_mem mem') s.path List.mem_cons_self
    simpa using this
  have after_apart : after.filter (·.path = s.path) = [] := by
    refine List.filter_eq_nil_iff.mpr fun s' mem' => ?_
    have : s'.path ≠ s.path := fun here => last (here ▸ List.mem_map_of_mem mem')
    simpa using this
  rw [filter_symbols _ fun p => decide (p = s.path), List.filter_append, before_apart,
    List.filter_cons_of_pos (by simp), after_apart]
  simp

theorem reflects_empty : empty.Reflects [] where
  holds := holds_empty
  files path names := by simp [empty]

theorem Reflects.removeFile (reflects : ix.Reflects sources) (path : String) :
    (ix.removeFile path).Reflects (elsewhere sources path) := by
  rw [WorkspaceIndex.removeFile]
  split
  · rename_i unknown
    have none' : elsewhere sources path = sources := by
      refine List.filter_eq_self.mpr fun s hs => decide_eq_true fun here => ?_
      have := (reflects.files path _).mpr ⟨s, hs, here, rfl⟩
      rw [unknown] at this
      cases this
    rwa [none']
  · rename_i names found
    have known : ∀ e ∈ sources.flatMap Source.symbols, e.path = path → e.name ∈ names := by
      intro e mem here
      obtain ⟨s, hs, mem⟩ := List.mem_flatMap.mp mem
      have names_eq := (reflects.files path _).mpr
        ⟨s, hs, (Source.path_of_mem_symbols mem).symm.trans here, rfl⟩
      rw [found, Option.some_inj] at names_eq
      exact names_eq ▸ mem_distinctNames.mpr ⟨e, mem, rfl⟩
    refine ⟨?_, fun path' names' => ?_⟩
    · have holds : WorkspaceIndex.Holds { ix with files := ix.files.erase path }
          (sources.flatMap Source.symbols) := ⟨reflects.holds.entries, reflects.holds.names⟩
      rw [symbols_elsewhere]
      convert holds.dropNames path names using 1
      refine List.filter_congr fun e mem => ?_
      by_cases here : e.path = path
      · simp [here, known e mem here]
      · simp [here]
    · rw [files_dropNames, Std.TreeMap.getElem?_erase]
      by_cases same : path = path'
      · subst same
        rw [if_pos Std.ReflCmp.compare_self]
        constructor
        · intro h
          cases h
        · rintro ⟨s, hs, here, -⟩
          exact absurd here (mem_elsewhere.mp hs).2
      · rw [if_neg (mt Std.compare_eq_iff_eq.mp same), reflects.files]
        constructor
        · rintro ⟨s, hs, rfl, names_eq⟩
          exact ⟨s, mem_elsewhere.mpr ⟨hs, Ne.symm same⟩, rfl, names_eq⟩
        · rintro ⟨s, hs, here, names_eq⟩
          exact ⟨s, (mem_elsewhere.mp hs).1, here, names_eq⟩

theorem Reflects.indexSource (reflects : ix.Reflects sources) (s : Source) :
    (ix.indexSource s).Reflects (elsewhere sources s.path ++ [s]) where
  holds := by
    have added := (reflects.removeFile s.path).holds.addEntries s.symbols
    rw [List.flatMap_append, List.flatMap_singleton]
    exact ⟨added.entries, added.names⟩
  files path names := by
    rw [WorkspaceIndex.indexSource, Std.TreeMap.getElem?_insert, files_addEntries]
    by_cases same : s.path = path
    · subst same
      rw [if_pos Std.ReflCmp.compare_self, Option.some_inj]
      constructor
      · rintro rfl
        exact ⟨s, List.mem_append_right _ (List.mem_singleton_self s), rfl, rfl⟩
      · rintro ⟨s', hs', here, names_eq⟩
        rcases List.mem_append.mp hs' with hs' | hs'
        · exact absurd here (mem_elsewhere.mp hs').2
        · obtain rfl := List.mem_singleton.mp hs'
          exact names_eq
    · simp [same, (reflects.removeFile s.path).files]

end Reflects

/-! ## Histories -/

/-- A change of the files in a workspace. -/
inductive Change where
  | index (source : Source)
  | remove (path : String)

namespace Change

/-- The file that a change is about. -/
def path : Change → String
  | .index source => source.path
  | .remove path => path

def source? : Change → Option Source
  | .index source => some source
  | .remove _ => none

@[simp] theorem path_index (s : Source) : (index s).path = s.path := rfl

@[simp] theorem path_remove (path : String) : (remove path).path = path := rfl

@[simp] theorem source?_index (s : Source) : (index s).source? = some s := rfl

@[simp] theorem source?_remove (path : String) : (remove path).source? = none := rfl

end Change

def change (ix : WorkspaceIndex) : Change → WorkspaceIndex
  | .index source => ix.indexSource source
  | .remove path => ix.removeFile path

def changes (ix : WorkspaceIndex) (cs : List Change) : WorkspaceIndex :=
  cs.foldl change ix

/-- The sources that are indexed after some changes: those whose files no later change is about. -/
def live : List Change → List Source
  | [] => []
  | c :: cs => (if cs.any (·.path = c.path) then [] else c.source?.toList) ++ live cs

theorem live_append_singleton (cs : List Change) (c : Change) :
    live (cs ++ [c]) = elsewhere (live cs) c.path ++ c.source?.toList := by
  induction cs with
  | nil => simp [live, elsewhere]
  | cons c' cs ih =>
      -- What the first change leaves is live until some later change is about the same file.
      have first : (if (cs ++ [c]).any (·.path = c'.path) then [] else c'.source?.toList) =
          elsewhere (if cs.any (·.path = c'.path) then [] else c'.source?.toList) c.path := by
        rw [List.any_append]
        cases cs.any (·.path = c'.path) with
        | true => rfl
        | false =>
            cases c' with
            | remove path => simp [elsewhere]
            | index s =>
                by_cases same : c.path = s.path
                · simp [elsewhere, same]
                · simp [elsewhere, same, Ne.symm same]
      rw [List.cons_append, live, first, ih, live, ← List.append_assoc]
      congr 1
      exact (List.filter_append ..).symm

theorem Reflects.change {ix : WorkspaceIndex} {sources : List Source} (reflects : ix.Reflects sources)
    (c : Change) : (ix.change c).Reflects (elsewhere sources c.path ++ c.source?.toList) := by
  cases c with
  | index s => exact reflects.indexSource s
  | remove path =>
      have := reflects.removeFile path
      rwa [← List.append_nil (elsewhere sources path)] at this

/-- After any changes the index reflects the sources that are live. -/
theorem reflects_changes (cs : List Change) : (empty.changes cs).Reflects (live cs) := by
  induction cs using List.reverseRecOn with
  | nil => exact reflects_empty
  | append_singleton cs c ih =>
      rw [changes, List.foldl_append, live_append_singleton]
      exact ih.change c

end WorkspaceIndex

end CodeAtlas
