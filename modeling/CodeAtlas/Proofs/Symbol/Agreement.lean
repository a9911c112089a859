import CodeAtlas.Proofs.Symbol.Answers
import CodeAtlas.Proofs.Symbol.Nesting

/-!
# Whether the stores agree

The index counts and searches names in one store, and resolves them in another. After any changes both
know the same names that are not empty. A symbol with the empty name, which a stray `::` defines, is
resolved but neither counted nor found, so that the stores agree only as long as no source defines one.
-/

namespace CodeAtlas.WorkspaceIndex

/-- The store of names and the store of entries say the same of the names that count. -/
structure Agree (ix : WorkspaceIndex) (counts : String → Prop) : Prop where
  stored : ∀ name, ix.names.contains name ↔ counts name ∧ ix.resolve name ≠ []
  size : ∃ names : List String, names.Nodup ∧
    (∀ name, name ∈ names ↔ counts name ∧ ix.resolve name ≠ []) ∧ ix.size = names.length
  isEmpty : ix.isEmpty ↔ ∀ name, counts name → ix.resolve name = []
  found : ∀ name, counts name → ∀ e ∈ ix.resolve name, e ∈ ix.search name

section Agree

variable {ix : WorkspaceIndex} {es : List SymbolEntry}

/-- The rest follows from what is stored. -/
theorem Holds.agree (holds : ix.Holds es) {counts : String → Prop}
    (stored : ∀ name, ix.names.contains name ↔ counts name ∧ ix.resolve name ≠ []) : ix.Agree counts where
  stored := stored
  size := by
    refine ⟨ix.names.keys, ix.names.nodup_keys, fun name => ?_, ix.size_eq_length_keys⟩
    rw [PrefixIndex.mem_keys, stored]
  isEmpty := by
    have empty_iff : ix.isEmpty ↔ ix.names.keys = [] := by
      rw [isEmpty, PrefixIndex.isEmpty, beq_iff_eq, ← WorkspaceIndex.size, size_eq_length_keys,
        List.length_eq_zero_iff]
    rw [empty_iff, List.eq_nil_iff_forall_not_mem]
    constructor
    · intro none' name name_counts
      by_contra some'
      exact none' name (PrefixIndex.mem_keys.mpr ((stored name).mpr ⟨name_counts, some'⟩))
    · intro none' name mem
      obtain ⟨name_counts, some'⟩ := (stored name).mp (PrefixIndex.mem_keys.mp mem)
      exact some' (none' name name_counts)
  found name name_counts e mem := by
    have key : name ∈ ix.names.keys :=
      PrefixIndex.mem_keys.mpr ((stored name).mpr ⟨name_counts, List.ne_nil_of_mem mem⟩)
    rw [mem_search, holds.names_search]
    refine ⟨name, List.mem_filter.mpr ⟨key, ?_⟩, mem⟩
    simp

theorem Holds.agree_named (holds : ix.Holds es) : ix.Agree (· ≠ "") :=
  holds.agree fun name => by rw [holds.contains_iff, holds.resolve_eq]

theorem Holds.agree_iff (holds : ix.Holds es) : ix.Agree (fun _ => True) ↔ ∀ e ∈ es, e.name ≠ "" := by
  constructor
  · intro agree e mem unnamed
    have found : ix.resolve "" ≠ [] := by
      rw [holds.resolve_eq]
      exact named_ne_nil.mpr ⟨e, mem, unnamed⟩
    exact (holds.contains_iff.mp ((agree.stored "").mpr ⟨trivial, found⟩)).1 rfl
  · intro all
    refine holds.agree fun name => ?_
    rw [holds.contains_iff, holds.resolve_eq, named_ne_nil]
    constructor
    · exact fun both => ⟨trivial, both.2⟩
    · rintro ⟨-, e, mem, rfl⟩
      exact ⟨all e mem, e, mem, rfl⟩

end Agree

/-- After any changes the stores agree on all names that are not empty. They agree on all names just if
no source that is live defines a symbol whose name is empty. -/
theorem stores_agree (cs : List Change) :
    let ix := empty.changes cs
    ix.Agree (· ≠ "") ∧
      (ix.Agree (fun _ => True) ↔ ∀ s ∈ live cs, ∀ e ∈ s.symbols, e.name ≠ "") := by
  intro ix
  have holds : ix.Holds ((live cs).flatMap Source.symbols) := (reflects_changes cs).holds
  refine ⟨holds.agree_named, holds.agree_iff.trans ?_⟩
  constructor
  · intro all s hs e mem
    exact all e (List.mem_flatMap.mpr ⟨s, hs, mem⟩)
  · intro all e mem
    obtain ⟨s, hs, mem⟩ := List.mem_flatMap.mp mem
    exact all s hs e mem

/-- A constant that is written `::` is resolved, but the index counts no name and finds none. -/
theorem stray_anchor_uncounted :
    let s := Source.new "a.rb" "" ⟨.constWrite, some "::", ⟨0, 0⟩, none, []⟩
    let ix := empty.changes [.index s]
    ix.resolve "" = [⟨"", .constantKind, "a.rb", ⟨0, 0⟩, ⟨0, 0⟩, none⟩] ∧
      ix.names.contains "" = false ∧ ix.size = 0 ∧ ix.isEmpty = true ∧ ix.search "" = [] ∧
      ¬ix.Agree fun _ => True := by
  intro s ix
  have symbols : s.symbols = [⟨"", .constantKind, "a.rb", ⟨0, 0⟩, ⟨0, 0⟩, none⟩] := by
    rw [Source.symbols, definitions_eq]
    rfl
  have holds : ix.Holds [⟨"", .constantKind, "a.rb", ⟨0, 0⟩, ⟨0, 0⟩, none⟩] := by
    have := (reflects_changes [.index s]).holds
    simpa [live, symbols] using this
  have keys : ix.names.keys = [] := by
    refine List.eq_nil_iff_forall_not_mem.mpr fun name mem => ?_
    obtain ⟨nonempty, found⟩ := holds.mem_keys.mp mem
    obtain ⟨e, only, rfl⟩ := named_ne_nil.mp found
    obtain rfl := List.mem_singleton.mp only
    exact nonempty rfl
  have size : ix.size = 0 := by rw [size_eq_length_keys, keys, List.length_nil]
  refine ⟨?_, ?_, size, ?_, ?_, ?_⟩
  · rw [holds.resolve_eq]
    rfl
  · rw [← Bool.not_eq_true, holds.contains_iff]
    exact fun both => both.1 rfl
  · rw [isEmpty, PrefixIndex.isEmpty, ← WorkspaceIndex.size, size]
    rfl
  · rw [holds.search_eq, keys]
    rfl
  · rw [holds.agree_iff]
    exact fun all => all _ (List.mem_singleton_self _) rfl

end CodeAtlas.WorkspaceIndex
