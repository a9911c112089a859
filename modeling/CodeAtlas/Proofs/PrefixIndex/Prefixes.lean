import CodeAtlas.PrefixIndex.Listing
import CodeAtlas.Proofs.PrefixIndex.Entries

/-!
# Listing by prefix

The entries that begin with a text are those of the whole listing that do, and a walk through the values
yields them in the same order.
-/

namespace CodeAtlas

variable {α : Type}

namespace PrefixIndex

variable {ix : PrefixIndex α} {t : Tree α}

/-! ## Entries -/

theorem entries_eq (bears : ix.graph.Bears t) (start : String) :
    ix.entries start =
      ((t.entries []).filter fun e => start.toList.isPrefixOf e.1).map
        fun e => (String.ofList e.1, e.2) := by
  obtain ⟨o, reached, run⟩ := bears.entries_eq start
  rw [entries, Run.answer_eq run]
  congr 1
  cases o with
  | none =>
      refine (List.filter_eq_nil_iff.mpr fun e he begins => ?_).symm
      obtain ⟨u, way, reaches⟩ := Tree.exists_reaches he (List.isPrefixOf_iff_prefix.mp begins)
      cases (reached u way).mpr reaches
  | some top =>
      obtain ⟨u, way⟩ := top
      have reaches := (reached u way).mp rfl
      simpa using (reaches.filter_entries bears.valid []).symm

theorem entries_empty_eq (bears : ix.graph.Bears t) :
    ix.entries "" = (t.entries []).map fun e => (String.ofList e.1, e.2) := by
  rw [entries_eq bears, List.filter_eq_self.mpr]
  simp

theorem entries_eq_filter (ix : PrefixIndex α) (start : String) :
    ix.entries start = (ix.entries "").filter fun e => start.toList.isPrefixOf e.1.toList := by
  obtain ⟨t, bears⟩ := ix.shaped
  rw [entries_eq bears, entries_empty_eq bears, List.filter_map]
  simp [Function.comp_def]

/-- No key of the listing begins one that stands before it. -/
theorem pairwise_entries (ix : PrefixIndex α) :
    (ix.entries "").Pairwise fun e e' => ¬e'.1.toList <+: e.1.toList := by
  obtain ⟨t, bears⟩ := ix.shaped
  rw [entries_empty_eq bears, List.pairwise_map]
  simpa using bears.valid.pairwise_entries []

theorem nodup_keys (ix : PrefixIndex α) : ((ix.entries "").map Prod.fst).Nodup := by
  rw [List.Nodup, List.pairwise_map]
  refine ix.pairwise_entries.imp fun {e e'} back same => back ?_
  exact same ▸ List.prefix_rfl

end PrefixIndex

/-! ## Values -/

namespace PrefixIter

open PrefixIndex (Run)

/-- The walk yields the values one after another, and then ends. -/
inductive Yields : PrefixIter α → List α → Prop
  | done {it} (ends : it.next = none) : Yields it []
  | more {it it' v vs} (next : it.next = some (v, it')) (rest : Yields it' vs) : Yields it (v :: vs)

theorem toList_eq (it : PrefixIter α) {ts : List (PrefixIndex.Tree α)}
    (stack_eq : it.stack = ts.map PrefixIndex.Tree.handle)
    (lives : ∀ t ∈ ts, ∃ parent, t.LivesIn it.graph.nodes parent) :
    it.toList = ts.flatMap PrefixIndex.Tree.values := by
  have run := PrefixIndex.Graph.collectValues_eq ts lives #[]
  rw [← stack_eq] at run
  rw [toList, Run.answer_eq run]
  simp

/-- A step of a walk takes the first of the values that remain. -/
theorem next_cases (it : PrefixIter α) :
    (it.toList = [] ∧ it.next = none) ∨
      ∃ v it', it.toList = v :: it'.toList ∧ it.next = some (v, it') := by
  obtain ⟨ts, stack_eq, lives⟩ := it.shaped
  rw [it.toList_eq stack_eq lives, next]
  rcases PrefixIndex.Graph.next_eq ts lives with ⟨none', run⟩ | ⟨v, rest, values, lives', run⟩
  · rw [← stack_eq] at run
    refine .inl ⟨none', ?_⟩
    split
    · rfl
    · rename_i h
      rw [Run.answer_eq run] at h
      cases h
  · rw [← stack_eq] at run
    split
    · rename_i h
      rw [Run.answer_eq run] at h
      cases h
    · rename_i v' stack' h
      have shaped := it.next_shaped h
      rw [Run.answer_eq run] at h
      cases h
      have left := toList_eq ⟨it.graph, _, shaped⟩ rfl lives'
      exact .inr ⟨v, ⟨it.graph, _, shaped⟩, by rw [values, left], rfl⟩

theorem yields_toList (it : PrefixIter α) : it.Yields it.toList := by
  generalize h : it.toList = vs
  induction vs generalizing it with
  | nil =>
      rcases it.next_cases with ⟨-, ends⟩ | ⟨v, it', values, -⟩
      · exact .done ends
      · rw [h] at values
        cases values
  | cons v vs ih =>
      rcases it.next_cases with ⟨none', -⟩ | ⟨v', it', values, next⟩
      · rw [h] at none'
        cases none'
      · rw [h] at values
        cases values
        exact .more next (ih it' rfl)

theorem Yields.eq_toList {it : PrefixIter α} {vs : List α} (yields : it.Yields vs) :
    vs = it.toList := by
  induction yields with
  | @done it ends =>
      rcases it.next_cases with ⟨none', -⟩ | ⟨v, it', -, next⟩
      · exact none'.symm
      · rw [ends] at next
        cases next
  | @more it it' v vs next rest ih =>
      rcases it.next_cases with ⟨-, ends⟩ | ⟨v', it'', values, next'⟩
      · rw [ends] at next
        cases next
      · rw [next] at next'
        cases next'
        rw [values, ih]

theorem yields_iff {it : PrefixIter α} {vs : List α} : it.Yields vs ↔ vs = it.toList :=
  ⟨Yields.eq_toList, fun e => e ▸ it.yields_toList⟩

end PrefixIter

namespace PrefixIndex

theorem search_eq (ix : PrefixIndex α) (start : String) :
    ix.search start = (ix.entries start).map Prod.snd := by
  obtain ⟨t, bears⟩ := ix.shaped
  obtain ⟨o, reached, run⟩ := bears.entries_eq start
  obtain ⟨o', reached', run', lives⟩ := bears.startAt_eq start
  obtain rfl : o' = o := Option.ext fun ⟨u, way⟩ => (reached' u way).trans (reached u way).symm
  have stack_eq : (ix.iter start).stack = (o'.map Prod.fst).toList.map Tree.handle :=
    Run.answer_eq run' _
  rw [search, PrefixIter.toList_eq _ stack_eq lives, entries, Run.answer_eq run]
  cases o' with
  | none => rfl
  | some top => simp [Function.comp_def, ← Tree.map_snd_entries top.2]

/-- The entries that begin with a text stand in the whole listing in the same order, the values are
listed and yielded in that order too, and each key is listed once, before its extensions. -/
theorem listing_by_prefix (ix : PrefixIndex α) (start : String) :
    ix.entries start = (ix.entries "").filter (fun e => start.toList.isPrefixOf e.1.toList) ∧
      ix.search start = (ix.entries start).map Prod.snd ∧
      (ix.iter start).Yields ((ix.entries start).map Prod.snd) ∧
      ((ix.entries "").map Prod.fst).Nodup ∧
      (ix.entries "").Pairwise fun e e' => ¬e'.1.toList <+: e.1.toList := by
  refine ⟨ix.entries_eq_filter start, ix.search_eq start, ?_, ix.nodup_keys, ix.pairwise_entries⟩
  rw [← ix.search_eq start]
  exact (ix.iter start).yields_toList

end PrefixIndex

end CodeAtlas
