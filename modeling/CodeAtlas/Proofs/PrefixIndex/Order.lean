import CodeAtlas.Proofs.PrefixIndex.FiniteMap
import Mathlib.Data.List.DropRight
import Mathlib.Data.Nat.Find

/-!
# The order of the listing

Where a new key is listed depends on the keys that are listed already, and on nothing else. So two prefix
indexes with the same listing answer alike, whatever shape their trees have, and go on doing so.
-/

namespace CodeAtlas.PrefixIndex

open PrefixIndex.Tree (Between Puts)

variable {α : Type}

/-! ## The place of a key -/

/-- The longest beginning of a key with which one of some other keys begins. -/
def sharedStart (keys : List String) (key : String) : List Char :=
  key.toList.take <|
    Nat.findGreatest (fun n => ∃ k ∈ keys, key.toList.take n <+: k.toList) key.toList.length

/-- The keys with another one added. If one of them begins with the other key, it is put before the first
that does, otherwise behind the last one that begins with its shared beginning. -/
def place (keys : List String) (key : String) : List String :=
  let start := sharedStart keys key
  let other := fun k : String => decide ¬start <+: k.toList
  if start = key.toList then keys.takeWhile other ++ key :: keys.dropWhile other
  else keys.rdropWhile other ++ key :: keys.rtakeWhile other

theorem sharedStart_eq {keys : List String} {key : String} {start : List Char}
    (begins : start <+: key.toList) (shared : ∃ k ∈ keys, start <+: k.toList)
    (longest : ∀ k ∈ keys, ∀ q, q <+: k.toList → q <+: key.toList → q <+: start) :
    sharedStart keys key = start := by
  have start_eq : key.toList.take start.length = start := (List.prefix_iff_eq_take.mp begins).symm
  have greatest : Nat.findGreatest (fun n => ∃ k ∈ keys, key.toList.take n <+: k.toList)
      key.toList.length = start.length := by
    refine Nat.findGreatest_eq_iff.mpr ⟨begins.length_le, fun _ => start_eq.symm ▸ shared, ?_⟩
    rintro n longer bound ⟨k, hk, sub⟩
    have := (longest k hk _ sub (List.take_prefix n _)).length_le
    rw [List.length_take] at this
    omega
  rw [sharedStart, greatest, start_eq]

theorem takeWhile_dropWhile_append {β : Type} {p : β → Bool} {before after : List β}
    (all : ∀ b ∈ before, p b) (stop : ∀ b ∈ after.head?, ¬p b) :
    (before ++ after).takeWhile p = before ∧ (before ++ after).dropWhile p = after := by
  rw [List.takeWhile_append_of_pos all, List.dropWhile_append_of_pos all]
  cases after with
  | nil => simp
  | cons b after =>
      have neg := stop b rfl
      rw [List.takeWhile_cons_of_neg neg, List.dropWhile_cons_of_neg neg, List.append_nil]
      exact ⟨rfl, rfl⟩

theorem rdropWhile_rtakeWhile_append {β : Type} {p : β → Bool} {before after : List β}
    (all : ∀ b ∈ after, p b) (stop : ∀ b ∈ before.getLast?, ¬p b) :
    (before ++ after).rdropWhile p = before ∧ (before ++ after).rtakeWhile p = after := by
  have all' : ∀ b ∈ after.reverse, p b := fun b hb => all b (List.mem_reverse.mp hb)
  obtain ⟨taken, dropped⟩ := takeWhile_dropWhile_append all' (List.head?_reverse ▸ stop)
  rw [List.rdropWhile, List.rtakeWhile, List.reverse_append, taken, dropped, List.reverse_reverse,
    List.reverse_reverse]
  exact ⟨rfl, rfl⟩

theorem place_eq {key : String} {start : List Char} {before after : List String}
    (between : Between start key.toList (before.map String.toList) (after.map String.toList)) :
    place (before ++ after) key = before ++ key :: after := by
  have longest : ∀ k ∈ before ++ after, ∀ q, q <+: k.toList → q <+: key.toList → q <+: start := by
    have := between.longest
    rwa [← List.map_append, List.forall_mem_map] at this
  by_cases e : start = key.toList
  · obtain ⟨none', _, hk, begins⟩ := between.first e
    rw [List.head?_map] at hk
    obtain ⟨k, head, rfl⟩ := Option.map_eq_some_iff.mp hk
    have start_eq : sharedStart (before ++ after) key = start := sharedStart_eq between.begins
      ⟨k, List.mem_append_right _ (List.mem_of_mem_head? head), begins⟩ longest
    have all : ∀ k ∈ before, decide (¬start <+: k.toList) := by simpa using none'
    have stop : ∀ k ∈ after.head?, ¬decide (¬start <+: k.toList) := by simpa [head] using begins
    obtain ⟨taken, dropped⟩ := takeWhile_dropWhile_append all stop
    rw [place, start_eq, if_pos e, taken, dropped]
  · obtain ⟨⟨_, hk, begins⟩, none'⟩ := between.last e
    rw [List.getLast?_map] at hk
    obtain ⟨k, last, rfl⟩ := Option.map_eq_some_iff.mp hk
    have start_eq : sharedStart (before ++ after) key = start := sharedStart_eq between.begins
      ⟨k, List.mem_append_left _ (List.mem_of_mem_getLast? last), begins⟩ longest
    have all : ∀ k ∈ after, decide (¬start <+: k.toList) := by simpa using none'
    have stop : ∀ k ∈ before.getLast?, ¬decide (¬start <+: k.toList) := by simpa [last] using begins
    obtain ⟨dropped, taken⟩ := rdropWhile_rtakeWhile_append all stop
    rw [place, start_eq, if_neg e, taken, dropped]

/-! ## The keys of a prefix index -/

def keys (ix : PrefixIndex α) : List String :=
  (ix.entries "").map Prod.fst

section Keys

variable {ix : PrefixIndex α} {t : Tree α}

theorem keys_eq (bears : ix.graph.Bears t) :
    ix.keys = (t.entries []).map fun e => String.ofList e.1 := by
  rw [keys, entries_empty_eq bears, List.map_map]
  rfl

theorem map_fst_entries (ix : PrefixIndex α) (start : String) :
    (ix.entries start).map Prod.fst = ix.keys.filter fun key => start.toList.isPrefixOf key.toList := by
  rw [entries_eq_filter, keys, List.filter_map]
  rfl

theorem keys_empty : (empty : PrefixIndex α).keys = [] := by
  have bears : (empty : PrefixIndex α).graph.Bears _ := Graph.bears_empty
  rw [keys_eq bears]
  simp

theorem mem_entries {key : String} {v : α} : (key, v) ∈ ix.entries "" ↔ ix.get? key = some v := by
  obtain ⟨t, bears⟩ := ix.shaped
  rw [get?_eq_some bears, Tree.stores_iff, entries_empty_eq bears, List.mem_map]
  constructor
  · rintro ⟨⟨k, w⟩, he, e⟩
    cases e
    rwa [String.toList_ofList]
  · exact fun he => ⟨_, he, by rw [String.ofList_toList]⟩

theorem mem_keys {key : String} : key ∈ ix.keys ↔ ix.contains key := by
  simp [keys, contains, Option.isSome_iff_exists, mem_entries]

theorem keys_of_puts {ix' : PrefixIndex α} {t' : Tree α} {key : String} {v : α} {old : Option α}
    (bears : ix.graph.Bears t) (bears' : ix'.graph.Bears t')
    (puts : Puts key.toList v old (t.entries []) (t'.entries [])) :
    ix'.keys = if old.isSome then ix.keys else place ix.keys key := by
  rw [keys_eq bears', keys_eq bears]
  generalize t.entries [] = es, t'.entries [] = es' at puts
  cases puts with
  | change old before after => simp
  | only => simp [place]
  | @add before after start between =>
      have between' : Between start key.toList
          ((before.map fun e => String.ofList e.1).map String.toList)
          ((after.map fun e => String.ofList e.1).map String.toList) := by
        simpa [Function.comp_def] using between
      simp [← place_eq between']

/-- An insertion keeps the order of the keys. A new key is put at its place. -/
theorem keys_insert (ix : PrefixIndex α) {key : String} (ne : key ≠ "") (v : α) :
    (ix.insert key v).2.keys = if ix.contains key then ix.keys else place ix.keys key := by
  obtain ⟨t, bears⟩ := ix.shaped
  obtain ⟨t', bears', change⟩ := exists_insert bears key v
  rw [if_neg ne] at change
  rw [keys_of_puts bears bears' (change.puts_entries bears.valid []), insert_fst, contains]

theorem keys_write {key : String} {v : α} {write : α → PrefixIndex α}
    (found : ix.getMut? key = some (v, write)) (w : α) : (write w).keys = ix.keys := by
  obtain ⟨t, bears⟩ := ix.shaped
  obtain ⟨t', bears', inserts⟩ := exists_write bears found w
  rw [keys_of_puts bears bears' (inserts.puts_entries bears.valid []), Option.isSome_some, if_pos rfl]

/-- A removal keeps the order of all other keys. -/
theorem keys_remove (ix : PrefixIndex α) (key : String) :
    (ix.remove key).2.keys = ix.keys.filter (· ≠ key) := by
  obtain ⟨t, bears⟩ := ix.shaped
  obtain ⟨t', bears', change⟩ := exists_remove bears key
  split at change
  · rename_i none'
    rw [change.2, List.filter_eq_self.mpr]
    rintro k hk
    rw [mem_keys, contains, Option.isSome_iff_exists] at hk
    obtain ⟨v, stored⟩ := hk
    rw [decide_eq_true_eq]
    rintro rfl
    exact change.1 v ((get?_eq_some bears).mp stored)
  · obtain ⟨before, after, was, now⟩ := change.entries_eq []
    have other := Tree.ne_of_nodup_keys (was ▸ bears.valid.nodup_keys [])
    rw [keys_eq bears', keys_eq bears, was, now]
    have kept : ∀ e ∈ before ++ after, decide (String.ofList e.1 ≠ key) := by
      intro e he
      rw [decide_eq_true_eq]
      rintro rfl
      exact other e he String.toList_ofList.symm
    rw [List.filter_map, List.filter_append, List.filter_cons_of_neg (by simp), ← List.filter_append]
    exact congrArg _ (List.filter_eq_self.mpr kept).symm

/-- The listing consists of the keys in their order, with the values that look-up finds. -/
theorem entries_eq_filterMap (ix : PrefixIndex α) :
    ix.entries "" = ix.keys.filterMap fun key => (ix.get? key).map (Prod.mk key) := by
  have found : ∀ e ∈ ix.entries "", (ix.get? e.1).map (Prod.mk e.1) = some e := fun e he => by
    rw [mem_entries.mp he, Option.map_some]
  have listed : (ix.entries "").filterMap ((fun key => (ix.get? key).map (Prod.mk key)) ∘ Prod.fst) =
      (ix.entries "").filterMap some := List.filterMap_congr found
  rw [keys, List.filterMap_map, listed, List.filterMap_some]

theorem size_eq_length (ix : PrefixIndex α) : ix.size = (ix.entries "").length := by
  obtain ⟨t, bears⟩ := ix.shaped
  rw [size_eq bears, entries_empty_eq bears, List.length_map, ← Tree.map_snd_entries [],
    List.length_map]

end Keys

/-! ## Indexes with the same listing -/

/-- All questions have the same answers. -/
structure Alike (ix ix' : PrefixIndex α) : Prop where
  get? : ∀ key, ix.get? key = ix'.get? key
  getMut? : ∀ key, (ix.getMut? key).map Prod.fst = (ix'.getMut? key).map Prod.fst
  contains : ∀ key, ix.contains key = ix'.contains key
  size : ix.size = ix'.size
  isEmpty : ix.isEmpty = ix'.isEmpty
  entries : ∀ start, ix.entries start = ix'.entries start
  search : ∀ start, ix.search start = ix'.search start
  iter : ∀ start vs, (ix.iter start).Yields vs ↔ (ix'.iter start).Yields vs

section Alike

variable {ix ix' : PrefixIndex α} (same : ix.entries "" = ix'.entries "")

include same

theorem keys_congr : ix.keys = ix'.keys :=
  congrArg (List.map Prod.fst) same

theorem get?_congr (key : String) : ix.get? key = ix'.get? key :=
  Option.ext fun v => by rw [← mem_entries, ← mem_entries, same]

theorem alike_of_entries : ix.Alike ix' := by
  have get?_eq := get?_congr same
  have size_eq : ix.size = ix'.size := by rw [size_eq_length, size_eq_length, same]
  have entries_eq : ∀ start, ix.entries start = ix'.entries start := fun start => by
    rw [ix.entries_eq_filter, ix'.entries_eq_filter, same]
  have search_eq : ∀ start, ix.search start = ix'.search start := fun start => by
    rw [ix.search_eq, ix'.search_eq, entries_eq]
  refine ⟨get?_eq, fun key => ?_, fun key => ?_, size_eq, ?_, entries_eq, search_eq, fun start vs => ?_⟩
  · rw [fst_getMut?, fst_getMut?, get?_eq]
  · rw [contains, contains, get?_eq]
  · rw [isEmpty, isEmpty, size_eq]
  · have := search_eq start
    rw [search, search] at this
    rw [PrefixIter.yields_iff, PrefixIter.yields_iff, this]

end Alike

theorem entries_congr {ix ix' : PrefixIndex α} (keys_eq : ix.keys = ix'.keys)
    (get?_eq : ∀ key, ix.get? key = ix'.get? key) : ix.entries "" = ix'.entries "" := by
  rw [ix.entries_eq_filterMap, ix'.entries_eq_filterMap, keys_eq, funext get?_eq]

theorem keys_edit_write (ix : PrefixIndex α) (key : String) (f : α → α) :
    (ix.edit (.write key f)).2.keys = ix.keys := by
  rw [edit]
  split
  · rfl
  · rename_i found
    exact keys_write found _

/-- An edit answers alike on indexes with the same listing, and leaves such indexes. -/
theorem edit_congr {ix ix' : PrefixIndex α} (same : ix.entries "" = ix'.entries "") (e : Edit α) :
    (ix.edit e).1 = (ix'.edit e).1 ∧ (ix.edit e).2.entries "" = (ix'.edit e).2.entries "" := by
  have keys_eq := keys_congr same
  have get?_eq := get?_congr same
  have contains_eq := (alike_of_entries same).contains
  have removed (key : String) : (ix.remove key).2.entries "" = (ix'.remove key).2.entries "" := by
    refine entries_congr ?_ fun k => ?_
    · rw [keys_remove, keys_remove, keys_eq]
    · rw [get?_remove, get?_remove, get?_eq]
  cases e with
  | insert key v =>
      refine ⟨?_, entries_congr ?_ fun k => ?_⟩
      · exact (ix.insert_fst key v).trans ((get?_eq key).trans (ix'.insert_fst key v).symm)
      · by_cases e : key = ""
        · rw [edit, edit, e, insert_empty_key, insert_empty_key, keys_eq]
        · rw [edit, edit, keys_insert ix e, keys_insert ix' e, contains_eq, keys_eq]
      · rw [edit, edit, get?_insert, get?_insert, get?_eq]
  | remove key =>
      exact ⟨(ix.remove_fst key).trans ((get?_eq key).trans (ix'.remove_fst key).symm), removed key⟩
  | delete key => exact ⟨rfl, removed key⟩
  | write key f =>
      refine ⟨?_, entries_congr ?_ fun k => ?_⟩
      · rw [edit_write_fst, edit_write_fst, get?_eq]
      · rw [keys_edit_write, keys_edit_write, keys_eq]
      · rw [get?_edit_write, get?_edit_write, get?_eq, get?_eq]
  | clear => exact ⟨rfl, rfl⟩

theorem edits_congr {ix ix' : PrefixIndex α} (same : ix.entries "" = ix'.entries "")
    (es : List (Edit α)) :
    (ix.edits es).1 = (ix'.edits es).1 ∧ (ix.edits es).2.entries "" = (ix'.edits es).2.entries "" := by
  induction es generalizing ix ix' with
  | nil => exact ⟨rfl, same⟩
  | cons e es ih =>
      obtain ⟨answer, same'⟩ := edit_congr same e
      obtain ⟨answers, same''⟩ := ih same'
      exact ⟨List.cons_eq_cons.mpr ⟨answer, answers⟩, same''⟩

/-- An insertion of a new key puts it at its place among the keys and keeps their order, and so do an
insertion of a stored key and a removal. Hence indexes with the same listing answer alike after any
edits. -/
theorem order_of_listing (ix : PrefixIndex α) :
    (∀ key ≠ "", ∀ v, (ix.insert key v).2.keys =
      if ix.contains key then ix.keys else place ix.keys key) ∧
    (∀ key, (ix.remove key).2.keys = ix.keys.filter (· ≠ key)) ∧
    ∀ ix' : PrefixIndex α, ix.entries "" = ix'.entries "" → ∀ es,
      (ix.edits es).1 = (ix'.edits es).1 ∧ (ix.edits es).2.Alike (ix'.edits es).2 := by
  refine ⟨fun key ne v => ix.keys_insert ne v, ix.keys_remove, fun ix' same es => ?_⟩
  obtain ⟨answers, same'⟩ := edits_congr same es
  exact ⟨answers, alike_of_entries same'⟩

/-- Below the index that holds `"ab"` alone after a removal there is a node that the other one lacks. -/
theorem order_of_listing_unmerged :
    let ix : PrefixIndex Nat := ((empty.insert "ab" 1).2.insert "ac" 2).2.delete "ac"
    let ix' : PrefixIndex Nat := (empty.insert "ab" 1).2
    (ix.insert "a" 3).2.keys = ["a", "ab"] ∧ ix.entries "" = ix'.entries "" ∧
      ∀ es, (ix.edits es).1 = (ix'.edits es).1 ∧ (ix.edits es).2.Alike (ix'.edits es).2 := by
  intro ix ix'
  have keys_ix' : ix'.keys = ["ab"] := by
    rw [keys_insert _ (by decide)]
    simp only [← mem_keys, keys_empty]
    decide
  have keys_ix : ix.keys = ["ab"] := by
    have removed : ix.keys = (ix'.insert "ac" 2).2.keys.filter (· ≠ "ac") := keys_remove _ _
    rw [removed, keys_insert _ (by decide)]
    simp only [← mem_keys, keys_ix']
    decide
  have same : ix.entries "" = ix'.entries "" := by
    refine entries_congr (keys_ix.trans keys_ix'.symm) fun key => ?_
    simp only [ix, ix', delete, get?_remove, get?_insert, get?_empty]
    by_cases e : key = "ac"
    · simp [e]
    · simp [e]
  refine ⟨?_, same, (order_of_listing ix).2.2 ix' same⟩
  rw [(order_of_listing ix).1 "a" (by decide) 3]
  simp only [← mem_keys, keys_ix]
  decide

end CodeAtlas.PrefixIndex
