import CodeAtlas.Proofs.PrefixIndex.Prefixes
import Mathlib.Data.String.Basic
import Std.Data.ExtHashMap.Lemmas

/-!
# Prefix indexes as finite maps

Whatever edits a prefix index has undergone, it answers as a finite map does that has undergone the
same edits.
-/

namespace CodeAtlas.PrefixIndex

variable {α : Type}

/-! ## Laws of look-up -/

theorem get?_of_inserts {ix ix' : PrefixIndex α} {t t' : Tree α} {key : String} {v : α}
    {old : Option α} (bears : ix.graph.Bears t) (bears' : ix'.graph.Bears t')
    (inserts : t.Inserts v key.toList old t') (k : String) :
    ix'.get? k = if k = key then some v else ix.get? k := by
  refine Option.ext fun w => ?_
  rw [get?_eq_some bears', inserts.stores_iff bears.valid]
  simp only [String.toList_inj]
  split
  · rw [Option.some_inj, eq_comm]
  · exact (get?_eq_some bears).symm

theorem get?_empty (key : String) : (empty : PrefixIndex α).get? key = none := by
  have bears : (empty : PrefixIndex α).graph.Bears _ := Graph.bears_empty
  refine Option.eq_none_iff_forall_ne_some.mpr fun v h => ?_
  have stored := Tree.stores_iff.mp ((get?_eq_some bears).mp h)
  simp at stored

section Laws

variable (ix : PrefixIndex α) (key k : String) (v : α)

theorem get?_empty_key : ix.get? "" = none := by
  obtain ⟨t, bears⟩ := ix.shaped
  refine Option.eq_none_iff_forall_ne_some.mpr fun v h => ?_
  obtain ⟨u, leads, value⟩ := (get?_eq_some bears).mp h
  obtain rfl := bears.valid.leads_nil.mp leads
  rw [bears.value] at value
  cases value

theorem insert_empty_key : ix.insert "" v = (none, ix) := by
  obtain ⟨t, bears⟩ := ix.shaped
  obtain ⟨t', bears', change⟩ := exists_insert bears "" v
  rw [if_pos rfl] at change
  exact Prod.ext change.1 change.2

theorem insert_fst : (ix.insert key v).1 = ix.get? key := by
  obtain ⟨t, bears⟩ := ix.shaped
  obtain ⟨t', bears', change⟩ := exists_insert bears key v
  split at change
  · rename_i e
    rw [change.1, e, get?_empty_key]
  · refine Option.ext fun w => ?_
    rw [get?_eq_some bears, change.stores_old bears.valid]

theorem get?_insert :
    (ix.insert key v).2.get? k = if key ≠ "" ∧ k = key then some v else ix.get? k := by
  obtain ⟨t, bears⟩ := ix.shaped
  obtain ⟨t', bears', change⟩ := exists_insert bears key v
  split at change
  · rename_i e
    rw [change.2, if_neg fun h => h.1 e]
  · rename_i ne
    rw [get?_of_inserts bears bears' change]
    simp [ne]

theorem size_insert :
    (ix.insert key v).2.size =
      if key = "" ∨ (ix.get? key).isSome then ix.size else ix.size + 1 := by
  obtain ⟨t, bears⟩ := ix.shaped
  obtain ⟨t', bears', change⟩ := exists_insert bears key v
  split at change
  · rename_i e
    rw [change.2, if_pos (.inl e)]
  · rename_i ne
    rw [size_eq bears', change.length_values, size_eq bears, insert_fst]
    cases ix.get? key <;> simp [ne]

theorem remove_fst : (ix.remove key).1 = ix.get? key := by
  obtain ⟨t, bears⟩ := ix.shaped
  obtain ⟨t', bears', change⟩ := exists_remove bears key
  refine Option.ext fun w => ?_
  rw [get?_eq_some bears]
  split at change
  · rename_i none'
    simp [none', change.1]
  · rename_i v some'
    rw [some', change.stores_old bears.valid, Option.some_inj, eq_comm]

theorem get?_remove : (ix.remove key).2.get? k = if k = key then none else ix.get? k := by
  obtain ⟨t, bears⟩ := ix.shaped
  obtain ⟨t', bears', change⟩ := exists_remove bears key
  have answer := ix.remove_fst key
  split at change
  · rename_i none'
    rw [change.2]
    split
    · rename_i e
      rw [e, ← answer, none']
    · rfl
  · refine Option.ext fun w => ?_
    rw [get?_eq_some bears', change.stores_iff bears.valid, Ne, String.toList_inj]
    by_cases same : k = key
    · simp [same]
    · simp [same, get?_eq_some bears]

theorem size_remove :
    (ix.remove key).2.size = if (ix.get? key).isSome then ix.size - 1 else ix.size := by
  obtain ⟨t, bears⟩ := ix.shaped
  obtain ⟨t', bears', change⟩ := exists_remove bears key
  rw [← remove_fst]
  split at change
  · rename_i none'
    simp [change.2, none']
  · rename_i v some'
    rw [size_eq bears', size_eq bears, change.length_values, some']
    simp

theorem fst_getMut? : (ix.getMut? key).map Prod.fst = ix.get? key := by
  obtain ⟨t, bears⟩ := ix.shaped
  exact map_fst_getMut? bears key

variable {ix key v} {write : α → PrefixIndex α} (found : ix.getMut? key = some (v, write)) (w : α)

include found

theorem get?_write : (write w).get? k = if k = key then some w else ix.get? k := by
  obtain ⟨t, bears⟩ := ix.shaped
  obtain ⟨t', bears', inserts⟩ := exists_write bears found w
  exact get?_of_inserts bears bears' inserts k

theorem size_write : (write w).size = ix.size := by
  obtain ⟨t, bears⟩ := ix.shaped
  obtain ⟨t', bears', change⟩ := exists_write bears found w
  rw [size_eq bears', size_eq bears, change.length_values]
  rfl

end Laws

/-! ## Edits -/

/-- A change of a prefix index. -/
inductive Edit (α : Type) where
  | insert (key : String) (v : α)
  | remove (key : String)
  | delete (key : String)
  /-- Writes what `f` makes of the value of a key through a reference to it. -/
  | write (key : String) (f : α → α)
  | clear

/-- What an edit answers, and the index it leaves. -/
def edit (ix : PrefixIndex α) : Edit α → Option α × PrefixIndex α
  | .insert key v => ix.insert key v
  | .remove key => ix.remove key
  | .delete key => (none, ix.delete key)
  | .write key f =>
      match ix.getMut? key with
      | none => (none, ix)
      | some (v, write) => (some v, write (f v))
  | .clear => (none, ix.clear)

/-- The answers of edits one after another, and the index they leave. -/
def edits (ix : PrefixIndex α) : List (Edit α) → List (Option α) × PrefixIndex α
  | [] => ([], ix)
  | e :: es =>
      let (answer, ix) := ix.edit e
      let (answers, ix) := ix.edits es
      (answer :: answers, ix)

theorem edit_write_fst (ix : PrefixIndex α) (key : String) (f : α → α) :
    (ix.edit (.write key f)).1 = ix.get? key := by
  rw [← fst_getMut?, edit]
  cases ix.getMut? key <;> rfl

theorem get?_edit_write (ix : PrefixIndex α) (key : String) (f : α → α) (k : String) :
    (ix.edit (.write key f)).2.get? k = if k = key then (ix.get? key).map f else ix.get? k := by
  rw [← fst_getMut? ix key, edit]
  split
  · rename_i none'
    split
    · rename_i e
      rw [e, ← fst_getMut?, none']
      rfl
    · rfl
  · rename_i v write found
    rw [get?_write k found, found]
    rfl

theorem size_edit_write (ix : PrefixIndex α) (key : String) (f : α → α) :
    (ix.edit (.write key f)).2.size = ix.size := by
  rw [edit]
  split
  · rfl
  · rename_i found
    exact size_write found _

/-! ## The finite map -/

open Std (ExtHashMap)

/-- What an edit does to a finite map. Nothing is inserted under the empty key. -/
def editMap (m : ExtHashMap String α) : Edit α → Option α × ExtHashMap String α
  | .insert key v => if key = "" then (none, m) else (m[key]?, m.insert key v)
  | .remove key => (m[key]?, m.erase key)
  | .delete key => (none, m.erase key)
  | .write key f => (m[key]?, m.modify key f)
  | .clear => (none, ∅)

def editsMap (m : ExtHashMap String α) : List (Edit α) → List (Option α) × ExtHashMap String α
  | [] => ([], m)
  | e :: es =>
      let (answer, m) := editMap m e
      let (answers, m) := editsMap m es
      (answer :: answers, m)

/-- All questions have the answers that a finite map gives. -/
structure Agrees (ix : PrefixIndex α) (m : ExtHashMap String α) : Prop where
  get? : ∀ key, ix.get? key = m[key]?
  getMut? : ∀ key, (ix.getMut? key).map Prod.fst = m[key]?
  contains : ∀ key, ix.contains key = m.contains key
  size : ix.size = m.size
  isEmpty : ix.isEmpty = m.isEmpty

theorem agrees_iff {ix : PrefixIndex α} {m : ExtHashMap String α} :
    ix.Agrees m ↔ (∀ key, ix.get? key = m[key]?) ∧ ix.size = m.size := by
  refine ⟨fun agrees => ⟨agrees.get?, agrees.size⟩, fun ⟨get?_eq, size_eq⟩ => ?_⟩
  refine ⟨get?_eq, fun key => (ix.fst_getMut? key).trans (get?_eq key), fun key => ?_, size_eq, ?_⟩
  · rw [contains, get?_eq, ExtHashMap.contains_eq_isSome_getElem?]
  · rw [isEmpty, size_eq, Bool.eq_iff_iff, beq_iff_eq, ExtHashMap.isEmpty_iff,
      ExtHashMap.eq_empty_iff_size_eq_zero]

theorem agrees_empty : (empty : PrefixIndex α).Agrees ∅ :=
  agrees_iff.mpr ⟨fun key => (get?_empty key).trans ExtHashMap.getElem?_empty.symm, rfl⟩

section Agrees

variable {ix : PrefixIndex α} {m : ExtHashMap String α} (agrees : ix.Agrees m)

include agrees

theorem Agrees.mem_iff (key : String) : key ∈ m ↔ (ix.get? key).isSome := by
  rw [agrees.get?, ExtHashMap.mem_iff_isSome_getElem?]

theorem Agrees.insert (key : String) (v : α) :
    (ix.insert key v).2.Agrees (if key = "" then m else m.insert key v) := by
  refine agrees_iff.mpr ⟨fun k => ?_, ?_⟩
  · rw [get?_insert, agrees.get?]
    split <;> rename_i e
    · rw [if_neg e.1, e.2, ExtHashMap.getElem?_insert_self]
    · split
      · rfl
      · rename_i ne
        rw [ExtHashMap.getElem?_insert, if_neg]
        exact fun same => e ⟨ne, (eq_of_beq same).symm⟩
  · rw [size_insert, agrees.size]
    by_cases e : key = ""
    · simp [e]
    · simp only [e, false_or, if_false, ExtHashMap.size_insert, agrees.mem_iff]

theorem Agrees.remove (key : String) : (ix.remove key).2.Agrees (m.erase key) := by
  refine agrees_iff.mpr ⟨fun k => ?_, ?_⟩
  · rw [get?_remove, agrees.get?, ExtHashMap.getElem?_erase]
    simp only [beq_iff_eq, eq_comm (a := k)]
  · rw [size_remove, agrees.size, ExtHashMap.size_erase]
    simp only [agrees.mem_iff]

theorem Agrees.write (key : String) (f : α → α) :
    (ix.edit (.write key f)).2.Agrees (m.modify key f) := by
  refine agrees_iff.mpr ⟨fun k => ?_, ?_⟩
  · rw [get?_edit_write, agrees.get?, agrees.get?, ExtHashMap.getElem?_modify]
    simp only [beq_iff_eq, eq_comm (a := k)]
  · rw [size_edit_write, agrees.size, ExtHashMap.size_modify]

/-- An edit answers what it answers on the map, and leaves an index that agrees with what it leaves of
the map. -/
theorem Agrees.edit (e : Edit α) :
    (ix.edit e).1 = (editMap m e).1 ∧ (ix.edit e).2.Agrees (editMap m e).2 := by
  cases e with
  | insert key v =>
      have after := agrees.insert key v
      simp only [PrefixIndex.edit, editMap]
      by_cases e : key = ""
      · rw [if_pos e] at after ⊢
        exact ⟨by rw [insert_fst, e, get?_empty_key], after⟩
      · rw [if_neg e] at after ⊢
        exact ⟨(ix.insert_fst key v).trans (agrees.get? key), after⟩
  | remove key => exact ⟨(ix.remove_fst key).trans (agrees.get? key), agrees.remove key⟩
  | delete key => exact ⟨rfl, agrees.remove key⟩
  | write key f => exact ⟨(ix.edit_write_fst key f).trans (agrees.get? key), agrees.write key f⟩
  | clear => exact ⟨rfl, agrees_empty⟩

end Agrees

theorem Agrees.edits {ix : PrefixIndex α} {m : ExtHashMap String α} (agrees : ix.Agrees m)
    (es : List (Edit α)) :
    (ix.edits es).1 = (editsMap m es).1 ∧ (ix.edits es).2.Agrees (editsMap m es).2 := by
  induction es generalizing ix m with
  | nil => exact ⟨rfl, agrees⟩
  | cons e es ih =>
      obtain ⟨answer, agrees'⟩ := agrees.edit e
      obtain ⟨answers, agrees''⟩ := ih agrees'
      exact ⟨List.cons_eq_cons.mpr ⟨answer, answers⟩, agrees''⟩

/-- After any edits a prefix index that was empty answers as the finite map does that was empty and has
undergone the same edits, and so has each of the edits. -/
theorem edits_refine_map (es : List (Edit α)) :
    (empty.edits es).1 = (editsMap ∅ es).1 ∧ (empty.edits es).2.Agrees (editsMap ∅ es).2 :=
  agrees_empty.edits es

end CodeAtlas.PrefixIndex
