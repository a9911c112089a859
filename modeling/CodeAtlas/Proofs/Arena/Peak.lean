import CodeAtlas.Proofs.Arena
import Mathlib.Order.Bounds.Basic

/-!
# The peak of an arena

An arena has no more slots than it has held values at the same time. A slot is added only where none is vacant,
and then all slots hold values. So the number of slots is the greatest number of values that there have been at
any time, and no handle lies beyond it.
-/

namespace CodeAtlas.Arena

variable {α : Type} {a a' a'' : Arena α}

/-- The number of handles that name a value. -/
noncomputable def count (a : Arena α) : Nat :=
  {h | (a.get? h).isSome}.ncard

/-! ## Values and vacant slots -/

theorem WellFormed.length_vacant_add_count (wf : a.WellFormed) : a.vacant.length + a.count = a.slots.size := by
  rw [wf.vacant_perm.length_eq, count, ncard_live]
  exact a.length_emptySlots_add_length_liveSlots

theorem count_empty : (empty : Arena α).count = 0 := by
  have total := (WellFormed.empty (α := α)).length_vacant_add_count
  exact (Nat.add_eq_zero_iff.mp total).2

/-! ## Growth -/

/-- Either the slots have stayed and no more of them are vacant, or there are new ones and none is vacant. -/
inductive Grown (a a' : Arena α) : Prop
  | filled (same : a'.slots.size = a.slots.size) (fewer : a'.vacant.length ≤ a.vacant.length)
  | added (more : a.slots.size ≤ a'.slots.size) (full : a'.vacant = [])

theorem Grown.trans (first : Grown a a') (second : Grown a' a'') : Grown a a'' := by
  cases second with
  | filled same fewer =>
      cases first with
      | filled same' fewer' => exact .filled (same.trans same') (fewer.trans fewer')
      | added more full =>
          rw [full] at fewer
          exact .added (same ▸ more) (List.eq_nil_of_length_eq_zero (Nat.le_zero.mp fewer))
  | added more full =>
      cases first with
      | filled same' fewer' => exact .added (same' ▸ more) full
      | added more' full' => exact .added (more'.trans more) full

theorem grown_alloc (a : Arena α) (x : α) : Grown a (a.alloc x).2 := by
  rw [alloc]
  split
  · refine .added ?_ rfl
    rw [Array.size_push]
    exact Nat.le_succ _
  · next i rest vacant =>
      refine .filled Array.size_setIfInBounds ?_
      rw [vacant]
      exact Nat.le_succ _

theorem grown_modify (a : Arena α) (h : Handle) (f : α → α) : Grown a (a.modify h f) :=
  .filled Array.size_modify (Nat.le_refl _)

theorem size_slots_release (a : Arena α) (h : Handle) : (a.release h).2.slots.size = a.slots.size := by
  rw [release]
  split
  · rfl
  · exact Array.size_setIfInBounds

/-! ## Slots and the values in them -/

theorem WellFormed.count_modify (wf : a.WellFormed) (h : Handle) (f : α → α) :
    (a.modify h f).count = a.count := by
  have total := wf.length_vacant_add_count
  have total' := (wf.modify h f).length_vacant_add_count
  rw [Arena.modify, Array.size_modify, ← total] at total'
  exact Nat.add_left_cancel total'

theorem WellFormed.count_release (wf : a.WellFormed) {h : Handle} {x : α} (live : a.get? h = some x) :
    (a.release h).2.count + 1 = a.count := by
  have total := wf.length_vacant_add_count
  have total' := (wf.release h).length_vacant_add_count
  have vacant : (a.release h).2.vacant = h.index :: a.vacant := by rw [Arena.release, live]
  rw [vacant, List.length_cons, size_slots_release, ← total] at total'
  omega

theorem WellFormed.count_le (wf : a.WellFormed) : a.count ≤ a.slots.size := by
  rw [← wf.length_vacant_add_count]
  exact Nat.le_add_left _ _

/-- Where the slots have stayed, there are not more values than slots. -/
theorem WellFormed.slots_of_same (wf : a'.WellFormed) (same : a'.slots.size = a.slots.size) :
    a'.slots.size = max a'.count a.slots.size := by
  rw [← same, max_eq_right wf.count_le]

/-- Where slots have been added, each of them holds a value. -/
theorem WellFormed.slots_of_grown (wf : a'.WellFormed) (grown : Grown a a') :
    a'.slots.size = max a'.count a.slots.size := by
  cases grown with
  | filled same fewer => exact wf.slots_of_same same
  | added more full =>
      have total := wf.length_vacant_add_count
      rw [full, List.length_nil, Nat.zero_add] at total
      rw [total, max_eq_left more]

theorem slots_perform (wf : a.WellFormed) (op : Operation α) :
    (a.perform op).2.slots.size = max (a.perform op).2.count a.slots.size := by
  have wf' := wellFormed_perform wf op
  cases op with
  | alloc x => exact wf'.slots_of_grown (a.grown_alloc x)
  | release h => exact wf'.slots_of_same (a.size_slots_release h)
  | get h => exact wf'.slots_of_same rfl
  | modify h f => exact wf'.slots_of_grown (a.grown_modify h f)
  | fetch h => exact wf'.slots_of_same rfl
  | replace h x =>
      rw [perform, replace] at wf' ⊢
      cases read : a.fetch h with
      | ok y =>
          rw [read] at wf'
          exact wf'.slots_of_grown (a.grown_modify h _)
      | error e =>
          rw [read] at wf'
          exact wf'.slots_of_same rfl

/-- A handle that is given out names a slot. -/
theorem index_lt_of_perform (wf : a.WellFormed) {op : Operation α} {h : Handle}
    (given : (a.perform op).1 = .handle h) : h.index < (a.perform op).2.slots.size := by
  cases op with
  | alloc x =>
      cases given
      have named := wf.get?_alloc x (a.alloc x).1
      rw [if_pos rfl] at named
      exact (Array.getElem?_eq_some_iff.mp (get?_eq_some.mp named)).1
  | replace k x =>
      rw [perform] at given
      split at given <;> cases given
  | _ => cases given

/-! ## Runs -/

theorem run_append_singleton (a : Arena α) (ops : List (Operation α)) (op : Operation α) :
    a.run (ops ++ [op]) =
      ((a.run ops).1 ++ [((a.run ops).2.perform op).1], ((a.run ops).2.perform op).2) := by
  induction ops generalizing a with
  | nil => rfl
  | cons first ops ih => simp only [List.cons_append, run, ih]

/-- The numbers of values that there have been at one time or another in an arena that was empty. -/
def counts (ops : List (Operation α)) : Set Nat :=
  {n | ∃ past, past <+: ops ∧ (empty.run past).2.count = n}

theorem counts_append_singleton (ops : List (Operation α)) (op : Operation α) :
    counts (ops ++ [op]) = insert (empty.run (ops ++ [op])).2.count (counts ops) := by
  ext n
  simp only [counts, Set.mem_ofPred_eq, Set.mem_insert_iff, List.prefix_concat_iff, or_and_right, exists_or,
    exists_eq_left, eq_comm (a := n)]

/-- The number of slots is the greatest number of values that there have been at any time. -/
theorem isGreatest_counts (ops : List (Operation α)) :
    IsGreatest (counts ops) (empty.run ops).2.slots.size := by
  induction ops using List.reverseRecOn with
  | nil =>
      refine ⟨⟨[], List.prefix_rfl, count_empty⟩, ?_⟩
      rintro _ ⟨past, before, rfl⟩
      rw [List.prefix_nil.mp before]
      exact count_empty.le
  | append_singleton ops op ih =>
      have step := slots_perform (runOnMap_run WellFormed.empty ops).2 op
      rw [counts_append_singleton, run_append_singleton, step]
      exact ih.insert _

theorem index_lt_of_run {ops : List (Operation α)} {h : Handle}
    (given : .handle h ∈ (empty.run ops).1) : h.index < (empty.run ops).2.slots.size := by
  induction ops using List.reverseRecOn with
  | nil => cases given
  | append_singleton ops op ih =>
      have wf := (runOnMap_run (WellFormed.empty (α := α)) ops).2
      rw [run_append_singleton] at given ⊢
      rcases List.mem_append.mp given with before | now
      · rw [slots_perform wf op]
        exact lt_max_of_lt_right (ih before)
      · exact index_lt_of_perform wf (List.mem_singleton.mp now).symm

end CodeAtlas.Arena
