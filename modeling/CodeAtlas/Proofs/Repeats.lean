import Mathlib.Data.List.Chain
import CodeAtlas.Repeats

/-!
# What is left without repeats

A list without its repeats has the same items as before, begins as before, and no two items that stand
side by side in it are the same.
-/

namespace CodeAtlas

variable {α : Type} [DecidableEq α]

theorem head?_withoutRepeats (xs : List α) : (withoutRepeats xs).head? = xs.head? := by
  induction xs with
  | nil => rfl
  | cons x xs ih =>
      cases xs with
      | nil => rfl
      | cons y rest =>
          rw [withoutRepeats]
          split
          · rename_i same
            rw [ih, same]
            rfl
          · rfl

theorem mem_withoutRepeats {x : α} {xs : List α} : x ∈ withoutRepeats xs ↔ x ∈ xs := by
  fun_induction withoutRepeats xs with
  | case1 y rest ih =>
      rw [ih]
      simp
  | case2 y z rest differs ih => rw [List.mem_cons, ih, ← List.mem_cons]
  | case3 xs single => rfl

/-- A repeat makes no difference, wherever it stands. -/
theorem withoutRepeats_repeat (xs : List α) (x : α) (ys : List α) :
    withoutRepeats (xs ++ x :: x :: ys) = withoutRepeats (xs ++ x :: ys) := by
  have once : withoutRepeats (x :: x :: ys) = withoutRepeats (x :: ys) := if_pos rfl
  induction xs with
  | nil => exact once
  | cons z xs ih =>
      cases xs with
      | nil =>
          rw [List.cons_append, List.nil_append, withoutRepeats, once]
          rfl
      | cons y xs =>
          rw [List.cons_append, List.cons_append] at ih ⊢
          rw [List.cons_append, List.cons_append, withoutRepeats, ih]
          rfl

/-- What holds of neighbours goes on to hold, since an item that goes is the same as the next one. -/
theorem isChain_withoutRepeats {R : α → α → Prop} {xs : List α} (chain : xs.IsChain R) :
    (withoutRepeats xs).IsChain fun x y => R x y ∧ x ≠ y := by
  fun_induction withoutRepeats xs with
  | case1 x rest ih => exact ih (List.isChain_cons_cons.mp chain).2
  | case2 x y rest differs ih =>
      obtain ⟨related, chain⟩ := List.isChain_cons_cons.mp chain
      refine List.isChain_cons.mpr ⟨fun z head => ?_, ih chain⟩
      rw [head?_withoutRepeats] at head
      cases head
      exact ⟨related, differs⟩
  | case3 xs single =>
      cases chain with
      | nil => exact .nil
      | singleton x => exact .singleton x
      | cons_cons related chain => exact absurd rfl (single _ _ _)

end CodeAtlas
