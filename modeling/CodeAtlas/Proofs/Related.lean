import Mathlib.Data.List.Forall2

/-!
# Options and lists related item by item

Two answers are compared by what they hold: either neither has anything, or what they have is related,
item by item and in the same order.
-/

namespace CodeAtlas

variable {α β γ δ : Type} {R : α → β → Prop} {P : γ → δ → Prop}

section Option

variable {o : Option α} {o' : Option β}

theorem rel_map {f : α → γ} {g : β → δ} (step : ∀ x y, R x y → P (f x) (g y))
    (related : Option.Rel R o o') : Option.Rel P (o.map f) (o'.map g) := by
  cases related with
  | none => exact .none
  | some related => exact .some (step _ _ related)

theorem rel_getD (related : Option.Rel R o o') {x : α} {y : β} (default : R x y) :
    R (o.getD x) (o'.getD y) := by
  cases related with
  | none => exact default
  | some related => exact related

theorem forall₂_toList (related : Option.Rel R o o') : List.Forall₂ R o.toList o'.toList := by
  cases related with
  | none => exact .nil
  | some related => exact .cons related .nil

end Option

section List

theorem rel_unlessEmpty {xs : List α} {ys : List β} (related : List.Forall₂ R xs ys) :
    Option.Rel (List.Forall₂ R) (if xs.isEmpty then none else some xs)
      (if ys.isEmpty then none else some ys) := by
  cases related with
  | nil => exact .none
  | cons first rest => exact .some (.cons first rest)

variable {xs : List α}

theorem forall₂_map {f : α → γ} {g : α → δ} (each : ∀ x ∈ xs, P (f x) (g x)) :
    List.Forall₂ P (xs.map f) (xs.map g) := by
  rw [List.forall₂_map_left_iff, List.forall₂_map_right_iff]
  exact List.forall₂_same.mpr each

theorem forall₂_filterMap {f : α → Option γ} {g : α → Option δ}
    (each : ∀ x ∈ xs, Option.Rel P (f x) (g x)) : List.Forall₂ P (xs.filterMap f) (xs.filterMap g) := by
  have same : List.Forall₂ (fun x x' => x = x' ∧ x ∈ xs) xs xs :=
    List.forall₂_same.mpr fun x mem => ⟨rfl, mem⟩
  refine List.rel_filterMap ?_ same
  rintro x _ ⟨rfl, mem⟩
  exact each x mem

/-- Where every item has a counterpart, the list of counterparts has no gap. -/
theorem forall₂_filterMap_of_exists {R : α → δ → Prop} {g : α → Option δ}
    (each : ∀ x ∈ xs, ∃ y, g x = some y ∧ R x y) : List.Forall₂ R xs (xs.filterMap g) := by
  have paired : List.Forall₂ R (xs.filterMap some) (xs.filterMap g) := by
    refine forall₂_filterMap fun x mem => ?_
    obtain ⟨y, found, related⟩ := each x mem
    rw [found]
    exact .some related
  rwa [List.filterMap_some] at paired

end List

end CodeAtlas
