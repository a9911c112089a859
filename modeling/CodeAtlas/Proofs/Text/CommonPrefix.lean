import CodeAtlas.Text.Bytes
import Mathlib.Order.Bounds.Basic

/-!
# What two texts have in common

Two texts begin alike up to an offset. It is the byte length of the longest text that begins both, so it lies
between two characters of each, and a walk that compares the texts character by character finds it.
-/

namespace CodeAtlas.Text

/-! ## Boundaries -/

theorem isBoundary_iff_exists_append {n : Nat} {cs : List Char} :
    IsBoundary n cs ↔ ∃ xs ys, cs = xs ++ ys ∧ n = byteLength xs := by
  constructor
  · intro boundary
    exact ⟨takeBytes n cs, dropBytes n cs, (takeBytes_append_dropBytes n cs).symm, boundary.symm⟩
  · rintro ⟨xs, ys, rfl, rfl⟩
    exact isBoundary_append xs ys

/-- The boundaries are the positions at which a string may be cut. -/
theorem isValid_iff_isBoundary {s : String} {n : Nat} :
    (⟨n⟩ : String.Pos.Raw).IsValid s ↔ IsBoundary n s.toList := by
  rw [String.Pos.Raw.isValid_iff_exists_append, isBoundary_iff_exists_append]
  constructor
  · rintro ⟨s₁, s₂, rfl, same⟩
    refine ⟨s₁.toList, s₂.toList, String.toList_append, ?_⟩
    rw [← utf8ByteSize_eq]
    exact congrArg String.Pos.Raw.byteIdx same
  · rintro ⟨xs, ys, split, rfl⟩
    refine ⟨.ofList xs, .ofList ys, ?_, ?_⟩
    · rw [← String.ofList_append, ← split, String.ofList_toList]
    · ext
      rw [String.byteIdx_rawEndPos, utf8ByteSize_eq, String.toList_ofList]

/-! ## The walk -/

/-- The characters of a text, each with the offset at which it begins. -/
def withOffsets (start : Nat) : List Char → List (Nat × Char)
  | [] => []
  | c :: cs => (start, c) :: withOffsets (start + c.utf8Size) cs

/-- The offset at which a walk through two texts comes upon different characters, or to the end of the
shorter text. -/
def partingOffset (xs ys : List Char) : Nat :=
  match ((withOffsets 0 xs).zip ys).find? fun pair => pair.1.2 ≠ pair.2 with
  | some ((offset, _), _) => offset
  | none => min (byteLength xs) (byteLength ys)

theorem find?_withOffsets (start : Nat) (xs ys : List Char) :
    (match ((withOffsets start xs).zip ys).find? fun pair => pair.1.2 ≠ pair.2 with
      | some ((offset, _), _) => offset
      | none => start + min (byteLength xs) (byteLength ys)) = start + commonPrefixLength xs ys := by
  induction xs generalizing start ys with
  | nil => simp [withOffsets, commonPrefixLength, byteLength]
  | cons x xs ih =>
      cases ys with
      | nil => simp [withOffsets, commonPrefixLength, byteLength]
      | cons y ys =>
          by_cases same : x = y
          · subst same
            have further := ih (start + x.utf8Size) ys
            rw [withOffsets, List.zip_cons_cons, List.find?_cons_of_neg (by simp), commonPrefixLength,
              if_pos rfl, byteLength, byteLength, Nat.add_min_add_left, ← Nat.add_assoc, ← Nat.add_assoc]
            exact further
          · rw [withOffsets, List.zip_cons_cons, List.find?_cons_of_pos (by simpa using same),
              commonPrefixLength, if_neg same, Nat.add_zero]

theorem partingOffset_eq (xs ys : List Char) : partingOffset xs ys = commonPrefixLength xs ys := by
  have walk := find?_withOffsets 0 xs ys
  rwa [Nat.zero_add, Nat.zero_add] at walk

/-! ## The offset up to which two texts begin alike -/

/-- Two texts begin alike up to an offset and no further. -/
structure AlikeUpTo (s t : String) (n : Nat) : Prop where
  longest : IsGreatest {m | ∃ cs, cs <+: s.toList ∧ cs <+: t.toList ∧ byteLength cs = m} n
  le_left : n ≤ s.utf8ByteSize
  le_right : n ≤ t.utf8ByteSize
  valid_left : (⟨n⟩ : String.Pos.Raw).IsValid s
  valid_right : (⟨n⟩ : String.Pos.Raw).IsValid t
  same : takeBytes n s.toList = takeBytes n t.toList
  /-- If neither text ends there, different characters follow. -/
  differ : n ≠ s.utf8ByteSize → n ≠ t.utf8ByteSize →
    ∃ x y xs ys, dropBytes n s.toList = x :: xs ∧ dropBytes n t.toList = y :: ys ∧ x ≠ y

theorem alikeUpTo_commonPrefixLength (s t : String) :
    AlikeUpTo s t (commonPrefixLength s.toList t.toList) := by
  obtain ⟨xs, ys, hs, ht, apart⟩ := exists_append_commonPrefix s.toList t.toList
  have front_left : commonPrefix s.toList t.toList <+: s.toList := ⟨xs, hs.symm⟩
  have front_right : commonPrefix s.toList t.toList <+: t.toList := ⟨ys, ht.symm⟩
  rw [← byteLength_commonPrefix]
  refine ⟨⟨⟨_, front_left, front_right, rfl⟩, ?_⟩, ?_, ?_, ?_, ?_, ?_, ?_⟩
  · rintro _ ⟨cs, left, right, rfl⟩
    exact byteLength_le_of_isPrefix (prefix_commonPrefix left right)
  · rw [utf8ByteSize_eq]
    exact byteLength_le_of_isPrefix front_left
  · rw [utf8ByteSize_eq]
    exact byteLength_le_of_isPrefix front_right
  · exact isValid_iff_isBoundary.mpr (isBoundary_iff_exists_append.mpr ⟨_, xs, hs, rfl⟩)
  · exact isValid_iff_isBoundary.mpr (isBoundary_iff_exists_append.mpr ⟨_, ys, ht, rfl⟩)
  · generalize commonPrefix s.toList t.toList = front at hs ht
    rw [hs, ht, takeBytes_append, takeBytes_append]
  · generalize commonPrefix s.toList t.toList = front at hs ht
    rw [utf8ByteSize_eq, utf8ByteSize_eq, hs, ht, dropBytes_append, dropBytes_append]
    intro goesOn goesOn'
    cases xs with
    | nil => exact absurd (by rw [List.append_nil]) goesOn
    | cons x xs =>
        cases ys with
        | nil => exact absurd (by rw [List.append_nil]) goesOn'
        | cons y ys => exact ⟨x, y, xs, ys, rfl, rfl, commonPrefix_cons_eq_nil.mp apart⟩

end CodeAtlas.Text
