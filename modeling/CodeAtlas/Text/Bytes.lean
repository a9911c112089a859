/-!
# Text measured in bytes

A text is a list of characters, and positions in it are byte offsets into its UTF-8 form. This
module holds the measure and the cut at an offset. A cut never divides a character: an offset inside
one counts as the boundary before it.
-/

namespace CodeAtlas.Text

/-- The number of bytes a text takes in UTF-8. -/
def byteLength : List Char → Nat
  | [] => 0
  | c :: cs => c.utf8Size + byteLength cs

/-- The longest leading part of a text that takes at most `n` bytes. -/
def takeBytes : Nat → List Char → List Char
  | _, [] => []
  | n, c :: cs => if c.utf8Size ≤ n then c :: takeBytes (n - c.utf8Size) cs else []

def dropBytes : Nat → List Char → List Char
  | _, [] => []
  | n, c :: cs => if c.utf8Size ≤ n then dropBytes (n - c.utf8Size) cs else c :: cs

/-- The last character boundary at or before the offset `n`. -/
def floorBoundary (n : Nat) (cs : List Char) : Nat :=
  byteLength (takeBytes n cs)

/-- The offset `n` lies between two characters of the text, or at one of its ends. -/
def IsBoundary (n : Nat) (cs : List Char) : Prop :=
  floorBoundary n cs = n

instance (n : Nat) (cs : List Char) : Decidable (IsBoundary n cs) :=
  inferInstanceAs (Decidable (floorBoundary n cs = n))

def commonPrefix : List Char → List Char → List Char
  | x :: xs, y :: ys => if x = y then x :: commonPrefix xs ys else []
  | _, _ => []

def commonPrefixLength : List Char → List Char → Nat
  | x :: xs, y :: ys => if x = y then x.utf8Size + commonPrefixLength xs ys else 0
  | _, _ => 0

@[simp]
theorem takeBytes_append_dropBytes (n : Nat) (cs : List Char) :
    takeBytes n cs ++ dropBytes n cs = cs := by
  induction cs generalizing n with
  | nil => rfl
  | cons c cs ih =>
      simp only [takeBytes, dropBytes]
      split
      · rw [List.cons_append, ih]
      · rfl

theorem byteLength_append (xs ys : List Char) :
    byteLength (xs ++ ys) = byteLength xs + byteLength ys := by
  induction xs with
  | nil => simp [byteLength]
  | cons x xs ih => simp [byteLength, ih, Nat.add_assoc]

theorem byteLength_le_of_isPrefix {xs ys : List Char} (starts : xs <+: ys) :
    byteLength xs ≤ byteLength ys := by
  obtain ⟨rest, rfl⟩ := starts
  rw [byteLength_append]
  exact Nat.le_add_right _ _

theorem byteLength_commonPrefix (xs ys : List Char) :
    byteLength (commonPrefix xs ys) = commonPrefixLength xs ys := by
  induction xs generalizing ys with
  | nil => rfl
  | cons x xs ih =>
      cases ys with
      | nil => rfl
      | cons y ys =>
          simp only [commonPrefix, commonPrefixLength]
          split
          · rw [byteLength, ih]
          · rfl

theorem byteLength_eq_zero {cs : List Char} : byteLength cs = 0 ↔ cs = [] := by
  cases cs with
  | nil => simp [byteLength]
  | cons c cs =>
      have := c.utf8Size_pos
      simp only [byteLength, reduceCtorEq, iff_false]
      omega

@[simp]
theorem takeBytes_append (xs ys : List Char) : takeBytes (byteLength xs) (xs ++ ys) = xs := by
  induction xs with
  | nil =>
      cases ys with
      | nil => rfl
      | cons y ys => simp [takeBytes, byteLength, Nat.not_le.mpr y.utf8Size_pos]
  | cons x xs ih => simp [takeBytes, byteLength, ih]

@[simp]
theorem dropBytes_append (xs ys : List Char) : dropBytes (byteLength xs) (xs ++ ys) = ys := by
  have h := takeBytes_append_dropBytes (byteLength xs) (xs ++ ys)
  rw [takeBytes_append] at h
  exact List.append_cancel_left h

/-- A text is cut between its characters at the end of each of its beginnings. -/
theorem isBoundary_append (xs ys : List Char) : IsBoundary (byteLength xs) (xs ++ ys) := by
  simp [IsBoundary, floorBoundary]

@[simp]
theorem takeBytes_zero (cs : List Char) : takeBytes 0 cs = [] := by
  cases cs with
  | nil => rfl
  | cons c cs => exact if_neg (Nat.not_le.mpr c.utf8Size_pos)

theorem takeBytes_of_le {n : Nat} {cs : List Char} (le : byteLength cs ≤ n) : takeBytes n cs = cs := by
  induction cs generalizing n with
  | nil => rfl
  | cons c cs ih =>
      rw [byteLength] at le
      rw [takeBytes, if_pos (by omega), ih (by omega)]

theorem takeBytes_append_left {n : Nat} {xs : List Char} (ys : List Char) (le : n ≤ byteLength xs) :
    takeBytes n (xs ++ ys) = takeBytes n xs := by
  induction xs generalizing n with
  | nil =>
      obtain rfl := Nat.le_zero.mp le
      simp
  | cons x xs ih =>
      rw [byteLength] at le
      rw [List.cons_append, takeBytes, takeBytes]
      split
      · rw [ih (by omega)]
      · rfl

theorem takeBytes_append_right (n : Nat) (xs ys : List Char) :
    takeBytes (byteLength xs + n) (xs ++ ys) = xs ++ takeBytes n ys := by
  induction xs with
  | nil => simp [byteLength]
  | cons x xs ih =>
      rw [List.cons_append, takeBytes, byteLength, if_pos (by omega),
        show x.utf8Size + byteLength xs + n - x.utf8Size = byteLength xs + n by omega, ih]
      rfl

theorem byteLength_takeBytes_le (n : Nat) (cs : List Char) : byteLength (takeBytes n cs) ≤ n := by
  induction cs generalizing n with
  | nil => exact Nat.zero_le n
  | cons c cs ih =>
      rw [takeBytes]
      split
      · have := ih (n - c.utf8Size)
        rw [byteLength]
        omega
      · exact Nat.zero_le n

theorem IsBoundary.le {n : Nat} {cs : List Char} (boundary : IsBoundary n cs) : n ≤ byteLength cs := by
  have whole := byteLength_append (takeBytes n cs) (dropBytes n cs)
  rw [takeBytes_append_dropBytes, show byteLength (takeBytes n cs) = n from boundary] at whole
  omega

theorem utf8ByteSize_eq (s : String) : s.utf8ByteSize = byteLength s.toList := by
  suffices ofList : ∀ cs, (String.ofList cs).utf8ByteSize = byteLength cs by
    rw [← ofList, String.ofList_toList]
  intro cs
  induction cs with
  | nil => rfl
  | cons c cs ih =>
      rw [String.ofList_cons, String.utf8ByteSize_append, String.utf8ByteSize_singleton, ih, byteLength]

/-! ## Common beginnings -/

@[simp]
theorem commonPrefix_nil_left (ys : List Char) : commonPrefix [] ys = [] := rfl

@[simp]
theorem commonPrefix_nil_right (xs : List Char) : commonPrefix xs [] = [] := by
  cases xs <;> rfl

theorem commonPrefix_cons_eq_nil {x y : Char} {xs ys : List Char} :
    commonPrefix (x :: xs) (y :: ys) = [] ↔ x ≠ y := by
  simp [commonPrefix]

theorem commonPrefix_comm (xs ys : List Char) : commonPrefix xs ys = commonPrefix ys xs := by
  induction xs generalizing ys with
  | nil => simp
  | cons x xs ih =>
      cases ys with
      | nil => rfl
      | cons y ys =>
          simp only [commonPrefix, eq_comm (a := x)]
          split
          · rename_i e
            rw [e, ih]
          · rfl

@[simp]
theorem commonPrefix_append (xs ys zs : List Char) :
    commonPrefix (xs ++ ys) (xs ++ zs) = xs ++ commonPrefix ys zs := by
  induction xs with
  | nil => rfl
  | cons x xs ih => simp [commonPrefix, ih]

/-- Both texts begin with what they have in common, and go on differently. -/
theorem exists_append_commonPrefix (xs ys : List Char) :
    ∃ xs' ys', xs = commonPrefix xs ys ++ xs' ∧ ys = commonPrefix xs ys ++ ys' ∧
      commonPrefix xs' ys' = [] := by
  induction xs generalizing ys with
  | nil => exact ⟨[], ys, rfl, rfl, rfl⟩
  | cons x xs ih =>
      cases ys with
      | nil => exact ⟨x :: xs, [], rfl, rfl, rfl⟩
      | cons y ys =>
          by_cases e : x = y
          · subst e
            obtain ⟨xs', ys', hx, hy, h⟩ := ih ys
            refine ⟨xs', ys', ?_, ?_, h⟩
            · simpa [commonPrefix] using hx
            · simpa [commonPrefix] using hy
          · refine ⟨x :: xs, y :: ys, ?_, ?_, commonPrefix_cons_eq_nil.mpr e⟩ <;> simp [commonPrefix, e]

/-- Two texts that begin as a third one does begin alike. -/
theorem commonPrefix_ne_nil_trans {xs ys zs : List Char} (hx : commonPrefix xs zs ≠ [])
    (hy : commonPrefix ys zs ≠ []) : commonPrefix xs ys ≠ [] := by
  cases xs with
  | nil => simp at hx
  | cons x xs =>
      cases zs with
      | nil => simp at hx
      | cons z zs =>
          cases ys with
          | nil => simp at hy
          | cons y ys =>
              rw [Ne, commonPrefix_cons_eq_nil, Decidable.not_not] at hx hy ⊢
              rw [hx, hy]

/-- What begins two texts begins what they have in common. -/
theorem prefix_commonPrefix {xs ys zs : List Char} (hx : zs <+: xs) (hy : zs <+: ys) :
    zs <+: commonPrefix xs ys := by
  obtain ⟨xs', rfl⟩ := hx
  obtain ⟨ys', rfl⟩ := hy
  rw [commonPrefix_append]
  exact List.prefix_append _ _

theorem commonPrefix_append_left {xs ys zs : List Char} (ne : xs ≠ [])
    (h : commonPrefix xs ys = []) : commonPrefix (xs ++ zs) ys = [] := by
  cases xs with
  | nil => exact absurd rfl ne
  | cons x xs =>
      cases ys with
      | nil => rfl
      | cons y ys => exact commonPrefix_cons_eq_nil.mpr (commonPrefix_cons_eq_nil.mp h)

/-- A text that begins another one is all they have in common. -/
theorem commonPrefix_append_self (xs ys : List Char) : commonPrefix xs (xs ++ ys) = xs := by
  simpa using commonPrefix_append xs [] ys

end CodeAtlas.Text
