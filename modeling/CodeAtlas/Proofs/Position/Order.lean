import CodeAtlas.Proofs.Position

/-!
# The order of positions

Positions stand in the order of the lines, and those in one line in the order of the characters. Offsets
that lie one behind the other have positions that do not go back, but for one case: an offset behind the
text gets the number of lines for its line, and this must fit the 32 bits of a client's numbers.
-/

namespace CodeAtlas

open Text

namespace Position

instance : LE Position :=
  ⟨fun p q => p.line < q.line ∨ p.line = q.line ∧ p.character ≤ q.character⟩

theorem le_def {p q : Position} :
    p ≤ q ↔ p.line < q.line ∨ p.line = q.line ∧ p.character ≤ q.character :=
  Iff.rfl

theorem le_refl (p : Position) : p ≤ p :=
  .inr ⟨rfl, UInt32.le_refl _⟩

theorem le_of_line_lt {m n : Nat} {character character' : UInt32} (fits : m < UInt32.size)
    (fits' : n < UInt32.size) (lt : m < n) :
    Position.mk (UInt32.ofNat m) character ≤ ⟨UInt32.ofNat n, character'⟩ :=
  .inl ((UInt32.ofNat_lt_iff_lt fits fits').mpr lt)

theorem le_of_character_le {line : UInt32} {m n : Nat} (fits : m < UInt32.size)
    (fits' : n < UInt32.size) (le : m ≤ n) :
    Position.mk line (UInt32.ofNat m) ≤ ⟨line, UInt32.ofNat n⟩ :=
  .inr ⟨rfl, (UInt32.ofNat_le_iff_le fits fits').mpr le⟩

end Position

/-! ## Ranges -/

/-- A range of offsets lies in another one. -/
def ByteRange.Within (inner outer : ByteRange) : Prop :=
  outer.start ≤ inner.start ∧ inner.stop ≤ outer.stop

/-- An offset lies in a range, of which both ends count. -/
def ByteRange.Contains (r : ByteRange) (offset : Nat) : Prop :=
  r.start ≤ offset ∧ offset ≤ r.stop

/-- A range of positions lies in another one. -/
def PositionRange.Within (inner outer : PositionRange) : Prop :=
  outer.start ≤ inner.start ∧ inner.stop ≤ outer.stop

/-- A position lies in a range, of which both ends count. -/
def PositionRange.Contains (r : PositionRange) (p : Position) : Prop :=
  r.start ≤ p ∧ p ≤ r.stop

/-- A range that ends on a later line than it starts, as clients count lines. -/
def PositionRange.SpansLines (r : PositionRange) : Prop :=
  r.start.line < r.stop.line

instance : DecidablePred PositionRange.SpansLines := fun r =>
  inferInstanceAs (Decidable (r.start.line < r.stop.line))

/-! ## Positions of offsets -/

theorem Text.takeBytes_prefix {m n : Nat} (le : m ≤ n) (cs : List Char) :
    takeBytes m cs <+: takeBytes n cs := by
  induction cs generalizing m n with
  | nil => exact List.prefix_refl []
  | cons c cs ih =>
      rw [takeBytes, takeBytes]
      by_cases fits : c.utf8Size ≤ m
      · rw [if_pos fits, if_pos (by omega), List.prefix_cons_inj]
        exact ih (by omega)
      · rw [if_neg fits]
        exact List.nil_prefix

theorem Text.Tiles.start_le {start : Nat} {cs : List Char} {lines : List Line}
    (tiles : Tiles start cs lines) {line : Line} (mem : line ∈ lines) :
    line.start ≤ start + byteLength cs := by
  induction tiles with
  | last plain =>
      obtain rfl := List.mem_singleton.mp mem
      exact Nat.le_add_right _ _
  | cons plain ends tiles ih =>
      rcases List.mem_cons.mp mem with rfl | mem
      · exact Nat.le_add_right _ _
      · have := ih mem
        rw [← List.append_assoc, byteLength_append]
        omega

theorem PositionEncoding.measure_le_of_prefix {encoding : PositionEncoding} {xs ys : List Char}
    (starts : xs <+: ys) : encoding.measure xs ≤ encoding.measure ys := by
  obtain ⟨rest, rfl⟩ := starts
  rw [measure_append]
  exact Nat.le_add_right _ _

namespace Source

variable {s : Source} {encoding : PositionEncoding} {offset offset' : Nat}

theorem linesUpTo_le (le : offset ≤ offset') : s.linesUpTo offset ≤ s.linesUpTo offset' := by
  rw [linesUpTo, linesUpTo, s.lines_eq, List.findIdx_toArray, List.findIdx_toArray]
  refine List.findIdx_le_findIdx fun line _ before => ?_
  rw [decide_eq_true_eq] at before ⊢
  omega

/-- The line of an offset in the text is there, and the measure of what stands before the offset in it
fits a client's numbers. -/
theorem toPosition_of_le (encoding : PositionEncoding) (bytes : s.byteLength < UInt32.size)
    (le : offset ≤ s.byteLength) :
    ∃ line, s.lines[s.linesUpTo offset - 1]? = some line ∧
      encoding.measure (takeBytes (offset - line.start) line.chars) < UInt32.size ∧
      s.toPosition encoding offset = ⟨UInt32.ofNat (s.linesUpTo offset - 1),
        UInt32.ofNat (encoding.measure (takeBytes (offset - line.start) line.chars))⟩ := by
  obtain ⟨number, line, numbered, found, -⟩ := exists_line_of_le le
  have number_eq : s.linesUpTo offset - 1 = number := by
    rw [lineOf?, if_neg (Nat.not_lt.mpr le)] at numbered
    exact Option.some.inj numbered
  rw [number_eq]
  refine ⟨line, found, ?_, ?_⟩
  · have := encoding.measure_takeBytes_le (offset - line.start) line.chars
    omega
  · rw [toPosition, numbered]
    simp only [found]

/-- An offset does not have a position behind that of a later one. -/
theorem toPosition_le (bytes : s.byteLength < UInt32.size) (le : offset ≤ offset')
    (room : s.lineCount < UInt32.size ∨ offset' ≤ s.byteLength) :
    s.toPosition encoding offset ≤ s.toPosition encoding offset' := by
  have count := s.lineCount_le
  have number_lt {i : Nat} {line : Line} (found : s.lines[i]? = some line) : i < s.lineCount :=
    (Array.getElem?_eq_some_iff.mp found).1
  rcases Nat.lt_or_ge s.byteLength offset' with past' | inside'
  · have lines : s.lineCount < UInt32.size := room.resolve_right (Nat.not_le.mpr past')
    rw [toPosition_of_lt past']
    rcases Nat.lt_or_ge s.byteLength offset with past | inside
    · rw [toPosition_of_lt past]
      exact Position.le_refl _
    · obtain ⟨line, found, -, position⟩ := toPosition_of_le encoding bytes inside
      rw [position]
      have lt := number_lt found
      exact Position.le_of_line_lt (Nat.lt_trans lt lines) lines lt
  · obtain ⟨line, found, fits, position⟩ :=
      toPosition_of_le encoding bytes (Nat.le_trans le inside')
    obtain ⟨line', found', fits', position'⟩ := toPosition_of_le encoding bytes inside'
    rw [position, position']
    have number_le : s.linesUpTo offset - 1 ≤ s.linesUpTo offset' - 1 :=
      Nat.sub_le_sub_right (linesUpTo_le le) 1
    rcases Nat.lt_or_eq_of_le number_le with earlier | same
    · have lt := number_lt found
      have lt' := number_lt found'
      exact Position.le_of_line_lt (by omega) (by omega) earlier
    -- In one line the later offset has more before it.
    · rw [← same, found] at found'
      cases found'
      rw [← same]
      refine Position.le_of_character_le fits fits' (PositionEncoding.measure_le_of_prefix ?_)
      exact takeBytes_prefix (by omega) _

section Range

variable {inner outer : ByteRange} (bytes : s.byteLength < UInt32.size)
  (room : s.lineCount < UInt32.size ∨ outer.stop ≤ s.byteLength)
include bytes room

theorem contains_toPositionRange (contains : outer.Contains offset) :
    (s.toPositionRange encoding outer).Contains (s.toPosition encoding offset) :=
  ⟨toPosition_le bytes contains.1 (room.imp_right (Nat.le_trans contains.2)),
    toPosition_le bytes contains.2 room⟩

/-- What lies in a range still does so for clients, if it contains an offset at all. -/
theorem within_toPositionRange (within : inner.Within outer) (contains : inner.Contains offset) :
    (s.toPositionRange encoding inner).Within (s.toPositionRange encoding outer) := by
  have start_le : inner.start ≤ outer.stop :=
    Nat.le_trans (Nat.le_trans contains.1 contains.2) within.2
  exact ⟨toPosition_le bytes within.1 (room.imp_right (Nat.le_trans start_le)),
    toPosition_le bytes within.2 room⟩

end Range

/-! ## Lines -/

theorem lineNumber_le (s : Source) (offset : Nat) : s.lineNumber offset ≤ s.lineCount := by
  rw [lineNumber, lineOf?]
  split
  · exact Nat.le_refl _
  · have within : s.linesUpTo offset ≤ s.lineCount := Array.findIdx_le_size
    exact Nat.le_trans (Nat.sub_le _ _) within

/-- Where clients can count the lines, a range spans those of the text. -/
theorem spansLines_iff (lines : s.lineCount < UInt32.size) (r : ByteRange) :
    (s.toPositionRange encoding r).SpansLines ↔ s.lineNumber r.start < s.lineNumber r.stop := by
  have fits (offset : Nat) : s.lineNumber offset < UInt32.size :=
    Nat.lt_of_le_of_lt (s.lineNumber_le offset) lines
  rw [PositionRange.SpansLines, toPositionRange, line_toPosition_eq, line_toPosition_eq]
  exact UInt32.ofNat_lt_iff_lt (fits _) (fits _)

/-! ## The end of the text -/

theorem linesUpTo_byteLength (s : Source) : s.linesUpTo s.byteLength = s.lineCount := by
  rw [linesUpTo, lineCount, s.lines_eq, List.findIdx_toArray, List.size_toArray,
    List.findIdx_eq_length]
  intro line mem
  have le := (tiles_lines s.text.toList).start_le mem
  rw [Nat.zero_add, ← byteLength_eq] at le
  exact decide_eq_false (Nat.not_lt.mpr le)

/-- The text ends in its last line. -/
theorem line_toPosition_byteLength (bytes : s.byteLength < UInt32.size) :
    (s.toPosition encoding s.byteLength).line = UInt32.ofNat (s.lineCount - 1) := by
  obtain ⟨line, -, -, position⟩ := s.toPosition_of_le encoding bytes (Nat.le_refl _)
  rw [position, linesUpTo_byteLength]

/-- With one line more than clients can count, a range that reaches over the end of the text seems to end
in the first line. -/
theorem not_contains_of_lineCount_eq (bytes : s.byteLength < UInt32.size)
    (count : s.lineCount = UInt32.size) {r : ByteRange} (past : s.byteLength < r.stop) :
    ¬(s.toPositionRange encoding r).Contains (s.toPosition encoding s.byteLength) := by
  rintro ⟨-, stops⟩
  have first : (s.toPositionRange encoding r).stop = ⟨UInt32.ofNat s.lineCount, 0⟩ :=
    toPosition_of_lt past
  rw [Position.le_def, first, line_toPosition_byteLength bytes, count] at stops
  rcases stops with earlier | ⟨same, -⟩
  · exact absurd earlier (by decide)
  · exact absurd same (by decide)

end Source

end CodeAtlas
