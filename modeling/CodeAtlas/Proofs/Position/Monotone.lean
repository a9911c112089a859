import CodeAtlas.Proofs.Position.Clamping

/-!
# Conversions keep the order

Positions that stand one behind the other lead to offsets that do, in any text. Offsets that lie one
behind the other have positions that stand so unless the text ends between them and has one line more than
clients can count. Ranges keep their ends in order, and what lies in a range stays in it, under the same
condition.
-/

namespace CodeAtlas

open Text

namespace PositionEncoding

/-- A later column has more before it. -/
theorem before_mono {encoding : PositionEncoding} {m n : Nat} (le : m ≤ n) (cs : List Char) :
    encoding.before m cs <+: encoding.before n cs := by
  cases encoding with
  | utf8 => exact takeBytes_prefix le cs
  | utf16 =>
      rcases le_measure_takeAtLeast n cs with reaches | whole
      · exact takeAtLeast_isPrefix_of_le (takeAtLeast_isPrefix n cs) (Nat.le_trans le reaches)
      · rw [before, before, whole]
        exact takeAtLeast_isPrefix m cs

end PositionEncoding

namespace Source

variable {s : Source} {encoding : PositionEncoding}

/-! ## From positions to offsets -/

/-- What a line holds before its break ends before any later line starts. -/
theorem prefix_le_start {i j : Nat} {line later : Line} (lt : i < j) (found : s.lines[i]? = some line)
    (found' : s.lines[j]? = some later) {leading : List Char} (starts : leading <+: line.content) :
    line.start + Text.byteLength leading ≤ later.start := by
  rw [getElem?_lines] at found found'
  obtain ⟨inside, rfl⟩ := List.getElem?_eq_some_iff.mp found
  obtain ⟨inside', rfl⟩ := List.getElem?_eq_some_iff.mp found'
  have ends := List.pairwise_iff_getElem.mp (tiles_lines s.text.toList).pairwise i j inside inside' lt
  exact Nat.le_trans (Line.prefix_le_stop starts) ends

theorem toOffset_mono (s : Source) (encoding : PositionEncoding) {p q : Position} (le : p ≤ q) :
    s.toOffset encoding p ≤ s.toOffset encoding q := by
  have line_le : p.line ≤ q.line := by
    rcases le with earlier | ⟨same, -⟩
    · exact UInt32.le_of_lt earlier
    · exact UInt32.le_of_eq same
  rcases s.toOffset_cases encoding q with ⟨-, offset_eq⟩ | ⟨later, before, found', offset_eq'⟩
  · rw [offset_eq]
    exact s.toOffset_le encoding p
  rcases s.toOffset_cases encoding p with ⟨past, -⟩ | ⟨line, -, found, offset_eq⟩
  -- The line of the first position is no later one, so it is there, too.
  · exact absurd before (UInt32.not_lt.mpr (UInt32.le_trans past line_le))
  rw [offset_eq, offset_eq']
  rcases le with earlier | ⟨same, character_le⟩
  · have starts := encoding.before_isPrefix p.character.toNat line.content
    exact Nat.le_trans (prefix_le_start (UInt32.lt_iff_toNat_lt.mp earlier) found found' starts)
      (Nat.le_add_right _ _)
  · rw [same, found'] at found
    cases found
    have column_le := UInt32.le_iff_toNat_le.mp character_le
    exact Nat.add_le_add_left (byteLength_le_of_isPrefix (encoding.before_mono column_le _)) _

/-! ## From offsets to positions -/

/-- The text ends between two offsets, the first of which is not its start, and has one line more than
clients can count. The position of the second offset is then that of the start of the text. -/
def WrapsBetween (s : Source) (first second : Nat) : Prop :=
  s.lineCount = UInt32.size ∧ 0 < first ∧ first ≤ s.byteLength ∧ s.byteLength < second

theorem toPosition_le_iff (bytes : s.byteLength < UInt32.size) (encoding : PositionEncoding)
    {offset offset' : Nat} (le : offset ≤ offset') :
    s.toPosition encoding offset ≤ s.toPosition encoding offset' ↔ ¬s.WrapsBetween offset offset' := by
  constructor
  · rintro ordered ⟨count, pos, inside, past⟩
    rw [toPosition_of_lineCount_eq bytes count encoding inside, toPosition_of_lt past, count] at ordered
    rcases ordered with earlier | ⟨same, -⟩
    · exact absurd earlier UInt32.not_lt_zero
    · have fits : offset < UInt32.size := Nat.lt_of_le_of_lt inside bytes
      have zero : offset = 0 := eq_of_ofNat_eq fits (Nat.succ_pos _) same
      omega
  · intro usual
    rcases Nat.lt_or_ge s.lineCount UInt32.size with lines | many
    · exact toPosition_le bytes le (.inl lines)
    have count : s.lineCount = UInt32.size := by
      have := s.lineCount_le
      omega
    rcases Nat.lt_or_ge s.byteLength offset' with past' | inside'
    · rcases Nat.lt_or_ge s.byteLength offset with past | inside
      · rw [toPosition_of_lt past, toPosition_of_lt past']
        exact Position.le_refl _
      · have zero : offset = 0 := by
          refine Nat.eq_zero_of_not_pos fun pos => ?_
          exact usual ⟨count, pos, inside, past'⟩
        rw [zero, toPosition_of_lineCount_eq bytes count encoding (Nat.zero_le _), toPosition_of_lt past',
          count]
        exact Position.le_refl _
    · exact toPosition_le bytes le (.inr inside')

/-- Positions that do not go back lead to offsets that do not, and offsets that do not go back have
positions that do not, unless lines are miscounted between them. So ranges stay ranges, and those within
others stay so. -/
theorem conversions_monotone (s : Source) (bytes : s.byteLength < UInt32.size)
    (encoding : PositionEncoding) :
    (∀ a b : Nat, a ≤ b →
      (s.toPosition encoding a ≤ s.toPosition encoding b ↔ ¬s.WrapsBetween a b)) ∧
      (∀ p q : Position, p ≤ q → s.toOffset encoding p ≤ s.toOffset encoding q) ∧
      (∀ r : ByteRange, r.start ≤ r.stop →
        ((s.toPositionRange encoding r).start ≤ (s.toPositionRange encoding r).stop ↔
          ¬s.WrapsBetween r.start r.stop)) ∧
      (∀ r : PositionRange, r.start ≤ r.stop →
        (s.toByteRange encoding r).start ≤ (s.toByteRange encoding r).stop) ∧
      (∀ inner outer : ByteRange, inner.Within outer →
        ((s.toPositionRange encoding inner).Within (s.toPositionRange encoding outer) ↔
          ¬s.WrapsBetween outer.start inner.start ∧ ¬s.WrapsBetween inner.stop outer.stop)) ∧
      (∀ inner outer : PositionRange, inner.Within outer →
        (s.toByteRange encoding inner).Within (s.toByteRange encoding outer)) := by
  refine ⟨fun a b le => toPosition_le_iff bytes encoding le, fun p q le => s.toOffset_mono encoding le,
    fun r le => toPosition_le_iff bytes encoding le, fun r le => s.toOffset_mono encoding le, ?_, ?_⟩
  · rintro inner outer ⟨start_le, stop_le⟩
    exact and_congr (toPosition_le_iff bytes encoding start_le) (toPosition_le_iff bytes encoding stop_le)
  · rintro inner outer ⟨start_le, stop_le⟩
    exact ⟨s.toOffset_mono encoding start_le, s.toOffset_mono encoding stop_le⟩

/-- Offsets inside a character and inside a line break, and a range around both. -/
theorem conversions_monotone_pair :
    let s := Source.new "a.rb" (String.ofList ['é', '\r', '\n', 'b']) (.leaf .program ⟨0, 5⟩)
    s.byteLength < UInt32.size ∧ s.toPosition .utf16 1 ≤ s.toPosition .utf16 3 ∧
      s.toOffset .utf8 ⟨0, 1⟩ ≤ s.toOffset .utf8 ⟨0, 9⟩ ∧
      (s.toPositionRange .utf16 ⟨1, 3⟩).Within (s.toPositionRange .utf16 ⟨0, 9⟩) := by
  intro s
  have text_eq : s.text.toList = ['é', '\r', '\n', 'b'] := String.toList_ofList
  have bytes : s.byteLength < UInt32.size := by
    rw [byteLength_eq, text_eq]
    decide
  have usual (a b : Nat) : ¬s.WrapsBetween a b := by
    rintro ⟨count, -⟩
    rw [lineCount, s.lines_eq, text_eq] at count
    exact absurd count (by decide)
  obtain ⟨positions, -, -, -, ranges, -⟩ := conversions_monotone s bytes .utf16
  refine ⟨bytes, (positions 1 3 (by decide)).mpr (usual 1 3), ?_, ?_⟩
  · exact (conversions_monotone s bytes .utf8).2.1 ⟨0, 1⟩ ⟨0, 9⟩ (.inr ⟨rfl, by decide⟩)
  · exact (ranges ⟨1, 3⟩ ⟨0, 9⟩ ⟨by decide, by decide⟩).mpr ⟨usual 0 1, usual 3 9⟩

/-- Behind a text of as many line feeds as fit 32 bits an offset gets the position of its start, before
those of the offsets in it. -/
theorem end_before_line_feeds :
    let s := ofLineFeeds "a.rb" (.leaf .program ⟨0, 0⟩) 4294967295
    s.byteLength < UInt32.size ∧ ∀ encoding,
      ¬s.toPosition encoding 5 ≤ s.toPosition encoding 4294967296 ∧
        ¬(s.toPositionRange encoding ⟨5, 4294967296⟩).start ≤
          (s.toPositionRange encoding ⟨5, 4294967296⟩).stop := by
  intro s
  have length_eq : s.byteLength = 4294967295 := byteLength_ofLineFeeds _ _ _
  have count : s.lineCount = UInt32.size := lineCount_ofLineFeeds _ _ _
  have bytes : s.byteLength < UInt32.size := by
    rw [length_eq]
    decide
  have wraps : s.WrapsBetween 5 4294967296 := ⟨count, by omega, by omega, by omega⟩
  have le : 5 ≤ 4294967296 := by omega
  refine ⟨bytes, fun encoding => ?_⟩
  have back := mt (toPosition_le_iff bytes encoding le).mp (not_not_intro wraps)
  exact ⟨back, by simpa only [toPositionRange] using back⟩

end Source

end CodeAtlas
