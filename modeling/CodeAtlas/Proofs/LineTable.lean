import CodeAtlas.Proofs.Checked.LineTable
import CodeAtlas.Proofs.Position.Clamping

/-!
# The table of lines

A line starts at the beginning of a text and right behind each line break, nowhere else. The ranges of the
lines fill the text, and whoever looks for the line of an offset by halving the table finds the last one
that starts at or before it.
-/

namespace CodeAtlas

namespace Text

/-! ## Behind a line break -/

/-- The offset `n` lies right behind a line feed, or behind a carriage return that has no line feed behind
it. -/
def BehindBreak (n : Nat) (cs : List Char) : Prop :=
  ∃ before c after, cs = before ++ c :: after ∧ n = byteLength (before ++ [c]) ∧
    (c = '\n' ∨ c = '\r' ∧ after.head? ≠ some '\n')

theorem not_behindBreak_nil {n : Nat} : ¬BehindBreak n [] := by
  rintro ⟨before, c, after, text_eq, -⟩
  cases before <;> cases text_eq

theorem BehindBreak.pos {n : Nat} {cs : List Char} (behind : BehindBreak n cs) : 0 < n := by
  obtain ⟨before, c, after, -, rfl, -⟩ := behind
  have := c.utf8Size_pos
  rw [byteLength_append, byteLength]
  omega

theorem behindBreak_cons {n : Nat} {c : Char} {cs : List Char} : BehindBreak n (c :: cs) ↔
    (n = c.utf8Size ∧ (c = '\n' ∨ c = '\r' ∧ cs.head? ≠ some '\n')) ∨
      (c.utf8Size ≤ n ∧ BehindBreak (n - c.utf8Size) cs) := by
  constructor
  · rintro ⟨before, d, after, text_eq, rfl, breaks⟩
    cases before with
    | nil =>
        cases text_eq
        exact .inl ⟨rfl, breaks⟩
    | cons e before =>
        cases text_eq
        rw [List.cons_append, byteLength]
        exact .inr ⟨Nat.le_add_right _ _, before, d, after, rfl, Nat.add_sub_cancel_left _ _, breaks⟩
  · rintro (⟨rfl, breaks⟩ | ⟨le, before, d, after, rfl, n_eq, breaks⟩)
    · exact ⟨[], c, cs, rfl, rfl, breaks⟩
    · refine ⟨c :: before, d, after, rfl, ?_, breaks⟩
      rw [List.cons_append, byteLength]
      omega

theorem behindBreak_unbroken {n : Nat} {xs : List Char} (plain : Unbroken xs) (rest : List Char) :
    BehindBreak n (xs ++ rest) ↔ byteLength xs ≤ n ∧ BehindBreak (n - byteLength xs) rest := by
  induction xs generalizing n with
  | nil => simp [byteLength]
  | cons x xs ih =>
      obtain ⟨⟨no_cr, no_lf⟩, plain⟩ := List.forall_mem_cons.mp plain
      rw [List.cons_append, behindBreak_cons, ih plain, byteLength, Nat.sub_sub]
      constructor
      · rintro (⟨-, lf | ⟨cr, -⟩⟩ | ⟨le, le', behind⟩)
        · exact absurd lf no_lf
        · exact absurd cr no_cr
        · exact ⟨by omega, behind⟩
      · rintro ⟨le, behind⟩
        exact .inr ⟨by omega, by omega, behind⟩

theorem behindBreak_ending {n : Nat} {ending : LineBreak} {rest : List Char}
    (ends : EndsBefore ending rest) : BehindBreak n (ending.chars ++ rest) ↔
      n = byteLength ending.chars ∨
        (byteLength ending.chars ≤ n ∧ BehindBreak (n - byteLength ending.chars) rest) := by
  cases ending with
  | lineFeed => exact behindBreak_cons.trans (or_congr_left (and_iff_left (.inl rfl)))
  | carriageReturn =>
      exact behindBreak_cons.trans (or_congr_left (and_iff_left (.inr ⟨rfl, ends rfl⟩)))
  | both =>
      have cr : '\r'.utf8Size = 1 := rfl
      have lf : '\n'.utf8Size = 1 := rfl
      have whole : byteLength LineBreak.both.chars = 2 := rfl
      rw [whole, LineBreak.chars, List.cons_append, List.cons_append, List.nil_append, behindBreak_cons,
        behindBreak_cons, cr, lf, Nat.sub_sub]
      constructor
      · rintro (⟨-, other | ⟨-, lone⟩⟩ | ⟨le, ⟨one, -⟩ | ⟨le', behind⟩⟩)
        · exact absurd other (by decide)
        · exact absurd rfl lone
        · exact .inl (by omega)
        · exact .inr ⟨by omega, behind⟩
      · rintro (rfl | ⟨le, behind⟩)
        · exact .inr ⟨by omega, .inl ⟨rfl, .inl rfl⟩⟩
        · exact .inr ⟨by omega, .inr ⟨by omega, behind⟩⟩

theorem behindBreak_line {n : Nat} {xs rest : List Char} {ending : LineBreak} (plain : Unbroken xs)
    (ends : EndsBefore ending rest) : BehindBreak n (xs ++ (ending.chars ++ rest)) ↔
      n = byteLength (xs ++ ending.chars) ∨ (byteLength (xs ++ ending.chars) ≤ n ∧
        BehindBreak (n - byteLength (xs ++ ending.chars)) rest) := by
  rw [behindBreak_unbroken plain, behindBreak_ending ends, byteLength_append, Nat.sub_sub]
  constructor
  · rintro ⟨le, stop | ⟨le', behind⟩⟩
    · exact .inl (by omega)
    · exact .inr ⟨by omega, behind⟩
  · rintro (rfl | ⟨le, behind⟩)
    · exact ⟨Nat.le_add_right _ _, .inl (Nat.add_sub_cancel_left _ _)⟩
    · exact ⟨by omega, .inr ⟨by omega, behind⟩⟩

section Tiles

variable {start : Nat} {cs : List Char} {lines : List Line}

/-- All lines but the first start behind a break, and there is a line behind each break. -/
theorem Tiles.behindBreak_iff (tiles : Tiles start cs lines) {n : Nat} :
    (∃ i line, lines[i + 1]? = some line ∧ line.start = start + n) ↔ BehindBreak n cs := by
  induction tiles generalizing n with
  | @last start xs plain =>
      constructor
      · rintro ⟨i, line, found, -⟩
        cases found
      · intro behind
        rw [← List.append_nil xs, behindBreak_unbroken plain] at behind
        exact absurd behind.2 not_behindBreak_nil
  | @cons start xs rest ending lines plain ends tiles ih =>
      obtain ⟨next, others, rfl, next_start⟩ := tiles.exists_cons
      rw [behindBreak_line plain ends]
      constructor
      · rintro ⟨i, line, found, line_start⟩
        cases i with
        | zero =>
            cases found
            exact .inl (by omega)
        | succ i =>
            have later := tiles.le_start (List.mem_of_getElem? found)
            exact .inr ⟨by omega, ih.mp ⟨i, line, found, by omega⟩⟩
      · rintro (rfl | ⟨le, behind⟩)
        · exact ⟨0, next, rfl, next_start⟩
        · obtain ⟨i, line, found, line_start⟩ := ih.mpr behind
          exact ⟨i + 1, line, found, by omega⟩

theorem Tiles.pairwise_start (tiles : Tiles start cs lines) :
    lines.Pairwise fun line later => line.start < later.start := by
  induction tiles with
  | last plain => exact List.pairwise_singleton _ _
  | @cons start xs rest ending lines plain ends tiles ih =>
      refine List.pairwise_cons.mpr ⟨fun later mem => ?_, ih⟩
      have behind := tiles.le_start mem
      have pos := ending.byteLength_pos
      have lt : start < later.start := by
        rw [byteLength_append] at behind
        omega
      exact lt

end Tiles

end Text

/-! ## Ranges one behind the other -/

/-- The ranges fill what lies between two offsets: the first starts at one of them, each other one where the
one before it stops, and the last stops at the other. -/
inductive ByteRange.Fill : Nat → List ByteRange → Nat → Prop
  | nil (n : Nat) : Fill n [] n
  | cons {r : ByteRange} {rs : List ByteRange} {stop : Nat} (ordered : r.start ≤ r.stop)
      (rest : Fill r.stop rs stop) : Fill r.start (r :: rs) stop

def Text.Line.range (line : Text.Line) : ByteRange :=
  ⟨line.start, line.stop⟩

theorem Text.Line.start_le_stop (line : Text.Line) : line.range.start ≤ line.range.stop :=
  Nat.le_add_right _ _

theorem Text.Tiles.fill {start : Nat} {cs : List Char} {lines : List Text.Line}
    (tiles : Text.Tiles start cs lines) :
    ByteRange.Fill start (lines.map Text.Line.range) (start + Text.byteLength cs) := by
  induction tiles with
  | @last start xs plain =>
      have stop : (Text.Line.mk start xs none).stop = start + Text.byteLength xs := by
        rw [Text.Line.stop, Text.Line.chars]
        exact congrArg (start + Text.byteLength ·) (List.append_nil xs)
      rw [← stop]
      exact .cons (Text.Line.start_le_stop ⟨start, xs, none⟩) (.nil _)
  | @cons start xs rest ending lines plain ends tiles ih =>
      rw [← List.append_assoc, Text.byteLength_append (xs ++ ending.chars), ← Nat.add_assoc]
      exact .cons (Text.Line.start_le_stop ⟨start, xs, some ending⟩) ih

/-! ## Halving the table -/

namespace Checked

/-- Halves the part of a table in which the first start behind an offset can be, until nothing is left of
it. -/
def searchFrom (starts : Array Nat) (offset low high : Nat) : Except Fault Nat :=
  if low < high then
    let middle := low + (high - low) / 2
    match starts[middle]? with
    | none => .error .missingLine
    | some start =>
        if start ≤ offset then searchFrom starts offset (middle + 1) high
        else searchFrom starts offset low middle
  else .ok low
termination_by high - low

/-- The number of starts at or before an offset. -/
def startsUpTo (starts : Array Nat) (offset : Nat) : Except Fault Nat :=
  searchFrom starts offset 0 starts.size

/-- Where the starts at or before an offset come first, the search finds how many there are. -/
theorem searchFrom_eq {starts : Array Nat} {offset n low high : Nat}
    (parted : ∀ i start, starts[i]? = some start → (start ≤ offset ↔ i < n)) (low_le : low ≤ n)
    (le_high : n ≤ high) (inside : high ≤ starts.size) : searchFrom starts offset low high = .ok n := by
  fun_induction searchFrom starts offset low high with
  | case1 low high lt middle missing =>
      have : middle < starts.size := by omega
      rw [Array.getElem?_eq_none_iff] at missing
      omega
  | case2 low high lt middle start found begun ih =>
      have := (parted middle start found).mp begun
      exact ih (by omega) le_high inside
  | case3 low high lt middle start found behind ih =>
      have := mt (parted middle start found).mpr behind
      exact ih low_le (by omega) (by omega)
  | case4 low high done =>
      rw [show low = n by omega]

end Checked

/-! ## The table of a source -/

namespace Source

open Text (BehindBreak IsBoundary tiles_lines)

variable {s : Source} {i j start next offset : Nat}

theorem lineStart?_eq_some_iff : s.lineStart? i = some start ↔
    ∃ line, (Text.lines s.text.toList)[i]? = some line ∧ line.start = start := by
  rw [lineStart?, getElem?_lines, Option.map_eq_some_iff]

theorem lineStart?_eq_none_iff : s.lineStart? i = none ↔ s.lineCount ≤ i := by
  rw [lineStart?, Option.map_eq_none_iff, Array.getElem?_eq_none_iff, lineCount]

theorem lineStart?_lt (lt : i < j) (found : s.lineStart? i = some start)
    (found' : s.lineStart? j = some next) : start < next := by
  obtain ⟨line, listed, rfl⟩ := lineStart?_eq_some_iff.mp found
  obtain ⟨later, listed', rfl⟩ := lineStart?_eq_some_iff.mp found'
  obtain ⟨inside, rfl⟩ := List.getElem?_eq_some_iff.mp listed
  obtain ⟨inside', rfl⟩ := List.getElem?_eq_some_iff.mp listed'
  exact List.pairwise_iff_getElem.mp (tiles_lines s.text.toList).pairwise_start i j inside inside' lt

theorem isBoundary_lineStart (found : s.lineStart? i = some start) : IsBoundary start s.text.toList := by
  obtain ⟨line, listed, rfl⟩ := lineStart?_eq_some_iff.mp found
  obtain ⟨before, after, text_eq, start_eq, -, -⟩ :=
    Checked.exists_split (tiles_lines s.text.toList) listed
  rw [text_eq, start_eq, Nat.zero_add]
  exact Text.isBoundary_append before _

theorem lineStart?_succ_iff : (∃ i, s.lineStart? (i + 1) = some start) ↔
    BehindBreak start s.text.toList := by
  rw [← (tiles_lines s.text.toList).behindBreak_iff]
  simp only [lineStart?_eq_some_iff, Nat.zero_add]

/-- The ranges of the lines fill the text. -/
theorem exists_fill (s : Source) : ∃ ranges : List ByteRange, ranges.length = s.lineCount ∧
    (∀ i, s.lineRange? i = ranges[i]?) ∧ ByteRange.Fill 0 ranges s.byteLength := by
  refine ⟨(Text.lines s.text.toList).map Text.Line.range, ?_, fun i => ?_, ?_⟩
  · rw [List.length_map, lineCount, s.lines_eq, List.size_toArray]
  · rw [List.getElem?_map, ← getElem?_lines]
    cases found : s.lines[i]? with
    | none =>
        have absent : s.lineStart? i = none := congrArg (Option.map _) found
        rw [lineRange?, absent]
        rfl
    | some line => exact (Checked.part_line found).1
  · have fill := (tiles_lines s.text.toList).fill
    rwa [Nat.zero_add, ← byteLength_eq] at fill

/-- The starts at or before an offset come first in the table. -/
theorem lineStart_le_iff (found : s.lineStart? i = some start) :
    start ≤ offset ↔ i < s.linesUpTo offset := by
  have upTo : s.linesUpTo offset = (Text.lines s.text.toList).findIdx fun line => offset < line.start := by
    rw [linesUpTo, s.lines_eq, List.findIdx_toArray]
  obtain ⟨line, listed, rfl⟩ := lineStart?_eq_some_iff.mp found
  obtain ⟨inside, rfl⟩ := List.getElem?_eq_some_iff.mp listed
  rw [upTo]
  constructor
  · intro le
    by_contra behind
    have first : (Text.lines s.text.toList).findIdx (fun line => offset < line.start) <
        (Text.lines s.text.toList).length := Nat.lt_of_le_of_lt (Nat.not_lt.mp behind) inside
    have past := of_decide_eq_true (List.findIdx_getElem (w := first))
    rcases Nat.lt_or_eq_of_le (Nat.not_lt.mp behind) with lt | same
    · have := List.pairwise_iff_getElem.mp (tiles_lines s.text.toList).pairwise_start _ i first inside lt
      omega
    · simp only [same] at past
      omega
  · intro before
    exact Nat.not_lt.mp (of_decide_eq_false (List.not_of_lt_findIdx before))

/-- Line `i` is the last one that starts at or before an offset. -/
def IsLastStart (s : Source) (offset i : Nat) : Prop :=
  (∃ start, s.lineStart? i = some start ∧ start ≤ offset) ∧
    ∀ j start, s.lineStart? j = some start → start ≤ offset → j ≤ i

theorem IsLastStart.unique (last : s.IsLastStart offset i) (last' : s.IsLastStart offset j) : i = j := by
  obtain ⟨⟨start, found, le⟩, later⟩ := last
  obtain ⟨⟨start', found', le'⟩, later'⟩ := last'
  exact Nat.le_antisymm (later' i start found le) (later j start' found' le')

theorem isLastStart_linesUpTo (le : offset ≤ s.byteLength) :
    s.IsLastStart offset (s.linesUpTo offset - 1) := by
  obtain ⟨line, -, -, begun, found, -, -, start_le, -⟩ := Checked.exists_line le
  refine ⟨⟨line.start, congrArg (Option.map _) found, start_le⟩, fun j start found' start_le' => ?_⟩
  have := (lineStart_le_iff found').mp start_le'
  omega

theorem lineOf?_eq_none_iff : s.lineOf? offset = none ↔ s.byteLength < offset := by
  rw [lineOf?]
  split
  · next past => exact iff_of_true rfl past
  · next inside => exact iff_of_false (Option.some_ne_none _) inside

theorem lineOf?_eq_some_iff : s.lineOf? offset = some i ↔
    offset ≤ s.byteLength ∧ s.IsLastStart offset i := by
  constructor
  · intro numbered
    have le : offset ≤ s.byteLength := by
      by_contra past
      rw [lineOf?_eq_none_iff.mpr (Nat.not_le.mp past)] at numbered
      cases numbered
    rw [Checked.lineOf?_of_le le] at numbered
    cases numbered
    exact ⟨le, isLastStart_linesUpTo le⟩
  · rintro ⟨le, last⟩
    rw [Checked.lineOf?_of_le le, last.unique (isLastStart_linesUpTo le)]

/-- An offset lies in the range of its line, or the text ends there with the line. -/
theorem exists_range_of_isLastStart (le : offset ≤ s.byteLength) (last : s.IsLastStart offset i) :
    ∃ r, s.lineRange? i = some r ∧ r.start ≤ offset ∧
      (offset < r.stop ∨ offset = s.byteLength ∧ i + 1 = s.lineCount) := by
  obtain ⟨⟨start, found, start_le⟩, later⟩ := last
  refine ⟨⟨start, (s.lineStart? (i + 1)).getD s.byteLength⟩, ?_, start_le, ?_⟩
  · rw [lineRange?, found]
    rfl
  cases next : s.lineStart? (i + 1) with
  | some stop =>
      refine .inl (Nat.lt_of_not_le fun stop_le => ?_)
      exact absurd (later (i + 1) stop next stop_le) (Nat.not_succ_le_self i)
  | none =>
      have count : s.lineCount ≤ i + 1 := lineStart?_eq_none_iff.mp next
      have inside : i < s.lineCount := by
        by_contra outside
        rw [lineStart?_eq_none_iff.mpr (Nat.not_lt.mp outside)] at found
        cases found
      rcases Nat.lt_or_eq_of_le le with lt | same
      · exact .inl lt
      · exact .inr ⟨same, by omega⟩

theorem columnOf?_eq_some (numbered : s.lineOf? offset = some i) (found : s.lineStart? i = some start) :
    s.columnOf? offset = some (offset - start) := by
  rw [columnOf?, numbered, Option.bind_eq_bind, Option.bind_some, found]
  rfl

theorem startsUpTo_eq (s : Source) (offset : Nat) :
    Checked.startsUpTo (s.lines.map Text.Line.start) offset = .ok (s.linesUpTo offset) := by
  refine Checked.searchFrom_eq (fun i start found => ?_) (Nat.zero_le _) ?_ (Nat.le_refl _)
  · rw [Array.getElem?_map] at found
    exact lineStart_le_iff found
  · rw [Array.size_map]
    exact Array.findIdx_le_size

/-- What the table of lines of a source tells. -/
structure LineTable (s : Source) : Prop where
  /-- It is the one that is read from the bytes of the text. -/
  read : Checked.lineStarts s.text = .ok (s.lines.map Text.Line.start)
  numbered : ∀ i, s.lineStart? i = none ↔ s.lineCount ≤ i
  first : s.lineStart? 0 = some 0
  increasing : ∀ i j start next, i < j → s.lineStart? i = some start → s.lineStart? j = some next →
    start < next
  boundary : ∀ i start, s.lineStart? i = some start → IsBoundary start s.text.toList
  /-- All starts but the first are those behind a line break. -/
  behind : ∀ start, (∃ i, s.lineStart? (i + 1) = some start) ↔ BehindBreak start s.text.toList
  fill : ∃ ranges : List ByteRange, ranges.length = s.lineCount ∧
    (∀ i, s.lineRange? i = ranges[i]?) ∧ ByteRange.Fill 0 ranges s.byteLength
  /-- A search that halves the table counts the starts at or before an offset. -/
  search : ∀ offset, Checked.startsUpTo (s.lines.map Text.Line.start) offset = .ok (s.linesUpTo offset)
  outside : ∀ offset, s.lineOf? offset = none ↔ s.byteLength < offset
  line : ∀ offset i, s.lineOf? offset = some i ↔ offset ≤ s.byteLength ∧ s.IsLastStart offset i
  /-- An offset lies in its line, or at the end of the text. -/
  range : ∀ offset i, s.lineOf? offset = some i → ∃ r, s.lineRange? i = some r ∧ r.start ≤ offset ∧
    (offset < r.stop ∨ offset = s.byteLength ∧ i + 1 = s.lineCount)
  column : ∀ offset i, s.lineOf? offset = some i → ∃ start column, s.lineStart? i = some start ∧
    s.columnOf? offset = some column ∧ start + column = offset

/-- Lines start at the beginning of a text and behind its line breaks, their ranges fill the text, and each
offset in the text is told its line and its column. -/
theorem lineTable_tells (s : Source) : s.LineTable where
  read := Checked.lineStarts_eq s
  numbered i := lineStart?_eq_none_iff
  first := by
    obtain ⟨line, rest, lines_eq, start_eq⟩ := (tiles_lines s.text.toList).exists_cons
    exact lineStart?_eq_some_iff.mpr ⟨line, by rw [lines_eq]; rfl, start_eq⟩
  increasing i j start next := lineStart?_lt
  boundary i start := isBoundary_lineStart
  behind start := lineStart?_succ_iff
  fill := exists_fill s
  search := startsUpTo_eq s
  outside offset := lineOf?_eq_none_iff
  line offset i := lineOf?_eq_some_iff
  range offset i numbered := by
    obtain ⟨le, last⟩ := lineOf?_eq_some_iff.mp numbered
    exact exists_range_of_isLastStart le last
  column offset i numbered := by
    obtain ⟨-, ⟨start, found, start_le⟩, -⟩ := lineOf?_eq_some_iff.mp numbered
    exact ⟨start, offset - start, found, columnOf?_eq_some numbered found, Nat.add_sub_of_le start_le⟩

end Source

end CodeAtlas
