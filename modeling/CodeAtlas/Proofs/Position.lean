import CodeAtlas.Proofs.Text.Lines
import CodeAtlas.Session

/-!
# From offsets to positions and back

A position keeps of an offset the number of its line and the measure of what stands before it in the
line. Both are found again as long as they fit the 32 bits of a client's numbers.
-/

namespace CodeAtlas

open Text

namespace PositionEncoding

variable {encoding : PositionEncoding}

theorem width_pos (c : Char) : 0 < encoding.width c := by
  cases encoding with
  | utf16 =>
      rw [width]
      split <;> omega
  | utf8 => exact c.utf8Size_pos

/-- No character counts more than its bytes. -/
theorem width_le (c : Char) : encoding.width c ≤ c.utf8Size := by
  cases encoding with
  | utf16 =>
      have pos := c.utf8Size_pos
      rw [width]
      split
      · exact pos
      · have : c.utf8Size ≠ 1 := by
          rw [Ne, Char.utf8Size_eq_one_iff, UInt32.le_iff_toNat_le]
          have : (127 : UInt32).toNat = 127 := rfl
          have : c.toNat = c.val.toNat := rfl
          omega
        omega
  | utf8 => exact Nat.le_refl _

theorem measure_append (xs ys : List Char) :
    encoding.measure (xs ++ ys) = encoding.measure xs + encoding.measure ys := by
  induction xs with
  | nil => simp [measure]
  | cons x xs ih => simp [measure, ih, Nat.add_assoc]

theorem measure_le_byteLength (cs : List Char) : encoding.measure cs ≤ byteLength cs := by
  induction cs with
  | nil => exact Nat.le_refl 0
  | cons c cs ih => exact Nat.add_le_add (width_le c) ih

theorem measure_takeBytes_le (n : Nat) (cs : List Char) : encoding.measure (takeBytes n cs) ≤ n :=
  Nat.le_trans (measure_le_byteLength _) (byteLength_takeBytes_le n cs)

theorem eq_nil_of_measure {cs : List Char} (none' : encoding.measure cs = 0) : cs = [] := by
  cases cs with
  | nil => rfl
  | cons c cs =>
      have := encoding.width_pos c
      rw [measure] at none'
      omega

/-- A leading part that counts as much as the whole is the whole. -/
theorem eq_of_measure {xs ys : List Char} (starts : xs <+: ys)
    (measure_eq : encoding.measure xs = encoding.measure ys) : xs = ys := by
  obtain ⟨rest, rfl⟩ := starts
  rw [measure_append] at measure_eq
  have none' : encoding.measure rest = 0 := by omega
  rw [eq_nil_of_measure none', List.append_nil]

theorem measure_utf8 (cs : List Char) : utf8.measure cs = byteLength cs := by
  induction cs with
  | nil => rfl
  | cons c cs ih =>
      rw [measure, ih]
      rfl

theorem takeAtLeast_cons {n : Nat} (pos : 0 < n) (c : Char) (cs : List Char) :
    encoding.takeAtLeast n (c :: cs) = c :: encoding.takeAtLeast (n - encoding.width c) cs := by
  obtain ⟨n, rfl⟩ := Nat.exists_eq_succ_of_ne_zero (Nat.ne_of_gt pos)
  rfl

theorem takeAtLeast_zero (cs : List Char) : encoding.takeAtLeast 0 cs = [] := by
  cases cs <;> rfl

theorem takeAtLeast_measure (xs ys : List Char) :
    encoding.takeAtLeast (encoding.measure xs) (xs ++ ys) = xs := by
  induction xs with
  | nil => exact takeAtLeast_zero ys
  | cons x xs ih =>
      have pos := encoding.width_pos x
      rw [measure, List.cons_append, takeAtLeast_cons (by omega), Nat.add_sub_cancel_left, ih]

theorem takeAtLeast_of_le {n : Nat} {cs : List Char} (le : encoding.measure cs ≤ n) :
    encoding.takeAtLeast n cs = cs := by
  induction cs generalizing n with
  | nil => cases n <;> rfl
  | cons c cs ih =>
      have pos := encoding.width_pos c
      rw [measure] at le
      rw [takeAtLeast_cons (by omega), ih (by omega)]

/-- The measure of a leading part leads back to it. -/
theorem before_measure (xs ys : List Char) : encoding.before (encoding.measure xs) (xs ++ ys) = xs := by
  cases encoding with
  | utf16 => exact takeAtLeast_measure xs ys
  | utf8 =>
      rw [measure_utf8]
      exact takeBytes_append xs ys

theorem before_of_le {n : Nat} {cs : List Char} (le : encoding.measure cs ≤ n) :
    encoding.before n cs = cs := by
  cases encoding with
  | utf16 => exact takeAtLeast_of_le le
  | utf8 =>
      rw [measure_utf8] at le
      exact takeBytes_of_le le

theorem before_measure_takeBytes (n : Nat) (content ending : List Char) :
    encoding.before (encoding.measure (takeBytes n (content ++ ending))) content =
      takeBytes n content := by
  by_cases inside : n ≤ byteLength content
  · have back := encoding.before_measure (takeBytes n content) (dropBytes n content)
    rw [takeBytes_append_dropBytes] at back
    rw [takeBytes_append_left ending inside, back]
  -- What is measured reaches into the break, so that the column lies behind the content.
  · obtain ⟨beyond, rfl⟩ : ∃ k, n = byteLength content + k := ⟨n - byteLength content, by omega⟩
    rw [takeBytes_append_right, measure_append, before_of_le (Nat.le_add_right _ _),
      takeBytes_of_le (Nat.le_add_right _ _)]

end PositionEncoding

namespace Source

variable {s : Source} {encoding : PositionEncoding} {offset : Nat}

theorem byteLength_eq (s : Source) : s.byteLength = Text.byteLength s.text.toList :=
  utf8ByteSize_eq s.text

theorem lineCount_le (s : Source) : s.lineCount ≤ s.byteLength + 1 := by
  rw [lineCount, s.lines_eq, List.size_toArray, byteLength_eq]
  exact (tiles_lines s.text.toList).length_le

theorem toOffset_of_lineCount_le {p : Position} (le : UInt32.ofNat s.lineCount ≤ p.line) :
    s.toOffset encoding p = s.byteLength :=
  if_pos le

theorem toOffset_of_line {number column : Nat} {line : Line} (found : s.lines[number]? = some line)
    (lines : s.lineCount < UInt32.size) (fits : column < UInt32.size) :
    s.toOffset encoding ⟨UInt32.ofNat number, UInt32.ofNat column⟩ =
      line.start + Text.byteLength (encoding.before column line.content) := by
  have lt : number < s.lineCount := (Array.getElem?_eq_some_iff.mp found).1
  have number_fits : number < UInt32.size := Nat.lt_trans lt lines
  have inside : ¬UInt32.ofNat s.lineCount ≤ UInt32.ofNat number := by
    rw [UInt32.ofNat_le_iff_le lines number_fits]
    exact Nat.not_le.mpr lt
  rw [toOffset, if_neg inside, UInt32.toNat_ofNat_of_lt' number_fits, found,
    UInt32.toNat_ofNat_of_lt' fits]

/-- The line of an offset in the text tells where a cursor can stand there. -/
theorem exists_line_of_le (le : offset ≤ s.byteLength) :
    ∃ number line, s.lineOf? offset = some number ∧ s.lines[number]? = some line ∧
      line.start + floorBoundary (offset - line.start) line.content =
        cursorFloor s.text.toList offset := by
  obtain ⟨line, found, place⟩ := (tiles_lines s.text.toList).cursorFloor_eq (Nat.zero_le offset)
  refine ⟨s.linesUpTo offset - 1, line, ?_, ?_, ?_⟩
  · exact if_neg (Nat.not_lt.mpr le)
  · rw [linesUpTo, s.lines_eq, List.findIdx_toArray, List.getElem?_toArray]
    exact found
  · rw [place, Nat.zero_add, Nat.sub_zero]

theorem toPosition_of_lt (past : s.byteLength < offset) :
    s.toPosition encoding offset = ⟨UInt32.ofNat s.lineCount, 0⟩ := by
  rw [toPosition, show s.lineOf? offset = none from if_pos past]

theorem toOffset_toPosition_of_lt (past : s.byteLength < offset) :
    s.toOffset encoding (s.toPosition encoding offset) = s.byteLength := by
  rw [toPosition_of_lt past]
  exact toOffset_of_lineCount_le (UInt32.le_refl _)

theorem toOffset_toPosition_of_le (bytes : s.byteLength < UInt32.size)
    (lines : s.lineCount < UInt32.size) (le : offset ≤ s.byteLength) :
    s.toOffset encoding (s.toPosition encoding offset) = cursorFloor s.text.toList offset := by
  obtain ⟨number, line, numbered, found, place⟩ := exists_line_of_le le
  have fits : encoding.measure (takeBytes (offset - line.start) line.chars) < UInt32.size := by
    have := encoding.measure_takeBytes_le (offset - line.start) line.chars
    omega
  rw [toPosition, numbered]
  simp only [found]
  rw [toOffset_of_line found lines fits, Line.chars, PositionEncoding.before_measure_takeBytes]
  exact place

/-- An offset comes back from its position moved to where a cursor can stand, if the numbers of bytes
and of lines fit what clients count with. -/
theorem toOffset_toPosition (s : Source) (bytes : s.byteLength < UInt32.size)
    (lines : s.lineCount < UInt32.size) (encoding : PositionEncoding) (offset : Nat) :
    let back := s.toOffset encoding (s.toPosition encoding offset)
    (s.byteLength < offset → back = s.byteLength) ∧
      (SplitsPair offset s.text.toList → back + 1 = offset) ∧
      (offset ≤ s.byteLength → ¬SplitsPair offset s.text.toList →
        back = floorBoundary offset s.text.toList) ∧
      (IsBoundary offset s.text.toList → ¬SplitsPair offset s.text.toList → back = offset) := by
  intro back
  have inside (le : offset ≤ s.byteLength) : back = cursorFloor s.text.toList offset :=
    toOffset_toPosition_of_le bytes lines le
  refine ⟨toOffset_toPosition_of_lt, fun splits => ?_, fun le whole => ?_, fun boundary whole => ?_⟩
  · rw [inside (s.byteLength_eq ▸ splits.le), cursorFloor_of_splitsPair splits]
  · rw [inside le, cursorFloor_of_not_splitsPair whole]
  · rw [inside (s.byteLength_eq ▸ boundary.le), cursorFloor_of_not_splitsPair whole]
    exact boundary

/-- Cursors inside a pair and inside a character, behind a character of two bytes. -/
theorem toOffset_toPosition_pair_and_emoji :
    let s := Source.new "a.rb" (String.ofList ['é', '\r', '\n', '😀']) (.leaf .program ⟨0, 8⟩)
    s.toOffset .utf16 (s.toPosition .utf16 3) + 1 = 3 ∧
      s.toOffset .utf8 (s.toPosition .utf8 6) = 4 := by
  intro s
  have text_eq : s.text.toList = ['é', '\r', '\n', '😀'] := String.toList_ofList
  have bytes : s.byteLength < UInt32.size := by
    rw [byteLength_eq, text_eq]
    decide
  have lines : s.lineCount < UInt32.size := by
    rw [lineCount, s.lines_eq, text_eq]
    decide
  have whole : ¬SplitsPair 6 s.text.toList := by
    rw [text_eq]
    simp +decide [splitsPair_cons, splitsPair_nil]
  refine ⟨(toOffset_toPosition s bytes lines .utf16 3).2.1 ⟨['é'], ['😀'], text_eq, rfl⟩, ?_⟩
  rw [(toOffset_toPosition s bytes lines .utf8 6).2.2.1 (by rw [byteLength_eq, text_eq]; decide) whole,
    text_eq]
  rfl

/-! ## Too many lines -/

/-- With one line more than clients can count, every position is taken for one behind the text. -/
theorem toOffset_of_lineCount_eq {s : Source} (count : s.lineCount = UInt32.size)
    (encoding : PositionEncoding) (p : Position) : s.toOffset encoding p = s.byteLength := by
  refine toOffset_of_lineCount_le ?_
  rw [count]
  exact UInt32.zero_le

theorem length_linesFrom_lineFeeds (start n : Nat) :
    (linesFrom start [] (List.replicate n '\n')).length = n + 1 := by
  induction n generalizing start with
  | zero => rfl
  | succ n ih => exact congrArg (· + 1) (ih _)

theorem byteLength_lineFeeds (n : Nat) : Text.byteLength (List.replicate n '\n') = n := by
  induction n with
  | zero => rfl
  | succ n ih =>
      rw [List.replicate_succ, Text.byteLength, ih]
      exact Nat.add_comm 1 n

/-- The start of a text of as many line feeds as fit 32 bits does not come back from its position. -/
theorem start_of_line_feeds_lost :
    let text := String.ofList (List.replicate 4294967295 '\n')
    let s := Source.new "a.rb" text (.leaf .program ⟨0, 0⟩)
    s.byteLength < UInt32.size ∧ IsBoundary 0 s.text.toList ∧ ¬SplitsPair 0 s.text.toList ∧
      ∀ encoding, s.toOffset encoding (s.toPosition encoding 0) ≠ 0 := by
  intro text s
  have text_eq : s.text.toList = List.replicate 4294967295 '\n' := String.toList_ofList
  have bytes : s.byteLength = 4294967295 := by
    rw [byteLength_eq, text_eq, byteLength_lineFeeds]
  have count : s.lineCount = UInt32.size := by
    rw [lineCount, s.lines_eq, List.size_toArray, text_eq]
    exact length_linesFrom_lineFeeds 0 4294967295
  refine ⟨?_, ?_, ?_, fun encoding => ?_⟩
  · rw [bytes]
    decide
  · rw [IsBoundary, floorBoundary, takeBytes_zero, Text.byteLength]
  · rintro ⟨before, after, -, zero⟩
    omega
  · rw [toOffset_of_lineCount_eq count, bytes]
    decide

/-! ## Two encodings -/

/-- Numbers that fit 32 bits are told apart by them. -/
theorem eq_of_ofNat_eq {m n : Nat} (fits : m < UInt32.size) (fits' : n < UInt32.size)
    (same : UInt32.ofNat m = UInt32.ofNat n) : m = n := by
  have same := congrArg UInt32.toNat same
  rwa [UInt32.toNat_ofNat_of_lt' fits, UInt32.toNat_ofNat_of_lt' fits'] at same

/-- The number of the line of an offset. What lies behind the text has a line of its own. -/
def lineNumber (s : Source) (offset : Nat) : Nat :=
  (s.lineOf? offset).getD s.lineCount

theorem line_toPosition_eq (encoding : PositionEncoding) (offset : Nat) :
    (s.toPosition encoding offset).line = UInt32.ofNat (s.lineNumber offset) := by
  rw [toPosition, lineNumber]
  cases s.lineOf? offset with
  | none => rfl
  | some number =>
      dsimp only [Option.getD_some]
      cases s.lines[number]? with
      | none => rfl
      | some line => rfl

theorem line_toPosition (encoding encoding' : PositionEncoding) (offset : Nat) :
    (s.toPosition encoding offset).line = (s.toPosition encoding' offset).line := by
  rw [line_toPosition_eq, line_toPosition_eq]

section Encodings

variable (bytes : s.byteLength < UInt32.size) (encoding encoding' : PositionEncoding) (offset : Nat)
include bytes

/-- A position tells the number of a line and the measure of a leading part of it, in any encoding. -/
theorem exists_leading : ∃ number leading,
    (∀ encoding, s.toPosition encoding offset =
      ⟨UInt32.ofNat number, UInt32.ofNat (encoding.measure leading)⟩) ∧
      (∀ encoding : PositionEncoding, encoding.measure leading < UInt32.size) ∧
      (leading ≠ [] → ∃ line, s.lines[number]? = some line ∧ leading <+: line.chars) := by
  rcases Nat.lt_or_ge s.byteLength offset with past | le
  · refine ⟨s.lineCount, [], fun encoding => ?_, fun _ => Nat.succ_pos _, fun some' => absurd rfl some'⟩
    rw [toPosition_of_lt past]
    rfl
  · obtain ⟨number, line, numbered, found, -⟩ := exists_line_of_le le
    refine ⟨number, takeBytes (offset - line.start) line.chars, fun encoding => ?_, fun encoding => ?_,
      fun _ => ⟨line, found, _, takeBytes_append_dropBytes _ _⟩⟩
    · rw [toPosition, numbered]
      simp only [found]
    · have := encoding.measure_takeBytes_le (offset - line.start) line.chars
      omega

/-- An offset comes back from its positions in two encodings in the same way. -/
theorem toOffset_toPosition_eq : s.toOffset encoding (s.toPosition encoding offset) =
    s.toOffset encoding' (s.toPosition encoding' offset) := by
  rcases Nat.lt_or_ge s.byteLength offset with past | le
  · rw [toOffset_toPosition_of_lt past, toOffset_toPosition_of_lt past]
  have count := s.lineCount_le
  rcases Nat.lt_or_ge s.lineCount UInt32.size with lines | many
  · rw [toOffset_toPosition_of_le bytes lines le, toOffset_toPosition_of_le bytes lines le]
  · have count_eq : s.lineCount = UInt32.size := by omega
    rw [toOffset_of_lineCount_eq count_eq, toOffset_of_lineCount_eq count_eq]

/-- Offsets that have the same position in one encoding have the same position in another one. -/
theorem toPosition_eq_of_eq {offset' : Nat}
    (same : s.toPosition encoding offset = s.toPosition encoding offset') :
    s.toPosition encoding' offset = s.toPosition encoding' offset' := by
  obtain ⟨number, leading, position, fits, held⟩ := exists_leading bytes offset
  obtain ⟨number', leading', position', fits', held'⟩ := exists_leading bytes offset'
  rw [position, position'] at same ⊢
  obtain ⟨number_eq, measure_eq⟩ := Position.mk.inj same
  have measure_eq : encoding.measure leading = encoding.measure leading' :=
    eq_of_ofNat_eq (fits encoding) (fits' encoding) measure_eq
  have leading_eq : leading = leading' := by
    by_cases none' : leading = []
    · rw [none', PositionEncoding.measure] at measure_eq
      rw [none', PositionEncoding.eq_nil_of_measure measure_eq.symm]
    by_cases none'' : leading' = []
    · rw [none'', PositionEncoding.measure] at measure_eq
      rw [none'', PositionEncoding.eq_nil_of_measure measure_eq]
    obtain ⟨line, found, starts⟩ := held none'
    obtain ⟨line', found', starts'⟩ := held' none''
    obtain rfl : number = number' := by
      have count := s.lineCount_le
      have lt : number < s.lineCount := (Array.getElem?_eq_some_iff.mp found).1
      have lt' : number' < s.lineCount := (Array.getElem?_eq_some_iff.mp found').1
      exact eq_of_ofNat_eq (by omega) (by omega) number_eq
    obtain rfl : line = line' := Option.some.inj (found.symm.trans found')
    rcases List.prefix_or_prefix_of_prefix starts starts' with shorter | shorter
    · exact PositionEncoding.eq_of_measure shorter measure_eq
    · exact (PositionEncoding.eq_of_measure shorter measure_eq.symm).symm
  rw [number_eq, leading_eq]

end Encodings

end Source

namespace Session

/-- A question asked about an offset is asked about the place where a cursor can stand there. -/
theorem toOffset_locate {w : Workspace} {first document : Option String} {path : String}
    {p : Position} {offset : Nat}
    (located : locate w first document (some (.offset offset)) = .ok (path, p)) :
    ∃ s, w.source? path = some s ∧ offset ≤ s.byteLength ∧
      (s.byteLength < UInt32.size → s.lineCount < UInt32.size →
        w.toOffset s p = cursorFloor s.text.toList offset) := by
  cases named : Session.document first document with
  | error failure =>
      rw [locate, named] at located
      cases located
  | ok named_path =>
      simp only [locate, named, Workspace.source, Failure.needing, bind, Except.bind] at located
      cases loaded : w.source? named_path with
      | none =>
          rw [loaded] at located
          cases located
      | some s =>
          simp only [loaded] at located
          split at located
          · cases located
          · rename_i inside
            cases located
            have le := Nat.not_lt.mp inside
            exact ⟨s, loaded, le, fun bytes lines => s.toOffset_toPosition_of_le bytes lines le⟩

end Session

end CodeAtlas
