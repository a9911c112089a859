import CodeAtlas.Proofs.Position.Order

/-!
# Where positions lead

Each position leads to a place of the text where a cursor can stand. In a line of the text this is a place
before the break of the line, at the start of the character that a column counted in bytes falls into, or
behind the one that a column counted in UTF-16 units falls into. Positions come back from their offsets if
they name such a place themselves, and only then.
-/

namespace CodeAtlas

open Text

/-! ## Columns -/

/-- `leading` is the last leading part of a text that takes at most `n` bytes. -/
def Text.LastWithin (n : Nat) (cs leading : List Char) : Prop :=
  leading <+: cs ∧ byteLength leading ≤ n ∧
    ∀ other, other <+: cs → byteLength other ≤ n → byteLength other ≤ byteLength leading

namespace PositionEncoding

variable {encoding : PositionEncoding} {m n : Nat} {xs cs : List Char}

/-- `leading` is the first leading part of a text that counts at least `n`, or all of it if none does. -/
def FirstReaching (encoding : PositionEncoding) (n : Nat) (cs leading : List Char) : Prop :=
  leading <+: cs ∧ (n ≤ encoding.measure leading ∨ leading = cs ∧ encoding.measure cs < n) ∧
    ∀ other, other <+: cs → n ≤ encoding.measure other → byteLength leading ≤ byteLength other

/-- `leading` is the part of a line's content before a column, as clients understand columns. -/
def Cuts (encoding : PositionEncoding) (column : Nat) (content leading : List Char) : Prop :=
  match encoding with
  | .utf8 => LastWithin column content leading
  | .utf16 => utf16.FirstReaching column content leading

theorem takeAtLeast_isPrefix (n : Nat) (cs : List Char) : encoding.takeAtLeast n cs <+: cs := by
  fun_induction encoding.takeAtLeast n cs with
  | case1 => exact List.nil_prefix
  | case2 => exact List.nil_prefix
  | case3 n c cs ih => exact (List.prefix_cons_inj c).mpr ih

theorem le_measure_takeAtLeast (n : Nat) (cs : List Char) :
    n ≤ encoding.measure (encoding.takeAtLeast n cs) ∨ encoding.takeAtLeast n cs = cs := by
  fun_induction encoding.takeAtLeast n cs with
  | case1 => exact .inl (Nat.zero_le _)
  | case2 => exact .inr rfl
  | case3 n c cs ih =>
      rcases ih with reaches | whole
      · left
        rw [measure]
        omega
      · exact .inr (congrArg _ whole)

/-- No leading part that counts as much is shorter. -/
theorem takeAtLeast_isPrefix_of_le (starts : xs <+: cs) (reaches : n ≤ encoding.measure xs) :
    encoding.takeAtLeast n cs <+: xs := by
  obtain ⟨rest, rfl⟩ := starts
  induction xs generalizing n with
  | nil =>
      obtain rfl := Nat.le_zero.mp reaches
      simp [takeAtLeast_zero]
  | cons x xs ih =>
      rcases Nat.eq_zero_or_pos n with rfl | pos
      · rw [takeAtLeast_zero]
        exact List.nil_prefix
      · rw [measure] at reaches
        rw [List.cons_append, takeAtLeast_cons pos, List.prefix_cons_inj]
        exact ih (by omega)

theorem before_isPrefix (n : Nat) (cs : List Char) : encoding.before n cs <+: cs := by
  cases encoding with
  | utf16 => exact takeAtLeast_isPrefix n cs
  | utf8 => exact ⟨_, takeBytes_append_dropBytes n cs⟩

theorem cuts_before (n : Nat) (cs : List Char) : encoding.Cuts n cs (encoding.before n cs) := by
  refine match encoding with
    | .utf8 => ⟨before_isPrefix n cs, byteLength_takeBytes_le n cs, fun other starts within => ?_⟩
    | .utf16 => ⟨before_isPrefix n cs, ?_, fun other starts reaches => ?_⟩
  · obtain ⟨rest, rfl⟩ := starts
    have shorter := takeBytes_prefix within (other ++ rest)
    rw [takeBytes_append] at shorter
    exact byteLength_le_of_isPrefix shorter
  · rcases Nat.lt_or_ge (utf16.measure (utf16.takeAtLeast n cs)) n with short | reaches
    · have whole := (le_measure_takeAtLeast n cs).resolve_left (Nat.not_le.mpr short)
      exact .inr ⟨whole, whole ▸ short⟩
    · exact .inl reaches
  · exact byteLength_le_of_isPrefix (takeAtLeast_isPrefix_of_le starts reaches)

end PositionEncoding

namespace Source

variable {s : Source} {encoding : PositionEncoding} {p : Position}

/-! ## Offsets of positions -/

theorem getElem?_lines (s : Source) (number : Nat) :
    s.lines[number]? = (Text.lines s.text.toList)[number]? := by
  rw [s.lines_eq, List.getElem?_toArray]

/-- A position leads to the end of the text, or into its line. -/
theorem toOffset_cases (s : Source) (encoding : PositionEncoding) (p : Position) :
    (UInt32.ofNat s.lineCount ≤ p.line ∧ s.toOffset encoding p = s.byteLength) ∨
      ∃ line, p.line < UInt32.ofNat s.lineCount ∧ s.lines[p.line.toNat]? = some line ∧
        s.toOffset encoding p =
          line.start + Text.byteLength (encoding.before p.character.toNat line.content) := by
  by_cases past : UInt32.ofNat s.lineCount ≤ p.line
  · exact .inl ⟨past, if_pos past⟩
  · have before := UInt32.not_le.mp past
    have inside : p.line.toNat < s.lineCount := by
      have lt := UInt32.lt_iff_toNat_lt.mp before
      rw [UInt32.toNat_ofNat'] at lt
      exact Nat.lt_of_lt_of_le lt (Nat.mod_le _ _)
    obtain ⟨line, found⟩ : ∃ line, s.lines[p.line.toNat]? = some line :=
      ⟨_, Array.getElem?_eq_getElem inside⟩
    refine .inr ⟨line, before, found, ?_⟩
    rw [toOffset, if_neg past, found]

theorem toOffset_of_getElem? (lines : s.lineCount < UInt32.size) (encoding : PositionEncoding)
    {line : Line} (found : s.lines[p.line.toNat]? = some line) : s.toOffset encoding p =
      line.start + Text.byteLength (encoding.before p.character.toNat line.content) := by
  have offset_eq : s.toOffset encoding ⟨.ofNat p.line.toNat, .ofNat p.character.toNat⟩ = _ :=
    toOffset_of_line found lines p.character.toNat_lt
  rwa [UInt32.ofNat_toNat, UInt32.ofNat_toNat] at offset_eq

/-- Wherever a position leads, a cursor can stand. -/
theorem cursorFloor_toOffset (s : Source) (encoding : PositionEncoding) (p : Position) :
    cursorFloor s.text.toList (s.toOffset encoding p) = s.toOffset encoding p := by
  rcases s.toOffset_cases encoding p with ⟨-, offset_eq⟩ | ⟨line, -, found, offset_eq⟩
  · rw [offset_eq, byteLength_eq, cursorFloor_byteLength]
  · rw [getElem?_lines] at found
    obtain ⟨k, start_eq, stays⟩ := (tiles_lines s.text.toList).cursorFloor_of_isPrefix found
      (encoding.before_isPrefix p.character.toNat line.content)
    rw [offset_eq, start_eq, Nat.zero_add, stays]

theorem toOffset_le (s : Source) (encoding : PositionEncoding) (p : Position) :
    s.toOffset encoding p ≤ s.byteLength := by
  rw [byteLength_eq]
  exact (cursorFloor_eq_self_iff.mp (s.cursorFloor_toOffset encoding p)).1.le

/-! ## There and back -/

/-- A position names a place in its line where a cursor can stand, before the break of the line. -/
def Names (s : Source) (encoding : PositionEncoding) (p : Position) : Prop :=
  ∃ line leading, s.lines[p.line.toNat]? = some line ∧ leading <+: line.content ∧
    encoding.measure leading = p.character.toNat

theorem start_add_le {number : Nat} {line : Line} (found : s.lines[number]? = some line)
    {leading : List Char} (starts : leading <+: line.content) :
    line.start + Text.byteLength leading ≤ s.byteLength := by
  rw [getElem?_lines] at found
  obtain ⟨k, start_eq, stays⟩ := (tiles_lines s.text.toList).cursorFloor_of_isPrefix found starts
  rw [start_eq, Nat.zero_add, byteLength_eq]
  exact (cursorFloor_eq_self_iff.mp stays).1.le

/-- The position of a place in what a line holds. -/
theorem toPosition_of_isPrefix (encoding : PositionEncoding) {number : Nat} {line : Line}
    (found : s.lines[number]? = some line) {leading : List Char} (starts : leading <+: line.content) :
    s.toPosition encoding (line.start + Text.byteLength leading) =
      ⟨UInt32.ofNat number, UInt32.ofNat (encoding.measure leading)⟩ := by
  have numbered : s.lineOf? (line.start + Text.byteLength leading) = some number := by
    have idx := (tiles_lines s.text.toList).findIdx_eq (s.getElem?_lines number ▸ found)
      (Nat.le_add_right _ _) (Nat.add_le_add_left (byteLength_le_of_isPrefix starts) line.start)
    rw [lineOf?, if_neg (Nat.not_lt.mpr (start_add_le found starts)), linesUpTo, s.lines_eq,
      List.findIdx_toArray, idx, Nat.add_sub_cancel]
  obtain ⟨rest, content_eq⟩ := starts
  rw [toPosition, numbered]
  simp only [found, Nat.add_sub_cancel_left]
  rw [Line.chars, ← content_eq, List.append_assoc, takeBytes_append]

theorem measure_lt_of_isPrefix (bytes : s.byteLength < UInt32.size) {number : Nat} {line : Line}
    (found : s.lines[number]? = some line) {leading : List Char} (starts : leading <+: line.content) :
    encoding.measure leading < UInt32.size := by
  have le := start_add_le found starts
  have := encoding.measure_le_byteLength leading
  omega

/-- A position comes back from its offset if it names a place in a line, and only then. -/
theorem toPosition_toOffset_iff (bytes : s.byteLength < UInt32.size) (lines : s.lineCount < UInt32.size) :
    s.toPosition encoding (s.toOffset encoding p) = p ↔ s.Names encoding p := by
  constructor
  · intro back
    rcases s.toOffset_cases encoding p with ⟨past, offset_eq⟩ | ⟨line, -, found, offset_eq⟩
    -- The end of the text lies in its last line, which is before the line of the position.
    · obtain ⟨line, found, -, position⟩ := s.toPosition_of_le encoding bytes (Nat.le_refl _)
      have lt : s.linesUpTo s.byteLength - 1 < s.lineCount := (Array.getElem?_eq_some_iff.mp found).1
      rw [offset_eq, position] at back
      rw [← back, UInt32.ofNat_le_iff_le lines (Nat.lt_trans lt lines)] at past
      exact absurd lt (Nat.not_lt.mpr past)
    · have starts := encoding.before_isPrefix p.character.toNat line.content
      rw [offset_eq, toPosition_of_isPrefix encoding found starts] at back
      have character_eq := congrArg (fun q => q.character.toNat) back
      rw [UInt32.toNat_ofNat_of_lt' (measure_lt_of_isPrefix bytes found starts)] at character_eq
      exact ⟨line, _, found, starts, character_eq⟩
  · rintro ⟨line, leading, found, starts, measure_eq⟩
    obtain ⟨rest, content_eq⟩ := starts
    rw [toOffset_of_getElem? lines encoding found, ← measure_eq, ← content_eq, encoding.before_measure,
      toPosition_of_isPrefix encoding found ⟨rest, content_eq⟩, measure_eq, UInt32.ofNat_toNat,
      UInt32.ofNat_toNat]

/-- A position leads to a place where a cursor can stand: to the end of the text if there is no such line,
and else into the line, as columns are understood. It comes back from there if it names the place. -/
theorem toOffset_clamped (s : Source) (bytes : s.byteLength < UInt32.size) (encoding : PositionEncoding)
    (p : Position) :
    let offset := s.toOffset encoding p
    offset ≤ s.byteLength ∧ IsBoundary offset s.text.toList ∧ ¬SplitsPair offset s.text.toList ∧
      (s.lineCount < UInt32.size →
        (s.lineCount ≤ p.line.toNat → offset = s.byteLength) ∧
        (∀ line, s.lines[p.line.toNat]? = some line → ∃ leading,
          encoding.Cuts p.character.toNat line.content leading ∧
            offset = line.start + Text.byteLength leading) ∧
        (s.toPosition encoding offset = p ↔ s.Names encoding p)) ∧
      (s.lineCount = UInt32.size → offset = s.byteLength) := by
  intro offset
  obtain ⟨boundary, whole⟩ := cursorFloor_eq_self_iff.mp (s.cursorFloor_toOffset encoding p)
  refine ⟨s.toOffset_le encoding p, boundary, whole, fun lines => ⟨fun past => ?_, ?_, ?_⟩,
    fun count => toOffset_of_lineCount_eq count encoding p⟩
  · refine toOffset_of_lineCount_le ?_
    rwa [UInt32.le_iff_toNat_le, UInt32.toNat_ofNat_of_lt' lines]
  · intro line found
    exact ⟨_, encoding.cuts_before _ _, toOffset_of_getElem? lines encoding found⟩
  · exact toPosition_toOffset_iff bytes lines

/-- A column inside an emoji, of which the second half does not stand for a place of its own. -/
theorem toOffset_inside_emoji :
    let s := Source.new "a.rb" (String.ofList ['é', '😀', '\r', '\n', 'b']) (.leaf .program ⟨0, 9⟩)
    s.byteLength < UInt32.size ∧ s.toOffset .utf16 ⟨0, 2⟩ = 6 ∧
      s.toPosition .utf16 (s.toOffset .utf16 ⟨0, 2⟩) ≠ ⟨0, 2⟩ ∧ s.toOffset .utf8 ⟨7, 1⟩ = 9 := by
  intro s
  have text_eq : s.text.toList = ['é', '😀', '\r', '\n', 'b'] := String.toList_ofList
  have bytes : s.byteLength < UInt32.size := by
    rw [byteLength_eq, text_eq]
    decide
  have lines : s.lineCount < UInt32.size := by
    rw [lineCount, s.lines_eq, text_eq]
    decide
  have first : s.lines[(0 : UInt32).toNat]? = some ⟨0, ['é', '😀'], some .both⟩ := by
    rw [getElem?_lines, text_eq]
    rfl
  have parts {leading : List Char} (starts : leading <+: ['é', '😀']) :
      leading = [] ∨ leading = ['é'] ∨ leading = ['é', '😀'] := by
    rcases List.prefix_cons_iff.mp starts with rfl | ⟨inner, rfl, starts'⟩
    · exact .inl rfl
    rcases List.prefix_cons_iff.mp starts' with rfl | ⟨inner, rfl, none'⟩
    · exact .inr (.inl rfl)
    · rw [List.prefix_nil.mp none']
      exact .inr (.inr rfl)
  obtain ⟨-, -, -, usual, -⟩ := toOffset_clamped s bytes .utf16 ⟨0, 2⟩
  obtain ⟨-, inside, back⟩ := usual lines
  refine ⟨bytes, ?_, fun same => ?_, ?_⟩
  · obtain ⟨leading, ⟨starts, reaches, -⟩, offset_eq⟩ := inside _ first
    rcases parts starts with rfl | rfl | rfl
    · exact absurd reaches (by decide)
    · exact absurd reaches (by decide)
    · exact offset_eq
  · obtain ⟨line, leading, found, starts, measure_eq⟩ := back.mp same
    cases first.symm.trans found
    rcases parts starts with rfl | rfl | rfl <;> exact absurd measure_eq (by decide)
  · rw [((toOffset_clamped s bytes .utf8 ⟨7, 1⟩).2.2.2.1 lines).1 ?_, byteLength_eq, text_eq]
    · rfl
    · rw [lineCount, s.lines_eq, text_eq]
      decide

/-! ## Too many lines -/

section Overfull

variable (bytes : s.byteLength < UInt32.size) (count : s.lineCount = UInt32.size)
include bytes count

/-- With one line more than clients can count, each offset in the text has a line of its own. -/
theorem exists_line_of_lineCount_eq {offset : Nat} (le : offset ≤ s.byteLength) :
    ∃ line, s.lines[offset]? = some line ∧ line.start = offset := by
  have most : (Text.lines s.text.toList).length = Text.byteLength s.text.toList + 1 := by
    have bound := s.lineCount_le
    have length_eq : (Text.lines s.text.toList).length = s.lineCount := by
      rw [lineCount, s.lines_eq, List.size_toArray]
    rw [← byteLength_eq]
    omega
  have inside : offset < s.lineCount := by omega
  obtain ⟨line, found⟩ : ∃ line, s.lines[offset]? = some line := ⟨_, Array.getElem?_eq_getElem inside⟩
  have start_eq := (tiles_lines s.text.toList).start_eq_of_length most (s.getElem?_lines offset ▸ found)
  exact ⟨line, found, start_eq.trans (Nat.zero_add offset)⟩

theorem toPosition_of_lineCount_eq (encoding : PositionEncoding) {offset : Nat}
    (le : offset ≤ s.byteLength) : s.toPosition encoding offset = ⟨UInt32.ofNat offset, 0⟩ := by
  obtain ⟨line, found, start_eq⟩ := exists_line_of_lineCount_eq bytes count le
  have position := toPosition_of_isPrefix encoding found (List.nil_prefix (l := line.content))
  rw [start_eq] at position
  exact position

end Overfull

section LineFeeds

variable (path : String) (root : SyntaxNode) (n : Nat)

/-- A source with a text of line feeds. -/
def ofLineFeeds : Source :=
  new path (String.ofList (List.replicate n '\n')) root

theorem toList_ofLineFeeds : (ofLineFeeds path root n).text.toList = List.replicate n '\n' :=
  String.toList_ofList

theorem byteLength_ofLineFeeds : (ofLineFeeds path root n).byteLength = n := by
  rw [byteLength_eq, toList_ofLineFeeds, byteLength_lineFeeds]

theorem lineCount_ofLineFeeds : (ofLineFeeds path root n).lineCount = n + 1 := by
  rw [lineCount, lines_eq, List.size_toArray, toList_ofLineFeeds]
  exact length_linesFrom_lineFeeds 0 n

end LineFeeds

/-- The start of the first of as many line feeds as fit 32 bits is not found. -/
theorem first_line_feed_missed :
    let s := ofLineFeeds "a.rb" (.leaf .program ⟨0, 0⟩) 4294967295
    s.byteLength < UInt32.size ∧ (∃ line, s.lines[0]? = some line ∧ line.start = 0) ∧
      ∀ encoding, s.Names encoding ⟨0, 0⟩ ∧ s.toOffset encoding ⟨0, 0⟩ = 4294967295 ∧
        s.toPosition encoding (s.toOffset encoding ⟨0, 0⟩) ≠ ⟨0, 0⟩ := by
  intro s
  have length_eq : s.byteLength = 4294967295 := byteLength_ofLineFeeds _ _ _
  have count : s.lineCount = UInt32.size := lineCount_ofLineFeeds _ _ _
  have bytes : s.byteLength < UInt32.size := by
    rw [length_eq]
    decide
  obtain ⟨line, found, start_eq⟩ := exists_line_of_lineCount_eq bytes count (Nat.zero_le s.byteLength)
  have names (encoding : PositionEncoding) : s.Names encoding ⟨0, 0⟩ :=
    ⟨line, [], found, List.nil_prefix, rfl⟩
  refine ⟨bytes, ⟨line, found, start_eq⟩, fun encoding => ⟨names encoding, ?_, ?_⟩⟩
  · rw [toOffset_of_lineCount_eq count, length_eq]
  · rw [toOffset_of_lineCount_eq count, toPosition_of_lineCount_eq bytes count encoding (Nat.le_refl _),
      length_eq]
    decide

end Source

end CodeAtlas
