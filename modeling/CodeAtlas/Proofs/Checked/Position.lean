import CodeAtlas.PrefixIndex.Graph
import CodeAtlas.Proofs.Position
import Mathlib.Data.List.DropRight

/-!
# Conversions with checked steps

A machine stops where a text is cut within a character, where a table has no entry of a number, and
where a difference would be negative. Here each such step is checked and can fail. No conversion between
offsets and positions fails, whatever is converted: all of them come to what they come to unchecked.
-/

namespace CodeAtlas.Checked

open Text (IsBoundary byteLength dropBytes floorBoundary takeBytes)

/-- What a machine cannot do. -/
inductive Fault where
  /-- Go on in the graph of a prefix index. -/
  | index (fault : PrefixIndex.Fault)
  /-- Cut a part out of a text within a character, behind its end, or backwards. -/
  | part
  | missingByte
  | missingLine
  | missingListener
  | missingSlot
  | belowZero
deriving DecidableEq

/-! ## Steps that can fail -/

def minus (m n : Nat) : Except Fault Nat :=
  if n ≤ m then .ok (m - n) else .error .belowZero

/-- The part of a text between two byte offsets. -/
def part (cs : List Char) (start stop : Nat) : Except Fault (List Char) :=
  if start ≤ stop ∧ IsBoundary start cs ∧ IsBoundary stop cs then
    .ok (dropBytes start (takeBytes stop cs))
  else .error .part

/-- Counts down from an offset until it is between two characters. -/
def backUp (cs : List Char) : Nat → Except Fault Nat
  | 0 => if IsBoundary 0 cs then .ok 0 else .error .belowZero
  | n + 1 => if IsBoundary (n + 1) cs then .ok (n + 1) else backUp cs n

theorem minus_eq {m n : Nat} (le : n ≤ m) : minus m n = .ok (m - n) :=
  if_pos le

theorem part_append (before inside after : List Char) :
    part (before ++ (inside ++ after)) (byteLength before) (byteLength before + byteLength inside) =
      .ok inside := by
  have stop : IsBoundary (byteLength before + byteLength inside) (before ++ (inside ++ after)) := by
    rw [← Text.byteLength_append, ← List.append_assoc]
    exact Text.isBoundary_append _ _
  rw [part, if_pos ⟨Nat.le_add_right _ _, Text.isBoundary_append _ _, stop⟩,
    Text.takeBytes_append_right, Text.takeBytes_append, Text.dropBytes_append]

/-- One byte more is too few for another character, or completes it. -/
theorem takeBytes_succ (n : Nat) (cs : List Char) :
    takeBytes (n + 1) cs = takeBytes n cs ∨ IsBoundary (n + 1) cs := by
  rw [IsBoundary, floorBoundary]
  induction cs generalizing n with
  | nil => exact .inl rfl
  | cons c cs ih =>
      have pos := c.utf8Size_pos
      rw [takeBytes, takeBytes]
      rcases Nat.lt_trichotomy c.utf8Size (n + 1) with shorter | whole | longer
      · have next : n + 1 - c.utf8Size = n - c.utf8Size + 1 := by omega
        rw [if_pos (by omega), if_pos (by omega), next]
        rcases ih (n - c.utf8Size) with same | ends
        · exact .inl (congrArg _ same)
        · right
          rw [byteLength, ends]
          omega
      · right
        rw [if_pos (by omega), ← whole, Nat.sub_self, Text.takeBytes_zero]
        rfl
      · left
        rw [if_neg (by omega), if_neg (by omega)]

theorem backUp_eq (cs : List Char) (n : Nat) : backUp cs n = .ok (floorBoundary n cs) := by
  induction n with
  | zero =>
      have start : IsBoundary 0 cs := by rw [IsBoundary, floorBoundary, Text.takeBytes_zero, byteLength]
      rw [backUp, if_pos start, show floorBoundary 0 cs = 0 from start]
  | succ n ih =>
      rw [backUp]
      split
      · next boundary => rw [show floorBoundary (n + 1) cs = n + 1 from boundary]
      · next inside =>
          have same := (takeBytes_succ n cs).resolve_right inside
          rw [ih, floorBoundary, floorBoundary, same]

/-! ## Lines -/

section Lines

open Text (Line Tiles Unbroken)

variable {start : Nat} {cs : List Char} {lines : List Line}

/-- A line is a part of its text, and ends where the next one starts or the text ends. -/
theorem exists_split (tiles : Tiles start cs lines) {i : Nat} {line : Line}
    (found : lines[i]? = some line) : ∃ before after, cs = before ++ (line.chars ++ after) ∧
      line.start = start + byteLength before ∧ Unbroken line.content ∧
      (lines[i + 1]?.map Line.start).getD (start + byteLength cs) = line.stop := by
  induction tiles generalizing i with
  | @last start xs plain =>
      cases i with
      | zero =>
          cases found
          exact ⟨[], [], by simp [Line.chars], rfl, plain, by simp [Line.stop, Line.chars]⟩
      | succ i => cases found
  | @cons start xs rest ending lines plain ends tiles ih =>
      cases i with
      | zero =>
          cases found
          obtain ⟨next, others, rfl, next_start⟩ := tiles.exists_cons
          refine ⟨[], rest, by simp [Line.chars], rfl, plain, ?_⟩
          exact next_start
      | succ i =>
          obtain ⟨before, after, rfl, start_eq, plain', stop_eq⟩ := ih found
          refine ⟨xs ++ ending.chars ++ before, after, by simp, ?_, plain', ?_⟩
          · rw [start_eq, Text.byteLength_append (xs ++ ending.chars), Nat.add_assoc]
          · rw [← stop_eq, ← List.append_assoc xs, Text.byteLength_append (xs ++ ending.chars),
              Nat.add_assoc start]
            rfl

/-- The last line that starts at or before an offset in the text is not left before the offset. -/
theorem exists_around (tiles : Tiles start cs lines) {n : Nat} (le : start ≤ n)
    (inside : n ≤ start + byteLength cs) :
    ∃ line before after, 1 ≤ (lines.findIdx fun line => n < line.start) ∧
      lines[(lines.findIdx fun line => n < line.start) - 1]? = some line ∧
      cs = before ++ (line.chars ++ after) ∧ line.start = start + byteLength before ∧
      line.start ≤ n ∧ n ≤ line.stop := by
  obtain ⟨first, others, rfl, first_start⟩ := tiles.exists_cons
  generalize listed : first :: others = lines at tiles
  have begun : 1 ≤ lines.findIdx fun line => n < line.start := by
    rw [← listed, List.findIdx_cons, decide_eq_false (by omega)]
    exact Nat.le_add_left 1 _
  have bound : (lines.findIdx fun line => n < line.start) - 1 < lines.length := by
    have : (lines.findIdx fun line => n < line.start) ≤ lines.length := List.findIdx_le_length
    omega
  obtain ⟨before, after, text_eq, start_eq, -, stop_eq⟩ :=
    exists_split tiles (List.getElem?_eq_getElem bound)
  refine ⟨_, before, after, begun, List.getElem?_eq_getElem bound, text_eq, start_eq, ?_, ?_⟩
  · have lt : (lines.findIdx fun line => n < line.start) - 1 <
        lines.findIdx fun line => n < line.start := by omega
    exact Nat.not_lt.mp (of_decide_eq_false (List.not_of_lt_findIdx lt))
  -- The line ends where the next one starts, which is behind the offset, or with the text.
  · rw [← stop_eq, Nat.sub_add_cancel begun]
    cases next : lines[lines.findIdx fun line => n < line.start]? with
    | none => exact inside
    | some line =>
        obtain ⟨more, rfl⟩ := List.getElem?_eq_some_iff.mp next
        exact Nat.le_of_lt (of_decide_eq_true (List.findIdx_getElem (w := more)))

end Lines

/-! ## Conversions -/

variable (s : Source) (encoding : PositionEncoding)

def lineOf? (offset : Nat) : Except Fault (Option Nat) := do
  if s.byteLength < offset then return none
  else return some (← minus (s.linesUpTo offset) 1)

def columnOf? (offset : Nat) : Except Fault (Option Nat) := do
  match ← lineOf? s offset with
  | none => return none
  | some number =>
      match s.lines[number]? with
      | none => throw .missingLine
      | some line => return some (← minus offset line.start)

/-- The characters of a line before its break. -/
def trimmed (cs : List Char) : List Char :=
  cs.rdropWhile fun c => c = '\r' ∨ c = '\n'

/-- The byte column of a character in a line. Bytes are counted down to the start of a character, UTF-16
units are counted up. -/
def column (character : Nat) (content : List Char) : Except Fault Nat :=
  match encoding with
  | .utf8 => backUp content (min character (byteLength content))
  | .utf16 => .ok (byteLength (PositionEncoding.utf16.before character content))

def toOffset (p : Position) : Except Fault Nat := do
  if UInt32.ofNat s.lineCount ≤ p.line then return s.byteLength
  else
    match s.lineRange? p.line.toNat with
    | none => return s.byteLength
    | some range =>
        let content := trimmed (← part s.text.toList range.start range.stop)
        return range.start + (← column encoding p.character.toNat content)

def toPosition (offset : Nat) : Except Fault Position := do
  match ← lineOf? s offset with
  | none => return ⟨UInt32.ofNat s.lineCount, 0⟩
  | some number =>
      let start := (s.lineStart? number).getD 0
      let leading ← part s.text.toList start (← backUp s.text.toList offset)
      return ⟨UInt32.ofNat number, UInt32.ofNat (encoding.measure leading)⟩

def toByteRange (r : PositionRange) : Except Fault ByteRange := do
  return ⟨← toOffset s encoding r.start, ← toOffset s encoding r.stop⟩

def toPositionRange (r : ByteRange) : Except Fault PositionRange := do
  return ⟨← toPosition s encoding r.start, ← toPosition s encoding r.stop⟩

/-! ### No conversion fails -/

/-- The line of an offset in the text is in the table, and the offset is in the line or at its end. -/
theorem exists_line {s : Source} {offset : Nat} (le : offset ≤ s.byteLength) :
    ∃ line before after, 1 ≤ s.linesUpTo offset ∧ s.lines[s.linesUpTo offset - 1]? = some line ∧
      s.text.toList = before ++ (line.chars ++ after) ∧ line.start = byteLength before ∧
      line.start ≤ offset ∧ offset ≤ line.stop := by
  rw [s.byteLength_eq, ← Nat.zero_add (byteLength _)] at le
  obtain ⟨line, before, after, begun, found, text_eq, start_eq, around⟩ :=
    exists_around (Text.tiles_lines s.text.toList) (Nat.zero_le offset) le
  rw [Nat.zero_add] at start_eq
  refine ⟨line, before, after, ?_, ?_, text_eq, start_eq, around⟩
  · rwa [Source.linesUpTo, s.lines_eq, List.findIdx_toArray]
  · rwa [Source.linesUpTo, s.lines_eq, List.findIdx_toArray, List.getElem?_toArray]

theorem lineOf?_eq (offset : Nat) : lineOf? s offset = .ok (s.lineOf? offset) := by
  rw [lineOf?, Source.lineOf?]
  split
  · rfl
  · next inside =>
      obtain ⟨-, -, -, begun, -⟩ := exists_line (Nat.not_lt.mp inside)
      rw [minus_eq begun]
      rfl

theorem lineOf?_of_le {s : Source} {offset : Nat} (le : offset ≤ s.byteLength) :
    s.lineOf? offset = some (s.linesUpTo offset - 1) :=
  if_neg (Nat.not_lt.mpr le)

theorem columnOf?_eq (offset : Nat) : columnOf? s offset = .ok (s.columnOf? offset) := by
  rw [columnOf?, lineOf?_eq, Source.columnOf?]
  rcases Nat.lt_or_ge s.byteLength offset with past | le
  · rw [show s.lineOf? offset = none from if_pos past]
    rfl
  · obtain ⟨line, -, -, -, found, -, -, begun, -⟩ := exists_line le
    rw [lineOf?_of_le le]
    simp only [bind, Except.bind, Option.bind, found, Source.lineStart?, Option.map_some,
      minus_eq begun]
    rfl

theorem trimmed_chars {line : Text.Line} (plain : Text.Unbroken line.content) :
    trimmed line.chars = line.content := by
  have ending : ∀ c ∈ (line.ending.map Text.LineBreak.chars).getD [], c = '\r' ∨ c = '\n' := by
    cases line.ending with
    | none => exact List.forall_mem_nil _
    | some ending => cases ending <;> simp [Text.LineBreak.chars]
  have content : ∀ c ∈ line.content.reverse, decide (c = '\r' ∨ c = '\n') = false := by
    intro c mem
    obtain ⟨no_cr, no_lf⟩ := plain c (List.mem_reverse.mp mem)
    exact decide_eq_false (not_or.mpr ⟨no_cr, no_lf⟩)
  have stays : line.content.reverse.dropWhile (fun c => c = '\r' ∨ c = '\n') = line.content.reverse := by
    cases reversed : line.content.reverse with
    | nil => rfl
    | cons c cs =>
        rw [reversed] at content
        rw [List.dropWhile_cons, content c List.mem_cons_self]
        rfl
  rw [trimmed, List.rdropWhile, Text.Line.chars, List.reverse_append, List.dropWhile_append_of_pos,
    stays, List.reverse_reverse]
  intro c mem
  exact decide_eq_true (ending c (List.mem_reverse.mp mem))

theorem column_eq (character : Nat) (content : List Char) :
    column encoding character content = .ok (byteLength (encoding.before character content)) := by
  cases encoding with
  | utf16 => rfl
  | utf8 =>
      rw [column, backUp_eq, floorBoundary, PositionEncoding.before]
      rcases Nat.le_total character (byteLength content) with le | ge
      · rw [Nat.min_eq_left le]
      · rw [Nat.min_eq_right ge, Text.takeBytes_of_le ge, Text.takeBytes_of_le (Nat.le_refl _)]

/-- A line of the table can be cut out of the text. -/
theorem part_line {s : Source} {number : Nat} {line : Text.Line}
    (found : s.lines[number]? = some line) : s.lineRange? number = some ⟨line.start, line.stop⟩ ∧
      part s.text.toList line.start line.stop = .ok line.chars ∧ Text.Unbroken line.content := by
  have listed : (Text.lines s.text.toList)[number]? = some line := by
    rwa [s.lines_eq, List.getElem?_toArray] at found
  obtain ⟨before, after, text_eq, start_eq, plain, stop_eq⟩ :=
    exists_split (Text.tiles_lines s.text.toList) listed
  rw [Nat.zero_add] at start_eq stop_eq
  refine ⟨?_, ?_, plain⟩
  · rw [Source.lineRange?, Source.lineStart?, Source.lineStart?, found, s.byteLength_eq, ← stop_eq,
      s.lines_eq, List.getElem?_toArray]
    rfl
  · rw [text_eq, Text.Line.stop, start_eq, part_append]

theorem toOffset_eq (p : Position) : toOffset s encoding p = .ok (s.toOffset encoding p) := by
  rw [toOffset, Source.toOffset]
  split
  · rfl
  · cases found : s.lines[p.line.toNat]? with
    | none =>
        have absent : s.lineStart? p.line.toNat = none := congrArg (Option.map _) found
        rw [Source.lineRange?, absent]
        rfl
    | some line =>
        obtain ⟨range_eq, part_eq, plain⟩ := part_line found
        simp only [range_eq, part_eq, trimmed_chars plain, column_eq, bind, Except.bind]
        rfl

theorem toPosition_eq (offset : Nat) :
    toPosition s encoding offset = .ok (s.toPosition encoding offset) := by
  rw [toPosition, lineOf?_eq, Source.toPosition]
  rcases Nat.lt_or_ge s.byteLength offset with past | le
  · rw [show s.lineOf? offset = none from if_pos past]
    rfl
  · obtain ⟨line, before, after, -, found, text_eq, start_eq, begun, ended⟩ := exists_line le
    rw [lineOf?_of_le le]
    obtain ⟨inside, rfl⟩ : ∃ inside, offset = line.start + inside := ⟨offset - line.start, by omega⟩
    have cut : part s.text.toList line.start (floorBoundary (line.start + inside) s.text.toList) =
        .ok (takeBytes inside line.chars) := by
      have le : inside ≤ byteLength line.chars := Nat.le_of_add_le_add_left ended
      rw [text_eq, start_eq, floorBoundary, Text.takeBytes_append_right, Text.takeBytes_append_left _ le,
        Text.byteLength_append]
      have parts := part_append before (takeBytes inside line.chars) (dropBytes inside line.chars ++ after)
      rwa [← List.append_assoc (takeBytes _ _), Text.takeBytes_append_dropBytes] at parts
    simp only [bind, Except.bind, Source.lineStart?, found, Option.map_some, Option.getD_some, backUp_eq,
      cut, Nat.add_sub_cancel_left]
    rfl

theorem toByteRange_eq (r : PositionRange) :
    toByteRange s encoding r = .ok (s.toByteRange encoding r) := by
  rw [toByteRange, toOffset_eq, toOffset_eq]
  rfl

theorem toPositionRange_eq (r : ByteRange) :
    toPositionRange s encoding r = .ok (s.toPositionRange encoding r) := by
  rw [toPositionRange, toPosition_eq, toPosition_eq]
  rfl

end CodeAtlas.Checked
