import CodeAtlas.Text.Lines

/-!
# Places for a cursor

A cursor can stand between two characters, but not between a carriage return and the line feed that
belongs to it. An offset is brought to such a place by looking at its line alone, at what the line holds
before its break.
-/

namespace CodeAtlas.Text

/-- The offset `n` lies between a carriage return and the line feed behind it. -/
def SplitsPair (n : Nat) (cs : List Char) : Prop :=
  ∃ before after, cs = before ++ '\r' :: '\n' :: after ∧ n = byteLength before + 1

/-- The last place at or before the offset `n` where a cursor can stand. -/
def cursorFloor : List Char → Nat → Nat
  | '\r' :: '\n' :: rest, n => if n < 2 then 0 else 2 + cursorFloor rest (n - 2)
  | c :: rest, n => if n < c.utf8Size then 0 else c.utf8Size + cursorFloor rest (n - c.utf8Size)
  | [], _ => 0

theorem floorBoundary_cons (n : Nat) (c : Char) (cs : List Char) : floorBoundary n (c :: cs) =
    if n < c.utf8Size then 0 else c.utf8Size + floorBoundary (n - c.utf8Size) cs := by
  rw [floorBoundary, takeBytes]
  by_cases inside : n < c.utf8Size
  · rw [if_neg (Nat.not_le.mpr inside), if_pos inside]
    rfl
  · rw [if_pos (Nat.not_lt.mp inside), if_neg inside]
    rfl

theorem cursorFloor_single {c : Char} {rest : List Char}
    (single : ∀ rest', c = '\r' → rest = '\n' :: rest' → False) (n : Nat) :
    cursorFloor (c :: rest) n =
      if n < c.utf8Size then 0 else c.utf8Size + cursorFloor rest (n - c.utf8Size) := by
  rw [cursorFloor]
  exact single

theorem splitsPair_nil {n : Nat} : ¬SplitsPair n [] := by
  rintro ⟨before, after, text_eq, -⟩
  cases before <;> cases text_eq

theorem SplitsPair.le {n : Nat} {cs : List Char} (splits : SplitsPair n cs) : n ≤ byteLength cs := by
  obtain ⟨before, after, rfl, rfl⟩ := splits
  rw [byteLength_append, byteLength]
  have := '\r'.utf8Size_pos
  omega

theorem splitsPair_cons {n : Nat} {c : Char} {rest : List Char} : SplitsPair n (c :: rest) ↔
    (c = '\r' ∧ rest.head? = some '\n' ∧ n = 1) ∨
      (c.utf8Size ≤ n ∧ SplitsPair (n - c.utf8Size) rest) := by
  constructor
  · rintro ⟨before, after, text_eq, rfl⟩
    cases before with
    | nil =>
        cases text_eq
        exact .inl ⟨rfl, rfl, rfl⟩
    | cons d before =>
        cases text_eq
        rw [byteLength]
        exact .inr ⟨by omega, before, after, rfl, by omega⟩
  · rintro (⟨rfl, head, rfl⟩ | ⟨le, before, after, rfl, n_eq⟩)
    · obtain ⟨after, rfl⟩ := List.head?_eq_some_iff.mp head
      exact ⟨[], after, rfl, rfl⟩
    · refine ⟨c :: before, after, rfl, ?_⟩
      rw [byteLength]
      omega

theorem splitsPair_pair {n : Nat} {rest : List Char} : SplitsPair n ('\r' :: '\n' :: rest) ↔
    n = 1 ∨ 2 ≤ n ∧ SplitsPair (n - 2) rest := by
  have cr : '\r'.utf8Size = 1 := rfl
  have lf : '\n'.utf8Size = 1 := rfl
  rw [splitsPair_cons, splitsPair_cons, cr, lf, Nat.sub_sub]
  constructor
  · rintro (⟨-, -, rfl⟩ | ⟨-, ⟨other, -, -⟩ | ⟨le, splits⟩⟩)
    · exact .inl rfl
    · exact absurd other (by decide)
    · exact .inr ⟨by omega, splits⟩
  · rintro (rfl | ⟨le, splits⟩)
    · exact .inl ⟨rfl, rfl, rfl⟩
    · exact .inr ⟨by omega, .inr ⟨by omega, splits⟩⟩

theorem splitsPair_single {n : Nat} {c : Char} {rest : List Char}
    (single : ∀ rest', c = '\r' → rest = '\n' :: rest' → False) : SplitsPair n (c :: rest) ↔
      c.utf8Size ≤ n ∧ SplitsPair (n - c.utf8Size) rest := by
  rw [splitsPair_cons, or_iff_right]
  rintro ⟨cr, head, -⟩
  obtain ⟨rest', rest_eq⟩ := List.head?_eq_some_iff.mp head
  exact single rest' cr rest_eq

/-- Between a carriage return and its line feed a cursor is moved before the carriage return. -/
theorem cursorFloor_of_splitsPair {n : Nat} {cs : List Char} (splits : SplitsPair n cs) :
    cursorFloor cs n + 1 = n := by
  fun_induction cursorFloor cs n with
  | case1 rest n lt =>
      rcases splitsPair_pair.mp splits with rfl | ⟨le, -⟩
      · rfl
      · omega
  | case2 rest n ge ih =>
      rcases splitsPair_pair.mp splits with rfl | ⟨le, splits⟩
      · omega
      · have := ih splits
        omega
  | case3 c rest n single lt =>
      have := ((splitsPair_single single).mp splits).1
      omega
  | case4 c rest n single ge ih =>
      obtain ⟨le, splits⟩ := (splitsPair_single single).mp splits
      have := ih splits
      omega
  | case5 => exact absurd splits splitsPair_nil

/-- Anywhere else it is moved to the start of the character. -/
theorem cursorFloor_of_not_splitsPair {n : Nat} {cs : List Char} (whole : ¬SplitsPair n cs) :
    cursorFloor cs n = floorBoundary n cs := by
  fun_induction cursorFloor cs n with
  | case1 rest n lt =>
      have : n ≠ 1 := fun one => whole (splitsPair_pair.mpr (.inl one))
      obtain rfl : n = 0 := by omega
      rw [floorBoundary, takeBytes_zero]
      rfl
  | case2 rest n ge ih =>
      have cr : '\r'.utf8Size = 1 := rfl
      have lf : '\n'.utf8Size = 1 := rfl
      rw [floorBoundary_cons, floorBoundary_cons, cr, lf, if_neg (by omega), if_neg (by omega),
        Nat.sub_sub, ih fun splits => whole (splitsPair_pair.mpr (.inr ⟨by omega, splits⟩))]
      exact Nat.add_assoc 1 1 _
  | case3 c rest n single lt => rw [floorBoundary_cons, if_pos lt]
  | case4 c rest n single ge ih =>
      rw [floorBoundary_cons, if_neg ge,
        ih fun splits => whole ((splitsPair_single single).mpr ⟨by omega, splits⟩)]
  | case5 => rfl

/-- A cursor can stand at an offset where it is not moved. -/
theorem cursorFloor_eq_self_iff {n : Nat} {cs : List Char} :
    cursorFloor cs n = n ↔ IsBoundary n cs ∧ ¬SplitsPair n cs := by
  constructor
  · intro stays
    have whole : ¬SplitsPair n cs := fun splits => by
      have := cursorFloor_of_splitsPair splits
      omega
    exact ⟨(cursorFloor_of_not_splitsPair whole).symm.trans stays, whole⟩
  · rintro ⟨boundary, whole⟩
    rw [cursorFloor_of_not_splitsPair whole]
    exact boundary

theorem cursorFloor_byteLength (cs : List Char) : cursorFloor cs (byteLength cs) = byteLength cs := by
  refine cursorFloor_eq_self_iff.mpr ⟨?_, ?_⟩
  · simpa using isBoundary_append cs []
  · rintro ⟨before, after, rfl, ends⟩
    have cr : '\r'.utf8Size = 1 := rfl
    have lf : '\n'.utf8Size = 1 := rfl
    rw [byteLength_append, byteLength, byteLength, cr, lf] at ends
    omega

/-! ## Lines -/

/-- A text without line breaks. -/
def Unbroken (cs : List Char) : Prop :=
  ∀ c ∈ cs, c ≠ '\r' ∧ c ≠ '\n'

/-- Whether a line can end so before the text that follows. A carriage return with a line feed behind it
does not end a line by itself. -/
def EndsBefore (ending : LineBreak) (rest : List Char) : Prop :=
  ending = .carriageReturn → rest.head? ≠ some '\n'

theorem cursorFloor_unbroken {xs : List Char} (plain : Unbroken xs) (n : Nat) :
    cursorFloor xs n = floorBoundary n xs := by
  refine cursorFloor_of_not_splitsPair ?_
  rintro ⟨before, after, rfl, -⟩
  exact (plain '\r' (by simp)).1 rfl

theorem cursorFloor_ending {ending : LineBreak} {rest : List Char} (ends : EndsBefore ending rest)
    (n : Nat) : cursorFloor (ending.chars ++ rest) n =
      if n < byteLength ending.chars then 0
      else byteLength ending.chars + cursorFloor rest (n - byteLength ending.chars) := by
  cases ending with
  | lineFeed => exact cursorFloor_single (by simp) n
  | carriageReturn =>
      refine cursorFloor_single ?_ n
      rintro rest' - rfl
      exact ends rfl rfl
  | both => rfl

theorem cursorFloor_line {xs rest : List Char} {ending : LineBreak} (plain : Unbroken xs)
    (ends : EndsBefore ending rest) (n : Nat) :
    cursorFloor (xs ++ (ending.chars ++ rest)) n =
      if n < byteLength (xs ++ ending.chars) then floorBoundary n xs
      else byteLength (xs ++ ending.chars) + cursorFloor rest (n - byteLength (xs ++ ending.chars)) := by
  induction xs generalizing n with
  | nil => exact cursorFloor_ending ends n
  | cons x xs ih =>
      obtain ⟨⟨no_cr, -⟩, plain⟩ := List.forall_mem_cons.mp plain
      rw [List.cons_append, cursorFloor_single (fun _ cr _ => no_cr cr), ih plain, floorBoundary_cons,
        List.cons_append, byteLength, Nat.sub_sub]
      by_cases inside : n < x.utf8Size
      · rw [if_pos inside, if_pos (by omega), if_pos inside]
      · rw [if_neg inside, if_neg inside]
        by_cases held : n - x.utf8Size < byteLength (xs ++ ending.chars)
        · rw [if_pos held, if_pos (by omega)]
        · rw [if_neg held, if_neg (by omega), Nat.add_assoc]

/-- The lines stand one behind the other from `start` on and make up the text. -/
inductive Tiles : Nat → List Char → List Line → Prop where
  | last {start : Nat} {xs : List Char} (plain : Unbroken xs) : Tiles start xs [⟨start, xs, none⟩]
  | cons {start : Nat} {xs rest : List Char} {ending : LineBreak} {lines : List Line}
      (plain : Unbroken xs) (ends : EndsBefore ending rest)
      (tiles : Tiles (start + byteLength (xs ++ ending.chars)) rest lines) :
      Tiles start (xs ++ (ending.chars ++ rest)) (⟨start, xs, some ending⟩ :: lines)

theorem tiles_linesFrom {start : Nat} {seen cs : List Char} (plain : Unbroken seen) :
    Tiles start (seen.reverse ++ cs) (linesFrom start seen cs) := by
  have reversed {seen : List Char} (plain : Unbroken seen) : Unbroken seen.reverse :=
    fun c mem => plain c (List.mem_reverse.mp mem)
  have empty : Unbroken [] := List.forall_mem_nil _
  fun_induction linesFrom start seen cs with
  | case1 start seen =>
      rw [List.append_nil]
      exact .last (reversed plain)
  | case2 start seen rest line ih =>
      have ends : EndsBefore .both rest := by
        rintro ⟨⟩
      exact Tiles.cons (reversed plain) ends (ih empty)
  | case3 start seen rest lone line ih =>
      have ends : EndsBefore .carriageReturn rest := by
        rintro - feed
        obtain ⟨rest', rest_eq⟩ := List.head?_eq_some_iff.mp feed
        exact lone rest' rest_eq
      exact Tiles.cons (reversed plain) ends (ih empty)
  | case4 start seen rest line ih =>
      have ends : EndsBefore .lineFeed rest := by
        rintro ⟨⟩
      exact Tiles.cons (reversed plain) ends (ih empty)
  | case5 start seen c rest _ no_cr no_lf ih =>
      have longer : Unbroken (c :: seen) := List.forall_mem_cons.mpr ⟨⟨no_cr, no_lf⟩, plain⟩
      simpa using ih longer

theorem tiles_lines (cs : List Char) : Tiles 0 cs (lines cs) :=
  tiles_linesFrom (List.forall_mem_nil _)

theorem Tiles.exists_cons {start : Nat} {cs : List Char} {lines : List Line}
    (tiles : Tiles start cs lines) : ∃ line rest, lines = line :: rest ∧ line.start = start := by
  cases tiles with
  | last => exact ⟨_, _, rfl, rfl⟩
  | cons => exact ⟨_, _, rfl, rfl⟩

theorem LineBreak.byteLength_pos (ending : LineBreak) : 0 < byteLength ending.chars := by
  cases ending <;> decide

/-- Every line but the last takes a byte at least, that of its break. -/
theorem Tiles.length_le {start : Nat} {cs : List Char} {lines : List Line}
    (tiles : Tiles start cs lines) : lines.length ≤ byteLength cs + 1 := by
  induction tiles with
  | last => exact Nat.le_add_left 1 _
  | @cons start xs rest ending lines plain ends tiles ih =>
      have := ending.byteLength_pos
      rw [List.length_cons, byteLength_append, byteLength_append]
      omega

/-- The last line that starts at or before an offset tells where a cursor can stand there. -/
theorem Tiles.cursorFloor_eq {start n : Nat} {cs : List Char} {lines : List Line}
    (tiles : Tiles start cs lines) (le : start ≤ n) :
    ∃ line, lines[(lines.findIdx fun line => n < line.start) - 1]? = some line ∧
      line.start + floorBoundary (n - line.start) line.content =
        start + cursorFloor cs (n - start) := by
  -- An offset before the next line is in the first one. Any other offset is left to the other lines,
  -- where one more start at or before it has been counted.
  induction tiles with
  | @last start xs plain =>
      refine ⟨⟨start, xs, none⟩, ?_, ?_⟩
      · simp [List.findIdx_cons, Nat.not_lt.mpr le]
      · rw [cursorFloor_unbroken plain]
  | @cons start xs rest ending lines plain ends tiles ih =>
      obtain ⟨next, others, rfl, next_start⟩ := tiles.exists_cons
      rw [cursorFloor_line plain ends, List.findIdx_cons, decide_eq_false (Nat.not_lt.mpr le),
        cond_false, Nat.add_sub_cancel]
      by_cases held : n - start < byteLength (xs ++ ending.chars)
      · refine ⟨⟨start, xs, some ending⟩, ?_, ?_⟩
        · rw [List.findIdx_cons, decide_eq_true (by omega)]
          rfl
        · rw [if_pos held]
      · obtain ⟨line, found, place⟩ := ih (by omega)
        refine ⟨line, ?_, ?_⟩
        · rw [List.findIdx_cons, decide_eq_false (by omega)] at found ⊢
          exact found
        · rw [place, if_neg held, Nat.sub_sub]
          omega

/-! ## Places in a line -/

theorem Line.prefix_le_stop {line : Line} {leading : List Char} (starts : leading <+: line.content) :
    line.start + byteLength leading ≤ line.stop := by
  have within : leading <+: line.chars := starts.trans (List.prefix_append _ _)
  exact Nat.add_le_add_left (byteLength_le_of_isPrefix within) _

section Places

variable {start : Nat} {cs : List Char} {lines : List Line}

theorem Tiles.le_start (tiles : Tiles start cs lines) {line : Line} (mem : line ∈ lines) :
    start ≤ line.start := by
  induction tiles with
  | last plain =>
      obtain rfl := List.mem_singleton.mp mem
      exact Nat.le_refl _
  | cons plain ends tiles ih =>
      rcases List.mem_cons.mp mem with rfl | mem
      · exact Nat.le_refl _
      · exact Nat.le_trans (Nat.le_add_right _ _) (ih mem)

/-- A line ends before any line behind it starts. -/
theorem Tiles.pairwise (tiles : Tiles start cs lines) :
    lines.Pairwise fun line later => line.stop ≤ later.start := by
  induction tiles with
  | last plain => exact List.pairwise_singleton _ _
  | cons plain ends tiles ih => exact List.pairwise_cons.mpr ⟨fun later mem => tiles.le_start mem, ih⟩

/-- A cursor can stand behind each leading part of what a line holds before its break. -/
theorem Tiles.cursorFloor_of_isPrefix (tiles : Tiles start cs lines) {i : Nat} {line : Line}
    (found : lines[i]? = some line) {leading : List Char} (starts : leading <+: line.content) :
    ∃ k, line.start = start + k ∧
      cursorFloor cs (k + byteLength leading) = k + byteLength leading := by
  induction tiles generalizing i with
  | @last start xs plain =>
      cases i with
      | zero =>
          cases found
          obtain ⟨rest, rfl⟩ := starts
          refine ⟨0, rfl, ?_⟩
          rw [cursorFloor_unbroken plain, Nat.zero_add]
          exact isBoundary_append leading rest
      | succ i => cases found
  | @cons start xs rest ending lines plain ends tiles ih =>
      cases i with
      | zero =>
          cases found
          have within : byteLength leading ≤ byteLength xs := byteLength_le_of_isPrefix starts
          have := ending.byteLength_pos
          refine ⟨0, rfl, ?_⟩
          rw [cursorFloor_line plain ends, byteLength_append, Nat.zero_add, if_pos (by omega)]
          obtain ⟨after, rfl⟩ := starts
          exact isBoundary_append leading after
      | succ i =>
          obtain ⟨k, start_eq, stays⟩ := ih found
          refine ⟨byteLength (xs ++ ending.chars) + k, by omega, ?_⟩
          rw [cursorFloor_line plain ends, if_neg (by omega), Nat.add_assoc, Nat.add_sub_cancel_left,
            stays]

/-- The last line that starts at or before a place in what a line holds is that line. -/
theorem Tiles.findIdx_eq (tiles : Tiles start cs lines) {i n : Nat} {line : Line}
    (found : lines[i]? = some line) (begun : line.start ≤ n)
    (inside : n ≤ line.start + byteLength line.content) :
    (lines.findIdx fun line => n < line.start) = i + 1 := by
  induction tiles generalizing i with
  | @last start xs plain =>
      cases i with
      | zero =>
          cases found
          rw [List.findIdx_cons, decide_eq_false (Nat.not_lt.mpr begun)]
          rfl
      | succ i => cases found
  | @cons start xs rest ending lines plain ends tiles ih =>
      cases i with
      | zero =>
          cases found
          obtain ⟨next, others, rfl, next_start⟩ := tiles.exists_cons
          have pos := ending.byteLength_pos
          have inside : n ≤ start + byteLength xs := inside
          rw [byteLength_append] at next_start
          have before : n < next.start := by omega
          rw [List.findIdx_cons, decide_eq_false (Nat.not_lt.mpr begun), List.findIdx_cons,
            decide_eq_true before]
          rfl
      | succ i =>
          have later := tiles.le_start (List.mem_of_getElem? found)
          have first : ¬n < start := by omega
          rw [List.findIdx_cons, decide_eq_false first, cond_false, ih found]

/-- A text with as many lines as it can have is one of line breaks that take a byte each. -/
theorem Tiles.start_eq_of_length (tiles : Tiles start cs lines)
    (most : lines.length = byteLength cs + 1) {i : Nat} {line : Line} (found : lines[i]? = some line) :
    line.start = start + i := by
  induction tiles generalizing i with
  | @last start xs plain =>
      cases i with
      | zero =>
          cases found
          rfl
      | succ i => cases found
  | @cons start xs rest ending lines plain ends tiles ih =>
      cases i with
      | zero =>
          cases found
          rfl
      | succ i =>
          have bound := tiles.length_le
          have := ending.byteLength_pos
          rw [List.length_cons, byteLength_append, byteLength_append] at most
          rw [ih (by omega) found, byteLength_append]
          omega

end Places

end CodeAtlas.Text
