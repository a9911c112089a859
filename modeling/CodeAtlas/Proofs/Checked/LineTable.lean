import CodeAtlas.Proofs.Checked.Position

/-!
# The line table, read from bytes

A machine finds the lines of a text in its bytes. No byte of a longer character is that of a line break,
so it finds the lines that the characters make.
-/

namespace CodeAtlas.Checked

open Text (byteLength)

/-! ## The loop -/

def lineFeed : UInt8 := 10
def carriageReturn : UInt8 := 13

/-- Notes where lines start behind a byte. -/
def lineStartsFrom (bytes : Array UInt8) (i : Nat) (starts : Array Nat) : Except Fault (Array Nat) :=
  if i < bytes.size then
    match bytes[i]? with
    | none => .error .missingByte
    | some byte =>
        if byte = carriageReturn ∧ bytes[i + 1]? = some lineFeed then
          lineStartsFrom bytes (i + 2) (starts.push (i + 2))
        else if byte = lineFeed ∨ byte = carriageReturn then
          lineStartsFrom bytes (i + 1) (starts.push (i + 1))
        else lineStartsFrom bytes (i + 1) starts
  else .ok starts
termination_by bytes.size - i

def lineStarts (text : String) : Except Fault (Array Nat) :=
  lineStartsFrom text.toByteArray.data 0 #[0]

/-! ## The bytes of a character -/

def encode (cs : List Char) : List UInt8 :=
  cs.flatMap String.utf8EncodeChar

theorem length_encode (cs : List Char) : (encode cs).length = byteLength cs := by
  induction cs with
  | nil => rfl
  | cons c cs ih =>
      rw [encode, List.flatMap_cons, List.length_append, String.length_utf8EncodeChar, ← encode, ih,
        byteLength]

theorem encode_append (xs ys : List Char) : encode (xs ++ ys) = encode xs ++ encode ys :=
  List.flatMap_append

/-- The bytes that hold a text are those of its characters. -/
theorem data_toByteArray (text : String) : text.toByteArray.data = (encode text.toList).toArray := by
  rw [← String.utf8Encode_toList, List.utf8Encode, List.data_toByteArray, encode]

theorem encode_injective {xs ys : List Char} (same : encode xs = encode ys) : xs = ys := by
  rw [← String.ofList_inj, ← String.toByteArray_inj]
  refine ByteArray.ext ?_
  rw [data_toByteArray, data_toByteArray, String.toList_ofList, String.toList_ofList, same]

/-- A byte below 128 is a character by itself. -/
theorem eq_of_mem_utf8EncodeChar {c d : Char} (low : d.val.toNat < 128)
    (mem : UInt8.ofNat d.val.toNat ∈ String.utf8EncodeChar c) : c = d := by
  suffices c.val.toNat = d.val.toNat from Char.ext (UInt32.toNat.inj this)
  have byte {n : Nat} (lt : n < 256) (same : UInt8.ofNat d.val.toNat = UInt8.ofNat n) :
      d.val.toNat = n := by
    have := congrArg UInt8.toNat same
    rwa [UInt8.toNat_ofNat_of_lt' (Nat.lt_trans low (by decide)), UInt8.toNat_ofNat_of_lt' lt] at this
  have longer {n : Nat} (lt : n < 256) (ge : 128 ≤ n) : UInt8.ofNat d.val.toNat ≠ UInt8.ofNat n := by
    intro same
    have := byte lt same
    omega
  unfold String.utf8EncodeChar at mem
  dsimp only at mem
  generalize c.val.toNat = v at *
  split at mem
  · exact (byte (by omega) (List.mem_singleton.mp mem)).symm
  · exfalso
    split at mem
    · simp only [List.mem_cons, List.not_mem_nil, or_false] at mem
      rcases mem with same | same <;> exact longer (by omega) (by omega) same
    · split at mem <;> simp only [List.mem_cons, List.not_mem_nil, or_false] at mem
      · rcases mem with same | same | same <;> exact longer (by omega) (by omega) same
      · rcases mem with same | same | same | same <;> exact longer (by omega) (by omega) same

theorem eq_lf_of_mem {c : Char} (mem : lineFeed ∈ String.utf8EncodeChar c) : c = '\n' :=
  eq_of_mem_utf8EncodeChar (by decide) mem

theorem eq_cr_of_mem {c : Char} (mem : carriageReturn ∈ String.utf8EncodeChar c) : c = '\r' :=
  eq_of_mem_utf8EncodeChar (by decide) mem

theorem head?_encode_cons (c : Char) (cs : List Char) :
    (encode (c :: cs)).head? = (String.utf8EncodeChar c).head? := by
  have : String.utf8EncodeChar c ≠ [] := by
    rw [← List.length_pos_iff, String.length_utf8EncodeChar]
    exact c.utf8Size_pos
  rw [encode, List.flatMap_cons, List.head?_append_of_ne_nil _ this]

theorem head?_of_head?_encode {cs : List Char} (feed : (encode cs).head? = some lineFeed) :
    cs.head? = some '\n' := by
  cases cs with
  | nil => cases feed
  | cons c cs =>
      rw [head?_encode_cons] at feed
      rw [List.head?_cons, eq_lf_of_mem (List.mem_of_head? feed)]

/-! ## No byte is missing -/

section Loop

variable {bytes : Array UInt8} {i : Nat}

theorem lineStartsFrom_end (starts : Array Nat) : lineStartsFrom bytes bytes.size starts = .ok starts := by
  rw [lineStartsFrom, if_neg (Nat.lt_irrefl _)]

theorem lineStartsFrom_byte {byte : UInt8} (here : bytes[i]? = some byte) (starts : Array Nat) :
    lineStartsFrom bytes i starts =
      if byte = carriageReturn ∧ bytes[i + 1]? = some lineFeed then
        lineStartsFrom bytes (i + 2) (starts.push (i + 2))
      else if byte = lineFeed ∨ byte = carriageReturn then
        lineStartsFrom bytes (i + 1) (starts.push (i + 1))
      else lineStartsFrom bytes (i + 1) starts := by
  obtain ⟨lt, -⟩ := Array.getElem?_eq_some_iff.mp here
  rw [lineStartsFrom, if_pos lt, here]

/-- Bytes that are none of line breaks are passed over. -/
theorem lineStartsFrom_append {plain : List UInt8} (no_break : carriageReturn ∉ plain ∧ lineFeed ∉ plain)
    (before after : List UInt8) (starts : Array Nat) :
    lineStartsFrom (before ++ (plain ++ after)).toArray before.length starts =
      lineStartsFrom (before ++ (plain ++ after)).toArray (before.length + plain.length) starts := by
  induction plain generalizing before with
  | nil => rfl
  | cons byte plain ih =>
      obtain ⟨no_cr, no_lf⟩ := no_break
      rw [List.mem_cons, not_or] at no_cr no_lf
      have here : (before ++ (byte :: plain ++ after)).toArray[before.length]? = some byte := by simp
      rw [lineStartsFrom_byte here, if_neg fun cr => no_cr.1 cr.1.symm,
        if_neg (not_or.mpr ⟨Ne.symm no_lf.1, Ne.symm no_cr.1⟩)]
      have rest := ih ⟨no_cr.2, no_lf.2⟩ (before ++ [byte])
      simp only [List.append_assoc, List.singleton_append, List.length_append, List.length_singleton] at rest
      rw [List.cons_append, rest, List.length_cons, Nat.add_assoc, Nat.add_comm 1]

end Loop

section Text

open Text (EndsBefore LineBreak Line Tiles Unbroken)

theorem lineStartsFrom_unbroken {xs : List Char} (plain : Unbroken xs) (before rest : List Char)
    (starts : Array Nat) :
    lineStartsFrom (encode (before ++ (xs ++ rest))).toArray (byteLength before) starts =
      lineStartsFrom (encode (before ++ (xs ++ rest))).toArray (byteLength (before ++ xs)) starts := by
  have no_cr : carriageReturn ∉ encode xs := fun mem => by
    obtain ⟨c, mem, byte⟩ := List.mem_flatMap.mp mem
    exact (plain c mem).1 (eq_cr_of_mem byte)
  have no_lf : lineFeed ∉ encode xs := fun mem => by
    obtain ⟨c, mem, byte⟩ := List.mem_flatMap.mp mem
    exact (plain c mem).2 (eq_lf_of_mem byte)
  rw [encode_append, encode_append, Text.byteLength_append, ← length_encode, ← length_encode]
  exact lineStartsFrom_append ⟨no_cr, no_lf⟩ _ _ starts

theorem lineStartsFrom_ending {ending : LineBreak} {rest : List Char} (ends : EndsBefore ending rest)
    (before : List Char) (starts : Array Nat) :
    let stop := byteLength (before ++ ending.chars)
    lineStartsFrom (encode (before ++ (ending.chars ++ rest))).toArray (byteLength before) starts =
      lineStartsFrom (encode (before ++ (ending.chars ++ rest))).toArray stop (starts.push stop) := by
  have byte (k : Nat) : (encode (before ++ (ending.chars ++ rest))).toArray[byteLength before + k]? =
      (encode ending.chars ++ encode rest)[k]? := by
    rw [encode_append, ← length_encode, List.getElem?_toArray, List.getElem?_append_right (by omega),
      Nat.add_sub_cancel_left, encode_append]
  dsimp only
  rw [Text.byteLength_append]
  generalize (encode (before ++ (ending.chars ++ rest))).toArray = bytes at byte
  generalize byteLength before = i at byte
  cases ending with
  | lineFeed =>
      have here : bytes[i]? = some lineFeed := byte 0
      rw [lineStartsFrom_byte here, if_neg (fun pair => by cases pair.1), if_pos (.inl rfl)]
      rfl
  | carriageReturn =>
      have here : bytes[i]? = some carriageReturn := byte 0
      have next : bytes[i + 1]? = (encode rest).head? := (byte 1).trans List.head?_eq_getElem?.symm
      have lone : ¬bytes[i + 1]? = some lineFeed := fun feed =>
        ends rfl (head?_of_head?_encode (next.symm.trans feed))
      rw [lineStartsFrom_byte here, if_neg (fun pair => lone pair.2), if_pos (.inr rfl)]
      rfl
  | both =>
      have here : bytes[i]? = some carriageReturn := byte 0
      have next : bytes[i + 1]? = some lineFeed := byte 1
      rw [lineStartsFrom_byte here, if_pos ⟨rfl, next⟩]
      rfl

/-- Behind the start of a line, the starts of the next ones are noted. -/
theorem lineStartsFrom_tiles {cs : List Char} {lines : List Line} (before : List Char)
    (tiles : Tiles (byteLength before) cs lines) (starts : Array Nat) :
    lineStartsFrom (encode (before ++ cs)).toArray (byteLength before) starts =
      .ok (starts ++ (lines.tail.map Line.start).toArray) := by
  -- In each line the bytes before the break are passed over, and the break takes the loop to the next one.
  generalize start_eq : byteLength before = start at tiles
  induction tiles generalizing before starts with
  | @last start xs plain =>
      have skipped := lineStartsFrom_unbroken plain before [] starts
      have stop : (encode (before ++ xs)).toArray.size = byteLength (before ++ xs) := by
        rw [List.size_toArray, length_encode]
      rw [List.append_nil, start_eq] at skipped
      rw [skipped, ← stop, lineStartsFrom_end]
      simp
  | @cons start xs rest ending lines plain ends tiles ih =>
      obtain ⟨next, others, rfl, next_start⟩ := tiles.exists_cons
      have stop : byteLength (before ++ (xs ++ ending.chars)) = next.start := by
        rw [Text.byteLength_append, start_eq, next_start]
      have skipped := lineStartsFrom_unbroken plain before (ending.chars ++ rest) starts
      have ended := lineStartsFrom_ending ends (before ++ xs) starts
      have read := ih (before ++ (xs ++ ending.chars)) (starts.push next.start) (stop.trans next_start)
      simp only [List.append_assoc] at ended read
      rw [start_eq] at skipped
      rw [stop] at ended
      rw [← next_start] at read
      rw [skipped, ended, read]
      simp

/-- The line table has the starts of lines that are read from the bytes. -/
theorem lineStarts_eq (s : Source) : lineStarts s.text = .ok (s.lines.map Line.start) := by
  have tiles := Text.tiles_lines s.text.toList
  obtain ⟨first, others, lines_eq, first_start⟩ := tiles.exists_cons
  have read := lineStartsFrom_tiles [] tiles #[0]
  rw [lines_eq] at read
  rw [lineStarts, data_toByteArray, s.lines_eq, lines_eq]
  refine read.trans ?_
  simp [first_start]

end Text

end CodeAtlas.Checked
