import CodeAtlas.FileUrl
import CodeAtlas.Proofs.Checked.LineTable

/-!
# Reading percent notation

A text in percent notation stands for bytes: a percent sign with two digits behind it for one, and every
other character for its own. What the path of a URL spells out in percent notation therefore stands for what
was spelled out. An escape that was in a text before stands for one byte as well, and makes it fewer.
-/

namespace CodeAtlas.FileUrl

open Text (byteLength)

def hexDigits : List Char :=
  ['0', '1', '2', '3', '4', '5', '6', '7', '8', '9', 'a', 'b', 'c', 'd', 'e', 'f']

def upperHexDigits : List Char :=
  ['0', '1', '2', '3', '4', '5', '6', '7', '8', '9', 'A', 'B', 'C', 'D', 'E', 'F']

/-- The value of a hexadecimal digit, which may be a letter of either case. -/
def hexValue? (c : Char) : Option Nat :=
  (hexDigits.idxOf? c).or (upperHexDigits.idxOf? c)

/-- The byte that two digits in front of a text name. -/
def escaped? : List Char → Option UInt8
  | high :: low :: _ => do
      let high ← hexValue? high
      let low ← hexValue? low
      some (UInt8.ofNat (16 * high + low))
  | _ => none

/-- The bytes that a text in percent notation stands for. A percent sign without two digits behind it stands
for itself. -/
def unescape : List Char → List UInt8
  | [] => []
  | c :: rest =>
      if c = '%' then
        match escaped? rest with
        | some byte => byte :: unescape (rest.drop 2)
        | none => String.utf8EncodeChar c ++ unescape rest
      else String.utf8EncodeChar c ++ unescape rest
termination_by cs => cs.length
decreasing_by all_goals simp only [List.length_drop, List.length_cons]; omega

/-- Somewhere in a text two digits stand behind a percent sign. -/
def HasEscape (cs : List Char) : Prop :=
  ∃ before after, cs = before ++ '%' :: after ∧ (escaped? after).isSome

section Unescape

variable {c : Char} {cs rest : List Char} {byte : UInt8}

theorem hexValue?_eq_none : hexValue? c = none ↔ c ∉ hexDigits ∧ c ∉ upperHexDigits := by
  rw [hexValue?, Option.or_eq_none_iff, List.idxOf?_eq_none_iff, List.idxOf?_eq_none_iff]

/-- No digit is put into percent notation. -/
theorem hexValue?_of_inPath (encoded : inPath c) : hexValue? c = none := by
  have plain : (hexDigits ++ upperHexDigits).all (fun d => !inPath d) = true := by decide
  rw [hexValue?_eq_none, ← not_or, ← List.mem_append]
  intro digit
  have plain := List.all_eq_true.mp plain c digit
  rw [encoded] at plain
  cases plain

theorem hexValue?_hexDigit : ∀ n < 16, hexValue? (hexDigit n) = some n := by
  decide

theorem escaped?_hexDigits (byte : UInt8) (rest : List Char) :
    escaped? (hexDigit (byte.toNat / 16) :: hexDigit (byte.toNat % 16) :: rest) = some byte := by
  have high := hexValue?_hexDigit (byte.toNat / 16) (by have := byte.toNat_lt; omega)
  have low := hexValue?_hexDigit (byte.toNat % 16) (Nat.mod_lt _ (by decide))
  have whole : 16 * (byte.toNat / 16) + byte.toNat % 16 = byte.toNat := Nat.div_add_mod _ _
  rw [escaped?, high, low]
  exact congrArg some (by rw [whole, UInt8.ofNat_toNat])

theorem unescape_nil : unescape [] = [] := by
  rw [unescape]

theorem unescape_escape (found : escaped? rest = some byte) :
    unescape ('%' :: rest) = byte :: unescape (rest.drop 2) := by
  rw [unescape, if_pos rfl, found]

theorem unescape_char (plain : c = '%' → escaped? rest = none) :
    unescape (c :: rest) = String.utf8EncodeChar c ++ unescape rest := by
  rw [unescape]
  split
  · next percent => rw [plain percent]
  · rfl

theorem unescape_flatMap_percent (bytes : List UInt8) (rest : List Char) :
    unescape (bytes.flatMap percent ++ rest) = bytes ++ unescape rest := by
  induction bytes with
  | nil => rfl
  | cons byte bytes ih =>
      rw [List.flatMap_cons, List.append_assoc, percent, List.cons_append, List.cons_append,
        List.cons_append, unescape_escape (escaped?_hexDigits byte _)]
      exact congrArg (byte :: ·) ih

theorem escaped?_of_high {high : Char} (noDigit : hexValue? high = none) (rest : List Char) :
    escaped? (high :: rest) = none := by
  cases rest with
  | nil => rfl
  | cons low rest => rw [escaped?, noDigit, Option.bind_eq_bind, Option.bind_none]

theorem escaped?_of_low {low : Char} (noDigit : hexValue? low = none) (high : Char) (rest : List Char) :
    escaped? (high :: low :: rest) = none := by
  rw [escaped?, noDigit]
  cases hexValue? high with
  | none => rfl
  | some value => rfl

/-- An escape takes two digits, and they stay as they are in a path. -/
theorem exists_digits_of_escaped? (found : (escaped? cs).isSome) : ∃ high low rest,
    cs = high :: low :: rest ∧ inPath high = false ∧ inPath low = false := by
  match cs with
  | [] | [_] => cases found
  | high :: low :: rest =>
      refine ⟨high, low, rest, rfl, ?_, ?_⟩
      · by_contra encoded
        rw [escaped?_of_high (hexValue?_of_inPath (by simpa using encoded))] at found
        cases found
      · by_contra encoded
        rw [escaped?_of_low (hexValue?_of_inPath (by simpa using encoded))] at found
        cases found

theorem encode_cons (c : Char) (cs : List Char) :
    encode inPath (c :: cs) = encodeChar inPath c ++ encode inPath cs :=
  List.flatMap_cons

theorem encode_cons_of_plain (plain : inPath c = false) (cs : List Char) :
    encode inPath (c :: cs) = c :: encode inPath cs := by
  rw [encode_cons, encodeChar, plain]
  rfl

theorem encode_cons_of_inPath (encoded : inPath c) (cs : List Char) :
    encode inPath (c :: cs) =
      (String.utf8EncodeChar c).flatMap percent ++ encode inPath cs := by
  rw [encode_cons, encodeChar, if_pos encoded]

theorem head?_encode_of_inPath (encoded : inPath c) (cs : List Char) :
    ∃ tail, encode inPath (c :: cs) = '%' :: tail := by
  rw [encode_cons_of_inPath encoded]
  cases bytes : String.utf8EncodeChar c with
  | nil =>
      have length_eq := String.length_utf8EncodeChar c
      have pos := c.utf8Size_pos
      rw [bytes, List.length_nil] at length_eq
      omega
  | cons byte bytes => exact ⟨_, rfl⟩

/-- Percent notation puts no digits where there were none. -/
theorem escaped?_encode (cs : List Char) : escaped? (encode inPath cs) = escaped? cs := by
  have percent : hexValue? '%' = none := by decide
  cases cs with
  | nil => rfl
  | cons high cs =>
      cases encoded : inPath high with
      | true =>
          obtain ⟨tail, front⟩ := head?_encode_of_inPath encoded cs
          rw [front, escaped?_of_high percent, escaped?_of_high (hexValue?_of_inPath encoded)]
      | false =>
          rw [encode_cons_of_plain encoded]
          cases cs with
          | nil => rfl
          | cons low rest =>
              cases encoded : inPath low with
              | true =>
                  obtain ⟨tail, front⟩ := head?_encode_of_inPath encoded rest
                  rw [front, escaped?_of_low percent, escaped?_of_low (hexValue?_of_inPath encoded)]
              | false =>
                  rw [encode_cons_of_plain encoded]
                  rfl

/-- What is put into percent notation stands for itself. -/
theorem unescape_encode (cs : List Char) : unescape (encode inPath cs) = unescape cs := by
  have percent : inPath '%' = false := by decide
  fun_induction unescape cs with
  | case1 => exact unescape_nil
  | case2 rest byte found ih =>
      obtain ⟨high, low, rest, rfl, plain, plain'⟩ :=
        exists_digits_of_escaped? (Option.isSome_of_eq_some found)
      rw [encode_cons_of_plain percent, unescape_escape ((escaped?_encode _).trans found),
        encode_cons_of_plain plain, encode_cons_of_plain plain']
      exact congrArg (byte :: ·) ih
  | case3 rest noEscape ih =>
      rw [encode_cons_of_plain percent, unescape_char fun _ => (escaped?_encode _).trans noEscape, ih]
  | case4 c rest other ih =>
      cases encoded : inPath c with
      | true => rw [encode_cons_of_inPath encoded, unescape_flatMap_percent, ih]
      | false => rw [encode_cons_of_plain encoded, unescape_char fun same => absurd same other, ih]

/-! ### What escapes shorten -/

theorem hasEscape_cons :
    HasEscape (c :: rest) ↔ (c = '%' ∧ (escaped? rest).isSome) ∨ HasEscape rest := by
  constructor
  · rintro ⟨before, after, text_eq, found⟩
    cases before with
    | nil =>
        cases text_eq
        exact .inl ⟨rfl, found⟩
    | cons d before =>
        cases text_eq
        exact .inr ⟨before, after, rfl, found⟩
  · rintro (⟨rfl, found⟩ | ⟨before, after, rfl, found⟩)
    · exact ⟨[], rest, rfl, found⟩
    · exact ⟨c :: before, after, rfl, found⟩

theorem not_hasEscape_nil : ¬HasEscape [] := by
  rintro ⟨before, after, text_eq, -⟩
  cases before <;> cases text_eq

theorem HasEscape.mono {part : List Char} (escape : HasEscape part) (inside : part <:+: cs) :
    HasEscape cs := by
  obtain ⟨before, after, rfl⟩ := inside
  obtain ⟨front, behind, rfl, found⟩ := escape
  obtain ⟨high, low, rest, rfl, -⟩ := exists_digits_of_escaped? found
  exact ⟨before ++ front, high :: low :: (rest ++ after), by simp, found⟩

/-- A text stands for its own bytes, or for fewer bytes if there is an escape in it. -/
theorem unescape_cases (cs : List Char) : (¬HasEscape cs ∧ unescape cs = Checked.encode cs) ∨
    (HasEscape cs ∧ (unescape cs).length < byteLength cs) := by
  have same (c : Char) (rest : List Char) :
      Checked.encode (c :: rest) = String.utf8EncodeChar c ++ Checked.encode rest := List.flatMap_cons
  have longer {c : Char} {rest : List Char} (escape : HasEscape rest)
      (shorter : (unescape rest).length < byteLength rest) : HasEscape (c :: rest) ∧
        (String.utf8EncodeChar c ++ unescape rest).length < byteLength (c :: rest) := by
    refine ⟨hasEscape_cons.mpr (.inr escape), ?_⟩
    rw [List.length_append, String.length_utf8EncodeChar, byteLength]
    omega
  fun_induction unescape cs with
  | case1 =>
      exact .inl ⟨not_hasEscape_nil, rfl⟩
  | case2 rest byte found ih =>
      have here := Option.isSome_of_eq_some found
      refine .inr ⟨hasEscape_cons.mpr (.inl ⟨rfl, here⟩), ?_⟩
      obtain ⟨high, low, rest, rfl, -⟩ := exists_digits_of_escaped? here
      simp only [List.drop_succ_cons, List.drop_zero] at ih ⊢
      have le : (unescape rest).length ≤ byteLength rest := by
        rcases ih with ⟨-, same⟩ | ⟨-, shorter⟩
        · rw [same, Checked.length_encode]
        · exact Nat.le_of_lt shorter
      have pos := high.utf8Size_pos
      have pos' := low.utf8Size_pos
      simp only [List.length_cons, byteLength]
      omega
  | case3 rest noEscape ih =>
      rcases ih with ⟨none', same'⟩ | ⟨escape, shorter⟩
      · refine .inl ⟨?_, by rw [same, same']⟩
        rw [hasEscape_cons, noEscape]
        rintro (⟨-, found⟩ | escape)
        · cases found
        · exact none' escape
      · exact .inr (longer escape shorter)
  | case4 c rest other ih =>
      rcases ih with ⟨none', same'⟩ | ⟨escape, shorter⟩
      · refine .inl ⟨?_, by rw [same, same']⟩
        rw [hasEscape_cons]
        rintro (⟨percent, -⟩ | escape)
        · exact other percent
        · exact none' escape
      · exact .inr (longer escape shorter)

theorem length_unescape_le (cs : List Char) : (unescape cs).length ≤ byteLength cs := by
  rcases unescape_cases cs with ⟨-, same⟩ | ⟨-, shorter⟩
  · rw [same, Checked.length_encode]
  · exact Nat.le_of_lt shorter

theorem unescape_eq_iff : unescape cs = Checked.encode cs ↔ ¬HasEscape cs := by
  rcases unescape_cases cs with ⟨none', same⟩ | ⟨escape, shorter⟩
  · exact iff_of_true same none'
  · refine iff_of_false (fun same => ?_) (not_not_intro escape)
    rw [same, Checked.length_encode] at shorter
    exact Nat.lt_irrefl _ shorter

end Unescape

end CodeAtlas.FileUrl
