import CodeAtlas.Proofs.Json.Tokens
import Mathlib.Data.List.Forall2

/-!
# What written values are divided into

A value has a form in tokens, and any text that is divided into these tokens denotes it. Both layouts
of a value do, if its numbers are natural and fit into 64 bits.
-/

namespace CodeAtlas.Json

/-! ## Values in tokens -/

def Atom.token (atom : Atom) : Token :=
  .other (.ok atom) (.ok ())

def Token.ofText (s : String) : Token :=
  .text (.ok s) (.ok ())

mutual

def Value.toTokens : Value → List Token
  | .null => [Atom.null.token]
  | .bool value => [(Atom.bool value).token]
  | .number value => [(Atom.number value).token]
  | .text value => [.ofText value]
  | .array items => .beginArray :: [.comma].intercalate (itemTokens items) ++ [.endArray]
  | .object fields => .beginObject :: [.comma].intercalate (fieldTokens fields) ++ [.endObject]

def Value.itemTokens : List Value → List (List Token)
  | [] => []
  | v :: vs => v.toTokens :: itemTokens vs

def Value.fieldTokens : List (String × Value) → List (List Token)
  | [] => []
  | (key, v) :: rest => (.ofText key :: .colon :: v.toTokens) :: fieldTokens rest

end

/-- A text that stands for a value, however it is laid out. -/
def Value.Denotes (doc : String) (v : Value) : Prop :=
  tokens doc.toList = v.toTokens

/-! ## Characters that are tokens -/

/-- No numeral goes on with the text. -/
def EndsNumeral (cs : List Char) : Prop :=
  ∀ c ∈ cs.head?, ¬ c.isDigit ∧ c ≠ '.' ∧ c ≠ 'e' ∧ c ≠ 'E'

/-- Characters that are divided into tokens wherever no numeral goes on behind them. -/
def Spells (cs : List Char) (toks : List Token) : Prop :=
  ∀ rest, EndsNumeral rest → tokens (cs ++ rest) = toks ++ tokens rest

/-! ## Texts -/

theorem codeUnit?_hexDigit {n : Nat} (small : n < 0x20) :
    codeUnit? '0' '0' (hexDigit (n / 16)) (hexDigit (n % 16)) = some n := by
  revert n
  decide

theorem readText_writtenChar (seen : List Char) (c : Char) (cs : List Char) :
    readText seen (writtenChar c ++ cs) = readText (c :: seen) cs := by
  unfold writtenChar
  iterate 7
    split
    · next e => subst e; simp [readText, escaped?]
  split
  · next control =>
      have plain : isTrail c.toNat = false ∧ isLead c.toNat = false := by
        simp only [isTrail, isLead, Bool.and_eq_false_iff, decide_eq_false_iff_not]
        omega
      simp [readText, codeUnit?_hexDigit control, plain, Char.ofNat_toNat]
  · next quote backslash _ _ _ _ _ control =>
      rw [List.singleton_append, readText.eq_def]
      simp [quote, backslash, control]

theorem skipText_writtenChar (c : Char) (cs : List Char) :
    skipText (writtenChar c ++ cs) = skipText cs := by
  unfold writtenChar
  iterate 7
    split
    · next e => subst e; simp [skipText, escaped?]
  split
  · next control => simp [skipText, codeUnit?_hexDigit control]
  · next quote backslash _ _ _ _ _ control =>
      rw [List.singleton_append, skipText.eq_def]
      simp [quote, backslash, control]

theorem readText_written (seen cs rest : List Char) :
    readText seen (cs.flatMap writtenChar ++ '\x22' :: rest) =
      .ok (String.ofList (seen.reverse ++ cs), rest) := by
  induction cs generalizing seen with
  | nil => simp [readText.eq_def]
  | cons c cs ih => simp [List.flatMap_cons, List.append_assoc, readText_writtenChar, ih]

theorem skipText_written (cs rest : List Char) :
    skipText (cs.flatMap writtenChar ++ '\x22' :: rest) = .ok rest := by
  induction cs with
  | nil => simp [skipText.eq_def]
  | cons c cs ih => simp [List.flatMap_cons, List.append_assoc, skipText_writtenChar, ih]

theorem tokens_writtenText (s : String) (rest : List Char) :
    tokens (writtenText s ++ rest) = .ofText s :: tokens rest := by
  have text : textToken (s.toList.flatMap writtenChar ++ '\x22' :: rest) = (.ofText s, rest) := by
    simp [textToken, readText_written, skipText_written, Token.ofText, Except.map]
  rw [writtenText, List.append_assoc, List.cons_append, tokens_cons (by decide)]
  simp [tokenAt, text]

/-! ## Numbers -/

theorem tokens_digit {c : Char} (digit : c.isDigit) (cs : List Char) :
    tokens (c :: cs) = (numberToken (c :: cs)).1 :: tokens (numberToken (c :: cs)).2 := by
  have other {x : Char} (none : x.isDigit = false) : c ≠ x := by
    rintro rfl
    simp [none] at digit
  have solid : isBlank c = false := by
    simp [isBlank, other (x := ' '), other (x := '\n'), other (x := '\t'), other (x := '\r')]
  have number : tokenAt c cs = numberToken (c :: cs) := by
    unfold tokenAt
    iterate 10 rw [if_neg (other rfl)]
    rw [if_pos (.inr digit)]
  rw [tokens_cons solid, number]

theorem le_ofDigitChars (cs : List Char) (s : Nat) : s ≤ Nat.ofDigitChars 10 cs s := by
  induction cs generalizing s with
  | nil => exact Nat.le_refl s
  | cons c cs ih =>
      rw [Nat.ofDigitChars_cons]
      exact Nat.le_trans (by omega) (ih _)

theorem absorb_eq {s : Nat} {cs : List Char} (small : Nat.ofDigitChars 10 cs s ≤ maxSignificand) :
    absorb s cs = (Nat.ofDigitChars 10 cs s, cs.length) := by
  induction cs generalizing s with
  | nil => rfl
  | cons c cs ih =>
      have fits : 10 * s + digitValue c ≤ maxSignificand := Nat.le_trans (le_ofDigitChars cs _) small
      have later : absorb (10 * s + digitValue c) cs = _ := ih small
      rw [absorb, if_pos fits, later]
      rfl

/-- A natural number is not written with a zero before other digits. -/
theorem toDigits_ne_zero_cons (n : Nat) (d : Char) (ds : List Char) :
    Nat.toDigits 10 n ≠ '0' :: d :: ds := by
  have head : ∀ n, 0 < n → (Nat.toDigits 10 n).head? ≠ some '0' := by
    intro n
    induction n using Nat.strongRecOn with
    | _ n ih =>
        intro pos
        rw [Nat.toDigits_eq_if (by decide)]
        split
        · next small =>
            have digit : ∀ n < 10, 0 < n → [Nat.digitChar n].head? ≠ some '0' := by decide
            exact digit n small pos
        · next large =>
            have first := ih (n / 10) (by omega) (by omega)
            have nonempty : Nat.toDigits 10 (n / 10) ≠ [] := Nat.toDigits_ne_nil
            obtain ⟨c, cs, written⟩ := List.exists_cons_of_ne_nil nonempty
            rw [written] at first ⊢
            exact first
  intro written
  cases n with
  | zero => simp at written
  | succ n => exact head (n + 1) (Nat.succ_pos n) (by rw [written]; rfl)

theorem someDigits_append {digits rest : List Char} (all : ∀ c ∈ digits, c.isDigit)
    (nonempty : digits ≠ []) (ends : EndsNumeral rest) :
    someDigits (digits ++ rest) = .ok (digits, rest) := by
  have stops : rest.takeWhile Char.isDigit = [] ∧ rest.dropWhile Char.isDigit = rest := by
    cases rest with
    | nil => exact ⟨rfl, rfl⟩
    | cons c cs =>
        have other := (ends c rfl).1
        exact ⟨List.takeWhile_cons_of_neg other, List.dropWhile_cons_of_neg other⟩
  rw [someDigits, spanDigits, List.span_eq_takeWhile_dropWhile, List.takeWhile_append_of_pos all,
    List.dropWhile_append_of_pos all, stops.1, stops.2, List.append_nil]
  cases digits with
  | nil => exact absurd rfl nonempty
  | cons d ds => rfl

theorem fractionDigits_end {rest : List Char} (ends : EndsNumeral rest) :
    fractionDigits rest = .ok (none, rest) := by
  unfold fractionDigits
  split
  · exact absurd rfl (ends '.' rfl).2.1
  · rfl

theorem exponentDigits_end {rest : List Char} (ends : EndsNumeral rest) :
    exponentDigits rest = .ok (none, rest) := by
  cases rest with
  | nil => rfl
  | cons c cs =>
      obtain ⟨_, _, lower, upper⟩ := ends c rfl
      simp [exponentDigits, lower, upper]

theorem readNumeral_digits {digits rest : List Char} (all : ∀ c ∈ digits, c.isDigit)
    (nonempty : digits ≠ []) (canonical : ∀ d ds, digits ≠ '0' :: d :: ds)
    (ends : EndsNumeral rest) :
    readNumeral (digits ++ rest) = .ok (⟨false, digits, none, none⟩, rest) := by
  have whole : wholeDigits (digits ++ rest) = .ok (digits, rest) := by
    simp only [wholeDigits, someDigits_append all nonempty ends, bind, Except.bind]
  have unsigned (cs : List Char) : digits ++ rest ≠ '-' :: cs := by
    intro signed
    cases digits with
    | nil => exact nonempty rfl
    | cons d ds =>
        cases signed
        exact absurd (all '-' List.mem_cons_self) (by decide)
  unfold readNumeral
  split
  next sign =>
    split at sign
    · next signed => exact absurd signed (unsigned _)
    · cases sign
      simp only [whole, fractionDigits_end ends, exponentDigits_end ends, bind, Except.bind]

theorem spells_toDigits {n : Nat} (small : n < UInt64.size) :
    Spells (Nat.toDigits 10 n) [(Atom.number (.integer n)).token] := by
  intro rest ends
  have digits : ∀ c ∈ Nat.toDigits 10 n, c.isDigit := fun c =>
    Nat.isDigit_of_mem_toDigits (by decide) (by decide)
  have nonempty : Nat.toDigits 10 n ≠ [] := Nat.toDigits_ne_nil
  have read := readNumeral_digits digits nonempty (toDigits_ne_zero_cons n) ends
  have number : (⟨false, Nat.toDigits 10 n, none, none⟩ : Numeral).toNumber = .integer n := by
    have value : Nat.ofDigitChars 10 (Nat.toDigits 10 n) 0 = n := Nat.ofDigitChars_ten_toDigits
    have all : absorb 0 (Nat.toDigits 10 n) = (_, (Nat.toDigits 10 n).length) :=
      absorb_eq (by rw [value]; exact Nat.le_pred_of_lt small)
    simp [Numeral.toNumber, all, value]
  obtain ⟨d, ds, written⟩ := List.exists_cons_of_ne_nil nonempty
  have token : numberToken (Nat.toDigits 10 n ++ rest) = ((Atom.number (.integer n)).token, rest) := by
    simp [numberToken, read, number, Atom.token]
  rw [written] at digits token ⊢
  rw [List.cons_append, tokens_digit (digits d List.mem_cons_self), ← List.cons_append, token]
  rfl

/-! ## Values -/

mutual

/-- The numbers in a value are natural and fit into 64 bits. -/
def Value.Plain : Value → Prop
  | .null | .bool _ | .text _ => True
  | .number value => ∃ n < UInt64.size, value = .integer (n : Nat)
  | .array items => itemsPlain items
  | .object fields => fieldsPlain fields

def Value.itemsPlain : List Value → Prop
  | [] => True
  | v :: vs => v.Plain ∧ itemsPlain vs

def Value.fieldsPlain : List (String × Value) → Prop
  | [] => True
  | (_, v) :: rest => v.Plain ∧ fieldsPlain rest

end

theorem Value.fieldsPlain_iff {fields : List (String × Value)} :
    Value.fieldsPlain fields ↔ ∀ field ∈ fields, field.2.Plain := by
  induction fields with
  | nil => simp [Value.fieldsPlain]
  | cons field fields ih => simp [Value.fieldsPlain, ih]

/-- A character that is a token by itself, and with which no numeral goes on. -/
structure Mark (c : Char) (tok : Token) : Prop where
  tokens_cons : ∀ cs, tokens (c :: cs) = tok :: tokens cs
  ends : ∀ cs, EndsNumeral (c :: cs)

theorem endsNumeral_cons {c : Char} (ends : ¬ c.isDigit ∧ c ≠ '.' ∧ c ≠ 'e' ∧ c ≠ 'E')
    (cs : List Char) : EndsNumeral (c :: cs) := by
  rintro _ ⟨⟩
  exact ends

theorem mark_comma : Mark ',' .comma :=
  ⟨fun _ => tokens_cons rfl _, endsNumeral_cons (by decide)⟩

theorem mark_colon : Mark ':' .colon :=
  ⟨fun _ => tokens_cons rfl _, endsNumeral_cons (by decide)⟩

theorem mark_beginArray : Mark '[' .beginArray :=
  ⟨fun _ => tokens_cons rfl _, endsNumeral_cons (by decide)⟩

theorem mark_endArray : Mark ']' .endArray :=
  ⟨fun _ => tokens_cons rfl _, endsNumeral_cons (by decide)⟩

theorem mark_beginObject : Mark '\x7b' .beginObject :=
  ⟨fun _ => tokens_cons rfl _, endsNumeral_cons (by decide)⟩

theorem mark_endObject : Mark '\x7d' .endObject :=
  ⟨fun _ => tokens_cons rfl _, endsNumeral_cons (by decide)⟩

/-- Parts with commas between them are divided as each of them is. -/
theorem spells_intercalate {parts : List (List Char)} {toks : List (List Token)}
    (spell : List.Forall₂ Spells parts toks) :
    Spells ([','].intercalate parts) ([Token.comma].intercalate toks) := by
  induction spell with
  | nil => exact fun _ _ => rfl
  | @cons part tok parts toks first later ih =>
      cases later with
      | nil => simpa using first
      | cons second later =>
          intro rest ends
          rw [List.intercalate_cons_cons, List.intercalate_cons_cons]
          simp only [List.append_assoc, List.cons_append, List.nil_append]
          rw [first _ (mark_comma.ends _), mark_comma.tokens_cons, ih rest ends]

theorem tokens_lineStart (level : Nat) (cs : List Char) :
    tokens (lineStart level ++ cs) = tokens cs := by
  have blanks : ∀ n, tokens (List.replicate n ' ' ++ cs) = tokens cs := by
    intro n
    induction n with
    | zero => rfl
    | succ n ih => rw [List.replicate_succ, List.cons_append, tokens_blank rfl, ih]
  rw [lineStart, List.cons_append, tokens_blank rfl, blanks]

theorem endsNumeral_lineStart (level : Nat) (cs : List Char) : EndsNumeral (lineStart level ++ cs) :=
  endsNumeral_cons (by decide) _

section Enclosures

variable {first last : Char} {opening closing : Token} {parts : List (List Char)}
  {toks : List (List Token)}

theorem spells_enclosed (opens : Mark first opening) (closes : Mark last closing)
    (spell : List.Forall₂ Spells parts toks) :
    Spells (enclosed first last parts) (opening :: [Token.comma].intercalate toks ++ [closing]) := by
  intro rest _
  simp only [enclosed, List.cons_append, List.append_assoc, List.nil_append]
  rw [opens.tokens_cons, spells_intercalate spell _ (closes.ends rest), closes.tokens_cons]

theorem spells_enclosedLines (level : Nat) (opens : Mark first opening) (closes : Mark last closing)
    (spell : List.Forall₂ Spells parts toks) :
    Spells (enclosedLines level first last parts)
      (opening :: [Token.comma].intercalate toks ++ [closing]) := by
  intro rest _
  cases spell with
  | nil => exact (opens.tokens_cons _).trans (congrArg _ (closes.tokens_cons rest))
  | @cons part tok parts toks spelled later =>
      have onLines : List.Forall₂ Spells
          ((part :: parts).map fun part => lineStart (level + 1) ++ part) (tok :: toks) := by
        refine List.forall₂_map_left_iff.mpr ((List.Forall₂.cons spelled later).imp ?_)
        intro part tok spelled rest ends
        rw [List.append_assoc, tokens_lineStart, spelled rest ends]
      simp only [enclosedLines, List.cons_append, List.append_assoc, List.nil_append]
      rw [opens.tokens_cons, spells_intercalate onLines _ (endsNumeral_lineStart _ _),
        tokens_lineStart, closes.tokens_cons]

end Enclosures

theorem spells_field (key : String) {cs : List Char} {toks : List Token} (spell : Spells cs toks) :
    Spells (writtenText key ++ ':' :: cs) (.ofText key :: .colon :: toks) := by
  intro rest ends
  rw [List.append_assoc, tokens_writtenText, List.cons_append, mark_colon.tokens_cons, spell rest ends]
  rfl

mutual

theorem spells_compact : ∀ {v : Value}, v.Plain → Spells (compact v) v.toTokens
  | .null, _ | .bool true, _ | .bool false, _ => fun _ _ => tokens_cons rfl _
  | .number _, ⟨_, small, rfl⟩ => spells_toDigits small
  | .text s, _ => fun rest _ => tokens_writtenText s rest
  | .array _, plain => spells_enclosed mark_beginArray mark_endArray (spells_compactItems plain)
  | .object _, plain => spells_enclosed mark_beginObject mark_endObject (spells_compactFields plain)

theorem spells_compactItems : ∀ {vs : List Value}, Value.itemsPlain vs →
    List.Forall₂ Spells (compactItems vs) (Value.itemTokens vs)
  | [], _ => .nil
  | _ :: _, ⟨first, later⟩ => .cons (spells_compact first) (spells_compactItems later)

theorem spells_compactFields : ∀ {fields : List (String × Value)}, Value.fieldsPlain fields →
    List.Forall₂ Spells (compactFields fields) (Value.fieldTokens fields)
  | [], _ => .nil
  | (key, _) :: _, ⟨first, later⟩ =>
      .cons (spells_field key (spells_compact first)) (spells_compactFields later)

end

mutual

theorem spells_indented (level : Nat) : ∀ {v : Value}, v.Plain → Spells (indented level v) v.toTokens
  | .null, plain | .bool _, plain | .number _, plain | .text _, plain => spells_compact plain
  | .array _, plain =>
      spells_enclosedLines level mark_beginArray mark_endArray (spells_indentedItems _ plain)
  | .object _, plain =>
      spells_enclosedLines level mark_beginObject mark_endObject (spells_indentedFields _ plain)

theorem spells_indentedItems (level : Nat) : ∀ {vs : List Value}, Value.itemsPlain vs →
    List.Forall₂ Spells (indentedItems level vs) (Value.itemTokens vs)
  | [], _ => .nil
  | _ :: _, ⟨first, later⟩ => .cons (spells_indented level first) (spells_indentedItems level later)

theorem spells_indentedFields (level : Nat) :
    ∀ {fields : List (String × Value)}, Value.fieldsPlain fields →
      List.Forall₂ Spells (indentedFields level fields) (Value.fieldTokens fields)
  | [], _ => .nil
  | (key, _) :: _, ⟨first, later⟩ =>
      have spaced : Spells (' ' :: indented level _) _ := fun rest ends =>
        (tokens_blank rfl _).trans (spells_indented level first rest ends)
      .cons (spells_field key spaced) (spells_indentedFields level later)

end

namespace Value

theorem denotes_ofList {v : Value} {cs : List Char} (spell : Spells cs v.toTokens) :
    v.Denotes (String.ofList cs) := by
  have alone := spell [] (by simp [EndsNumeral])
  simpa [Denotes] using alone

/-- Both layouts of a value denote it. -/
theorem denotes_render {v : Value} (plain : v.Plain) : Denotes v.render v :=
  denotes_ofList (spells_compact plain)

theorem denotes_renderLines {v : Value} (plain : v.Plain) : Denotes v.renderLines v :=
  denotes_ofList (spells_indented 0 plain)

end Value

end CodeAtlas.Json
