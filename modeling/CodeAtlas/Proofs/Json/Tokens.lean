import CodeAtlas.Json.Printer
import CodeAtlas.Json.Token
import Mathlib.Data.List.TakeDrop
import Mathlib.Tactic.Common

/-!
# The tokens of a text, one after another

Every token takes at least one character, so the bound under which a text is divided is never met,
and the tokens of a text are the first one followed by those of what is left.
-/

namespace CodeAtlas.Json

/-! ## What parts of a token take -/

theorem bind_ok {ε α β : Type} {x : Except ε α} {f : α → Except ε β} {b : β}
    (done : x >>= f = .ok b) : ∃ a, x = .ok a ∧ f a = .ok b := by
  cases x with
  | error e => cases done
  | ok a => exact ⟨a, rfl, done⟩

theorem map_ok {ε α β : Type} {x : Except ε α} {f : α → β} {b : β} (done : x.map f = .ok b) :
    ∃ a, x = .ok a ∧ f a = b := by
  cases x with
  | error e => cases done
  | ok a => exact ⟨a, rfl, Except.ok.inj done⟩

theorem length_skipText {cs rest : List Char} (skipped : skipText cs = .ok rest) :
    rest.length ≤ cs.length := by
  fun_induction skipText cs with
  | case2 => cases skipped; exact Nat.le_succ _
  | case5 _ _ _ _ _ _ _ _ ih | case8 _ _ _ _ _ _ _ ih | case10 _ _ _ _ _ ih =>
      have shorter := ih skipped
      simp only [List.length_cons]
      omega
  | _ => cases skipped

theorem length_expectWord {word cs rest : List Char} (read : expectWord word cs = .ok rest) :
    rest.length ≤ cs.length := by
  fun_induction expectWord word cs with
  | case1 => cases read; exact Nat.le_refl _
  | case2 => cases read
  | case3 w ws cs ih => exact Nat.le_succ_of_le (ih read)
  | case4 => cases read

theorem someDigits_eq {cs digits rest : List Char} (read : someDigits cs = .ok (digits, rest)) :
    cs = digits ++ rest ∧ digits ≠ [] := by
  unfold someDigits spanDigits at read
  rw [List.span_eq_takeWhile_dropWhile] at read
  split at read
  · cases read
  · next found =>
      cases read
      exact ⟨List.takeWhile_append_dropWhile.symm, fun none => found _ (by rw [none])⟩

theorem wholeDigits_eq {cs digits rest : List Char} (read : wholeDigits cs = .ok (digits, rest)) :
    cs = digits ++ rest ∧ digits ≠ [] := by
  unfold wholeDigits at read
  obtain ⟨found, some, read⟩ := bind_ok read
  dsimp only at read
  split at read
  · cases read
  · cases read
    exact someDigits_eq some

theorem length_someDigits {cs digits rest : List Char} (read : someDigits cs = .ok (digits, rest)) :
    rest.length ≤ cs.length := by
  rw [(someDigits_eq read).1, List.length_append]
  exact Nat.le_add_left _ _

theorem length_fractionDigits {cs rest : List Char} {fraction : Option (List Char)}
    (read : fractionDigits cs = .ok (fraction, rest)) : rest.length ≤ cs.length := by
  unfold fractionDigits at read
  split at read
  · obtain ⟨⟨digits, rest⟩, found, same⟩ := map_ok read
    cases same
    exact Nat.le_succ_of_le (length_someDigits found)
  · cases read
    exact Nat.le_refl _

theorem length_exponentDigits {cs rest : List Char} {exponent : Option (Bool × List Char)}
    (read : exponentDigits cs = .ok (exponent, rest)) : rest.length ≤ cs.length := by
  unfold exponentDigits at read
  split at read
  · split at read
    · split at read
      next sign =>
        obtain ⟨⟨digits, rest⟩, found, same⟩ := map_ok read
        cases same
        have shorter := length_someDigits found
        split at sign <;> cases sign <;> simp only [List.length_cons] <;> omega
    · cases read
      exact Nat.le_refl _
  · cases read
    exact Nat.le_refl _

theorem length_readNumeral {cs rest : List Char} {n : Numeral} (read : readNumeral cs = .ok (n, rest)) :
    rest.length < cs.length := by
  unfold readNumeral at read
  split at read
  next sign =>
    obtain ⟨⟨digits, cs₁⟩, whole, read⟩ := bind_ok read
    obtain ⟨⟨digits', cs₂⟩, fraction, read⟩ := bind_ok read
    obtain ⟨⟨exponent, cs₃⟩, exponent, read⟩ := bind_ok read
    cases read
    obtain ⟨rfl, some⟩ := wholeDigits_eq whole
    have := length_fractionDigits fraction
    have := length_exponentDigits exponent
    have := List.length_pos_iff.mpr some
    have shorter : rest.length < (digits ++ cs₁).length := by
      rw [List.length_append]
      omega
    split at sign
    · cases sign
      exact Nat.lt_succ_of_lt shorter
    · rwa [← (Prod.mk.inj sign).2] at shorter

/-! ## One token after another -/

theorem length_tokenAt (c : Char) (cs : List Char) : (tokenAt c cs).2.length ≤ cs.length := by
  have text : (textToken cs).2.length ≤ cs.length := by
    unfold textToken
    dsimp only
    split
    · next skipped => exact length_skipText skipped
    · exact Nat.zero_le _
  have word (word : List Char) (atom : Atom) : (wordToken word atom cs).2.length ≤ cs.length := by
    unfold wordToken
    split
    · next read => exact length_expectWord read
    · exact Nat.zero_le _
  have number : (numberToken (c :: cs)).2.length ≤ cs.length := by
    unfold numberToken
    split
    · exact Nat.zero_le _
    · next read => exact Nat.le_of_lt_succ (length_readNumeral read)
  have either {p : Prop} [Decidable p] {t e : Token × List Char} (yes : t.2.length ≤ cs.length)
      (no : e.2.length ≤ cs.length) : (if p then t else e).2.length ≤ cs.length := by
    split
    · exact yes
    · exact no
  unfold tokenAt
  iterate 6 refine either (Nat.le_refl _) ?_
  refine either text ?_
  iterate 3 refine either (word _ _) ?_
  exact either number (Nat.zero_le _)

theorem tokensUpTo_eq {fuel : Nat} {cs : List Char} (enough : cs.length ≤ fuel) :
    tokensUpTo fuel cs = tokens cs := by
  suffices any : ∀ fuel₁ fuel₂ (cs : List Char), cs.length ≤ fuel₁ → cs.length ≤ fuel₂ →
      tokensUpTo fuel₁ cs = tokensUpTo fuel₂ cs from any _ _ _ enough (Nat.le_refl _)
  intro fuel₁
  induction fuel₁ with
  | zero =>
      intro fuel₂ cs none _
      obtain rfl := List.length_eq_zero_iff.mp (Nat.le_zero.mp none)
      cases fuel₂ <;> rfl
  | succ fuel₁ ih =>
      intro fuel₂ cs enough₁ enough₂
      cases cs with
      | nil => cases fuel₂ <;> rfl
      | cons c cs =>
          cases fuel₂ with
          | zero => cases enough₂
          | succ fuel₂ =>
              rw [List.length_cons] at enough₁ enough₂
              have shorter := length_tokenAt c cs
              have later := ih fuel₂ (tokenAt c cs).2 (by omega) (by omega)
              simp only [tokensUpTo, ih fuel₂ cs (by omega) (by omega), later]

@[simp]
theorem tokens_nil : tokens [] = [] := rfl

theorem tokens_blank {c : Char} (blank : isBlank c = true) (cs : List Char) :
    tokens (c :: cs) = tokens cs := by
  rw [tokens, List.length_cons, tokensUpTo, if_pos blank, tokens]

theorem tokens_cons {c : Char} (solid : isBlank c = false) (cs : List Char) :
    tokens (c :: cs) = (tokenAt c cs).1 :: tokens (tokenAt c cs).2 := by
  rw [tokens, List.length_cons, tokensUpTo, if_neg (by simp [solid])]
  exact congrArg (_ :: ·) (tokensUpTo_eq (length_tokenAt c cs))

end CodeAtlas.Json
