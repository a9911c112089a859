import CodeAtlas.Proofs.FileUrl.Segments
import Mathlib.Tactic.MkIffOfInductiveProp

/-!
# Which files URLs name

A path is pasted into a URL as it stands, and only what a URL cannot hold is put into percent notation. So
the path of a URL stands for the path of the file, byte by byte, unless that has something in it which means
something else in a URL: a hash sign, a question mark, a percent sign with two digits behind it, or a second
slash in front. Among the paths without these no two have the same URL.
-/

namespace CodeAtlas.FileUrl

/-! ## Paths that URLs can hold -/

/-- Nothing in a text means something else in a URL of a file. -/
@[mk_iff]
structure Literal (cs : List Char) : Prop where
  hash : '#' ∉ cs
  question : '?' ∉ cs
  slashes : ¬['/', '/'] <+: cs
  escapes : ¬HasEscape cs

/-- A path without dot segments, without characters that are left out of URLs, and without a blank or a
control character at its end. -/
@[mk_iff]
structure Plain (path : List Char) : Prop where
  dots : ∀ part ∈ splitSlashes (normalize path), part ≠ ['.'] ∧ part ≠ ['.', '.']
  kept : ∀ c ∈ path, isIgnored c = false
  trimmed : ∀ c ∈ path.getLast?, 0x20 < c.toNat

instance decidableHasEscape : (cs : List Char) → Decidable (HasEscape cs)
  | [] => isFalse not_hasEscape_nil
  | _ :: rest =>
      have := decidableHasEscape rest
      decidable_of_iff _ hasEscape_cons.symm

instance (cs : List Char) : Decidable (Literal cs) :=
  decidable_of_iff _ (literal_iff cs).symm

instance (path : List Char) : Decidable (Plain path) :=
  -- Only the characters of the path are looked at, not all that there are.
  have : Decidable (∀ c ∈ path, isIgnored c = false) := List.decidableBAll _ path
  have : Decidable (∀ c ∈ path.getLast?, 0x20 < c.toNat) := Option.decidableForallMem path.getLast?
  decidable_of_iff _ (plain_iff path).symm

section Paths

variable {mark : Char} {cs : List Char} {path : String}

theorem divide_fst (mark : Char) (cs : List Char) : (divide mark cs).1 = cs.takeWhile (· ≠ mark) := by
  have whole := List.takeWhile_append_dropWhile (p := (· ≠ mark)) (l := cs)
  rw [divide]
  split
  · next none' =>
      rw [none', List.append_nil] at whole
      exact whole.symm
  · rfl

theorem divide_snd_eq_none : (divide mark cs).2 = none ↔ mark ∉ cs := by
  have absent : cs.dropWhile (· ≠ mark) = [] ↔ mark ∉ cs := by
    rw [List.dropWhile_eq_nil_iff]
    exact ⟨fun others mem => of_decide_eq_true (others mark mem) rfl,
      fun absent c mem => decide_eq_true fun same => absent (same ▸ mem)⟩
  rw [← absent, divide]
  split
  · next none' => exact iff_of_true rfl none'
  · next found => exact iff_of_false (Option.some_ne_none _) (found ▸ List.cons_ne_nil _ _)

theorem divide_of_not_mem (absent : mark ∉ cs) : divide mark cs = (cs, none) := by
  refine Prod.ext ?_ (divide_snd_eq_none.mpr absent)
  rw [divide_fst, List.takeWhile_eq_self_iff]
  exact fun c mem => decide_eq_true fun same => absent (same ▸ mem)

theorem normalize_eq_cons (path : List Char) : ∃ rest, normalize path = '/' :: rest := by
  rw [normalize]
  split
  · next slash => exact List.head?_eq_some_iff.mp slash
  · exact ⟨_, rfl⟩

theorem of_mem_normalize {c : Char} {path : List Char} (mem : c ∈ normalize path) : c = '/' ∨ c ∈ path := by
  have mapped (found : c ∈ path.map fun c => if c = '\\' then '/' else c) : c = '/' ∨ c ∈ path := by
    obtain ⟨d, inPath, rfl⟩ := List.mem_map.mp found
    split
    · exact .inl rfl
    · exact .inr inPath
  rw [normalize] at mem
  split at mem
  · exact mapped mem
  · rcases List.mem_cons.mp mem with rfl | found
    · exact .inl rfl
    · exact mapped found

theorem of_getLast?_normalize {c : Char} {path : List Char} (last : c ∈ (normalize path).getLast?) :
    c = '/' ∨ c ∈ path.getLast? := by
  have mapped (found : c ∈ (path.map fun c => if c = '\\' then '/' else c).getLast?) :
      c = '/' ∨ c ∈ path.getLast? := by
    rw [List.getLast?_map] at found
    obtain ⟨d, inPath, rfl⟩ := Option.map_eq_some_iff.mp found
    split
    · exact .inl rfl
    · exact .inr inPath
  rw [normalize] at last
  split at last
  · exact mapped last
  · rw [List.getLast?_cons] at last
    cases back : (path.map fun c => if c = '\\' then '/' else c).getLast? with
    | none =>
        rw [back] at last
        cases last
        exact .inl rfl
    | some d =>
        rw [back] at last
        cases last
        exact mapped back

theorem Plain.kept_normalize {path : List Char} (plain : Plain path) :
    ∀ c ∈ normalize path, isIgnored c = false := by
  intro c mem
  rcases of_mem_normalize mem with rfl | inPath
  · rfl
  · exact plain.kept c inPath

theorem trimEnd_eq (trimmed : ∀ c ∈ cs.getLast?, 0x20 < c.toNat) : trimEnd cs = cs := by
  rw [trimEnd, List.reverse_eq_iff]
  rw [← List.head?_reverse] at trimmed
  cases back : cs.reverse with
  | nil => rfl
  | cons last before =>
      rw [back] at trimmed
      exact List.dropWhile_cons_of_neg (by simpa using trimmed last rfl)

theorem Plain.trimEnd_normalize {path : List Char} (plain : Plain path) :
    trimEnd (normalize path) = normalize path := by
  refine trimEnd_eq fun c last => ?_
  rcases of_getLast?_normalize last with rfl | inPath
  · decide
  · exact plain.trimmed c inPath

/-! ## The parts of URLs -/

theorem fragment_eq_none (plain : Plain path.toList) :
    (ofPath path).fragment = none ↔ '#' ∉ normalize path.toList := by
  rw [ofPath, plain.trimEnd_normalize, ← divide_snd_eq_none]
  exact Option.map_eq_none_iff

theorem query_eq_none (plain : Plain path.toList) :
    (ofPath path).query = none ↔ '?' ∉ (normalize path.toList).takeWhile (· ≠ '#') := by
  rw [ofPath, plain.trimEnd_normalize, ← divide_fst, ← divide_snd_eq_none]
  exact Option.map_eq_none_iff

theorem query_eq_none_of_not_mem (plain : Plain path.toList) (hash : '#' ∉ normalize path.toList)
    (question : '?' ∉ normalize path.toList) : (ofPath path).query = none := by
  rwa [query_eq_none plain, ← divide_fst, divide_of_not_mem hash]

/-- What is in front of marks is all of the path if there are none. -/
theorem path_eq (plain : Plain path.toList) (hash : '#' ∉ normalize path.toList)
    (question : '?' ∉ normalize path.toList) : (ofPath path).path.toList =
      encode inPath (joinSegments (resolve [] (splitSlashes (normalize path.toList)))) := by
  rw [ofPath, plain.trimEnd_normalize, divide_of_not_mem hash]
  dsimp only
  rw [divide_of_not_mem question, String.toList_ofList]

/-- Without an escape no segment means dots, so nothing is resolved. -/
theorem Plain.joinSegments_resolve {path : List Char} (plain : Plain path)
    (single : ¬['/', '/'] <+: normalize path) (noEscape : ¬HasEscape (normalize path)) :
    joinSegments (resolve [] (splitSlashes (normalize path))) = normalize path := by
  have kept := plain.kept_normalize
  have others : ∀ part ∈ splitSlashes (normalize path), ¬IsDots part := fun part mem dots =>
    noEscape ((dots.escaped (plain.dots part mem)).1.mono (infix_of_mem_splitSlashes mem))
  obtain ⟨rest, text_eq⟩ := normalize_eq_cons path
  rw [text_eq] at single kept others ⊢
  rw [resolve_splitSlashes kept others, joinSegments_splitSlashes single]

theorem unescape_path_iff (plain : Plain path.toList) (hash : '#' ∉ normalize path.toList)
    (question : '?' ∉ normalize path.toList) :
    unescape (ofPath path).path.toList = Checked.encode (normalize path.toList) ↔
      (¬['/', '/'] <+: normalize path.toList) ∧ ¬HasEscape (normalize path.toList) := by
  rw [path_eq plain hash question, unescape_encode]
  constructor
  · intro same
    have long := length_unescape_le (joinSegments (resolve [] (splitSlashes (normalize path.toList))))
    rw [same, Checked.length_encode] at long
    have kept := plain.kept_normalize
    have dots := plain.dots
    obtain ⟨rest, text_eq⟩ := normalize_eq_cons path.toList
    rw [text_eq] at same long kept dots ⊢
    obtain ⟨single, back⟩ := joinSegments_resolve_eq kept dots long
    rw [back] at same
    exact ⟨single, unescape_eq_iff.mp same⟩
  · rintro ⟨single, noEscape⟩
    rw [plain.joinSegments_resolve single noEscape, unescape_eq_iff.mpr noEscape]

/-- Without marks, a URL is its path behind the scheme. -/
theorem text_eq (plain : Plain path.toList) (hash : '#' ∉ normalize path.toList)
    (question : '?' ∉ normalize path.toList) :
    (ofPath path).text.toList = "file://".toList ++ (ofPath path).path.toList := by
  rw [text, query_eq_none_of_not_mem plain hash question, (fragment_eq_none plain).mpr hash]
  simp only [Option.map_none, Option.getD_none, String.append_empty, String.toList_append]

/-- What stands for itself in a URL can be read off it. -/
theorem eq_of_text_eq {other : String} (plain : Plain path.toList) (plain' : Plain other.toList)
    (literal : Literal (normalize path.toList)) (literal' : Literal (normalize other.toList))
    (same : (ofPath path).text = (ofPath other).text) :
    normalize path.toList = normalize other.toList := by
  have paths := congrArg String.toList same
  rw [text_eq plain literal.hash literal.question, text_eq plain' literal'.hash literal'.question,
    List.append_cancel_left_eq] at paths
  have decoded := (unescape_path_iff plain literal.hash literal.question).mpr
    ⟨literal.slashes, literal.escapes⟩
  have decoded' := (unescape_path_iff plain' literal'.hash literal'.question).mpr
    ⟨literal'.slashes, literal'.escapes⟩
  refine Checked.encode_injective ?_
  rw [← decoded, ← decoded', paths]

/-- Only a hash sign makes a fragment of a path, and only a question mark a query. The path of a URL stands
for the path of the file exactly if nothing in it means something else, and among such paths no two have one
URL. -/
theorem urls_tell_paths_apart (path : String) (plain : Plain path.toList) :
    ((ofPath path).fragment = none ↔ '#' ∉ normalize path.toList) ∧
    ((ofPath path).query = none ↔ '?' ∉ (normalize path.toList).takeWhile (· ≠ '#')) ∧
    ((ofPath path).query = none ∧ (ofPath path).fragment = none ∧
        unescape (ofPath path).path.toList = Checked.encode (normalize path.toList) ↔
      Literal (normalize path.toList)) ∧
    ∀ other : String, Plain other.toList →
      Literal (normalize path.toList) → Literal (normalize other.toList) →
      normalize path.toList ≠ normalize other.toList → (ofPath path).text ≠ (ofPath other).text := by
  refine ⟨fragment_eq_none plain, query_eq_none plain, ⟨?_, ?_⟩, ?_⟩
  · rintro ⟨noQuery, noFragment, decoded⟩
    have hash := (fragment_eq_none plain).mp noFragment
    have question := (query_eq_none plain).mp noQuery
    rw [← divide_fst, divide_of_not_mem hash] at question
    obtain ⟨slashes, escapes⟩ := (unescape_path_iff plain hash question).mp decoded
    exact ⟨hash, question, slashes, escapes⟩
  · rintro ⟨hash, question, slashes, escapes⟩
    exact ⟨query_eq_none_of_not_mem plain hash question, (fragment_eq_none plain).mpr hash,
      (unescape_path_iff plain hash question).mpr ⟨slashes, escapes⟩⟩
  · intro other plain' literal literal' different same
    exact different (eq_of_text_eq plain plain' literal literal' same)

/-- A blank and an underscore make two URLs. -/
theorem urls_tell_blank_apart :
    Plain "lib/my cart.rb".toList ∧ Plain "lib\\my_cart.rb".toList ∧
    ((ofPath "lib/my cart.rb").query = none ∧ (ofPath "lib/my cart.rb").fragment = none ∧
      unescape (ofPath "lib/my cart.rb").path.toList =
        Checked.encode (normalize "lib/my cart.rb".toList)) ∧
    (ofPath "lib/my cart.rb").text ≠ (ofPath "lib\\my_cart.rb").text := by
  have plain : Plain "lib/my cart.rb".toList := by decide +kernel
  have plain' : Plain "lib\\my_cart.rb".toList := by decide +kernel
  have literal : Literal (normalize "lib/my cart.rb".toList) := by decide +kernel
  have literal' : Literal (normalize "lib\\my_cart.rb".toList) := by decide +kernel
  have urls := urls_tell_paths_apart "lib/my cart.rb" plain
  exact ⟨plain, plain', urls.2.2.1.mpr literal,
    urls.2.2.2 "lib\\my_cart.rb" plain' literal literal' (by decide +kernel)⟩

/-- A blank and the escape for one make the same URL. -/
theorem blank_and_escape_share_url :
    Plain "a b.rb".toList ∧ Plain "a%20b.rb".toList ∧
    normalize "a b.rb".toList ≠ normalize "a%20b.rb".toList ∧
    (ofPath "a b.rb").text = (ofPath "a%20b.rb").text ∧
    unescape (ofPath "a%20b.rb").path.toList ≠ Checked.encode (normalize "a%20b.rb".toList) := by
  have plain : Plain "a%20b.rb".toList := by decide +kernel
  refine ⟨by decide +kernel, plain, by decide +kernel, by decide +kernel, ?_⟩
  rw [ne_eq, unescape_path_iff plain (by decide +kernel) (by decide +kernel)]
  decide +kernel

end Paths

end CodeAtlas.FileUrl
