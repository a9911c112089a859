import CodeAtlas.Proofs.FileUrl.Percent

/-!
# The segments of paths

A path is taken apart at its slashes, dot segments are resolved, and what is left is put together again. If
no segment means dots and there is one slash in front, this gives the path back. Of a path in which no dot
segment is written as such it is shorter in all other cases.
-/

namespace CodeAtlas.FileUrl

open Text (byteLength byteLength_append)

section Segments

variable {cs part : List Char} {parts done : List (List Char)} {k : Nat}

theorem withoutIgnored_eq (kept : ∀ c ∈ cs, isIgnored c = false) : withoutIgnored cs = cs := by
  rw [withoutIgnored, List.filter_eq_self]
  intro c mem
  rw [kept c mem, Bool.not_false]

theorem splitSlashes_ne_nil (cs : List Char) : splitSlashes cs ≠ [] :=
  List.splitOnP_ne_nil _ cs

theorem intercalate_splitSlashes (cs : List Char) : ['/'].intercalate (splitSlashes cs) = cs :=
  List.intercalate_splitOn '/'

theorem splitSlashes_slash (cs : List Char) : splitSlashes ('/' :: cs) = [] :: splitSlashes cs := by
  rw [splitSlashes, List.splitOn, List.splitOnP_cons_eq_if_modifyHead, if_pos (beq_self_eq_true _)]
  rfl

theorem splitSlashes_char {c : Char} (noSlash : c ≠ '/') (cs : List Char) :
    ∃ first others, splitSlashes (c :: cs) = (c :: first) :: others := by
  obtain ⟨first, others, parts_eq⟩ := List.exists_cons_of_ne_nil (splitSlashes_ne_nil cs)
  refine ⟨first, others, ?_⟩
  rw [splitSlashes, List.splitOn] at parts_eq ⊢
  rw [List.splitOnP_cons_eq_if_modifyHead, if_neg (by simpa using noSlash), parts_eq]
  rfl

theorem infix_intercalate (mem : part ∈ parts) : part <:+: ['/'].intercalate parts := by
  induction parts with
  | nil => cases mem
  | cons first others ih =>
      cases others with
      | nil =>
          have same : part = ['/'].intercalate [first] := by
            rw [List.mem_singleton.mp mem, List.intercalate_singleton]
          exact same ▸ List.infix_rfl
      | cons second others =>
          rw [List.intercalate_cons_cons]
          rcases List.mem_cons.mp mem with rfl | later
          · exact (List.prefix_append part _).isInfix.trans (List.prefix_append _ _).isInfix
          · exact (ih later).trans (List.suffix_append _ _).isInfix

theorem infix_of_mem_splitSlashes (mem : part ∈ splitSlashes cs) : part <:+: cs := by
  simpa only [intercalate_splitSlashes] using infix_intercalate mem

theorem byteLength_slash (cs : List Char) : byteLength ('/' :: cs) = 1 + byteLength cs := rfl

/-! ### The weight of segments -/

/-- The bytes of segments, each with a slash in front. -/
def weight : List (List Char) → Nat
  | [] => 0
  | segment :: rest => byteLength segment + 1 + weight rest

@[simp]
theorem weight_nil : weight [] = 0 := rfl

@[simp]
theorem weight_cons (part : List Char) (parts : List (List Char)) :
    weight (part :: parts) = byteLength part + 1 + weight parts := rfl

@[simp]
theorem weight_append (parts segments : List (List Char)) :
    weight (parts ++ segments) = weight parts + weight segments := by
  induction parts with
  | nil => rw [List.nil_append, weight_nil, Nat.zero_add]
  | cons part parts ih =>
      rw [List.cons_append, weight_cons, weight_cons, ih]
      omega

@[simp]
theorem weight_reverse (parts : List (List Char)) : weight parts.reverse = weight parts := by
  induction parts with
  | nil => rfl
  | cons part parts ih =>
      rw [List.reverse_cons, weight_append, ih, weight_cons, weight_nil, weight_cons]
      omega

theorem byteLength_intercalate (ne : parts ≠ []) :
    byteLength (['/'].intercalate parts) + 1 = weight parts := by
  induction parts with
  | nil => exact absurd rfl ne
  | cons first others ih =>
      cases others with
      | nil => rw [List.intercalate_singleton, weight_cons, weight_nil, Nat.add_zero]
      | cons second others =>
          have behind := ih (List.cons_ne_nil second others)
          have slash : byteLength ['/'] = 1 := rfl
          rw [List.intercalate_cons_cons, byteLength_append, byteLength_append, slash, weight_cons]
          omega

theorem weight_splitSlashes (cs : List Char) : weight (splitSlashes cs) = byteLength cs + 1 := by
  rw [← byteLength_intercalate (splitSlashes_ne_nil cs), intercalate_splitSlashes]

theorem byteLength_joinSegments_le (segments : List (List Char)) :
    byteLength (joinSegments segments) ≤ max 1 (weight segments) := by
  have whole := congrArg weight (List.takeWhile_append_dropWhile (p := List.isEmpty) (l := segments))
  rw [weight_append] at whole
  rw [joinSegments, byteLength_slash]
  by_cases none' : segments.dropWhile List.isEmpty = []
  · rw [none']
    exact Nat.le_max_left 1 _
  · have joined := byteLength_intercalate none'
    omega

/-! ### Dot segments -/

/-- Segments that name the directory itself or the one it is in. -/
def IsDots (part : List Char) : Prop :=
  dotCount? part = some 1 ∨ dotCount? part = some 2

instance : DecidablePred IsDots := fun part =>
  inferInstanceAs (Decidable (dotCount? part = some 1 ∨ dotCount? part = some 2))

theorem byteLength_dots (k : Nat) : byteLength (List.replicate k '.') = k := by
  induction k with
  | zero => rfl
  | succ k ih =>
      have dot : '.'.utf8Size = 1 := rfl
      rw [List.replicate_succ, byteLength, ih, dot, Nat.add_comm]

/-- Dots that are not all written as dots are longer by the digits of the escapes. -/
theorem dotCount?_cases (found : dotCount? part = some k) :
    part = List.replicate k '.' ∨ (HasEscape part ∧ k + 2 ≤ byteLength part) := by
  have escaped {e : Char} {rest : List Char} (k : Nat) (digit : (escaped? ('2' :: e :: rest)).isSome)
      (behind : rest = List.replicate k '.' ∨ (HasEscape rest ∧ k + 2 ≤ byteLength rest)) :
      HasEscape ('%' :: '2' :: e :: rest) ∧ k + 1 + 2 ≤ byteLength ('%' :: '2' :: e :: rest) := by
    have le : k ≤ byteLength rest := by
      rcases behind with rfl | ⟨-, longer⟩
      · exact (byteLength_dots k).ge
      · omega
    have pos := e.utf8Size_pos
    have sizes : '%'.utf8Size = 1 ∧ '2'.utf8Size = 1 := ⟨rfl, rfl⟩
    refine ⟨hasEscape_cons.mpr (.inl ⟨rfl, digit⟩), ?_⟩
    simp only [byteLength, sizes]
    omega
  fun_induction dotCount? part generalizing k with
  | case1 =>
      cases found
      exact .inl rfl
  | case2 rest ih =>
      obtain ⟨k, inner, rfl⟩ := Option.map_eq_some_iff.mp found
      rcases ih inner with rfl | ⟨escape, longer⟩
      · exact .inl rfl
      · refine .inr ⟨hasEscape_cons.mpr (.inr escape), ?_⟩
        have dot : '.'.utf8Size = 1 := rfl
        rw [byteLength, dot]
        omega
  | case3 rest ih | case4 rest ih =>
      obtain ⟨k, inner, rfl⟩ := Option.map_eq_some_iff.mp found
      exact .inr (escaped k (by rfl) (ih inner))
  | case5 => cases found

theorem not_isDots_nil : ¬IsDots (withoutIgnored []) := by
  decide

/-- A segment that means dots without being written so has an escape, and is not short. -/
theorem IsDots.escaped (dots : IsDots part) (plain : part ≠ ['.'] ∧ part ≠ ['.', '.']) :
    HasEscape part ∧ 3 ≤ byteLength part := by
  rcases dots with one | two
  · rcases dotCount?_cases one with same | ⟨escape, long⟩
    · exact absurd same plain.1
    · exact ⟨escape, long⟩
  · rcases dotCount?_cases two with same | ⟨escape, long⟩
    · exact absurd same plain.2
    · exact ⟨escape, by omega⟩

/-! ### Resolution -/

theorem resolve_cons (other : ¬IsDots (withoutIgnored part)) (done rest : List (List Char)) :
    resolve done (part :: rest) = resolve ((segmentsBehind done part).reverse ++ done) rest := by
  rw [IsDots, not_or] at other
  rw [resolve]
  split
  · next one => exact absurd one other.1
  · next two => exact absurd two other.2
  · rfl

theorem segmentsBehind_of_ne_nil (ne : done ≠ []) (part : List Char) :
    segmentsBehind done part = [withoutIgnored part] := by
  rw [segmentsBehind, if_neg (by rwa [List.isEmpty_iff])]

/-- Segments that are not dots are left as they are. -/
theorem resolve_eq (ne : done ≠ []) (kept : ∀ part ∈ parts, withoutIgnored part = part)
    (others : ∀ part ∈ parts, ¬IsDots part) : resolve done parts = done.reverse ++ parts := by
  induction parts generalizing done with
  | nil => rw [resolve, List.append_nil]
  | cons part rest ih =>
      rw [List.forall_mem_cons] at kept others
      rw [resolve_cons (by rw [kept.1]; exact others.1), segmentsBehind_of_ne_nil ne, kept.1,
        List.reverse_singleton, List.singleton_append, ih (List.cons_ne_nil _ _) kept.2 others.2,
        List.reverse_cons, List.append_assoc, List.singleton_append]

theorem isBrokenAtColon_eq_false (kept : ∀ c ∈ cs, isIgnored c = false) : isBrokenAtColon cs = false := by
  rw [isBrokenAtColon]
  split
  · next colon c rest found =>
      have rest_of := List.dropWhile_suffix (l := cs) fun d => decide (d ≠ ':')
      refine kept c (rest_of.subset ?_)
      rw [found]
      exact List.mem_cons_of_mem _ List.mem_cons_self
  · rfl

theorem weight_segmentsAtRoot (kept : ∀ c ∈ part, isIgnored c = false) :
    weight (segmentsAtRoot part) = byteLength part + 1 := by
  rw [segmentsAtRoot, withoutIgnored_eq kept, isBrokenAtColon_eq_false kept]
  match part with
  | [] | [_] | _ :: _ :: _ :: _ => simp
  | [letter, mark] =>
      dsimp only
      split
      · next drive =>
          -- Only a bar becomes a colon, and both are one byte.
          rw [isDrive, Bool.and_eq_true, Bool.or_eq_true, decide_eq_true_eq, decide_eq_true_eq] at drive
          rcases drive.2 with rfl | rfl <;> rfl
      · simp

theorem weight_segmentsBehind (kept : ∀ c ∈ part, isIgnored c = false) (done : List (List Char)) :
    weight (segmentsBehind done part) = byteLength part + 1 := by
  rw [segmentsBehind]
  split
  · exact weight_segmentsAtRoot kept
  · rw [withoutIgnored_eq kept, weight_cons, weight_nil, Nat.add_zero]

theorem weight_leave_le (done : List (List Char)) : weight (leave done) ≤ weight done := by
  cases done with
  | nil => exact Nat.le_refl 0
  | cons segment rest =>
      rw [leave]
      split
      · exact Nat.le_refl _
      · rw [weight_cons]
        omega

/-- Dots add an empty segment at most. -/
theorem resolve_dots (dots : IsDots (withoutIgnored part)) (done rest : List (List Char)) :
    ∃ left, resolve done (part :: rest) = resolve left rest ∧ weight left ≤ weight done + 1 := by
  have ended (segments : List (List Char)) :
      weight (if rest.isEmpty then [] :: segments else segments) ≤ weight segments + 1 := by
    split
    · rw [weight_cons, byteLength]
      omega
    · exact Nat.le_succ _
  rcases dots with one | two
  · refine ⟨_, ?_, ended done⟩
    simp only [resolve, one]
  · refine ⟨_, ?_, (ended _).trans (Nat.succ_le_succ (weight_leave_le done))⟩
    simp only [resolve, two]

/-- No segments are made up, and dots written in percent notation are lost. -/
theorem weight_resolve (done : List (List Char)) (kept : ∀ part ∈ parts, ∀ c ∈ part, isIgnored c = false)
    (plain : ∀ part ∈ parts, part ≠ ['.'] ∧ part ≠ ['.', '.']) :
    weight (resolve done parts) + 3 * parts.countP (IsDots ·) ≤ weight done + weight parts := by
  induction parts generalizing done with
  | nil => simp [resolve]
  | cons part rest ih =>
      rw [List.forall_mem_cons] at kept plain
      have same := withoutIgnored_eq kept.1
      rw [weight_cons]
      by_cases dots : IsDots part
      · obtain ⟨left, step, le⟩ := resolve_dots (same.symm ▸ dots) done rest
        have behind := ih left kept.2 plain.2
        have long := (dots.escaped plain.1).2
        rw [step, List.countP_cons_of_pos (by exact decide_eq_true dots)]
        omega
      · have behind := ih ((segmentsBehind done part).reverse ++ done) kept.2 plain.2
        rw [weight_append, weight_reverse, weight_segmentsBehind kept.1] at behind
        rw [resolve_cons (by rwa [same]), List.countP_cons_of_neg (by simpa using dots)]
        omega

/-! ### The segments of a path -/

theorem joinSegments_nil_cons (segments : List (List Char)) :
    joinSegments ([] :: segments) = joinSegments segments := by
  rw [joinSegments, List.dropWhile_cons_of_pos rfl, joinSegments]

/-- With a single slash in front, the segments of a path make the path. -/
theorem joinSegments_splitSlashes (single : ¬['/', '/'] <+: '/' :: cs) :
    joinSegments (splitSlashes ('/' :: cs)) = '/' :: cs := by
  rw [splitSlashes_slash, joinSegments_nil_cons]
  cases cs with
  | nil => rfl
  | cons c rest =>
      have noSlash : c ≠ '/' := by
        rintro rfl
        exact single ⟨rest, rfl⟩
      obtain ⟨first, others, parts_eq⟩ := splitSlashes_char noSlash rest
      rw [joinSegments, parts_eq, List.dropWhile_cons_of_neg (by simp), ← parts_eq,
        intercalate_splitSlashes]

theorem kept_splitSlashes (kept : ∀ c ∈ cs, isIgnored c = false) :
    ∀ part ∈ splitSlashes cs, ∀ c ∈ part, isIgnored c = false :=
  fun _ mem c inPart => kept c ((infix_of_mem_splitSlashes mem).subset inPart)

theorem resolve_splitSlashes (kept : ∀ c ∈ '/' :: cs, isIgnored c = false)
    (others : ∀ part ∈ splitSlashes ('/' :: cs), ¬IsDots part) :
    resolve [] (splitSlashes ('/' :: cs)) = splitSlashes ('/' :: cs) := by
  have kept' := kept_splitSlashes kept
  rw [splitSlashes_slash, List.forall_mem_cons] at kept' others
  rw [splitSlashes_slash, resolve_cons not_isDots_nil]
  exact resolve_eq (List.cons_ne_nil _ _) (fun part mem => withoutIgnored_eq (kept'.2 part mem)) others.2

/-- Resolution gives the path back only if there is nothing to resolve: it is shorter otherwise. -/
theorem joinSegments_resolve_eq (kept : ∀ c ∈ '/' :: cs, isIgnored c = false)
    (plain : ∀ part ∈ splitSlashes ('/' :: cs), part ≠ ['.'] ∧ part ≠ ['.', '.'])
    (long : byteLength ('/' :: cs) ≤
      byteLength (joinSegments (resolve [] (splitSlashes ('/' :: cs))))) :
    (¬['/', '/'] <+: '/' :: cs) ∧ joinSegments (resolve [] (splitSlashes ('/' :: cs))) = '/' :: cs := by
  have whole := weight_splitSlashes ('/' :: cs)
  rw [byteLength_slash] at long whole
  by_cases others : ∀ part ∈ splitSlashes ('/' :: cs), ¬IsDots part
  · rw [resolve_splitSlashes kept others] at long ⊢
    have single : ¬['/', '/'] <+: '/' :: cs := by
      intro double
      obtain ⟨rest, rfl⟩ : ∃ rest, cs = '/' :: rest := by
        obtain ⟨rest, text_eq⟩ := double
        exact ⟨rest, (List.cons.inj text_eq).2.symm⟩
      rw [splitSlashes_slash, splitSlashes_slash, joinSegments_nil_cons, joinSegments_nil_cons,
        byteLength_slash] at long
      have short := byteLength_joinSegments_le (splitSlashes rest)
      rw [weight_splitSlashes] at short
      omega
    exact ⟨single, joinSegments_splitSlashes single⟩
  · push Not at others
    obtain ⟨part, mem, dots⟩ := others
    have lost := weight_resolve [] (kept_splitSlashes kept) plain
    have some' : 0 < (splitSlashes ('/' :: cs)).countP (IsDots ·) :=
      List.countP_pos_iff.mpr ⟨part, mem, decide_eq_true dots⟩
    have short := byteLength_joinSegments_le (resolve [] (splitSlashes ('/' :: cs)))
    rw [weight_nil] at lost
    omega

end Segments

end CodeAtlas.FileUrl
