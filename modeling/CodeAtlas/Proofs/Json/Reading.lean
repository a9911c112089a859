import CodeAtlas.Json.Reader
import CodeAtlas.Proofs.Json.Spelling

/-!
# Readers of values

A reader reads a value as something if it takes the tokens of the value, and no others, from any
tokens that begin with them.
-/

namespace CodeAtlas.Json

/-- Before the value's tokens the reader answers `x` and is left with what stands behind them. -/
def Reads {α : Type} (reader : Reader α) (v : Value) (x : α) : Prop :=
  ∀ rest, reader (v.toTokens ++ rest) = .ok (x, rest)

theorem Reads.map {α β : Type} {reader : Reader α} {v : Value} {x : α} (reads : Reads reader v x)
    (f : α → β) : Reads (fun toks => (reader toks).map fun (x, toks) => (f x, toks)) v (f x) := by
  intro rest
  simp only [reads rest, Except.map]

theorem readWhole_eq {α : Type} {reader : Reader α} {v : Value} {x : α} {doc : String}
    (reads : Reads reader v x) (denotes : v.Denotes doc) : readWhole reader doc = .ok x := by
  have read := reads []
  rw [List.append_nil, ← show tokens doc.toList = v.toTokens from denotes] at read
  simp [readWhole, read, bind, Except.bind]

/-! ## Values without parts -/

theorem reads_string (s : String) : Reads readString (.text s) s :=
  fun _ => rfl

theorem reads_nat (n : Nat) : Reads readNat (.nat n) n :=
  fun _ => rfl

theorem reads_none {α : Type} (reader : Reader α) : Reads (readOptional reader) .null none :=
  fun _ => rfl

theorem Reads.optional {α : Type} {reader : Reader α} {v : Value} {x : α} (reads : Reads reader v x)
    (present : v ≠ .null) : Reads (readOptional reader) v (some x) := by
  intro rest
  have read := congrArg (Except.map fun (x, toks) => (some x, toks)) (reads rest)
  cases v with
  | null => exact absurd rfl present
  | _ => exact read

theorem reads_variant {α : Type} {ofName : String → Except Mismatch α} {name : String} {x : α}
    (known : ofName name = .ok x) : Reads (readVariant ofName) (.text name) x := by
  intro rest
  simp [Value.toTokens, Token.ofText, readVariant, named, known, bind, Except.bind, Except.mapError]

/-! ## Arrays -/

theorem intercalate_cons {α : Type} (sep : α) (part : List α) (parts : List (List α)) :
    [sep].intercalate (part :: parts) = part ++ parts.flatMap (sep :: ·) := by
  induction parts generalizing part with
  | nil => simp
  | cons next parts ih => rw [List.intercalate_cons_cons, ih, List.flatMap_cons, List.append_assoc]; rfl

/-- The tokens of a value start with one that an item of an array may start with. -/
theorem toTokens_eq_cons (v : Value) : ∃ tok toks, v.toTokens = tok :: toks ∧ tok ≠ .endArray := by
  cases v <;> exact ⟨_, _, rfl, nofun⟩

theorem length_itemTokens (vs : List Value) : (Value.itemTokens vs).length = vs.length := by
  induction vs with
  | nil => rfl
  | cons v vs ih => rw [Value.itemTokens, List.length_cons, ih, List.length_cons]

theorem length_le_flatMap_cons {α : Type} (sep : α) (parts : List (List α)) :
    parts.length ≤ (parts.flatMap (sep :: ·)).length := by
  induction parts with
  | nil => exact Nat.le_refl 0
  | cons part parts ih =>
      simp only [List.flatMap_cons, List.length_append, List.length_cons]
      omega

section Items

variable {α : Type} {item : Reader α} {vs : List Value} {xs : List α}

theorem nextItem_first {tok : Token} (opens : tok ≠ .endArray) (toks : List Token) :
    nextItem true (tok :: toks) = .ok (some (tok :: toks)) := by
  cases tok with
  | endArray => exact absurd rfl opens
  | _ => rfl

theorem nextItem_comma {tok : Token} (opens : tok ≠ .endArray) (toks : List Token) :
    nextItem false (.comma :: tok :: toks) = .ok (some (tok :: toks)) := by
  cases tok with
  | endArray => exact absurd rfl opens
  | _ => rfl

/-- The items behind the first one. -/
theorem readItems_later (reads : List.Forall₂ (Reads item) vs xs) {bound : List Token}
    (enough : vs.length < bound.length) (rest : List Token) :
    readItems item bound false
      ((Value.itemTokens vs).flatMap (.comma :: ·) ++ .endArray :: rest) = .ok (xs, rest) := by
  induction reads generalizing bound with
  | nil =>
      cases bound with
      | nil => cases enough
      | cons _ bound => rfl
  | @cons v x vs xs first later ih =>
      cases bound with
      | nil => cases enough
      | cons _ bound =>
          obtain ⟨tok, toks, written, opens⟩ := toTokens_eq_cons v
          have read := first ((Value.itemTokens vs).flatMap (.comma :: ·) ++ .endArray :: rest)
          rw [written, List.cons_append] at read
          simp only [Value.itemTokens, List.flatMap_cons, List.append_assoc, List.cons_append, written,
            readItems, nextItem_comma opens, bind, Except.bind, read]
          rw [ih (Nat.lt_of_succ_lt_succ enough)]

theorem reads_array (reads : List.Forall₂ (Reads item) vs xs) :
    Reads (readArray item) (.array vs) xs := by
  intro rest
  cases reads with
  | nil => rfl
  | @cons v x vs xs first later =>
      obtain ⟨tok, toks, written, opens⟩ := toTokens_eq_cons v
      have read := first ((Value.itemTokens vs).flatMap (.comma :: ·) ++ .endArray :: rest)
      rw [written, List.cons_append] at read
      simp only [Value.toTokens, Value.itemTokens, intercalate_cons, List.append_assoc, List.cons_append,
        List.nil_append, written, readArray, readItems, nextItem_first opens, bind, Except.bind, read]
      rw [readItems_later later]
      have parts := length_le_flatMap_cons .comma (Value.itemTokens vs)
      rw [length_itemTokens] at parts
      simp only [List.length_append, List.length_cons]
      omega

/-- An array has all tokens of its items, and one for each comma. -/
theorem length_items_lt_array (vs : List Value) :
    ((Value.itemTokens vs).flatMap (.comma :: ·)).length < (Value.array vs).toTokens.length := by
  cases vs with
  | nil => exact Nat.succ_pos 1
  | cons v vs =>
      simp only [Value.toTokens, Value.itemTokens, intercalate_cons, List.flatMap_cons,
        List.length_append, List.length_cons]
      omega

end Items

/-! ## Objects -/

/-- What the reader of an object's fields has read behind some fields, if it has read `s` before
them. -/
inductive Fills {σ : Type} (field : σ → String → Except Fault (Reader σ)) :
    σ → List (String × Value) → σ → Prop where
  | nil (s : σ) : Fills field s [] s
  | cons {s₁ s₂ s₃ : σ} {key : String} {v : Value} {reader : Reader σ}
      {rest : List (String × Value)} (known : field s₁ key = .ok reader) (reads : Reads reader v s₂)
      (later : Fills field s₂ rest s₃) : Fills field s₁ ((key, v) :: rest) s₃

theorem length_fieldTokens (fields : List (String × Value)) :
    (Value.fieldTokens fields).length = fields.length := by
  induction fields with
  | nil => rfl
  | cons field fields ih => rw [Value.fieldTokens, List.length_cons, ih, List.length_cons]

section Fields

variable {σ : Type} {field : σ → String → Except Fault (Reader σ)} {s s' s'' : σ}
  {fields later : List (String × Value)}

theorem Fills.append (first : Fills field s fields s') (second : Fills field s' later s'') :
    Fills field s (fields ++ later) s'' := by
  induction first with
  | nil => exact second
  | cons known reads _ ih => exact .cons known reads (ih second)

theorem Fills.single {key : String} {v : Value} {reader : Reader σ}
    (known : field s key = .ok reader) (reads : Reads reader v s') : Fills field s [(key, v)] s' :=
  .cons known reads (.nil s')

/-- The fields behind the first one. -/
theorem readFields_later (fills : Fills field s fields s') {bound : List Token}
    (enough : fields.length < bound.length) (rest : List Token) :
    readFields field bound false s
      ((Value.fieldTokens fields).flatMap (.comma :: ·) ++ .endObject :: rest) = .ok (s', rest) := by
  induction fills generalizing bound with
  | nil =>
      cases bound with
      | nil => cases enough
      | cons _ bound => rfl
  | @cons s₁ s₂ s₃ key v reader fields known reads later ih =>
      cases bound with
      | nil => cases enough
      | cons _ bound =>
          have read := reads ((Value.fieldTokens fields).flatMap (.comma :: ·) ++ .endObject :: rest)
          simp only [Value.fieldTokens, List.flatMap_cons, List.append_assoc, List.cons_append,
            readFields, nextKey, Token.ofText, Except.map, bind, Except.bind, known, afterColon, read,
            Bool.false_eq_true, if_false]
          exact ih (Nat.lt_of_succ_lt_succ enough)

theorem readFields_eq (fills : Fills field s fields s') {bound : List Token} (rest : List Token)
    (enough : fields.length < bound.length) :
    readFields field bound true s
      ([Token.comma].intercalate (Value.fieldTokens fields) ++ .endObject :: rest) = .ok (s', rest) := by
  cases fills with
  | nil =>
      cases bound with
      | nil => cases enough
      | cons _ bound => rfl
  | @cons _ s₂ _ key v reader fields known reads later =>
      cases bound with
      | nil => cases enough
      | cons _ bound =>
          have read := reads ((Value.fieldTokens fields).flatMap (.comma :: ·) ++ .endObject :: rest)
          simp only [Value.fieldTokens, intercalate_cons, List.append_assoc, List.cons_append,
            readFields, nextKey, Token.ofText, Except.map, bind, Except.bind, known, afterColon, read,
            if_true]
          exact readFields_later later (Nat.lt_of_succ_lt_succ enough) rest

theorem fieldTokens_eq_map (fields : List (String × Value)) :
    Value.fieldTokens fields = fields.map fun f => .ofText f.1 :: .colon :: f.2.toTokens := by
  induction fields with
  | nil => rfl
  | cons field fields ih => rw [Value.fieldTokens, ih, List.map_cons]

theorem length_le_intercalate {α : Type} (sep : α) {part : List α} {parts : List (List α)}
    (member : part ∈ parts) : part.length ≤ ([sep].intercalate parts).length := by
  cases parts with
  | nil => cases member
  | cons first parts =>
      rw [intercalate_cons, List.length_append]
      cases member with
      | head => exact Nat.le_add_right _ _
      | tail _ member =>
          obtain ⟨before, behind, rfl⟩ := List.append_of_mem member
          simp only [List.flatMap_append, List.flatMap_cons, List.length_append, List.length_cons]
          omega

/-- An object has all tokens of its fields. -/
theorem length_toTokens_of_mem {key : String} {v : Value} (member : (key, v) ∈ fields) :
    v.toTokens.length < (Value.object fields).toTokens.length := by
  have part : Token.ofText key :: .colon :: v.toTokens ∈ Value.fieldTokens fields := by
    rw [fieldTokens_eq_map]
    exact List.mem_map.mpr ⟨_, member, rfl⟩
  have longer := length_le_intercalate .comma part
  rw [Value.toTokens]
  simp only [List.length_append, List.length_cons] at longer ⊢
  omega

/-- An object's tokens are enough of a bound for reading its fields. -/
theorem length_lt_fieldTokens (fields : List (String × Value)) (rest : List Token) :
    fields.length <
      ([Token.comma].intercalate (Value.fieldTokens fields) ++ .endObject :: rest).length := by
  cases fields with
  | nil => exact Nat.succ_pos _
  | cons field fields =>
      have parts := length_le_flatMap_cons .comma (Value.fieldTokens fields)
      rw [length_fieldTokens] at parts
      simp only [Value.fieldTokens, intercalate_cons, List.length_append, List.length_cons]
      omega

end Fields

end CodeAtlas.Json
