import CodeAtlas.Proofs.Json.Reading
import CodeAtlas.Source

/-!
# Tree files as they were written

A tree that is written as a value is read again as the same tree, at any depth: a slot that is empty
stays so, and a field that was left out as saying nothing gets what it would have said. A tree file is
therefore read as the path, the text and the tree it was made of, unless the tree ends beyond the text.
-/

namespace CodeAtlas

open Json (Value Reader Reads Fills)

theorem SyntaxKind.ofName_name (kind : SyntaxKind) : SyntaxKind.ofName kind.name = .ok kind := by
  cases kind <;> rfl

theorem SyntaxKind.reads (kind : SyntaxKind) : Reads SyntaxKind.read (.text kind.name) kind :=
  Json.reads_variant kind.ofName_name

namespace ByteRange

theorem claim_name {d : Draft} {field : Field} (missing : d.has field = false) :
    d.claim field.name = .ok field := by
  have known : Field.ofName field.name = .ok field := by cases field <;> rfl
  simp [Draft.claim, known, bind, Except.bind, missing]

theorem fills_put {d : Draft} (field : Field) (missing : d.has field = false) (n : Nat) :
    Fills readField d [(field.name, .nat n)] (d.put field n) := by
  refine .single ?_ ((Json.reads_nat n).map fun n => d.put field n)
  simp [readField, claim_name missing, Mismatch.asFault, Except.mapError, bind, Except.bind]

theorem reads (r : ByteRange) : Reads read r.toValue r := by
  intro rest
  have fills := (fills_put (d := ⟨none, none⟩) .start rfl r.start).append (fills_put .stop rfl r.stop)
  have read := Json.readFields_eq fills rest (Json.length_lt_fieldTokens _ rest)
  simp only [toValue, Value.toTokens, List.cons_append, List.append_assoc, List.nil_append,
    ByteRange.read] at read ⊢
  rw [read]
  rfl

end ByteRange

namespace SyntaxNode

theorem claim_key {d : Draft} {field : Field} (missing : d.has field = false) :
    d.claim field.key = .ok (some field) := by
  have known : Field.ofKey? field.key = some field := by cases field <;> rfl
  simp [Draft.claim, known, missing]

section Fields

variable {children : Reader (List (Option SyntaxNode))} {d : Draft}

theorem fills_kind (missing : d.has .kind = false) (kind : SyntaxKind) :
    Fills (readField children) d [(Field.kind.key, .text kind.name)] { d with kind := some kind } := by
  refine .single ?_ (kind.reads.map fun kind => { d with kind := some kind })
  rw [readField, claim_key missing]
  rfl

theorem fills_range (missing : d.has .range = false) (range : ByteRange) :
    Fills (readField children) d [(Field.range.key, range.toValue)] { d with range := some range } := by
  refine .single ?_ (range.reads.map fun range => { d with range := some range })
  rw [readField, claim_key missing]
  rfl

theorem fills_name (missing : d.has .name = false) (name : String) :
    Fills (readField children) d [(Field.name.key, .text name)] { d with name := some (some name) } := by
  have read := (Json.reads_string name).optional nofun
  refine .single ?_ (read.map fun name => { d with name := some name })
  rw [readField, claim_key missing]
  rfl

theorem fills_nameRange (missing : d.has .nameRange = false) (range : ByteRange) :
    Fills (readField children) d [(Field.nameRange.key, range.toValue)]
      { d with nameRange := some (some range) } := by
  have read := range.reads.optional nofun
  refine .single ?_ (read.map fun range => { d with nameRange := some range })
  rw [readField, claim_key missing]
  rfl

theorem fills_children (missing : d.has .children = false) {slots : List (Option SyntaxNode)}
    {v : Value} (read : Reads children v slots) :
    Fills (readField children) d [(Field.children.key, v)] { d with children := some slots } := by
  refine .single ?_ (read.map fun slots => { d with children := some slots })
  rw [readField, claim_key missing]
  rfl

/-- The fields of a node as a value make up the node again, if its slots are read from theirs. -/
theorem fills_toValue (n : SyntaxNode) (slots : Reads children (.array (slotValues n.slots)) n.slots) :
    ∃ fields d, n.toValue = .object fields ∧ Fills (readField children) .blank fields d ∧
      d.finish = .ok n := by
  obtain ⟨kind, name, range, nameRange, items⟩ := n
  have named : Fills (readField children) ⟨some kind, none, none, none, none⟩
      (name.map fun s => (Field.name.key, .text s)).toList
      ⟨some kind, name.map some, none, none, none⟩ := by
    cases name with
    | none => exact .nil _
    | some s => exact fills_name rfl s
  have placed : Fills (readField children) ⟨some kind, name.map some, some range, none, none⟩
      (nameRange.map fun r => (Field.nameRange.key, r.toValue)).toList
      ⟨some kind, name.map some, some range, nameRange.map some, none⟩ := by
    cases nameRange with
    | none => exact .nil _
    | some r => exact fills_nameRange rfl r
  have first : Fills (readField children) .blank _
      ⟨some kind, name.map some, some range, nameRange.map some, none⟩ :=
    (((fills_kind rfl kind).append named).append (fills_range rfl range)).append placed
  refine ⟨_, ⟨some kind, name.map some, some range, nameRange.map some,
    if items.isEmpty then none else some items⟩, toValue.eq_def _, first.append ?_, ?_⟩
  · cases items with
    | nil => exact .nil _
    | cons slot rest => exact fills_children rfl slots
  · cases name <;> cases nameRange <;> cases items <;> rfl

end Fields

theorem toValue_ne_null (n : SyntaxNode) : n.toValue ≠ .null := by
  obtain ⟨kind, name, range, nameRange, slots⟩ := n
  rw [toValue.eq_def]
  nofun

mutual

/-- A node is read within a bound of as many tokens as there are nodes in its tree. -/
theorem reads_within : ∀ (n : SyntaxNode) {bound : List Json.Token}, n.count ≤ bound.length →
    Reads (readWithin bound) n.toValue n
  | ⟨_, _, _, _, _⟩, [], enough => by
      rw [count, Nat.add_comm] at enough
      cases enough
  | ⟨kind, name, range, nameRange, slots⟩, _ :: bound, enough => by
      have below : countSlots slots ≤ bound.length := by
        rw [count, List.length_cons] at enough
        omega
      obtain ⟨fields, d, written, fills, finished⟩ :=
        fills_toValue ⟨kind, name, range, nameRange, slots⟩
          (Json.reads_array (reads_slots slots below))
      intro rest
      have read := Json.readFields_eq fills rest (Json.length_lt_fieldTokens _ rest)
      simp only [written, Value.toTokens, List.cons_append, List.append_assoc, List.nil_append,
        readWithin, bind, Except.bind, read, finished]
      rfl

theorem reads_slots : ∀ (slots : List (Option SyntaxNode)) {bound : List Json.Token},
    countSlots slots ≤ bound.length →
      List.Forall₂ (Reads (Json.readOptional (readWithin bound))) (slotValues slots) slots
  | [], _, _ => .nil
  | none :: rest, _, enough => .cons (Json.reads_none _) (reads_slots rest enough)
  | some child :: rest, bound, enough => by
      rw [countSlots] at enough
      have first : Reads (readWithin bound) child.toValue child := reads_within child (by omega)
      exact .cons (first.optional child.toValue_ne_null) (reads_slots rest (by omega))

end

mutual

/-- A written tree has at least as many tokens as nodes. -/
theorem count_le_length_toTokens : ∀ n : SyntaxNode, n.count ≤ n.toValue.toTokens.length
  | ⟨kind, name, range, nameRange, []⟩ => by
      obtain ⟨_, _, written, _⟩ :=
        Json.toTokens_eq_cons (toValue ⟨kind, name, range, nameRange, []⟩)
      rw [written, List.length_cons, count, countSlots]
      omega
  | ⟨kind, name, range, nameRange, slot :: rest⟩ => by
      have children := countSlots_le_length (slot :: rest)
      have array := Json.length_items_lt_array (slotValues (slot :: rest))
      rw [count, toValue]
      refine Nat.le_trans ?_ (Json.length_toTokens_of_mem
        (List.mem_append_right _ (List.mem_singleton_self _)))
      omega

theorem countSlots_le_length : ∀ slots : List (Option SyntaxNode),
    countSlots slots ≤ ((Value.itemTokens (slotValues slots)).flatMap (.comma :: ·)).length
  | [] => Nat.le_refl 0
  | none :: rest => by
      have := countSlots_le_length rest
      simp only [countSlots, slotValues, Value.itemTokens, List.flatMap_cons, List.length_append]
      omega
  | some child :: rest => by
      have := count_le_length_toTokens child
      have := countSlots_le_length rest
      simp only [countSlots, slotValues, Value.itemTokens, List.flatMap_cons, List.length_append,
        List.length_cons]
      omega

end

theorem reads (n : SyntaxNode) : Reads read n.toValue n := by
  intro rest
  have enough : n.count ≤ (n.toValue.toTokens ++ rest).length := by
    have := n.count_le_length_toTokens
    rw [List.length_append]
    omega
  exact reads_within n enough rest

end SyntaxNode

/-! ## Offsets that fit into 64 bits -/

def ByteRange.Fits (r : ByteRange) : Prop :=
  r.start < UInt64.size ∧ r.stop < UInt64.size

theorem ByteRange.plain_toValue {r : ByteRange} (fits : r.Fits) : r.toValue.Plain :=
  ⟨⟨_, fits.1, rfl⟩, ⟨_, fits.2, rfl⟩, trivial⟩

namespace SyntaxNode

mutual

/-- All offsets in a tree fit into 64 bits. -/
def Fits : SyntaxNode → Prop
  | ⟨_, _, range, nameRange, slots⟩ => range.Fits ∧ (∀ r ∈ nameRange, r.Fits) ∧ slotsFit slots

def slotsFit : List (Option SyntaxNode) → Prop
  | [] => True
  | none :: rest => slotsFit rest
  | some child :: rest => child.Fits ∧ slotsFit rest

end

mutual

theorem plain_toValue : ∀ {n : SyntaxNode}, n.Fits → n.toValue.Plain
  | ⟨kind, name, range, nameRange, slots⟩, ⟨rangeFits, nameFits, slotsFits⟩ => by
      have children := plain_slotValues slotsFits
      rw [toValue.eq_def]
      refine Value.fieldsPlain_iff.mpr fun field member => ?_
      simp only [List.mem_append, List.mem_singleton, Option.mem_toList,
        Option.map_eq_some_iff] at member
      rcases member with (((rfl | ⟨s, _, rfl⟩) | rfl) | ⟨r, given, rfl⟩) | member
      · trivial
      · trivial
      · exact range.plain_toValue rangeFits
      · exact r.plain_toValue (nameFits r given)
      · cases slots with
        | nil => cases member
        | cons slot rest =>
            obtain rfl := List.mem_singleton.mp member
            exact children

theorem plain_slotValues : ∀ {slots : List (Option SyntaxNode)}, slotsFit slots →
    Value.itemsPlain (slotValues slots)
  | [], _ => trivial
  | none :: _, rest => ⟨trivial, plain_slotValues rest⟩
  | some _ :: _, ⟨child, rest⟩ => ⟨plain_toValue child, plain_slotValues rest⟩

end

end SyntaxNode

/-! ## Tree files -/

namespace Source

theorem plain_toValue (path text : String) {root : SyntaxNode} (fits : root.Fits) :
    (toValue path text root).Plain :=
  ⟨trivial, trivial, SyntaxNode.plain_toValue fits, trivial⟩

theorem reads (path text : String) (root : SyntaxNode) :
    Reads read (toValue path text root) (new path text root) := by
  intro rest
  have fills : Json.Fills readField ⟨none, none, none⟩
      [(Field.path.key, .text path), (Field.text.key, .text text), (Field.root.key, root.toValue)]
      ⟨some path, some text, some root⟩ :=
    .cons rfl ((Json.reads_string path).map fun p => (⟨some p, none, none⟩ : Draft)) <|
    .cons rfl ((Json.reads_string text).map fun t => (⟨some path, some t, none⟩ : Draft)) <|
    .single rfl (root.reads.map fun r => (⟨some path, some text, some r⟩ : Draft))
  have read := Json.readFields_eq fills rest (Json.length_lt_fieldTokens _ rest)
  simp only [toValue, Value.toTokens, List.cons_append, List.append_assoc, List.nil_append,
    Source.read, bind, Except.bind, read]
  rfl

/-- A text that denotes a tree file is read as the file, which is then held against its text. -/
theorem ofJson_eq {path text : String} {root : SyntaxNode} {doc : String}
    (denotes : (toValue path text root).Denotes doc) :
    ofJson doc =
      if text.utf8ByteSize < root.range.stop then
        .error ⟨"source tree exceeds text", .unknown,
          some [("path", path), ("end", toString root.range.stop),
            ("len", toString text.utf8ByteSize)]⟩
      else .ok (new path text root) := by
  rw [ofJson, Json.readWhole_eq (reads path text root) denotes]
  rfl

/-- Whatever the layout of a tree file, reading it succeeds if and only if the tree ends within the
text, and then gives back what was written. -/
theorem ofJson_toValue (path text : String) {root : SyntaxNode} (fits : root.Fits) :
    (toValue path text root).Denotes (toValue path text root).render ∧
    (toValue path text root).Denotes (toValue path text root).renderLines ∧
    ∀ doc, (toValue path text root).Denotes doc →
      ((∃ s, ofJson doc = .ok s) ↔ root.range.stop ≤ text.utf8ByteSize) ∧
      (∀ s, ofJson doc = .ok s → s.path = path ∧ s.text = text ∧ s.root = root) ∧
      (∀ failure, ofJson doc = .error failure → failure.activity = "source tree exceeds text") := by
  have plain := plain_toValue path text fits
  refine ⟨Value.denotes_render plain, Value.denotes_renderLines plain, fun doc denotes => ?_⟩
  rw [ofJson_eq denotes]
  split
  · next exceeds =>
      refine ⟨⟨nofun, fun within => absurd exceeds (Nat.not_lt.mpr within)⟩, nofun, ?_⟩
      rintro _ ⟨⟩
      rfl
  · next within =>
      refine ⟨⟨fun _ => Nat.not_lt.mp within, fun _ => ⟨_, rfl⟩⟩, ?_, nofun⟩
      rintro _ ⟨⟩
      exact ⟨rfl, rfl, rfl⟩

/-- A tree whose inner ranges are beyond the text or inverted, with an empty slot. -/
theorem ofJson_toValue_unchecked :
    let child : SyntaxNode := ⟨.classDef, some "A\n", ⟨0, 40⟩, some ⟨7, 6⟩, [none]⟩
    let root : SyntaxNode := ⟨.program, none, ⟨0, 7⟩, none, [none, some child]⟩
    root.Fits ∧ ∃ s, ofJson (toValue "a.rb" "class A" root).render = .ok s ∧ s.root = root := by
  intro child root
  have childFits : child.Fits :=
    ⟨⟨by decide, by decide⟩, by rintro _ ⟨⟩; exact ⟨by decide, by decide⟩, trivial⟩
  have fits : root.Fits := ⟨⟨by decide, by decide⟩, nofun, childFits, trivial⟩
  obtain ⟨render, _, reads⟩ := ofJson_toValue "a.rb" "class A" fits
  obtain ⟨succeeds, same, _⟩ := reads _ render
  obtain ⟨s, read⟩ := succeeds.mpr (by decide)
  exact ⟨fits, s, read, (same s read).2.2⟩

end Source

end CodeAtlas
