import CodeAtlas.Occurrence

/-!
# Names of one method

A method and what assigns to it have names that differ in an `=` at the end, and count as one symbol. Two
different names of methods are taken for one exactly if one of them is the other with a single `=` behind
it. The shorter name can be that of an operator, so that operators are mixed up with comparisons.
-/

namespace CodeAtlas

namespace NameSpace

/-- `assigning` is a name of a method with a single `=` behind it. -/
def Assigns (name assigning : String) : Prop :=
  name ≠ "" ∧ name.toList.getLast? ≠ some '=' ∧ assigning = name ++ "="

theorem normalize_append (name : String) : method.normalize (name ++ "=") = name := by
  have ends : (name ++ "=").toList = name.toList ++ ['='] := String.toList_append
  rw [normalize, ends, List.getLast?_concat, if_pos rfl, List.dropLast_concat, String.ofList_toList]

theorem normalize_of_getLast? {name : String} (other : name.toList.getLast? ≠ some '=') :
    method.normalize name = name :=
  if_neg other

/-- An `=` at the end of a name is dropped, and any other name is kept. -/
theorem normalize_cases (name : String) :
    (∃ stem, name = stem ++ "=" ∧ method.normalize name = stem) ∨
      name.toList.getLast? ≠ some '=' ∧ method.normalize name = name := by
  by_cases ends : name.toList.getLast? = some '='
  · obtain ⟨stem, toList_eq⟩ := List.getLast?_eq_some_iff.mp ends
    have name_eq : name = String.ofList stem ++ "=" := by
      rw [← String.toList_inj, toList_eq, String.toList_append, String.toList_ofList]
      rfl
    exact .inl ⟨_, name_eq, name_eq ▸ normalize_append _⟩
  · exact .inr ⟨ends, normalize_of_getLast? ends⟩

theorem Assigns.normalize_eq {name assigning : String} (assigns : Assigns name assigning) :
    method.normalize name = name ∧ method.normalize assigning = name := by
  obtain ⟨-, plain, rfl⟩ := assigns
  exact ⟨normalize_of_getLast? plain, normalize_append name⟩

/-- Different names are normalized to the same one if one of them assigns to the other. -/
theorem normalize_eq_iff {x y : String} (differs : x ≠ y) :
    method.normalize x = method.normalize y ∧ method.normalize x ≠ "" ↔ Assigns x y ∨ Assigns y x := by
  constructor
  · rintro ⟨same, some'⟩
    rcases normalize_cases x with ⟨stem, rfl, stem_eq⟩ | ⟨plain, kept⟩
    · rcases normalize_cases y with ⟨stem', rfl, stem_eq'⟩ | ⟨plain', kept'⟩
      -- Both lose an `=` and leave the same name, so that they were the same before.
      · rw [stem_eq, stem_eq'] at same
        exact absurd (congrArg (· ++ "=") same) differs
      · rw [stem_eq] at some'
        rw [stem_eq, kept'] at same
        subst same
        exact .inr ⟨some', plain', rfl⟩
    · rcases normalize_cases y with ⟨stem', rfl, stem_eq'⟩ | ⟨plain', kept'⟩
      · rw [kept] at some'
        rw [kept, stem_eq'] at same
        subst same
        exact .inl ⟨some', plain, rfl⟩
      · rw [kept, kept'] at same
        exact absurd same differs
  · rintro (assigns | assigns)
    · obtain ⟨kept, dropped⟩ := assigns.normalize_eq
      exact ⟨kept.trans dropped.symm, fun none' => assigns.1 (kept.symm.trans none')⟩
    · obtain ⟨kept, dropped⟩ := assigns.normalize_eq
      exact ⟨dropped.trans kept.symm, fun none' => assigns.1 (dropped.symm.trans none')⟩

end NameSpace

/-! ## Nodes that name methods -/

namespace SyntaxNode

open NameSpace (Assigns)

variable {n : SyntaxNode} {name : String}

def NamesMethod (n : SyntaxNode) (name : String) : Prop :=
  (n.kind = .methodDef ∨ n.kind = .call) ∧ n.name = some name

theorem NamesMethod.identity?_eq (names : n.NamesMethod name) : n.identity? =
    if NameSpace.method.normalize name = "" then none
    else some ⟨.method, NameSpace.method.normalize name⟩ := by
  obtain ⟨kind | kind, named⟩ := names <;>
    simp [identity?, kind, named, SyntaxKind.nameSpace?, String.isEmpty_iff]

theorem NamesMethod.occurrence?_isSome (names : n.NamesMethod name) : n.kind.occurrence?.isSome := by
  obtain ⟨kind | kind, -⟩ := names <;> rw [kind] <;> rfl

/-- Two nodes stand for the same method if their names are normalized to the same one. -/
theorem NamesMethod.match_eq {a b : SyntaxNode} {x y : String} (names : a.NamesMethod x)
    (names' : b.NamesMethod y) : a.identity?.bind b.occurrenceOf? =
      if NameSpace.method.normalize x = NameSpace.method.normalize y ∧
        NameSpace.method.normalize x ≠ "" then b.kind.occurrence? else none := by
  rw [names.identity?_eq]
  by_cases none' : NameSpace.method.normalize x = ""
  · rw [if_pos none', if_neg (fun both => both.2 none'), Option.bind_none]
  rw [if_neg none', Option.bind_some, occurrenceOf?]
  by_cases same : NameSpace.method.normalize x = NameSpace.method.normalize y
  · rw [names'.identity?_eq, ← same, if_neg none', if_pos rfl, if_pos ⟨rfl, none'⟩]
  · have apart : b.identity? ≠ some ⟨.method, NameSpace.method.normalize x⟩ := by
      rw [names'.identity?_eq]
      intro symbol_eq
      obtain ⟨-, identity_eq⟩ := Option.ite_none_left_eq_some.mp symbol_eq
      exact same (congrArg Identity.name (Option.some.inj identity_eq)).symm
    rw [if_neg apart, if_neg fun both => same both.1]

/-- A node that names a method stands for the method that a node with another name stands for exactly if
one of the names assigns to the other. It is then used as nodes of its kind are. -/
theorem methods_match_iff {a b : SyntaxNode} {x y : String} (names : a.NamesMethod x)
    (names' : b.NamesMethod y) (differs : x ≠ y) :
    let found := a.identity?.bind b.occurrenceOf?
    (found.isSome ↔ Assigns x y ∨ Assigns y x) ∧ (found.isSome → found = b.kind.occurrence?) := by
  intro found
  have used := names'.occurrence?_isSome
  rw [← NameSpace.normalize_eq_iff differs, show found = _ from names.match_eq names']
  split
  · next same => exact ⟨iff_of_true used same, fun _ => rfl⟩
  · next other =>
      exact ⟨iff_of_false Bool.false_ne_true other, fun some' => absurd some' Bool.false_ne_true⟩

/-- A name and the one that assigns to it, in a definition and a call. -/
theorem reader_matches_writer :
    let reader : SyntaxNode := ⟨.methodDef, some "größe", ⟨0, 10⟩, none, []⟩
    let writer : SyntaxNode := ⟨.call, some "größe=", ⟨12, 20⟩, none, []⟩
    reader.NamesMethod "größe" ∧ writer.NamesMethod "größe=" ∧ "größe" ≠ "größe=" ∧
      reader.identity?.bind writer.occurrenceOf? = some .read := by
  intro reader writer
  have names : reader.NamesMethod "größe" := ⟨.inl rfl, rfl⟩
  have names' : writer.NamesMethod "größe=" := ⟨.inr rfl, rfl⟩
  have differs : "größe" ≠ "größe=" := by decide
  obtain ⟨found, used⟩ := methods_match_iff names names' differs
  refine ⟨names, names', differs, used (found.mpr (.inl ⟨by decide, by decide, rfl⟩))⟩

/-- Operators are taken for one with the comparisons that have an `=` behind them, although none of them
has a name that begins with a letter or an underscore. -/
theorem operators_match_comparisons :
    let call (name : String) : SyntaxNode := ⟨.call, some name, ⟨0, 2⟩, none, []⟩
    let isAttribute (name : String) : Bool := name.toList.head?.any fun c => c.isAlpha || c == '_'
    (call "<").identity?.bind (call "<=").occurrenceOf? = some .read ∧
      isAttribute "<" = false ∧
      (call "!").identity?.bind (call "!=").occurrenceOf? = some .read ∧
      isAttribute "!" = false := by
  intro call isAttribute
  refine ⟨?_, rfl, ?_, rfl⟩
  · decide
  · decide

end SyntaxNode

end CodeAtlas
