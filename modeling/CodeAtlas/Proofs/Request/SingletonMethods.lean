import CodeAtlas.Proofs.Request.Definition
import CodeAtlas.Proofs.Request.Forest

/-!
# Singleton methods in the outline and in the index

The outline and the index list the same definitions, each with a name that the ancestors of its node tell.
An outline calls a method a singleton method by the nearest body around it, the index by the nearest one
that is not the body of a method. The two agree on every method but those that stand in another method, in
the body of a singleton class.
-/

namespace CodeAtlas

/-- Whether nodes of the kind have a scope of names of their own. -/
def SyntaxKind.opensNames : SyntaxKind → Bool
  | .moduleDef | .classDef | .singletonClass => true
  | _ => false

namespace SyntaxNode

/-! ## What ancestors tell -/

/-- The scope of names that the ancestors of a site open. -/
def Site.scope (t : Site) : Scope :=
  t.around.foldl Scope.inside ⟨none, false⟩

/-- The symbol that the node at a site is collected as, if it defines one. -/
def Site.symbol? (path : String) (t : Site) : Option SymbolEntry :=
  t.node.symbolIn? path t.scope

/-- The name and kind under which the node at a site is listed in an outline, if it is. -/
def Site.title? (t : Site) : Option (String × SymbolKind) :=
  t.node.titleIn? (inSingletonBody t.around)

/-- The nearest body around a site is that of a method, and the nearest one around it that is not a
method's is that of a singleton class. -/
def Site.InMethodOfSingleton (t : Site) : Prop :=
  (∃ m, nearest? SyntaxKind.hasBody t.around = some m ∧ m.kind = .methodDef) ∧
    ∃ c, nearest? SyntaxKind.opensNames t.around = some c ∧ c.kind = .singletonClass

theorem singleton_foldl_inside (around : List SyntaxNode) :
    (around.foldl Scope.inside ⟨none, false⟩).singleton =
      (nearest? SyntaxKind.opensNames around).any (·.kind == .singletonClass) := by
  induction around using List.reverseRecOn with
  | nil => rfl
  | append_singleton around n ih =>
      rw [List.foldl_concat, nearest?_concat, Scope.inside]
      cases kind : n.kind with
      | moduleDef | classDef =>
          cases n.name with
          | none => simp [SyntaxKind.opensNames, kind]
          | some name => simp [SyntaxKind.opensNames, kind]
      | singletonClass => simp [SyntaxKind.opensNames, kind]
      | _ => simpa [SyntaxKind.opensNames] using ih

/-- The nearest body is one that opens a scope of names, or that of a method. -/
theorem nearest?_hasBody (around : List SyntaxNode) :
    nearest? SyntaxKind.hasBody around = nearest? SyntaxKind.opensNames around ∨
      ∃ m, nearest? SyntaxKind.hasBody around = some m ∧ m.kind = .methodDef := by
  induction around using List.reverseRecOn with
  | nil => exact .inl rfl
  | append_singleton around n ih =>
      rw [nearest?_concat, nearest?_concat]
      cases kind : n.kind with
      | moduleDef | classDef | singletonClass => exact .inl rfl
      | methodDef => exact .inr ⟨n, rfl, kind⟩
      | _ => exact ih

theorem Site.InMethodOfSingleton.flags {t : Site} (between : t.InMethodOfSingleton) :
    inSingletonBody t.around = false ∧ t.scope.singleton = true := by
  obtain ⟨⟨m, nearest, method⟩, c, outer, singleton⟩ := between
  rw [inSingletonBody, nearest, scope, singleton_foldl_inside, outer]
  simp [method, singleton]

/-- Both flags are the same unless a method lies between a site and the body of a singleton class. -/
theorem Site.inSingletonBody_eq {t : Site} (usual : ¬t.InMethodOfSingleton) :
    inSingletonBody t.around = t.scope.singleton := by
  rw [inSingletonBody, scope, singleton_foldl_inside]
  rcases nearest?_hasBody t.around with same | ⟨m, nearest, method⟩
  · rw [same]
  · rw [nearest]
    cases outer : nearest? SyntaxKind.opensNames t.around with
    | none => simp [method]
    | some c =>
        have other : c.kind ≠ .singletonClass := fun singleton =>
          usual ⟨⟨m, nearest, method⟩, c, outer, singleton⟩
        simp [method, other]

end SyntaxNode

/-! ## Listings by sites -/

namespace Outline

open SyntaxNode (Site outlineInSlots symbolsInSlots sitesInSlots inSingletonBody)

variable {place : ByteRange → PositionRange} {path : String}

def title (item : OutlineItem) : String × SymbolKind :=
  (item.name, item.kind)

theorem titles_listedWith (singleton : Bool) (below : List OutlineItem) (n : SyntaxNode) :
    (preorder (n.listedWith place singleton below)).map title =
      (n.titleIn? singleton).toList ++ (preorder below).map title := by
  rw [SyntaxNode.listedWith]
  cases n.titleIn? singleton with
  | none => rfl
  | some named =>
      dsimp only
      split
      · simp [preorder, OutlineItem.preorder, title]
      · simp [preorder, OutlineItem.preorder, title]

mutual

theorem titles_outlineIn (way : List Nat) : (n : SyntaxNode) → (around : List SyntaxNode) →
    (preorder (n.outlineIn place (inSingletonBody around))).map title =
      (n.sitesAt way around).filterMap Site.title?
  | ⟨kind, name, range, ownNameRange, slots⟩, around => by
      rw [SyntaxNode.outlineIn, SyntaxNode.sitesAt, titles_listedWith, ← SyntaxNode.inSingletonBody_concat,
        titles_outlineInSlots way 0 slots, List.filterMap_cons, Site.title?]
      cases SyntaxNode.titleIn? (inSingletonBody around) ⟨kind, name, range, ownNameRange, slots⟩ with
      | none => rfl
      | some named => rfl

theorem titles_outlineInSlots (way : List Nat) (i : Nat) : (slots : List (Option SyntaxNode)) →
    (around : List SyntaxNode) →
    (preorder (outlineInSlots place (inSingletonBody around) slots)).map title =
      (sitesInSlots way around i slots).filterMap Site.title?
  | [], around => rfl
  | none :: rest, around => by
      rw [outlineInSlots, sitesInSlots]
      exact titles_outlineInSlots way (i + 1) rest around
  | some child :: rest, around => by
      rw [outlineInSlots, sitesInSlots, preorder_append, List.map_append, List.filterMap_append,
        titles_outlineIn (way ++ [i]) child, titles_outlineInSlots way (i + 1) rest]

end

mutual

theorem symbolsIn_eq_filterMap (way : List Nat) : (n : SyntaxNode) → (around : List SyntaxNode) →
    n.symbolsIn path (around.foldl Scope.inside ⟨none, false⟩) =
      (n.sitesAt way around).filterMap (Site.symbol? path)
  | ⟨kind, name, range, ownNameRange, slots⟩, around => by
      let n : SyntaxNode := ⟨kind, name, range, ownNameRange, slots⟩
      have inside := symbolsInSlots_eq_filterMap way 0 slots (around ++ [n])
      rw [List.foldl_concat] at inside
      rw [SyntaxNode.symbolsIn, SyntaxNode.sitesAt, inside, List.filterMap_cons, Site.symbol?, Site.scope]
      cases n.symbolIn? path (around.foldl Scope.inside ⟨none, false⟩) with
      | none => rfl
      | some symbol => rfl

theorem symbolsInSlots_eq_filterMap (way : List Nat) (i : Nat) : (slots : List (Option SyntaxNode)) →
    (around : List SyntaxNode) →
    symbolsInSlots path (around.foldl Scope.inside ⟨none, false⟩) slots =
      (sitesInSlots way around i slots).filterMap (Site.symbol? path)
  | [], around => rfl
  | none :: rest, around => by
      rw [symbolsInSlots, sitesInSlots]
      exact symbolsInSlots_eq_filterMap way (i + 1) rest around
  | some child :: rest, around => by
      rw [symbolsInSlots, sitesInSlots, List.filterMap_append, symbolsIn_eq_filterMap (way ++ [i]) child,
        symbolsInSlots_eq_filterMap way (i + 1) rest]

end

theorem titles_items (place : ByteRange → PositionRange) (root : SyntaxNode) :
    (preorder (items place root)).map title = root.sites.filterMap Site.title? := by
  rw [items_eq]
  exact titles_outlineIn [] root []

theorem definitions_eq_filterMap (path : String) (root : SyntaxNode) :
    definitions path root = root.sites.filterMap (Site.symbol? path) := by
  rw [definitions_eq]
  exact symbolsIn_eq_filterMap [] root []

/-! ## Methods -/

theorem listed_eq_iff (name : String) (onClass : Bool) :
    (if onClass then "self." ++ name else name) = "self." ++ name ↔ onClass = true := by
  cases onClass with
  | true => exact iff_of_true rfl rfl
  | false =>
      refine iff_of_false (fun same => ?_) Bool.false_ne_true
      have lengths := congrArg (List.length ∘ String.toList) same
      simp at lengths
      omega

theorem title?_method {t : Site} {name : String} (method : t.node.kind = .methodDef)
    (named : t.node.name = some name) : t.title? =
      some (if inSingletonBody t.around || t.node.definesOnSelf then "self." ++ name else name,
        .methodKind) := by
  rw [Site.title?, SyntaxNode.titleIn?, method, named]
  cases onClass : inSingletonBody t.around || t.node.definesOnSelf with
  | true => simp [SyntaxKind.symbolKind?]
  | false => simp [SyntaxKind.symbolKind?]

theorem qualifyMethod_eq_iff (owner name : String) (singleton : Bool) :
    qualifyMethod (some owner) singleton name = owner ++ "." ++ name ↔ singleton = true := by
  cases singleton with
  | true => exact iff_of_true rfl rfl
  | false =>
      refine iff_of_false (fun same => ?_) Bool.false_ne_true
      have same := congrArg String.toList same
      simp [qualifyMethod] at same

/-- The outline and the index list the same definitions, in the order of the walk. A method in a namespace
has `self.` in front of its name in the outline if the index joins it to its namespace by a dot, and only
then, unless the method stands in another one in the body of a singleton class and is not defined on
`self`: there the outline lists its bare name, and the index joins it by a dot. -/
theorem singleton_methods_agree (place : ByteRange → PositionRange) (path : String) (root : SyntaxNode) :
    (preorder (items place root)).map title = root.sites.filterMap Site.title? ∧
      definitions path root = root.sites.filterMap (Site.symbol? path) ∧
      ∀ t ∈ root.sites, ∀ name owner, t.node.kind = .methodDef → t.node.name = some name →
        t.scope.owner = some owner →
          ∃ listed entry, t.title? = some (listed, .methodKind) ∧ t.symbol? path = some entry ∧
            (listed = "self." ++ name ∨ listed = name) ∧
            (entry.name = owner ++ "." ++ name ∨ entry.name = owner ++ "#" ++ name) ∧
            (¬(t.InMethodOfSingleton ∧ t.node.definesOnSelf = false) →
              (listed = "self." ++ name ↔ entry.name = owner ++ "." ++ name)) ∧
            (t.InMethodOfSingleton ∧ t.node.definesOnSelf = false →
              listed = name ∧ entry.name = owner ++ "." ++ name) := by
  refine ⟨titles_items place root, definitions_eq_filterMap path root, ?_⟩
  intro t _ name owner method named inside
  have collected := t.node.symbolIn?_method path t.scope method named
  rw [inside] at collected
  refine ⟨_, _, title?_method method named, collected, ?_, ?_, ?_, ?_⟩
  · split
    · exact .inl rfl
    · exact .inr rfl
  · cases t.scope.singleton || t.node.definesOnSelf with
    | true => exact .inl rfl
    | false => exact .inr rfl
  · intro usual
    rw [listed_eq_iff, qualifyMethod_eq_iff]
    cases onSelf : t.node.definesOnSelf with
    | true => simp
    | false => rw [Site.inSingletonBody_eq fun between => usual ⟨between, onSelf⟩]
  · rintro ⟨between, onSelf⟩
    obtain ⟨body, scope⟩ := between.flags
    rw [body, scope, onSelf]
    exact ⟨rfl, rfl⟩

/-- A method in a method in a singleton class: the outline lists it as a method of instances, the index as
one of the class. -/
theorem inner_method_disagrees :
    let inner : SyntaxNode := ⟨.methodDef, some "inner", ⟨0, 0⟩, none, []⟩
    let outer : SyntaxNode := ⟨.methodDef, some "outer", ⟨0, 0⟩, none, [some inner]⟩
    let onClass : SyntaxNode := ⟨.singletonClass, none, ⟨0, 0⟩, none, [some outer]⟩
    let root : SyntaxNode := ⟨.classDef, some "A", ⟨0, 0⟩, none, [some onClass]⟩
    let place : ByteRange → PositionRange := fun _ => ⟨⟨0, 0⟩, ⟨0, 0⟩⟩
    (preorder (items place root)).map (·.name) = ["A", "self.outer", "inner"] ∧
      (definitions "a.rb" root).map (·.name) = ["A", "A.outer", "A.inner"] ∧
      ∃ t ∈ root.sites, t.node = inner ∧ t.scope.owner = some "A" ∧
        t.title? = some ("inner", .methodKind) ∧
        (t.symbol? "a.rb").map (·.name) = some "A.inner" := by
  intro inner outer onClass root place
  rw [items_eq, definitions_eq]
  refine ⟨rfl, rfl, ⟨[0, 0, 0], [root, onClass, outer], inner⟩, ?_, rfl, rfl, rfl, rfl⟩
  exact SyntaxNode.mem_sites.mpr (.step rfl (.step rfl (.step rfl (.here inner))))

end Outline

end CodeAtlas
