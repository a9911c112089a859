import CodeAtlas.Proofs.Request.SingletonMethods

/-!
# Names of methods and their bodies

A method is collected as a singleton method if its first child is `self`. Two trees that differ in the
body of one method define the same symbols around it, and the method itself under at most another name.
The name stays if something that belongs to the header of the method comes first. Where the header has no
children, the body has the first child, and `self` at its beginning is taken for a receiver.
-/

namespace CodeAtlas

namespace SyntaxNode

/-! ## Putting a node in the place of another -/

/-- The tree with another node at a place. A place outside of the tree leaves it as it is. -/
def replaceAt : SyntaxNode → List Nat → SyntaxNode → SyntaxNode
  | _, [], m => m
  | n, i :: place, m =>
      match n.slots[i]? with
      | some (some child) => { n with slots := n.slots.set i (some (child.replaceAt place m)) }
      | _ => n

section Replacement

variable {n child child' old m : SyntaxNode} {i : Nat} {place : List Nat} {around : List SyntaxNode}
  {path : String} {scope : Scope}

theorem replaceAt_cons (slot : n.slots[i]? = some (some child)) : n.replaceAt (i :: place) m =
    { n with slots := n.slots.set i (some (child.replaceAt place m)) } := by
  rw [replaceAt, slot]

theorem Way.kind_replaceAt (way : Way n place around old) (kind : m.kind = old.kind) :
    (n.replaceAt place m).kind = n.kind := by
  cases way with
  | here => exact kind
  | step slot way => rw [replaceAt_cons slot]

/-- The node stands at its place, below ancestors that open the same scopes. -/
theorem Way.replaceAt (way : Way n place around old) (m : SyntaxNode) : ∃ around',
    Way (n.replaceAt place m) place around' m ∧
      ∀ scope, around'.foldl Scope.inside scope = around.foldl Scope.inside scope := by
  induction way with
  | here n => exact ⟨[], .here m, fun _ => rfl⟩
  | @step n child old i place around slot way ih =>
      obtain ⟨around', way', scopes⟩ := ih
      obtain ⟨bound, -⟩ := List.getElem?_eq_some_iff.mp slot
      rw [replaceAt_cons slot]
      exact ⟨_ :: around', .step (List.getElem?_set_self bound) way', fun _ => scopes _⟩

/-! ## Symbols around a place -/

theorem definesOnSelf_eq (n : SyntaxNode) :
    n.definesOnSelf = (((n.slots.map (Option.map kind)).filterMap id).head? == some .selfRef) := by
  have kinds : (n.slots.map (Option.map kind)).filterMap id = n.children.map kind := by
    rw [children, List.map_filterMap, List.filterMap_map]
    rfl
  rw [kinds, definesOnSelf]
  cases n.children with
  | nil => rfl
  | cons first rest => simp

/-- A node is asked for the kinds of its children and for nothing else of them. -/
theorem symbolIn?_set (slot : n.slots[i]? = some (some child)) (same : child'.kind = child.kind) :
    symbolIn? path scope { n with slots := n.slots.set i (some child') } = n.symbolIn? path scope := by
  have kinds : (n.slots.set i (some child')).map (Option.map kind) = n.slots.map (Option.map kind) := by
    obtain ⟨bound, at_i⟩ := List.getElem?_eq_some_iff.mp slot
    have inside : i < (n.slots.map (Option.map kind)).length := by rwa [List.length_map]
    have kept : (n.slots.map (Option.map kind))[i] = some child'.kind := by
      rw [List.getElem_map, at_i, same, Option.map_some]
    rw [List.map_set, Option.map_some, ← kept, List.set_getElem_self]
  simp only [symbolIn?, nameRange, definesOnSelf_eq, kinds]

theorem symbolsInSlots_append (slots slots' : List (Option SyntaxNode)) :
    symbolsInSlots path scope (slots ++ slots') =
      symbolsInSlots path scope slots ++ symbolsInSlots path scope slots' := by
  induction slots with
  | nil => rfl
  | cons slot rest ih =>
      cases slot with
      | none => exact ih
      | some child => simp only [List.cons_append, symbolsInSlots, ih, List.append_assoc]

/-- What is collected below a node, divided at one of its children. -/
theorem symbolsIn_set (slot : n.slots[i]? = some (some child)) (same : child'.kind = child.kind) :
    symbolsIn path scope { n with slots := n.slots.set i (some child') } =
      (n.symbolIn? path scope).toList ++ symbolsInSlots path (scope.inside n) (n.slots.take i) ++
        child'.symbolsIn path (scope.inside n) ++
        symbolsInSlots path (scope.inside n) (n.slots.drop (i + 1)) := by
  obtain ⟨bound, -⟩ := List.getElem?_eq_some_iff.mp slot
  have opens : scope.inside { n with slots := n.slots.set i (some child') } = scope.inside n := rfl
  rw [symbolsIn_eq, symbolIn?_set slot same, opens, List.set_eq_take_append_cons_drop, if_pos bound,
    symbolsInSlots_append, symbolsInSlots]
  simp only [List.append_assoc]

/-- What is collected from a tree is what is collected at a place of it, between symbols that depend on
nothing of the node there but its kind. -/
theorem Way.symbolsIn_replaceAt (way : Way n place around old) (path : String) (scope : Scope) :
    ∃ before after,
      n.symbolsIn path scope =
        before ++ old.symbolsIn path (around.foldl Scope.inside scope) ++ after ∧
      ∀ m, m.kind = old.kind → (n.replaceAt place m).symbolsIn path scope =
        before ++ m.symbolsIn path (around.foldl Scope.inside scope) ++ after := by
  induction way generalizing scope with
  | here n => exact ⟨[], [], by simp, fun m _ => by simp [SyntaxNode.replaceAt]⟩
  | @step n child old i place around slot way ih =>
      obtain ⟨before, after, collected, replaced⟩ := ih (scope.inside n)
      refine ⟨(n.symbolIn? path scope).toList ++
          symbolsInSlots path (scope.inside n) (n.slots.take i) ++ before,
        after ++ symbolsInSlots path (scope.inside n) (n.slots.drop (i + 1)), ?_, fun m kind => ?_⟩
      · obtain ⟨bound, at_i⟩ := List.getElem?_eq_some_iff.mp slot
        have itself : { n with slots := n.slots.set i (some child) } = n := by
          rw [← at_i, List.set_getElem_self]
          cases n
          rfl
        rw [← itself, symbolsIn_set slot rfl, itself, collected, List.foldl_cons]
        simp only [List.append_assoc]
      · rw [replaceAt_cons slot, symbolsIn_set slot (way.kind_replaceAt kind), replaced m kind,
          List.foldl_cons]
        simp only [List.append_assoc]

end Replacement

end SyntaxNode

/-! ## Names -/

theorem qualifyMethod_inj (owner : Option String) (singleton singleton' : Bool) (name : String) :
    qualifyMethod owner singleton name = qualifyMethod owner singleton' name ↔
      owner = none ∨ singleton = singleton' := by
  cases owner with
  | none => exact iff_of_true rfl (.inl rfl)
  | some owner =>
      have dot (singleton : Bool) : qualifyMethod (some owner) singleton name =
          qualifyMethod (some owner) true name ↔ singleton = true :=
        Outline.qualifyMethod_eq_iff owner name singleton
      cases singleton' with
      | true => simpa using dot singleton
      | false =>
          cases singleton with
          | true => simpa [eq_comm] using dot false
          | false => simp

namespace SyntaxNode

/-- The children that begin before the end of the identifier. The others are the body. -/
def header (n : SyntaxNode) : List SyntaxNode :=
  n.children.filter fun child => child.range.start < n.nameRange.stop

/-- No child of the body stands in front of one of the header. -/
def HeaderFirst (n : SyntaxNode) : Prop :=
  n.header <+: n.children

/-- The two nodes differ in their bodies at most. -/
structure SameHeader (n m : SyntaxNode) : Prop where
  slots_only : m = { n with slots := m.slots }
  header_eq : m.header = n.header

theorem HeaderFirst.definesOnSelf_eq {n : SyntaxNode} (first : n.HeaderFirst) (nonempty : n.header ≠ []) :
    n.definesOnSelf = (n.header.head?.map kind == some .selfRef) := by
  obtain ⟨body, children_eq⟩ := first
  obtain ⟨child, rest, header_eq⟩ := List.exists_cons_of_ne_nil nonempty
  rw [definesOnSelf, ← children_eq, header_eq]
  rfl

/-- A method whose body is exchanged for another one is collected at the same place among the symbols of
its file, as the same symbol but for its name, and all symbols outside of it stay. The name stays if and
only if the two versions agree on a first child that is `self`, unless that tells nothing: outside of
namespaces, or in the body of a singleton class. They agree if the header has children and these come
first. -/
theorem definitions_of_sameHeader (path : String) (root : SyntaxNode) {t : Site} (site : t ∈ root.sites)
    {m : SyntaxNode} (same : t.node.SameHeader m) {name : String} (method : t.node.kind = .methodDef)
    (named : t.node.name = some name) :
    ∃ before after below below' e e',
      t.symbol? path = some e ∧
      (∃ t' ∈ (root.replaceAt t.place m).sites, t'.place = t.place ∧ t'.node = m ∧
        t'.symbol? path = some e') ∧
      definitions path root = before ++ e :: below ++ after ∧
      definitions path (root.replaceAt t.place m) = before ++ e' :: below' ++ after ∧
      e' = { e with name := e'.name } ∧
      (e'.name = e.name ↔ t.scope.owner = none ∨ t.scope.singleton = true ∨
        m.definesOnSelf = t.node.definesOnSelf) ∧
      (t.node.header ≠ [] → t.node.HeaderFirst → m.HeaderFirst → e'.name = e.name) := by
  have way := mem_sites.mp site
  have method' : m.kind = .methodDef := (congrArg kind same.slots_only).trans method
  have named' : m.name = some name := (congrArg SyntaxNode.name same.slots_only).trans named
  have collected := t.node.symbolIn?_method path t.scope method named
  have collected' := m.symbolIn?_method path t.scope method' named'
  obtain ⟨before, after, symbols, symbols'⟩ := way.symbolsIn_replaceAt path ⟨none, false⟩
  obtain ⟨around', way', scopes⟩ := way.replaceAt m
  have name_iff : qualifyMethod t.scope.owner (t.scope.singleton || m.definesOnSelf) name =
      qualifyMethod t.scope.owner (t.scope.singleton || t.node.definesOnSelf) name ↔
      t.scope.owner = none ∨ t.scope.singleton = true ∨ m.definesOnSelf = t.node.definesOnSelf := by
    rw [qualifyMethod_inj]
    cases t.scope.singleton <;> simp
  have stands : Site.symbol? path ⟨t.place, around', m⟩ = m.symbolIn? path t.scope := by
    rw [Site.symbol?, Site.scope, scopes]
    rfl
  refine ⟨before, after, symbolsInSlots path (t.scope.inside t.node) t.node.slots,
    symbolsInSlots path (t.scope.inside m) m.slots, _, _, collected,
    ⟨⟨t.place, around', m⟩, mem_sites.mpr way', rfl, rfl, stands.trans collected'⟩, ?_, ?_, ?_,
    name_iff, ?_⟩
  · rw [definitions_eq, symbols, symbolsIn_eq, ← Site.scope, collected]
    rfl
  · rw [definitions_eq, symbols' m (method'.trans method.symm), symbolsIn_eq, ← Site.scope, collected']
    rfl
  · rw [same.slots_only]
    rfl
  · intro nonempty first first'
    refine name_iff.mpr (.inr (.inr ?_))
    rw [first.definesOnSelf_eq nonempty, first'.definesOnSelf_eq (same.header_eq ▸ nonempty),
      same.header_eq]

/-- A receiver keeps the name of a method, whatever comes into its body. -/
theorem receiver_keeps_name :
    let receiver := leaf .selfRef ⟨13, 17⟩
    let method : SyntaxNode := ⟨.methodDef, some "foo", ⟨9, 26⟩, some ⟨18, 21⟩, [some receiver, none]⟩
    let filled := { method with slots := [some receiver, none, some (leaf .selfRef ⟨23, 27⟩)] }
    let root : SyntaxNode := ⟨.classDef, some "A", ⟨0, 31⟩, some ⟨6, 7⟩, [some method]⟩
    ∃ before after below below' e e',
      definitions "a.rb" root = before ++ e :: below ++ after ∧
      definitions "a.rb" (root.replaceAt [0] filled) = before ++ e' :: below' ++ after ∧
      e.name = "A.foo" ∧ e'.name = "A.foo" := by
  intro receiver method filled root
  have site : (⟨[0], [root], method⟩ : Site) ∈ root.sites := mem_sites.mpr (.step rfl (.here method))
  have same : method.SameHeader filled := ⟨rfl, rfl⟩
  obtain ⟨before, after, below, below', e, e', collected, -, symbols, symbols', -, -, kept⟩ :=
    definitions_of_sameHeader "a.rb" root site same rfl rfl
  cases collected
  refine ⟨before, after, below, below', _, e', symbols, symbols', rfl, ?_⟩
  exact kept (by decide) ⟨[], rfl⟩ ⟨[leaf .selfRef ⟨23, 27⟩], rfl⟩

/-- A method without parameters whose body is `self` is collected as a singleton method, and as one of
instances if the body is removed. -/
theorem body_taken_for_receiver :
    let method : SyntaxNode :=
      ⟨.methodDef, some "foo", ⟨9, 27⟩, some ⟨13, 16⟩, [some (leaf .selfRef ⟨18, 22⟩)]⟩
    let emptied := { method with slots := [] }
    let root : SyntaxNode := ⟨.classDef, some "A", ⟨0, 32⟩, some ⟨6, 7⟩, [some method]⟩
    method.SameHeader emptied ∧
      (∀ child ∈ method.children, method.nameRange.stop ≤ child.range.start) ∧
      (definitions "b.rb" root).map (·.name) = ["A", "A.foo"] ∧
      (definitions "b.rb" (root.replaceAt [0] emptied)).map (·.name) = ["A", "A#foo"] := by
  intro method emptied root
  refine ⟨⟨rfl, rfl⟩, by simp [method, children, nameRange, leaf], ?_, ?_⟩
  · rw [definitions_eq]
    rfl
  · rw [definitions_eq]
    rfl

end SyntaxNode

end CodeAtlas
