import CodeAtlas.Proofs.Related
import CodeAtlas.Proofs.Request.SingletonMethods

/-!
# The first candidate that is defined decides

A reference is looked up under several full names, those from the inner namespaces first. It is answered
with all definitions of the first of these names that has any, and never with those of two names.
-/

namespace CodeAtlas.Definition

/-! ## Candidates -/

/-- The full names of the namespaces that some nodes open, each below the ones before it. -/
def opened (owner : Option String) : List SyntaxNode → List String
  | [] => []
  | n :: below =>
      match n.kind, n.name with
      | .moduleDef, some name | .classDef, some name =>
          qualify owner name :: opened (some (qualify owner name)) below
      | _, _ => opened owner below

/-- The namespaces below some ancestors, innermost first. -/
def namespacesBelow (ancestors : List SyntaxNode) : List String :=
  withoutRepeats (opened none ancestors).reverse

/-- Whether `self` is a class below some ancestors: in a singleton class that no namespace inside it keeps
apart, or in a method that is defined on `self`. -/
def selfIsClass (ancestors : List SyntaxNode) : Bool :=
  (SyntaxNode.nearest? SyntaxKind.opensNames ancestors).any (·.kind == .singletonClass) ||
    (SyntaxNode.nearest? (· == .methodDef) ancestors).any SyntaxNode.definesOnSelf

def constantNames (ancestors : List SyntaxNode) (name : String) : List String :=
  match anchored? name with
  | some absolute => [absolute]
  | none => (namespacesBelow ancestors).map (· ++ "::" ++ name) ++ [name]

def methodNames (ancestors : List SyntaxNode) (name : String) : List String :=
  (namespacesBelow ancestors).flatMap (fun ns =>
    if selfIsClass ancestors then [ns ++ "." ++ name, ns ++ "#" ++ name]
    else [ns ++ "#" ++ name, ns ++ "." ++ name]) ++ [name]

/-- The first of some names under which anything is defined. -/
def firstDefined? (index : WorkspaceIndex) (names : List String) : Option String :=
  names.find? fun name => !(index.resolve name).isEmpty

/-- The names that a reference below some ancestors can mean, the likeliest first. -/
def candidates (index : WorkspaceIndex) (ancestors : List SyntaxNode) (n : SyntaxNode) : List String :=
  match n.kind, n.name with
  | .constRead, some name => constantNames ancestors name
  | .call, some name =>
      match receiver? n with
      | none => methodNames ancestors name
      | some receiver =>
          match receiver.kind, receiver.name with
          | .selfRef, _ => methodNames ancestors name
          | .constRead, some constant =>
              ((firstDefined? index (constantNames ancestors constant)).map (· ++ "." ++ name)).toList
          | _, _ => []
  | _, _ => []

/-! ## Namespaces -/

/-- A level that only passes its namespace on makes no difference. -/
theorem namespaces_passed (xs : List String) (s : ScopeStack) (singleton : Bool) :
    withoutRepeats (xs ++ (⟨s.owner, singleton⟩ :: s.scopes).filterMap Scope.owner) =
      withoutRepeats (xs ++ s.scopes.filterMap Scope.owner) := by
  cases owner : s.owner with
  | none => rw [List.filterMap_cons_none rfl]
  | some ns =>
      obtain ⟨scope, head, ns_eq⟩ := Option.bind_eq_some_iff.mp owner
      obtain ⟨rest, scopes_eq⟩ := List.head?_eq_some_iff.mp head
      rw [List.filterMap_cons_some (f := Scope.owner) rfl, scopes_eq, List.filterMap_cons_some ns_eq,
        withoutRepeats_repeat]

theorem namespaces_foldl_enter (around : List SyntaxNode) (s : ScopeStack) :
    (around.foldl (fun s n => (s.enter n).2) s).namespaces =
      withoutRepeats ((opened s.owner around).reverse ++ s.scopes.filterMap Scope.owner) := by
  induction around generalizing s with
  | nil => rfl
  | cons n around ih =>
      rw [List.foldl_cons, ih, opened, ScopeStack.enter]
      cases kind : n.kind with
      | moduleDef | classDef =>
          cases n.name with
          | none => exact namespaces_passed _ s false
          | some name =>
              rw [List.reverse_cons, List.append_assoc]
              rfl
      | singletonClass => exact namespaces_passed _ s true
      | _ => rfl

theorem namespaces_enclosing (ancestors : List SyntaxNode) :
    (ScopeStack.enclosing ancestors).namespaces = namespacesBelow ancestors := by
  rw [ScopeStack.enclosing, namespaces_foldl_enter, ScopeStack.empty, List.filterMap_nil,
    List.append_nil]
  rfl

theorem singleton_below (ancestors : List SyntaxNode) :
    (Place.below ancestors).singleton = selfIsClass ancestors := by
  have inside : (ScopeStack.enclosing ancestors).singleton =
      (SyntaxNode.nearest? SyntaxKind.opensNames ancestors).any (·.kind == .singletonClass) := by
    rw [ScopeStack.singleton_eq, ScopeStack.innermost_enclosing, SyntaxNode.singleton_foldl_inside]
  rw [selfIsClass, ← inside]
  unfold Place.below SyntaxNode.nearest?
  cases ancestors.reverse.find? fun n => n.kind == .methodDef with
  | none => rfl
  | some method => rfl

theorem constantCandidates_below (ancestors : List SyntaxNode) (name : String) :
    constantCandidates (.below ancestors) name = constantNames ancestors name := by
  rw [constantCandidates, constantNames]
  cases anchored : anchored? name with
  | some absolute => rfl
  | none =>
      have joined : (fun ns => qualify (some ns) name) = (· ++ "::" ++ name) := by
        funext ns
        simp only [qualify, anchored]
      rw [joined, ← namespaces_enclosing]
      rfl

theorem methodCandidates_below (ancestors : List SyntaxNode) (name : String) :
    methodCandidates (.below ancestors) name = methodNames ancestors name := by
  rw [methodCandidates, methodNames, singleton_below, ← namespaces_enclosing]
  cases selfIsClass ancestors with
  | true => rfl
  | false => rfl

/-! ## Definitions -/

section Index

variable {index : WorkspaceIndex} {es : List SymbolEntry}

theorem firstDefined_eq_resolve (index : WorkspaceIndex) (names : List String) :
    firstDefined index names = ((firstDefined? index names).map index.resolve).getD [] := by
  induction names with
  | nil => rfl
  | cons name rest ih =>
      rw [firstDefined, firstDefined?, List.find?_cons]
      cases found : index.resolve name with
      | nil => exact ih
      | cons e others => simp [found]

theorem firstDefined_singleton (index : WorkspaceIndex) (name : String) :
    firstDefined index [name] = index.resolve name := by
  cases found : index.resolve name with
  | nil => simp [firstDefined, found]
  | cons e others => simp [firstDefined, found]

theorem resolve_ne_nil_of_firstDefined? {names : List String} {name : String}
    (found : firstDefined? index names = some name) : index.resolve name ≠ [] := by
  simpa using List.find?_some found

/-- What is found under a name has the name. -/
theorem resolveConstant_below (holds : index.Holds es) (ancestors : List SyntaxNode) (name : String) :
    resolveConstant index (.below ancestors) name =
      firstDefined? index (constantNames ancestors name) := by
  rw [resolveConstant, constantCandidates_below, firstDefined_eq_resolve]
  cases found : firstDefined? index (constantNames ancestors name) with
  | none => rfl
  | some full =>
      obtain ⟨e, rest, resolved⟩ := List.exists_cons_of_ne_nil (resolve_ne_nil_of_firstDefined? found)
      have mem : e ∈ index.resolve full := resolved ▸ List.mem_cons_self
      rw [holds.resolve_eq] at mem
      simp [resolved, WorkspaceIndex.name_of_mem_named mem]

/-- What is found for a reference is found under the first of its candidates that is defined. -/
theorem entries_eq_candidates (holds : index.Holds es) (ancestors : List SyntaxNode) (n : SyntaxNode) :
    entries index (ancestors ++ [n]) = firstDefined index (candidates index ancestors n) := by
  rw [entries_concat, candidates]
  cases kind : n.kind with
  | constRead =>
      rw [handle, List.nil_append]
      cases n.name with
      | none => rfl
      | some name =>
          rw [Option.bind_some, resolveConstant_below holds, ← firstDefined_eq_resolve]
  | call =>
      rw [handle, List.nil_append, resolveCall]
      cases n.name with
      | none => rfl
      | some name =>
          simp only [methodCandidates_below]
          cases receiver? n with
          | none => rfl
          | some receiver =>
              dsimp only
              cases receiver.kind with
              | selfRef => rfl
              | constRead =>
                  cases receiver.name with
                  | none => rfl
                  | some constant =>
                      simp only [Option.bind_some, resolveConstant_below holds]
                      cases firstDefined? index (constantNames ancestors constant) with
                      | none => rfl
                      | some owner => exact (firstDefined_singleton index _).symm
              | _ => rfl
  | _ => rfl

end Index

/-! ## Answers -/

/-- The place of a definition, in the file that it was collected from. -/
def LocatedAt (w : Workspace) (e : SymbolEntry) (location : Location) : Prop :=
  ∃ s, w.source? e.path = some s ∧ location = ⟨.ofPath e.path, w.toPositionRange s e.range⟩

theorem locatedAt_filterMap {w : Workspace} {found : List SymbolEntry}
    (located : ∀ e ∈ found, (w.locate? e.path e.range).isSome) :
    List.Forall₂ (LocatedAt w) found (found.filterMap fun e => w.locate? e.path e.range) := by
  refine forall₂_filterMap_of_exists fun e mem => ?_
  obtain ⟨location, locate⟩ := Option.isSome_iff_exists.mp (located e mem)
  obtain ⟨s, loaded, location_eq⟩ := Option.map_eq_some_iff.mp locate
  exact ⟨location, locate, s, loaded, location_eq.symm⟩

/-- A request for the definitions of what stands under a cursor is answered with the places of all
definitions of the first candidate that has any, in the order of the index. -/
theorem locations_of_first_candidate {w : Workspace} (reachable : w.Reachable) {path : String}
    {s : Source} (loaded : w.source? path = some s) (p : Position) :
    let way := s.root.pathAt (w.toOffset s p)
    let defined := firstDefined? w.index (way.getLast?.elim [] (candidates w.index way.dropLast))
    (defined = none → w.query (.definition path p) = .definition none) ∧
      ∀ name, defined = some name → ∃ locations,
        w.query (.definition path p) = .definition (some locations) ∧
          List.Forall₂ (LocatedAt w) (w.index.resolve name) locations := by
  intro way defined
  obtain ⟨sources, reflects⟩ := reachable.exists_reflects
  have found_eq : entries w.index way = (defined.map w.index.resolve).getD [] := by
    rw [← firstDefined_eq_resolve]
    cases way using List.reverseRecOn with
    | nil => rfl
    | append_singleton ancestors n =>
        rw [entries_eq_candidates reflects.index.holds]
        simp
  have answered : answer w path p =
      let locations := (entries w.index way).filterMap fun e => w.locate? e.path e.range
      if locations.isEmpty then none else some locations := by
    rw [answer, loaded]
    rfl
  rw [show w.query (.definition path p) = .definition (answer w path p) from rfl, answered, found_eq]
  refine ⟨fun none' => ?_, fun name some' => ?_⟩
  · rw [none']
    rfl
  · rw [some', Option.map_some, Option.getD_some]
    have places := locatedAt_filterMap fun e (mem : e ∈ w.index.resolve name) =>
      reflects.locate?_isSome mem
    refine ⟨_, congrArg Response.definition (if_neg fun empty => ?_), places⟩
    rw [List.isEmpty_iff.mp empty, List.forall₂_nil_right_iff] at places
    exact resolve_ne_nil_of_firstDefined? some' places

/-- A call on a constant in a module finds the methods that two files define on the constant outside of
the module, and no method of its instances. -/
theorem locations_of_call_on_outer_constant :
    let constant : SyntaxNode := ⟨.constRead, some "Cart", ⟨1, 1⟩, none, []⟩
    let call : SyntaxNode := ⟨.call, some "open", ⟨0, 0⟩, none, [some constant]⟩
    let app := Source.new "app.rb" "" ⟨.moduleDef, some "Shop", ⟨0, 0⟩, none, [none, some call]⟩
    let own : SyntaxNode := ⟨.methodDef, some "open", ⟨0, 0⟩, none, []⟩
    let receiver : SyntaxNode := .leaf .selfRef ⟨0, 0⟩
    let onSelf : SyntaxNode := ⟨.methodDef, some "open", ⟨0, 0⟩, none, [some receiver]⟩
    let lib := Source.new "lib.rb" "" ⟨.classDef, some "Cart", ⟨0, 0⟩, none, [some own, some onSelf]⟩
    let ext := Source.new "ext.rb" "" ⟨.classDef, some "Cart", ⟨0, 0⟩, none, [some onSelf]⟩
    let w := (Workspace.empty .default).changes [.index lib, .index app, .index ext]
    ∃ first second, w.query (.definition "app.rb" ⟨0, 0⟩) = .definition (some [first, second]) ∧
      first.url = .ofPath "lib.rb" ∧ second.url = .ofPath "ext.rb" := by
  intro constant call app own receiver onSelf lib ext w
  have reflects := Workspace.reflects_changes .default [.index lib, .index app, .index ext]
  have loaded : w.source? "app.rb" = some app :=
    (reflects.source? _ _).mpr ⟨by simp [WorkspaceIndex.live, lib, app, ext, Source.new], rfl⟩
  have live_eq : WorkspaceIndex.live [.index lib, .index app, .index ext] = [lib, app, ext] := rfl
  have symbols_eq : [lib, app, ext].flatMap Source.symbols =
      lib.root.symbolsIn "lib.rb" ⟨none, false⟩ ++ (app.root.symbolsIn "app.rb" ⟨none, false⟩ ++
        ext.root.symbolsIn "ext.rb" ⟨none, false⟩) := by
    simp only [List.flatMap_cons, List.flatMap_nil, List.append_nil, Source.symbols, definitions_eq]
    rfl
  have resolve_eq (name : String) := reflects.index.holds.resolve_eq name
  rw [live_eq, symbols_eq] at resolve_eq
  have inner : w.index.resolve "Shop::Cart" = [] := by
    rw [resolve_eq]
    rfl
  have outer : w.index.resolve "Cart" ≠ [] := by
    rw [resolve_eq]
    exact List.cons_ne_nil _ _
  have methods : w.index.resolve "Cart.open" =
      [⟨"Cart.open", .methodKind, "lib.rb", ⟨0, 0⟩, ⟨0, 0⟩, some "Cart"⟩,
        ⟨"Cart.open", .methodKind, "ext.rb", ⟨0, 0⟩, ⟨0, 0⟩, some "Cart"⟩] := by
    rw [resolve_eq]
    rfl
  have names_eq : constantNames [app.root] "Cart" = ["Shop::Cart", "Cart"] := rfl
  have owner : firstDefined? w.index (constantNames [app.root] "Cart") = some "Cart" := by
    simp [names_eq, firstDefined?, inner, outer]
  have candidates_eq : candidates w.index [app.root] call = ["Cart.open"] := by
    have joined : candidates w.index [app.root] call =
        ((firstDefined? w.index (constantNames [app.root] "Cart")).map (· ++ "." ++ "open")).toList := rfl
    rw [joined, owner]
    rfl
  have defined : firstDefined? w.index (candidates w.index [app.root] call) = some "Cart.open" := by
    simp [candidates_eq, firstDefined?, methods]
  have reachable : w.Reachable := ⟨.default, _, rfl⟩
  obtain ⟨locations, answered, places⟩ :=
    (locations_of_first_candidate reachable loaded ⟨0, 0⟩).2 "Cart.open" defined
  rw [methods] at places
  cases places with
  | cons first places =>
      cases places with
      | cons second none' =>
          cases none'
          obtain ⟨_, -, rfl⟩ := first
          obtain ⟨_, -, rfl⟩ := second
          exact ⟨_, _, answered, rfl, rfl⟩

end CodeAtlas.Definition
