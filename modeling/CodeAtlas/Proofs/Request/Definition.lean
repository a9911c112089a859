import CodeAtlas.Proofs.Repeats
import CodeAtlas.Proofs.Symbol.Answers
import CodeAtlas.Proofs.Symbol.Nesting
import CodeAtlas.Proofs.Workspace
import CodeAtlas.Request

/-!
# Definitions are found from where they are named

The walk that collects symbols and the request that looks for one come to the same full names, although
one of them keeps a stack while it passes through a whole tree and the other one looks at the ancestors of
a single node. A reference finds each definition that is written with its name in the same namespace.
-/

namespace CodeAtlas

/-! ## Nodes and their ancestors -/

namespace SyntaxNode

/-- Nodes that lead from the root of a tree down to a node below it, each the parent of the next. -/
inductive Leads : SyntaxNode → List SyntaxNode → SyntaxNode → Prop
  | here (n : SyntaxNode) : Leads n [] n
  | step {n child target : SyntaxNode} {around : List SyntaxNode} (mem : child ∈ n.children)
      (leads : Leads child around target) : Leads n (n :: around) target

theorem mem_symbolsInSlots {path : String} {scope : Scope} {child : SyntaxNode} {e : SymbolEntry}
    {slots : List (Option SyntaxNode)} (mem : some child ∈ slots) (defines : e ∈ child.symbolsIn path scope) :
    e ∈ symbolsInSlots path scope slots := by
  induction slots with
  | nil => cases mem
  | cons slot rest ih =>
      cases slot with
      | none =>
          rw [symbolsInSlots]
          exact ih ((List.mem_cons.mp mem).resolve_left (by simp))
      | some other =>
          rw [symbolsInSlots, List.mem_append]
          rcases List.mem_cons.mp mem with same | mem
          · cases same
            exact .inl defines
          · exact .inr (ih mem)

theorem symbolIn?_constant (path : String) (scope : Scope) (n : SyntaxNode) {name : String}
    (defines : n.kind = .moduleDef ∨ n.kind = .classDef ∨ n.kind = .constWrite)
    (named : n.name = some name) : ∃ kind, n.symbolIn? path scope =
      some ⟨qualify scope.owner name, kind, path, n.range, n.nameRange, scope.owner⟩ := by
  rw [symbolIn?, named]
  rcases defines with kind | kind | kind
  · exact ⟨.moduleKind, by rw [kind]⟩
  · exact ⟨.classKind, by rw [kind]⟩
  · exact ⟨.constantKind, by rw [kind]⟩

theorem symbolIn?_method (path : String) (scope : Scope) (n : SyntaxNode) {name : String}
    (defines : n.kind = .methodDef) (named : n.name = some name) : n.symbolIn? path scope =
      some ⟨qualifyMethod scope.owner (scope.singleton || n.definesOnSelf) name, .methodKind, path,
        n.range, n.nameRange, scope.owner⟩ := by
  rw [symbolIn?, named, defines]

theorem symbolsIn_eq (path : String) (scope : Scope) (n : SyntaxNode) : n.symbolsIn path scope =
    (n.symbolIn? path scope).toList ++ symbolsInSlots path (scope.inside n) n.slots := by
  cases n
  rw [symbolsIn]

/-- What a node defines is collected in the scope that its ancestors open. -/
theorem Leads.mem_symbolsIn {path : String} {root d : SyntaxNode} {around : List SyntaxNode}
    (leads : root.Leads around d) {scope : Scope} {e : SymbolEntry}
    (defines : d.symbolIn? path (around.foldl Scope.inside scope) = some e) :
    e ∈ root.symbolsIn path scope := by
  induction leads generalizing scope with
  | here n =>
      rw [symbolsIn_eq, List.mem_append, Option.mem_toList]
      exact .inl defines
  | @step n child target around mem leads ih =>
      have slot : some child ∈ n.slots := by simpa [children] using mem
      rw [symbolsIn_eq, List.mem_append]
      exact .inr (mem_symbolsInSlots slot (ih defines))

end SyntaxNode

namespace ScopeStack

theorem innermost_enclosing (around : List SyntaxNode) :
    (enclosing around).innermost = around.foldl Scope.inside ⟨none, false⟩ := by
  suffices more : ∀ s : ScopeStack,
      (around.foldl (fun s n => (s.enter n).2) s).innermost = around.foldl Scope.inside s.innermost from
    more empty
  induction around with
  | nil => exact fun s => rfl
  | cons n around ih =>
      intro s
      rw [List.foldl_cons, List.foldl_cons, ih, innermost_enter]

/-! ## Namespaces around a node -/

/-- Where no namespace is in effect, none is further out. -/
def Inherits (s : ScopeStack) : Prop :=
  s.owner = none → ∀ scope ∈ s.scopes, scope.owner = none

theorem Inherits.enter {s : ScopeStack} (inherits : s.Inherits) (n : SyntaxNode) :
    (s.enter n).2.Inherits := by
  have push {scope : Scope} (outer : scope.owner = none → s.owner = none) :
      Inherits ⟨scope :: s.scopes⟩ := by
    intro none' scope' mem
    have none' : scope.owner = none := none'
    rcases List.mem_cons.mp mem with rfl | mem
    · exact none'
    · exact inherits (outer none') scope' mem
  unfold ScopeStack.enter
  split
  · exact push fun none' => (Option.or_eq_none_iff.mp none').2
  · exact push fun none' => (Option.or_eq_none_iff.mp none').2
  · exact push id
  · exact inherits

theorem inherits_enclosing (around : List SyntaxNode) : (enclosing around).Inherits := by
  refine List.foldlRecOn (motive := Inherits) around _ ?_ fun s inherits n _ => inherits.enter n
  intro _ scope mem
  cases mem

end ScopeStack

/-- The innermost of the namespaces in effect is the one that owns what is defined there. -/
theorem ScopeStack.head?_namespaces (around : List SyntaxNode) :
    (enclosing around).namespaces.head? = (enclosing around).owner := by
  have inherits := inherits_enclosing around
  rw [namespaces, head?_withoutRepeats]
  cases owner : (enclosing around).owner with
  | none =>
      have all := inherits owner
      rw [List.head?_eq_none_iff, List.filterMap_eq_nil_iff]
      exact all
  | some ns =>
      obtain ⟨scope, head, ns_eq⟩ := Option.bind_eq_some_iff.mp owner
      obtain ⟨rest, scopes_eq⟩ := List.head?_eq_some_iff.mp head
      rw [scopes_eq, List.filterMap_cons_some ns_eq]
      rfl

/-! ## Names of references -/

namespace Definition

theorem Place.head?_namespaces_below (ancestors : List SyntaxNode) :
    (Place.below ancestors).namespaces.head? = (ScopeStack.enclosing ancestors).owner :=
  ScopeStack.head?_namespaces ancestors

-- The first candidate is the name that the collector gives to a definition in the same place.

theorem head?_constantCandidates (place : Place) (name : String) :
    (constantCandidates place name).head? = some (qualify place.namespaces.head? name) := by
  unfold constantCandidates
  cases anchored : anchored? name with
  | some absolute => simp [qualify, anchored]
  | none =>
      cases place.namespaces with
      | nil => simp [qualify, anchored]
      | cons ns rest => rfl

theorem head?_methodCandidates (place : Place) (name : String) :
    (methodCandidates place name).head? =
      some (qualifyMethod place.namespaces.head? place.singleton name) := by
  rw [methodCandidates]
  cases place.namespaces with
  | nil => rfl
  | cons ns rest => rfl

section Index

variable {index : WorkspaceIndex} {es : List SymbolEntry} {place : Place} {name : String}

theorem firstDefined_eq {names : List String} (head : names.head? = some name)
    (defined : index.resolve name ≠ []) : firstDefined index names = index.resolve name := by
  obtain ⟨rest, rfl⟩ := List.head?_eq_some_iff.mp head
  rw [firstDefined]
  split
  · rename_i none'
    exact absurd none' defined
  · rfl

theorem resolveConstant_eq (holds : index.Holds es)
    (defined : index.resolve (qualify place.namespaces.head? name) ≠ []) :
    resolveConstant index place name = some (qualify place.namespaces.head? name) := by
  rw [resolveConstant, firstDefined_eq (head?_constantCandidates place name) defined]
  obtain ⟨e, rest, found⟩ := List.exists_cons_of_ne_nil defined
  have mem : e ∈ WorkspaceIndex.named es (qualify place.namespaces.head? name) := by
    rw [← holds.resolve_eq, found]
    exact List.mem_cons_self
  rw [found, List.head?_cons, Option.map_some, WorkspaceIndex.name_of_mem_named mem]

theorem entries_concat (ancestors : List SyntaxNode) (r : SyntaxNode) :
    entries index (ancestors ++ [r]) = handle index (.below ancestors) [] (.enter r.kind) r := by
  simp only [entries, List.getLast?_concat, List.dropLast_concat, Listener.runForTarget_eq]
  split
  · rfl
  · rename_i unwanted
    unfold handle
    split
    · simp_all [listener]
    · simp_all [listener]
    · rfl

theorem entries_constRead (holds : index.Holds es) {ancestors : List SyntaxNode} {r : SyntaxNode}
    (reads : r.kind = .constRead) (named : r.name = some name)
    (defined : index.resolve (qualify (ScopeStack.enclosing ancestors).owner name) ≠ []) :
    entries index (ancestors ++ [r]) =
      index.resolve (qualify (ScopeStack.enclosing ancestors).owner name) := by
  rw [← Place.head?_namespaces_below] at defined ⊢
  rw [entries_concat, reads, handle, named, Option.bind_some, resolveConstant_eq holds defined]
  rfl

theorem entries_call {ancestors : List SyntaxNode} {r : SyntaxNode} (calls : r.kind = .call)
    (named : r.name = some name) (onSelf : ∀ receiver ∈ receiver? r, receiver.kind = .selfRef)
    (defined : index.resolve (qualifyMethod (ScopeStack.enclosing ancestors).owner
      (Place.below ancestors).singleton name) ≠ []) :
    entries index (ancestors ++ [r]) = index.resolve (qualifyMethod
      (ScopeStack.enclosing ancestors).owner (Place.below ancestors).singleton name) := by
  rw [← Place.head?_namespaces_below] at defined ⊢
  rw [entries_concat, calls, handle, List.nil_append, resolveCall, named,
    ← firstDefined_eq (head?_methodCandidates _ name) defined]
  dsimp only
  split
  · rfl
  · rename_i receiver found
    rw [onSelf receiver found]

end Index

/-- A reference below some ancestors names a definition below others as it is written there. -/
inductive RefersTo (ancestors : List SyntaxNode) (r : SyntaxNode) (around : List SyntaxNode)
    (d : SyntaxNode) : Prop
  | constant {name : String} (defines : d.kind = .moduleDef ∨ d.kind = .classDef ∨ d.kind = .constWrite)
      (reads : r.kind = .constRead) (named : d.name = some name) (named' : r.name = some name)
  | method {name : String} (defines : d.kind = .methodDef) (calls : r.kind = .call)
      (named : d.name = some name) (named' : r.name = some name)
      (onSelf : ∀ receiver ∈ receiver? r, receiver.kind = .selfRef)
      (singleton : (Place.below ancestors).singleton =
        ((ScopeStack.enclosing around).singleton || d.definesOnSelf))

/-- What a definition that is referred to is collected as, and what the reference asks for. -/
theorem RefersTo.entries_eq {index : WorkspaceIndex} {es : List SymbolEntry} (holds : index.Holds es)
    {ancestors around : List SyntaxNode} {r d : SyntaxNode} (refers : RefersTo ancestors r around d)
    (same : (ScopeStack.enclosing around).owner = (ScopeStack.enclosing ancestors).owner) (path : String) :
    ∃ e, d.symbolIn? path (ScopeStack.enclosing around).innermost = some e ∧
      e.path = path ∧ e.range = d.range ∧
      (e ∈ es → entries index (ancestors ++ [r]) = index.resolve e.name) := by
  rw [ScopeStack.owner_eq] at same
  have defined {e : SymbolEntry} (mem : e ∈ es) : index.resolve e.name ≠ [] := by
    rw [holds.resolve_eq]
    exact WorkspaceIndex.named_ne_nil.mpr ⟨e, mem, rfl⟩
  cases refers with
  | constant defines reads named named' =>
      obtain ⟨kind, collected⟩ := d.symbolIn?_constant path (ScopeStack.enclosing around).innermost
        defines named
      rw [same] at collected
      exact ⟨_, collected, rfl, rfl, fun mem => entries_constRead holds reads named' (defined mem)⟩
  | method defines calls named named' onSelf singleton =>
      have collected := d.symbolIn?_method path (ScopeStack.enclosing around).innermost defines named
      rw [same, ← ScopeStack.singleton_eq, ← singleton] at collected
      exact ⟨_, collected, rfl, rfl, fun mem => entries_call calls named' onSelf (defined mem)⟩

theorem answer_of_entry {w : Workspace} {path : String} {s : Source} {p : Position}
    {e : SymbolEntry} {location : Location}
    (loaded : w.source? path = some s) (found : e ∈ entries w.index (s.root.pathAt (w.toOffset s p)))
    (located : w.locate? e.path e.range = some location) :
    ∃ locations, answer w path p = some locations ∧ location ∈ locations := by
  have mem : location ∈ (entries w.index (s.root.pathAt (w.toOffset s p))).filterMap
      fun entry => w.locate? entry.path entry.range :=
    List.mem_filterMap.mpr ⟨e, found, located⟩
  refine ⟨_, ?_, mem⟩
  rw [answer, loaded]
  exact if_neg (mt List.isEmpty_iff.mp (List.ne_nil_of_mem mem))

/-- A reference that stands in the same namespace as a definition, and names it as it is written there,
is answered with the location of the definition. -/
theorem location_of_definition {w : Workspace} (reachable : w.Reachable) {path path' : String}
    {s s' : Source} {p : Position} {ancestors around : List SyntaxNode} {r d : SyntaxNode}
    (loaded : w.source? path = some s)
    (reached : s.root.pathAt (w.toOffset s p) = ancestors ++ [r])
    (loaded' : w.source? path' = some s') (stands : s'.root.Leads around d)
    (same : (ScopeStack.enclosing around).owner = (ScopeStack.enclosing ancestors).owner)
    (refers : RefersTo ancestors r around d) :
    ∃ locations, w.query (.definition path p) = .definition (some locations) ∧
      ⟨.ofPath path', w.toPositionRange s' d.range⟩ ∈ locations := by
  obtain ⟨sources, reflects⟩ := reachable.exists_reflects
  -- `e` is what the walk of the other file records for `d`, and what the reference asks the index for.
  obtain ⟨e, defines, path_eq, range_eq, entries_eq⟩ :=
    refers.entries_eq reflects.index.holds same s'.path
  obtain ⟨live, rfl⟩ := (reflects.source? path' s').mp loaded'
  have collected : e ∈ sources.flatMap Source.symbols := by
    rw [ScopeStack.innermost_enclosing] at defines
    refine List.mem_flatMap.mpr ⟨s', live, ?_⟩
    rw [Source.symbols, definitions_eq]
    exact stands.mem_symbolsIn defines
  have found : e ∈ entries w.index (s.root.pathAt (w.toOffset s p)) := by
    rw [reached, entries_eq collected, reflects.index.holds.resolve_eq]
    exact List.mem_filter.mpr ⟨collected, decide_eq_true rfl⟩
  have located : w.locate? e.path e.range = some ⟨.ofPath s'.path, w.toPositionRange s' d.range⟩ := by
    rw [path_eq, range_eq, Workspace.locate?, loaded']
    rfl
  obtain ⟨locations, answered, mem⟩ := answer_of_entry loaded found located
  exact ⟨locations, congrArg Response.definition answered, mem⟩

/-- A call on `self` in a singleton class finds the singleton method that another file defines. -/
theorem location_of_singleton_method :
    let call : SyntaxNode := ⟨.call, some "open", ⟨0, 0⟩, none, []⟩
    let inside : SyntaxNode := ⟨.singletonClass, none, ⟨0, 0⟩, none, [some call]⟩
    let app := Source.new "app.rb" "" ⟨.moduleDef, some "Shop", ⟨0, 0⟩, none, [none, some inside]⟩
    let method : SyntaxNode :=
      ⟨.methodDef, some "open", ⟨0, 0⟩, none, [some (.leaf .selfRef ⟨0, 0⟩)]⟩
    let lib := Source.new "lib.rb" "" ⟨.classDef, some "::Shop", ⟨0, 0⟩, none, [some method]⟩
    let w := (Workspace.empty .default).changes [.index lib, .index app]
    ∃ locations, w.query (.definition "app.rb" ⟨0, 0⟩) = .definition (some locations) ∧
      ⟨.ofPath "lib.rb", w.toPositionRange lib ⟨0, 0⟩⟩ ∈ locations := by
  intro call inside app method lib w
  have reflects := Workspace.reflects_changes .default [.index lib, .index app]
  have loaded : w.source? "app.rb" = some app :=
    (reflects.source? _ _).mpr ⟨by simp [WorkspaceIndex.live], rfl⟩
  have loaded' : w.source? "lib.rb" = some lib :=
    (reflects.source? _ _).mpr ⟨by simp [WorkspaceIndex.live, lib, app, Source.new], rfl⟩
  have stands : lib.root.Leads [lib.root] method := .step (List.mem_cons_self) (.here method)
  have reached : app.root.pathAt (w.toOffset app ⟨0, 0⟩) = [app.root, inside] ++ [call] := rfl
  have refers : RefersTo [app.root, inside] call [lib.root] method := by
    refine .method rfl rfl rfl rfl (fun receiver found => ?_) rfl
    cases found
  exact location_of_definition ⟨.default, _, rfl⟩ loaded reached loaded' stands rfl refers

end Definition

end CodeAtlas
