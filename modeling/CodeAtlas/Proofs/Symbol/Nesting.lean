import CodeAtlas.Proofs.Walk
import CodeAtlas.Symbol.Collector

/-!
# Nested definitions

The definitions of a file can be found by a recursion over its tree that takes the scope around a node
down to it. The walk that keeps a stack of scopes finds the same ones in the same order, since what it
opens at a node it closes when it leaves the node, and nothing else.
-/

namespace CodeAtlas

/-! ## The recursion -/

/-- The scope of what stands below a node in a scope. -/
def Scope.inside (scope : Scope) (n : SyntaxNode) : Scope :=
  match n.kind, n.name with
  | .moduleDef, some name | .classDef, some name => ⟨some (qualify scope.owner name), false⟩
  | .moduleDef, none | .classDef, none => ⟨scope.owner, false⟩
  | .singletonClass, _ => ⟨scope.owner, true⟩
  | _, _ => scope

namespace SyntaxNode

/-- The symbol that a node in a scope defines by itself. -/
def symbolIn? (path : String) (scope : Scope) (n : SyntaxNode) : Option SymbolEntry :=
  let symbol (name : String) (kind : SymbolKind) : SymbolEntry :=
    ⟨name, kind, path, n.range, n.nameRange, scope.owner⟩
  match n.kind, n.name with
  | .moduleDef, some name => some (symbol (qualify scope.owner name) .moduleKind)
  | .classDef, some name => some (symbol (qualify scope.owner name) .classKind)
  | .methodDef, some name =>
      let singleton := scope.singleton || n.definesOnSelf
      some (symbol (qualifyMethod scope.owner singleton name) .methodKind)
  | .constWrite, some name => some (symbol (qualify scope.owner name) .constantKind)
  | _, _ => none

mutual

/-- The symbols defined at a node in a scope and below it. -/
def symbolsIn (path : String) (scope : Scope) : SyntaxNode → List SymbolEntry
  | ⟨kind, name, range, ownNameRange, slots⟩ =>
      let n : SyntaxNode := ⟨kind, name, range, ownNameRange, slots⟩
      (n.symbolIn? path scope).toList ++ symbolsInSlots path (scope.inside n) slots

def symbolsInSlots (path : String) (scope : Scope) : List (Option SyntaxNode) → List SymbolEntry
  | [] => []
  | none :: rest => symbolsInSlots path scope rest
  | some child :: rest => child.symbolsIn path scope ++ symbolsInSlots path scope rest

end

end SyntaxNode

/-! ## Stacks of scopes -/

namespace ScopeStack

def innermost (s : ScopeStack) : Scope :=
  s.scopes.headD ⟨none, false⟩

theorem owner_eq (s : ScopeStack) : s.owner = s.innermost.owner := by
  cases s with
  | mk scopes => cases scopes <;> rfl

theorem singleton_eq (s : ScopeStack) : s.singleton = s.innermost.singleton := by
  cases s with
  | mk scopes => cases scopes <;> rfl

theorem innermost_enter (s : ScopeStack) (n : SyntaxNode) :
    (s.enter n).2.innermost = s.innermost.inside n := by
  rw [enter, s.owner_eq, Scope.inside]
  cases kind : n.kind <;> cases n.name <;> rfl

theorem length_enter (s : ScopeStack) (n : SyntaxNode) :
    s.scopes.length ≤ (s.enter n).2.scopes.length := by
  unfold enter
  split
  · exact Nat.le_succ _
  · exact Nat.le_succ _
  · exact Nat.le_succ _
  · exact Nat.le_refl _

end ScopeStack

/-! ## Calls of one listener -/

namespace Listener

variable {σ : Type} (l : Listener σ)

/-- The calls that some visits lead to if there is one listener. -/
def told (vs : List SyntaxNode.Visit) : List Dispatcher.Call :=
  (vs.filter (·.event ∈ l.subscriptions)).map fun v => ⟨0, v.event, v.node⟩

theorem told_append (vs vs' : List SyntaxNode.Visit) : l.told (vs ++ vs') = l.told vs ++ l.told vs' := by
  simp [told]

theorem calls_eq_told (root : SyntaxNode) : l.dispatcher.calls root = l.told root.visits := by
  rw [Dispatcher.calls_eq, l.waiting_dispatcher, Dispatcher.fanOut, told]
  induction root.visits with
  | nil => rfl
  | cons v vs ih =>
      by_cases wanted : v.event ∈ l.subscriptions
      · simp [wanted, ih]
      · simp [wanted, ih]

theorem run_eq_foldl_told (s : σ) (root : SyntaxNode) :
    l.run s root = (l.told root.visits).foldl (fun s call => l.handle s call.event call.node) s := by
  rw [run_eq, after, told, List.foldl_map, List.foldl_filter]
  simp

/-- What one of the calls is told is told in the state that the calls before it have led to. -/
theorem mem_trace_of_told {s : σ} {vs : List SyntaxNode.Visit} {before rest : List Dispatcher.Call}
    {call : Dispatcher.Call} (told_eq : l.told vs = before ++ call :: rest) :
    ∃ v, (before.foldl (fun s call => l.handle s call.event call.node) s, v) ∈ l.trace s vs ∧
      v.event = call.event ∧ v.node = call.node := by
  induction vs generalizing s before with
  | nil => simp [told] at told_eq
  | cons v vs ih =>
      by_cases wanted : v.event ∈ l.subscriptions
      · have first : l.told (v :: vs) = ⟨0, v.event, v.node⟩ :: l.told vs := by simp [told, wanted]
        rw [first] at told_eq
        rw [trace, if_pos wanted]
        cases before with
        | nil =>
            obtain ⟨rfl, -⟩ := List.cons.inj told_eq
            exact ⟨v, List.mem_cons_self, rfl, rfl⟩
        | cons other before =>
            obtain ⟨rfl, rest_eq⟩ := List.cons.inj told_eq
            obtain ⟨v', mem, same⟩ := ih (s := l.handle s v.event v.node) rest_eq
            exact ⟨v', List.mem_cons_of_mem _ mem, same⟩
      · have skipped : l.told (v :: vs) = l.told vs := by simp [told, wanted]
        rw [skipped] at told_eq
        rw [trace, if_neg wanted]
        exact ih told_eq

end Listener

/-! ## The walk -/

namespace Collector

open Dispatcher (Call)
open SyntaxNode (visitsInSlots)

variable {path : String}

/-- What some calls make of a collector. -/
def handleAll (path : String) (c : Collector) (calls : List Call) : Collector :=
  calls.foldl (fun c call => c.handle path call.event call.node) c

theorem handleAll_append (c : Collector) (calls calls' : List Call) :
    c.handleAll path (calls ++ calls') = (c.handleAll path calls).handleAll path calls' :=
  List.foldl_append

/-- Whenever a call closes a scope, more than `depth` scopes are open. -/
def StaysAbove (path : String) (depth : Nat) : Collector → List Call → Prop
  | _, [] => True
  | c, call :: rest =>
      (∀ kind, call.event = .exit kind → depth < c.scopes.scopes.length) ∧
        StaysAbove path depth (c.handle path call.event call.node) rest

section StaysAbove

variable {depth : Nat} {c : Collector} {calls calls' : List Call}

theorem StaysAbove.mono {depth' : Nat} (le : depth' ≤ depth) (above : StaysAbove path depth c calls) :
    StaysAbove path depth' c calls := by
  induction calls generalizing c with
  | nil => exact trivial
  | cons call rest ih => exact ⟨fun kind e => Nat.lt_of_le_of_lt le (above.1 kind e), ih above.2⟩

theorem staysAbove_append : StaysAbove path depth c (calls ++ calls') ↔
    StaysAbove path depth c calls ∧ StaysAbove path depth (c.handleAll path calls) calls' := by
  induction calls generalizing c with
  | nil => simp [StaysAbove, handleAll]
  | cons call rest ih => simp [StaysAbove, ih, handleAll, and_assoc]

end StaysAbove

theorem handle_enter (c : Collector) (n : SyntaxNode) :
    c.handle path (.enter n.kind) n =
      ⟨(c.scopes.enter n).2, (n.symbolIn? path c.scopes.innermost).toList ++ c.found⟩ := by
  unfold handle ScopeStack.enter SyntaxNode.symbolIn?
  rw [c.scopes.owner_eq, c.scopes.singleton_eq]
  cases kind : n.kind <;> cases n.name <;> simp [record, kind, SyntaxKind.symbolKind?]

theorem handle_unwanted (c : Collector) {kind : SyntaxKind} (n : SyntaxNode)
    (unwanted : .enter kind ∉ (listener path).subscriptions) : c.handle path (.enter kind) n = c := by
  unfold handle
  split <;> simp_all [listener]

theorem handleAll_entering (c : Collector) (place : List Nat) (n : SyntaxNode) :
    c.handleAll path ((listener path).told [⟨place, .anyNode, n⟩, ⟨place, .enter n.kind, n⟩]) =
      ⟨(c.scopes.enter n).2, (n.symbolIn? path c.scopes.innermost).toList ++ c.found⟩ := by
  rw [← handle_enter]
  have any : Event.anyNode ∉ (listener path).subscriptions := by simp [listener]
  by_cases wanted : Event.enter n.kind ∈ (listener path).subscriptions
  · simp [Listener.told, any, wanted, handleAll]
  · simp [Listener.told, any, wanted, handleAll, c.handle_unwanted n wanted]

theorem staysAbove_entering (c : Collector) (place : List Nat) (n : SyntaxNode) (depth : Nat) :
    StaysAbove path depth c
      ((listener path).told [⟨place, .anyNode, n⟩, ⟨place, .enter n.kind, n⟩]) := by
  have any : Event.anyNode ∉ (listener path).subscriptions := by simp [listener]
  by_cases wanted : Event.enter n.kind ∈ (listener path).subscriptions
  · simp [Listener.told, any, wanted, StaysAbove]
  · simp [Listener.told, any, wanted, StaysAbove]

/-- What a node has opened is closed when the node is left. -/
theorem handleAll_leaving (path : String) (s : ScopeStack) (found : List SymbolEntry) (place : List Nat)
    (n : SyntaxNode) :
    let inside : Collector := ⟨(s.enter n).2, found⟩
    let calls := (listener path).told (if n.kind.isScope then [⟨place, .exit n.kind, n⟩] else [])
    inside.handleAll path calls = ⟨s, found⟩ ∧ StaysAbove path s.scopes.length inside calls := by
  unfold ScopeStack.enter
  cases kind : n.kind <;>
    simp [SyntaxKind.isScope, Listener.told, listener, handleAll, handle, ScopeStack.exit, StaysAbove]

/-- Some calls add the symbols `found` and leave the open scopes alone. -/
structure Collects (path : String) (c : Collector) (calls : List Call) (found : List SymbolEntry) :
    Prop where
  result : c.handleAll path calls = ⟨c.scopes, found.reverse ++ c.found⟩
  above : StaysAbove path c.scopes.scopes.length c calls

theorem Collects.append {c : Collector} {calls calls' : List Call} {found found' : List SymbolEntry}
    (first : Collects path c calls found)
    (second : Collects path ⟨c.scopes, found.reverse ++ c.found⟩ calls' found') :
    Collects path c (calls ++ calls') (found ++ found') where
  result := by
    rw [handleAll_append, first.result, second.result]
    simp
  above := staysAbove_append.mpr ⟨first.above, first.result ▸ second.above⟩

theorem Collects.node {c : Collector} {n : SyntaxNode} {calls : List Call} {found : List SymbolEntry}
    (place : List Nat)
    (within : Collects path ⟨(c.scopes.enter n).2, (n.symbolIn? path c.scopes.innermost).toList ++ c.found⟩
      calls found) :
    Collects path c
      ((listener path).told [⟨place, .anyNode, n⟩, ⟨place, .enter n.kind, n⟩] ++ calls ++
        (listener path).told (if n.kind.isScope then [⟨place, .exit n.kind, n⟩] else []))
      ((n.symbolIn? path c.scopes.innermost).toList ++ found) := by
  obtain ⟨left, above⟩ := handleAll_leaving path c.scopes
    (found.reverse ++ ((n.symbolIn? path c.scopes.innermost).toList ++ c.found)) place n
  refine ⟨?_, ?_⟩
  · rw [handleAll_append, handleAll_append, handleAll_entering, within.result, left]
    cases n.symbolIn? path c.scopes.innermost <;> simp
  · rw [staysAbove_append, staysAbove_append, handleAll_append, handleAll_entering, within.result]
    exact ⟨⟨c.staysAbove_entering place n _, within.above.mono (c.scopes.length_enter n)⟩, above⟩

-- By induction on the tree, for any scopes that are open around it.
mutual

theorem collects_visitsAt (place : List Nat) : (n : SyntaxNode) → (c : Collector) →
    Collects path c ((listener path).told (n.visitsAt place)) (n.symbolsIn path c.scopes.innermost)
  | ⟨kind, name, range, ownNameRange, slots⟩, c => by
      have within := collects_visitsInSlots place 0 slots
        ⟨(c.scopes.enter ⟨kind, name, range, ownNameRange, slots⟩).2,
          (SyntaxNode.symbolIn? path c.scopes.innermost ⟨kind, name, range, ownNameRange, slots⟩).toList
            ++ c.found⟩
      rw [ScopeStack.innermost_enter] at within
      have node := within.node place
      rw [← Listener.told_append, ← Listener.told_append] at node
      rw [SyntaxNode.visitsAt, SyntaxNode.symbolsIn]
      exact node

theorem collects_visitsInSlots (place : List Nat) (i : Nat) : (slots : List (Option SyntaxNode)) →
    (c : Collector) → Collects path c ((listener path).told (visitsInSlots place i slots))
      (SyntaxNode.symbolsInSlots path c.scopes.innermost slots)
  | [], c => ⟨rfl, trivial⟩
  | none :: rest, c => by
      rw [visitsInSlots, SyntaxNode.symbolsInSlots]
      exact collects_visitsInSlots place (i + 1) rest c
  | some child :: rest, c => by
      rw [visitsInSlots, SyntaxNode.symbolsInSlots, Listener.told_append]
      exact (collects_visitsAt (place ++ [i]) child c).append (collects_visitsInSlots place (i + 1) rest _)

end

theorem collects_calls (path : String) (root : SyntaxNode) :
    Collects path start ((listener path).dispatcher.calls root) (root.symbolsIn path ⟨none, false⟩) := by
  rw [Listener.calls_eq_told]
  exact collects_visitsAt [] root start

theorem run_start (path : String) (root : SyntaxNode) : (listener path).run start root =
    start.handleAll path ((listener path).dispatcher.calls root) := by
  rw [Listener.run_eq_foldl_told, Listener.calls_eq_told]
  rfl

end Collector

theorem definitions_eq (path : String) (root : SyntaxNode) :
    definitions path root = root.symbolsIn path ⟨none, false⟩ := by
  rw [definitions, Collector.run_start, (Collector.collects_calls path root).result]
  simp [Collector.start]

/-- One walk over the tree of a file finds the definitions that the recursion finds, in the same order. A
scope is closed only while one is open, and at the end none is. -/
theorem definitions_eq_recursion (path : String) (root : SyntaxNode) :
    let listener := Collector.listener path
    let calls := listener.dispatcher.calls root
    definitions path root = root.symbolsIn path ⟨none, false⟩ ∧
      listener.run Collector.start root = Collector.start.handleAll path calls ∧
      (∀ before call rest kind, calls = before ++ call :: rest → call.event = .exit kind →
        (Collector.start.handleAll path before).scopes ≠ .empty) ∧
      (listener.run Collector.start root).scopes = .empty := by
  intro listener calls
  have collects := Collector.collects_calls path root
  refine ⟨definitions_eq path root, Collector.run_start path root, ?_, ?_⟩
  · intro before call rest kind calls_eq closes none'
    -- `calls` is the walk seen as `before`, the call, and the rest, so the bound holds at the call.
    have above := collects.above
    rw [show listener.dispatcher.calls root = before ++ call :: rest from calls_eq,
      Collector.staysAbove_append] at above
    have := above.2.1 kind closes
    rw [none'] at this
    exact Nat.not_lt_zero _ this
  · rw [Collector.run_start, collects.result]
    rfl

end CodeAtlas
