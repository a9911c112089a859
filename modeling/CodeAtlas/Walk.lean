import Std.Data.HashMap
import Std.Data.HashSet
import CodeAtlas.Syntax.Node

/-!
# Walking a tree for several listeners

One depth-first pass over a tree serves any number of listeners, each of which has declared the events
it wants. At a node, first come those who want every node, then those who want nodes of its kind, then
the children are walked, and last, if the node is a scope, come those who want to know that nodes of
its kind are left. Among those who want one event the order of registration decides.

The pass keeps what is left to do on a stack of its own, so its depth is not bounded by the machine's.
-/

namespace CodeAtlas

inductive Event where
  | anyNode
  | enter (kind : SyntaxKind)
  /-- A scope of a kind is left with everything below it. -/
  | exit (kind : SyntaxKind)
deriving DecidableEq, Hashable

namespace SyntaxNode

/-! ## The loop -/

/-- What an event that happens at a node makes of a state. -/
abbrev Handler (σ : Type) := σ → Event → SyntaxNode → σ

/-- A step that a walk has still to take. -/
inductive Step where
  | enter (n : SyntaxNode)
  | exit (n : SyntaxNode)

/-- Pushes what entering a node leaves to do: its children, the first of them on top, and below them
leaving the node again if it is a scope. -/
def pushInside (n : SyntaxNode) (stack : List Step) : List Step :=
  let stack := if n.kind.isScope then .exit n :: stack else stack
  n.children.reverse.foldl (fun stack child => .enter child :: stack) stack

/-- Takes the steps on the stack until none is left, and lets each event that happens change a state.
There is no answer if that never ends. -/
def Handler.walkFrom {σ : Type} (visit : Handler σ) (s : σ) : List Step → Option σ
  | [] => some s
  | .enter n :: stack =>
      let s := visit s .anyNode n
      let s := visit s (.enter n.kind) n
      visit |>.walkFrom s (n.pushInside stack)
  | .exit n :: stack => visit |>.walkFrom (visit s (.exit n.kind) n) stack
partial_fixpoint

/-! ## The recursion -/

/-- An event that happens at a node of a tree. -/
structure Visit where
  /-- The numbers of the slots on the way from the root down to the node. -/
  place : List Nat
  event : Event
  node : SyntaxNode

mutual

/-- What happens in the walk of a tree that hangs at a place of a larger one. -/
def visitsAt (place : List Nat) : SyntaxNode → List Visit
  | ⟨kind, name, range, ownNameRange, slots⟩ =>
      let n : SyntaxNode := ⟨kind, name, range, ownNameRange, slots⟩
      ⟨place, .anyNode, n⟩ :: ⟨place, .enter kind, n⟩ ::
        (visitsInSlots place 0 slots ++ if kind.isScope then [⟨place, .exit kind, n⟩] else [])

/-- What happens in the slots of a node at a place, the first of which has number `i`. -/
def visitsInSlots (place : List Nat) (i : Nat) : List (Option SyntaxNode) → List Visit
  | [] => []
  | none :: rest => visitsInSlots place (i + 1) rest
  | some child :: rest => visitsAt (place ++ [i]) child ++ visitsInSlots place (i + 1) rest

end

def visits (root : SyntaxNode) : List Visit :=
  root.visitsAt []

theorem pushInside_eq (n : SyntaxNode) (stack : List Step) :
    n.pushInside stack =
      n.children.map .enter ++ if n.kind.isScope then .exit n :: stack else stack := by
  simp [pushInside]

section Walk

variable {σ : Type} (visit : Handler σ)

/-- Lets the events of some visits change a state. -/
def tellAll (s : σ) (vs : List Visit) : σ :=
  vs.foldl (fun s v => visit s v.event v.node) s

theorem Handler.walkFrom_nil (s : σ) : visit.walkFrom s [] = some s := by
  rw [walkFrom]

theorem Handler.walkFrom_exit (s : σ) (n : SyntaxNode) (stack : List Step) :
    visit.walkFrom s (.exit n :: stack) = visit.walkFrom (visit s (.exit n.kind) n) stack := by
  rw [walkFrom]

-- By induction on the tree: what lies above the stack is done before the stack is touched.
mutual

theorem Handler.walkFrom_enter (place : List Nat) : (n : SyntaxNode) → (s : σ) → (stack : List Step) →
    visit.walkFrom s (.enter n :: stack) = visit.walkFrom (tellAll visit s (n.visitsAt place)) stack
  | ⟨kind, name, range, ownNameRange, slots⟩, s, stack => by
      rw [walkFrom, pushInside_eq, children, walkFrom_slots place slots 0]
      cases scope : kind.isScope with
      | true => simp [visitsAt, tellAll, scope, walkFrom_exit]
      | false => simp [visitsAt, tellAll, scope]

theorem Handler.walkFrom_slots (place : List Nat) : (slots : List (Option SyntaxNode)) → (i : Nat) →
    (s : σ) → (stack : List Step) → visit.walkFrom s ((slots.filterMap id).map .enter ++ stack) =
      visit.walkFrom (tellAll visit s (visitsInSlots place i slots)) stack
  | [], i, s, stack => by simp [visitsInSlots, tellAll]
  | none :: rest, i, s, stack => by
      simpa [visitsInSlots] using walkFrom_slots place rest (i + 1) s stack
  | some child :: rest, i, s, stack => by
      have head : (some child :: rest).filterMap id = child :: rest.filterMap id := rfl
      rw [head, List.map_cons, List.cons_append, walkFrom_enter (place ++ [i]) child,
        walkFrom_slots place rest (i + 1), visitsInSlots]
      simp only [tellAll, List.foldl_append]

end

/-- The loop ends, and does what the recursion does. -/
theorem Handler.walkFrom_eq (s : σ) (root : SyntaxNode) :
    visit.walkFrom s [.enter root] = some (tellAll visit s root.visits) := by
  rw [walkFrom_enter visit [] root, walkFrom_nil, visits]

theorem Handler.walkFrom_isSome (s : σ) (root : SyntaxNode) :
    (visit.walkFrom s [.enter root]).isSome := by
  rw [walkFrom_eq]
  rfl

/-- Walks the tree, and lets each event that happens change a state. -/
def walk (s : σ) (root : SyntaxNode) : σ :=
  (visit.walkFrom s [.enter root]).get (visit.walkFrom_isSome s root)

theorem walk_eq (s : σ) (root : SyntaxNode) : walk visit s root = tellAll visit s root.visits := by
  simp [walk, Handler.walkFrom_eq]

end Walk

end SyntaxNode

/-! ## Registration -/

/-- The listeners that wait for events. A listener is known by the number of those registered before
it. -/
structure Dispatcher where
  listeners : Nat
  /-- The listeners that want an event, in the order of registration. -/
  table : Std.HashMap Event (List Nat)

/-- One listener being told of one event. -/
structure Dispatcher.Call where
  listener : Nat
  event : Event
  node : SyntaxNode

namespace Dispatcher

def empty : Dispatcher :=
  ⟨0, ∅⟩

/-- Enters a listener behind the others that want an event, unless it has been entered there already. -/
def subscribe (listener : Nat) (known : Std.HashSet Event × Std.HashMap Event (List Nat))
    (event : Event) : Std.HashSet Event × Std.HashMap Event (List Nat) :=
  let (seen, table) := known
  if seen.contains event then known
  else (seen.insert event, table.alter event fun waiting => some (waiting.getD [] ++ [listener]))

/-- Registers a listener for some events. An event that is listed twice is registered once. -/
def register (d : Dispatcher) (events : List Event) : Dispatcher :=
  ⟨d.listeners + 1, (events.foldl (subscribe d.listeners) (∅, d.table)).2⟩

def isSubscribed (d : Dispatcher) (event : Event) : Bool :=
  d.table.contains event

def emit {σ : Type} (d : Dispatcher) (tell : σ → Call → σ) (s : σ) (event : Event)
    (node : SyntaxNode) : σ :=
  match d.table[event]? with
  | none => s
  | some waiting => waiting.foldl (fun s listener => tell s ⟨listener, event, node⟩) s

def visit {σ : Type} (d : Dispatcher) (tell : σ → Call → σ) (s : σ) (root : SyntaxNode) : σ :=
  root.walk (d.emit tell) s

/-- Tells the listeners that a node is reached, as one of its kind, without a walk. -/
def emitForTarget {σ : Type} (d : Dispatcher) (tell : σ → Call → σ) (s : σ) (node : SyntaxNode) : σ :=
  d.emit tell s (.enter node.kind) node

/-- Everything that listeners are told during a walk, in order. -/
def calls (d : Dispatcher) (root : SyntaxNode) : List Call :=
  (d.visit Array.push #[] root).toList

def callsForTarget (d : Dispatcher) (node : SyntaxNode) : List Call :=
  (d.emitForTarget Array.push #[] node).toList

end Dispatcher

/-! ## Listeners -/

/-- An analysis that is made during a walk. -/
structure Listener (σ : Type) where
  subscriptions : List Event
  handle : SyntaxNode.Handler σ

namespace Listener

variable {σ : Type}

def dispatcher (l : Listener σ) : Dispatcher :=
  Dispatcher.empty.register l.subscriptions

def run (l : Listener σ) (s : σ) (root : SyntaxNode) : σ :=
  l.dispatcher.visit (fun s call => l.handle s call.event call.node) s root

def runForTarget (l : Listener σ) (s : σ) (node : SyntaxNode) : σ :=
  l.dispatcher.emitForTarget (fun s call => l.handle s call.event call.node) s node

end Listener

end CodeAtlas
