import CodeAtlas.Proofs.Walk
import Mathlib.Data.List.Nodup
import Mathlib.Data.List.OfFn
import Mathlib.Logic.Function.Basic

/-!
# Listeners that share a walk

One walk can serve several listeners, whose calls are then mixed at each node. A listener cannot tell: what
it hears, and so what it makes of its own state, is what a walk for it alone gives. It does not matter which
other listeners there are, what they ask for, or who was registered first.
-/

namespace CodeAtlas

namespace Dispatcher

/-! ## What one listener hears -/

/-- What one of the listeners hears during a walk. -/
def heard (d : Dispatcher) (root : SyntaxNode) (listener : Nat) : List (Event × SyntaxNode) :=
  ((d.calls root).filter (·.listener = listener)).map fun call => (call.event, call.node)

theorem mem_asking {registrations : List (List Event)} {event : Event} {i : Nat} :
    i ∈ asking registrations event ↔ event ∈ registrations.getD i [] := by
  rw [asking, List.mem_filter, List.mem_range, List.contains_iff_mem, and_iff_right_iff_imp]
  intro asked
  by_contra unknown
  rw [List.getD_eq_default _ _ (Nat.not_lt.mp unknown)] at asked
  cases asked

/-- Among those who ask for an event a listener is found once, if it has listed the event. -/
theorem filter_asking (registrations : List (List Event)) (event : Event) (i : Nat) :
    (asking registrations event).filter (· = i) =
      if event ∈ registrations.getD i [] then [i] else [] := by
  have nodup : (asking registrations event).Nodup :=
    (pairwise_asking registrations event).imp Nat.ne_of_lt
  rw [List.filter_eq, nodup.count]
  by_cases asked : event ∈ registrations.getD i []
  · rw [if_pos (mem_asking.mpr asked), if_pos asked]
    rfl
  · rw [if_neg (mt mem_asking.mp asked), if_neg asked]
    rfl

theorem filter_fanOut (registrations : List (List Event)) (vs : List SyntaxNode.Visit) (i : Nat) :
    (fanOut (asking registrations) vs).filter (·.listener = i) =
      (vs.filter (·.event ∈ registrations.getD i [])).map fun v => ⟨i, v.event, v.node⟩ := by
  induction vs with
  | nil => rfl
  | cons v vs ih =>
      have here : (((asking registrations v.event).map fun listener => Call.mk listener v.event v.node).filter
          (·.listener = i)) = ((asking registrations v.event).filter (· = i)).map
            fun listener => ⟨listener, v.event, v.node⟩ :=
        List.filter_map
      rw [fanOut, List.flatMap_cons, List.filter_append, here, filter_asking, ← fanOut, ih,
        List.filter_cons]
      by_cases asked : v.event ∈ registrations.getD i []
      · rw [if_pos asked, if_pos (decide_eq_true asked)]
        rfl
      · rw [if_neg asked, if_neg (by simpa using asked)]
        rfl

/-- A listener hears of the visits that it has asked for, whoever else was registered. -/
theorem heard_registered (registrations : List (List Event)) (root : SyntaxNode) (i : Nat) :
    (registrations.foldl register empty).heard root i =
      (root.visits.filter (·.event ∈ registrations.getD i [])).map fun v => (v.event, v.node) := by
  have same : (registrations.foldl register empty).waiting = asking registrations :=
    funext fun event => (waiting_registered registrations event).2
  rw [heard, calls_eq, same, filter_fanOut, List.map_map]
  rfl

end Dispatcher

/-! ## Several analyses -/

namespace Listener

open Dispatcher (Call)

/-- What some calls make of the state of the listener that they are for. -/
def hear {σ : Type} (l : Listener σ) (s : σ) (told : List (Event × SyntaxNode)) : σ :=
  told.foldl (fun s (event, n) => l.handle s event n) s

variable {n : Nat} {σ : Fin n → Type}

/-- The dispatcher with which some listeners are registered, one after the other. -/
def together (ls : ∀ i, Listener (σ i)) : Dispatcher :=
  (List.ofFn fun i => (ls i).subscriptions).foldl Dispatcher.register .empty

/-- A call changes the state of the listener it is for, and no other one. -/
def tell (ls : ∀ i, Listener (σ i)) (s : ∀ i, σ i) (call : Call) : ∀ i, σ i :=
  if known : call.listener < n then
    let i : Fin n := ⟨call.listener, known⟩
    Function.update s i ((ls i).handle (s i) call.event call.node)
  else s

/-- Runs several analyses during one walk, each on a state of its own. -/
def runTogether (ls : ∀ i, Listener (σ i)) (s : ∀ i, σ i) (root : SyntaxNode) : ∀ i, σ i :=
  (together ls).visit (tell ls) s root

theorem heard_alone {σ : Type} (l : Listener σ) (root : SyntaxNode) : l.dispatcher.heard root 0 =
    (root.visits.filter (·.event ∈ l.subscriptions)).map fun v => (v.event, v.node) :=
  Dispatcher.heard_registered [l.subscriptions] root 0

theorem run_eq_hear {σ : Type} (l : Listener σ) (s : σ) (root : SyntaxNode) :
    l.run s root = l.hear s (l.dispatcher.heard root 0) := by
  rw [heard_alone, run_eq, after, hear, List.foldl_map, List.foldl_filter]
  simp only [decide_eq_true_eq]

theorem heard_together (ls : ∀ i, Listener (σ i)) (root : SyntaxNode) (i : Fin n) :
    (together ls).heard root i = (ls i).dispatcher.heard root 0 := by
  rw [together, Dispatcher.heard_registered, heard_alone]
  simp

theorem foldl_tell (ls : ∀ i, Listener (σ i)) (calls : List Call) (s : ∀ i, σ i) (i : Fin n) :
    calls.foldl (tell ls) s i =
      (ls i).hear (s i) ((calls.filter (·.listener = (i : Nat))).map fun call => (call.event, call.node)) := by
  induction calls generalizing s with
  | nil => rfl
  | cons call calls ih =>
      rw [List.foldl_cons, ih, List.filter_cons]
      by_cases own : call.listener = i
      · obtain ⟨listener, event, node⟩ := call
        obtain rfl : listener = i := own
        simp [hear, tell]
      · have other (known : call.listener < n) : i ≠ ⟨call.listener, known⟩ := fun same => own (same ▸ rfl)
        have kept : tell ls s call i = s i := by
          unfold tell
          split
          · exact Function.update_of_ne (other _) _ _
          · rfl
        simp [own, kept]

theorem runTogether_eq (ls : ∀ i, Listener (σ i)) (s : ∀ i, σ i) (root : SyntaxNode) (i : Fin n) :
    runTogether ls s root i = (ls i).run (s i) root := by
  rw [run_eq_hear, ← heard_together, runTogether, Dispatcher.visit_eq, foldl_tell, Dispatcher.heard,
    Dispatcher.calls_eq]

/-- Of several listeners that share a walk each hears what it hears alone, and comes to the result that it
comes to alone. So it does not matter which of them are taken, how often, and in which order. -/
theorem shared_walk (ls : ∀ i, Listener (σ i)) (s : ∀ i, σ i) (root : SyntaxNode) :
    (∀ i : Fin n, (together ls).heard root i = (ls i).dispatcher.heard root 0 ∧
      runTogether ls s root i = (ls i).run (s i) root) ∧
    ∀ {m : Nat} (pick : Fin m → Fin n) (k : Fin m),
      (together fun k => ls (pick k)).heard root k = (together ls).heard root (pick k) ∧
        runTogether (fun k => ls (pick k)) (fun k => s (pick k)) root k =
          runTogether ls s root (pick k) := by
  refine ⟨fun i => ⟨heard_together ls root i, runTogether_eq ls s root i⟩, fun pick k => ⟨?_, ?_⟩⟩
  · rw [heard_together, heard_together]
  · rw [runTogether_eq, runTogether_eq]

end Listener

end CodeAtlas
