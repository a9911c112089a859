import CodeAtlas.Proofs.Checked.Position
import CodeAtlas.Proofs.SharedWalk

/-!
# Walks with checked steps

A dispatcher knows its listeners by number, and telling one whose number it has not given fails. So can
what a listener does. The loop goes on behind a failure, which stays what the walk comes to.
-/

namespace CodeAtlas.Checked

open Dispatcher (Call)

/-- What an operation comes to: an answer, a fault, or nothing if it never ends. -/
abbrev Run := ExceptT Fault Option

/-- An operation that is known to end. -/
def Run.ended {α : Type} (result : Except Fault α) : Run α :=
  some result

theorem Run.ended_ok {α : Type} (x : α) : Run.ended (.ok x) = pure x := rfl

variable {σ : Type}

def emit (d : Dispatcher) (tell : σ → Call → Except Fault σ) (s : σ) (event : Event)
    (n : SyntaxNode) : Except Fault σ :=
  match d.table[event]? with
  | none => .ok s
  | some waiting =>
      waiting.foldlM (fun s listener =>
        if listener < d.listeners then tell s ⟨listener, event, n⟩ else .error .missingListener) s

def visit (d : Dispatcher) (tell : σ → Call → Except Fault σ) (s : σ) (root : SyntaxNode) : Run σ :=
  SyntaxNode.Handler.walkFrom (fun s event n => s.bind fun s => emit d tell s event n) (.ok s)
    [.enter root]

/-- The walk for one listener. -/
def run (subscriptions : List Event) (handle : σ → Event → SyntaxNode → Except Fault σ) (s : σ)
    (root : SyntaxNode) : Run σ :=
  visit (Dispatcher.empty.register subscriptions) (fun s call => handle s call.event call.node) s root

def runForTarget (subscriptions : List Event) (handle : σ → Event → SyntaxNode → Except Fault σ)
    (s : σ) (n : SyntaxNode) : Except Fault σ :=
  emit (Dispatcher.empty.register subscriptions) (fun s call => handle s call.event call.node) s
    (.enter n.kind) n

/-- What a listener does of which no step can fail. -/
def steady (l : Listener σ) (s : σ) (event : Event) (n : SyntaxNode) : Except Fault σ :=
  .ok (l.handle s event n)

/-! ## No walk fails unless a listener does -/

theorem lt_of_mem_waiting {registrations : List (List Event)} {event : Event} {i : Nat}
    (mem : i ∈ (registrations.foldl Dispatcher.register .empty).waiting event) :
    i < (registrations.foldl Dispatcher.register .empty).listeners := by
  obtain ⟨count, waiting⟩ := Dispatcher.waiting_registered registrations event
  rw [waiting, Dispatcher.asking, List.mem_filter, List.mem_range] at mem
  rw [count]
  exact mem.1

section Registered

variable (registrations : List (List Event)) {tell : σ → Call → Except Fault σ} {tell' : σ → Call → σ}
  (same : ∀ s call, tell s call = .ok (tell' s call)) (s : σ)
include same

theorem emit_eq (event : Event) (n : SyntaxNode) :
    emit (registrations.foldl Dispatcher.register .empty) tell s event n =
      .ok ((registrations.foldl Dispatcher.register .empty).emit tell' s event n) := by
  generalize known : registrations.foldl Dispatcher.register .empty = d
  have given {i : Nat} (mem : i ∈ d.waiting event) : i < d.listeners := by
    subst known
    exact lt_of_mem_waiting mem
  rw [emit, Dispatcher.emit]
  rw [Dispatcher.waiting] at given
  cases asked : d.table[event]? with
  | none => rfl
  | some waiting =>
      rw [asked, Option.getD_some] at given
      clear asked
      dsimp only
      induction waiting generalizing s with
      | nil => rfl
      | cons i waiting ih =>
          rw [List.foldlM_cons, if_pos (given List.mem_cons_self), same]
          exact ih _ fun mem => given (List.mem_cons_of_mem _ mem)

theorem visit_eq (root : SyntaxNode) :
    visit (registrations.foldl Dispatcher.register .empty) tell s root =
      pure ((registrations.foldl Dispatcher.register .empty).visit tell' s root) := by
  rw [visit, SyntaxNode.Handler.walkFrom_eq, Dispatcher.visit, SyntaxNode.walk_eq]
  refine congrArg some ?_
  generalize root.visits = vs
  induction vs generalizing s with
  | nil => rfl
  | cons v vs ih =>
      rw [SyntaxNode.tellAll, List.foldl_cons, Except.bind, emit_eq registrations same]
      exact ih _

end Registered

theorem run_eq {l : Listener σ} {handle : σ → Event → SyntaxNode → Except Fault σ}
    (same : ∀ s event n, handle s event n = .ok (l.handle s event n)) (s : σ) (root : SyntaxNode) :
    run l.subscriptions handle s root = pure (l.run s root) :=
  visit_eq [l.subscriptions] (fun s call => same s call.event call.node) s root

theorem run_steady (l : Listener σ) (s : σ) (root : SyntaxNode) :
    run l.subscriptions (steady l) s root = pure (l.run s root) :=
  run_eq (fun _ _ _ => rfl) s root

theorem runForTarget_steady (l : Listener σ) (s : σ) (n : SyntaxNode) :
    runForTarget l.subscriptions (steady l) s n = .ok (l.runForTarget s n) :=
  emit_eq [l.subscriptions] (fun _ _ => rfl) s (.enter n.kind) n

end CodeAtlas.Checked
