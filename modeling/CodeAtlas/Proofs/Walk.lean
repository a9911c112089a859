import CodeAtlas.Proofs.Syntax.Sites
import CodeAtlas.Walk
import Mathlib.Data.List.GetD
import Mathlib.Data.List.Induction

/-!
# What listeners are told

A walk tells its listeners what the recursion over the tree names, in the same order. Each event goes to
the listeners that have asked for it, once to each, and a node is left behind everything below it.
-/

namespace CodeAtlas

/-! ## Places of visits -/

namespace SyntaxNode

/-- The node behind the slots with some numbers, from a node down. -/
def below? : SyntaxNode → List Nat → Option SyntaxNode
  | n, [] => some n
  | n, i :: way => n.slots[i]?.join.bind fun child => child.below? way

mutual

theorem mem_visitsAt {place : List Nat} {v : Visit} : (n : SyntaxNode) → v ∈ n.visitsAt place →
    ∃ way, v.place = place ++ way ∧ n.below? way = some v.node
  | ⟨kind, name, range, ownNameRange, slots⟩, mem => by
      simp only [visitsAt, List.mem_cons, List.mem_append] at mem
      rcases mem with rfl | rfl | mem | mem
      · exact ⟨[], (List.append_nil place).symm, rfl⟩
      · exact ⟨[], (List.append_nil place).symm, rfl⟩
      · obtain ⟨j, child, way, place_eq, slot, below⟩ := mem_visitsInSlots slots 0 mem
        refine ⟨j :: way, by simpa using place_eq, ?_⟩
        simp [below?, slot, below]
      · split at mem
        · obtain rfl := List.mem_singleton.mp mem
          exact ⟨[], (List.append_nil place).symm, rfl⟩
        · cases mem

theorem mem_visitsInSlots {place : List Nat} {v : Visit} : (slots : List (Option SyntaxNode)) →
    (i : Nat) → v ∈ visitsInSlots place i slots → ∃ j child way,
      v.place = place ++ (i + j) :: way ∧ slots[j]? = some (some child) ∧
        child.below? way = some v.node
  | [], i, mem => by
      rw [visitsInSlots] at mem
      cases mem
  | none :: rest, i, mem => by
      rw [visitsInSlots] at mem
      obtain ⟨j, child, way, place_eq, slot, below⟩ := mem_visitsInSlots rest (i + 1) mem
      exact ⟨j + 1, child, way, by rw [place_eq, Nat.add_assoc, Nat.add_comm 1], slot, below⟩
  | some child :: rest, i, mem => by
      rw [visitsInSlots, List.mem_append] at mem
      rcases mem with mem | mem
      · obtain ⟨way, place_eq, below⟩ := mem_visitsAt child mem
        exact ⟨0, child, way, by simpa using place_eq, rfl, below⟩
      · obtain ⟨j, other, way, place_eq, slot, below⟩ := mem_visitsInSlots rest (i + 1) mem
        exact ⟨j + 1, other, way, by rw [place_eq, Nat.add_assoc, Nat.add_comm 1], slot, below⟩

end

/-- Nothing happens at a node or below it once it has been left. -/
def LeavesLast (vs : List Visit) : Prop :=
  vs.Pairwise fun v v' => ∀ kind, v.event = .exit kind → ¬v.place <+: v'.place

mutual

theorem leavesLast_visitsAt (place : List Nat) : (n : SyntaxNode) → LeavesLast (n.visitsAt place)
  | ⟨kind, name, range, ownNameRange, slots⟩ => by
      have inside := leavesLast_visitsInSlots place slots 0
      have last : ∀ v ∈ visitsInSlots place 0 slots, ¬v.place <+: place := by
        intro v mem back
        obtain ⟨j, child, way, place_eq, -, -⟩ := mem_visitsInSlots slots 0 mem
        have := back.length_le
        rw [place_eq, List.length_append, List.length_cons] at this
        omega
      rw [LeavesLast, visitsAt, List.pairwise_cons, List.pairwise_cons, List.pairwise_append]
      refine ⟨fun v' _ kind leaves => ?_, fun v' _ kind leaves => ?_, inside, ?_,
        fun v mem v' mem' kind' _ => ?_⟩
      · cases leaves
      · cases leaves
      · split
        · exact List.pairwise_singleton _ _
        · exact List.Pairwise.nil
      · split at mem'
        · obtain rfl := List.mem_singleton.mp mem'
          exact last v mem
        · cases mem'

theorem leavesLast_visitsInSlots (place : List Nat) : (slots : List (Option SyntaxNode)) → (i : Nat) →
    LeavesLast (visitsInSlots place i slots)
  | [], i => by
      rw [visitsInSlots]
      exact List.Pairwise.nil
  | none :: rest, i => by
      rw [visitsInSlots]
      exact leavesLast_visitsInSlots place rest (i + 1)
  | some child :: rest, i => by
      rw [LeavesLast, visitsInSlots, List.pairwise_append]
      refine ⟨leavesLast_visitsAt (place ++ [i]) child, leavesLast_visitsInSlots place rest (i + 1),
        fun v mem v' mem' kind _ back => ?_⟩
      -- The slots of the two nodes have different numbers.
      obtain ⟨way, place_eq, -⟩ := mem_visitsAt child mem
      obtain ⟨j, other, way', place_eq', -, -⟩ := mem_visitsInSlots rest (i + 1) mem'
      rw [place_eq, place_eq', List.append_assoc, List.prefix_append_right_inj] at back
      have := (List.cons_prefix_cons.mp back).1
      omega

end

end SyntaxNode

/-! ## Who is told -/

namespace Dispatcher

open SyntaxNode (Visit)

/-- The listeners that wait for an event. -/
def waiting (d : Dispatcher) (event : Event) : List Nat :=
  d.table[event]?.getD []

/-- The numbers of the registrations that list an event. -/
def asking (registrations : List (List Event)) (event : Event) : List Nat :=
  (List.range registrations.length).filter fun i => (registrations.getD i []).contains event

/-- The calls that some visits lead to, if `wanted` are the listeners of an event. -/
def fanOut (wanted : Event → List Nat) (vs : List Visit) : List Call :=
  vs.flatMap fun v => (wanted v.event).map fun listener => ⟨listener, v.event, v.node⟩

theorem foldl_subscribe (listener : Nat) (events : List Event) (seen : Std.HashSet Event)
    (table : Std.HashMap Event (List Nat)) (event : Event) :
    (events.foldl (subscribe listener) (seen, table)).2[event]?.getD [] =
      table[event]?.getD [] ++ if event ∉ seen ∧ event ∈ events then [listener] else [] := by
  induction events generalizing seen table with
  | nil => simp
  | cons e events ih =>
      rw [List.foldl_cons, subscribe]
      by_cases known : seen.contains e
      · rw [if_pos known, ih]
        have : event ∉ seen ∧ event ∈ e :: events ↔ event ∉ seen ∧ event ∈ events := by
          refine and_congr_right fun new => ?_
          have : event ≠ e := fun same => new (same ▸ known)
          simp [this]
        simp only [this]
      · rw [if_neg known, ih]
        have new : e ∉ seen := known
        by_cases same : event = e
        · subst same
          simp [new]
        · simp [Std.HashMap.getElem?_alter, same, Ne.symm same]

theorem waiting_register (d : Dispatcher) (events : List Event) (event : Event) :
    (d.register events).waiting event =
      d.waiting event ++ if event ∈ events then [d.listeners] else [] := by
  rw [waiting, register, foldl_subscribe]
  simp [waiting]

theorem asking_append (registrations : List (List Event)) (events : List Event) (event : Event) :
    asking (registrations ++ [events]) event =
      asking registrations event ++ if event ∈ events then [registrations.length] else [] := by
  have before : ∀ i ∈ List.range registrations.length,
      ((registrations ++ [events]).getD i []).contains event =
        (registrations.getD i []).contains event := by
    intro i mem
    rw [List.getD_append _ _ _ _ (List.mem_range.mp mem)]
  rw [asking, List.length_append, List.length_singleton, List.range_succ, List.filter_append,
    List.filter_congr before, ← asking]
  by_cases listed : event ∈ events
  · simp [listed]
  · simp [listed]

/-- Those wait for an event who have listed it, in the order of registration. -/
theorem waiting_registered (registrations : List (List Event)) (event : Event) :
    (registrations.foldl register empty).listeners = registrations.length ∧
      (registrations.foldl register empty).waiting event = asking registrations event := by
  induction registrations using List.reverseRecOn with
  | nil => simp [empty, waiting, asking]
  | append_singleton registrations events ih =>
      obtain ⟨count, same⟩ := ih
      rw [List.foldl_append, List.foldl_cons, List.foldl_nil, waiting_register, asking_append, count,
        same]
      simp [register, count]

theorem pairwise_asking (registrations : List (List Event)) (event : Event) :
    (asking registrations event).Pairwise (· < ·) :=
  List.pairwise_lt_range.filter _

section Visit

variable {σ : Type} (d : Dispatcher) (tell : σ → Call → σ) (s : σ)

theorem emit_eq (event : Event) (node : SyntaxNode) :
    d.emit tell s event node =
      (d.waiting event).foldl (fun s listener => tell s ⟨listener, event, node⟩) s := by
  rw [emit, waiting]
  cases d.table[event]? with
  | none => rfl
  | some waiting => rfl

theorem tellAll_emit (vs : List Visit) :
    SyntaxNode.tellAll (d.emit tell) s vs = (fanOut d.waiting vs).foldl tell s := by
  simp only [SyntaxNode.tellAll, fanOut, List.foldl_flatMap, List.foldl_map, emit_eq]

theorem visit_eq (root : SyntaxNode) :
    d.visit tell s root = (fanOut d.waiting root.visits).foldl tell s := by
  rw [visit, SyntaxNode.walk_eq, tellAll_emit]

end Visit

theorem calls_eq (d : Dispatcher) (root : SyntaxNode) :
    d.calls root = fanOut d.waiting root.visits := by
  rw [calls, visit_eq]
  simp

/-- A walk over a tree ends, and tells the listeners what the recursion over the tree names: each visit
goes to those who have asked for its event, in the order of registration. A node is left behind
everything that happens below it. -/
theorem visit_eq_recursion (registrations : List (List Event)) (root : SyntaxNode) :
    let d := registrations.foldl register empty
    let told := fanOut (asking registrations) root.visits
    (∀ (σ : Type) (tell : σ → Call → σ) (s : σ),
      SyntaxNode.Handler.walkFrom (d.emit tell) s [.enter root] = some (told.foldl tell s) ∧
        d.visit tell s root = told.foldl tell s) ∧
      d.calls root = told ∧
      (∀ event, (asking registrations event).Pairwise (· < ·)) ∧
      (∀ v ∈ root.visits, root.below? v.place = some v.node) ∧
      root.visits.Pairwise fun v v' => ∀ kind, v.event = .exit kind → ¬v.place <+: v'.place := by
  intro d told
  have same : d.waiting = asking registrations :=
    funext fun event => (waiting_registered registrations event).2
  refine ⟨fun σ tell s => ⟨?_, ?_⟩, ?_, pairwise_asking registrations, fun v mem => ?_, ?_⟩
  · rw [SyntaxNode.Handler.walkFrom_eq, tellAll_emit, same]
  · rw [visit_eq, same]
  · rw [calls_eq, same]
  · obtain ⟨way, place_eq, below⟩ := SyntaxNode.mem_visitsAt root mem
    rwa [place_eq]
  · exact SyntaxNode.leavesLast_visitsAt [] root

end Dispatcher

/-! ## One listener -/

namespace Listener

variable {σ : Type}

theorem waiting_dispatcher (l : Listener σ) :
    l.dispatcher.waiting = fun event => if event ∈ l.subscriptions then [0] else [] := by
  funext event
  rw [dispatcher, Dispatcher.waiting_register]
  simp [Dispatcher.waiting, Dispatcher.empty]

/-- What the events of some visits make of a state. -/
def after (l : Listener σ) (s : σ) (vs : List SyntaxNode.Visit) : σ :=
  vs.foldl (fun s v => if v.event ∈ l.subscriptions then l.handle s v.event v.node else s) s

/-- The visits that a listener is told of, each with the state in which it is told. -/
def trace (l : Listener σ) (s : σ) : List SyntaxNode.Visit → List (σ × SyntaxNode.Visit)
  | [] => []
  | v :: vs =>
      if v.event ∈ l.subscriptions then (s, v) :: l.trace (l.handle s v.event v.node) vs
      else l.trace s vs

theorem run_eq (l : Listener σ) (s : σ) (root : SyntaxNode) : l.run s root = l.after s root.visits := by
  rw [run, Dispatcher.visit_eq, l.waiting_dispatcher, Dispatcher.fanOut, List.foldl_flatMap, after]
  congr 1
  funext s v
  split
  · rfl
  · rfl

theorem runForTarget_eq (l : Listener σ) (s : σ) (node : SyntaxNode) :
    l.runForTarget s node =
      if .enter node.kind ∈ l.subscriptions then l.handle s (.enter node.kind) node else s := by
  rw [runForTarget, Dispatcher.emitForTarget, Dispatcher.emit_eq, l.waiting_dispatcher]
  dsimp only
  split
  · rfl
  · rfl

/-- What a listener keeps at each event holds when the walk is over. -/
theorem run_induction (l : Listener σ) {P : σ → Prop} {s : σ} (start : P s)
    (step : ∀ s event n, P s → P (l.handle s event n)) (root : SyntaxNode) : P (l.run s root) := by
  rw [run_eq, after]
  refine List.foldlRecOn _ _ start fun s holds v _ => ?_
  split
  · exact step s v.event v.node holds
  · exact holds

/-- Two listeners that are told of the same events keep their states related, if each event does. -/
theorem run_related {σ' : Type} (l : Listener σ) (l' : Listener σ') (R : σ → σ' → Prop)
    (same : l.subscriptions = l'.subscriptions)
    (step : ∀ s s' event n, R s s' → R (l.handle s event n) (l'.handle s' event n)) {s : σ} {s' : σ'}
    (start : R s s') (root : SyntaxNode) : R (l.run s root) (l'.run s' root) := by
  rw [run_eq, run_eq, after, after]
  induction root.visits generalizing s s' with
  | nil => exact start
  | cons v vs ih =>
      rw [List.foldl_cons, List.foldl_cons]
      refine ih ?_
      rw [same]
      split
      · exact step s s' v.event v.node start
      · exact start

section Trace

variable (l : Listener σ) (s : σ) (v : SyntaxNode.Visit) (vs vs' : List SyntaxNode.Visit)

theorem after_append : l.after s (vs ++ vs') = l.after (l.after s vs) vs' :=
  List.foldl_append

theorem after_cons : l.after s (v :: vs) = l.after (l.after s [v]) vs :=
  l.after_append s [v] vs

theorem after_wanted {v : SyntaxNode.Visit} (wanted : v.event ∈ l.subscriptions) :
    l.after s [v] = l.handle s v.event v.node :=
  if_pos wanted

theorem after_unwanted {v : SyntaxNode.Visit} (unwanted : v.event ∉ l.subscriptions) :
    l.after s [v] = s :=
  if_neg unwanted

theorem trace_append : l.trace s (vs ++ vs') = l.trace s vs ++ l.trace (l.after s vs) vs' := by
  induction vs generalizing s with
  | nil => rfl
  | cons v vs ih =>
      rw [List.cons_append, trace, trace, after_cons]
      split
      · rename_i wanted
        rw [ih, l.after_wanted s wanted, List.cons_append]
      · rename_i unwanted
        rw [ih, l.after_unwanted s unwanted]

/-- An output that grows by at most one item at each event consists of what its events have added. -/
theorem output_after {α : Type} (output : σ → List α) (add : σ → Event → SyntaxNode → Option α)
    (step : ∀ s event n, output (l.handle s event n) = (add s event n).toList ++ output s) :
    output (l.after s vs) =
      ((l.trace s vs).filterMap fun told => add told.1 told.2.event told.2.node).reverse ++ output s := by
  induction vs generalizing s with
  | nil => rfl
  | cons v vs ih =>
      rw [after_cons, ih, trace]
      split
      · rename_i wanted
        rw [l.after_wanted s wanted, step, List.filterMap_cons]
        cases add s v.event v.node with
        | none => rfl
        | some x => simp
      · rename_i unwanted
        rw [l.after_unwanted s unwanted]

end Trace

/-! ### Listeners that leave no node -/

section Reach

variable {l : Listener σ}

/-- What reaching a node makes of a state. -/
def reach (l : Listener σ) (s : σ) (n : SyntaxNode) : σ :=
  let s := if .anyNode ∈ l.subscriptions then l.handle s .anyNode n else s
  if .enter n.kind ∈ l.subscriptions then l.handle s (.enter n.kind) n else s

-- By induction on the tree. Of the visits at a node only those of reaching it change the state.
mutual

theorem after_visitsAt (stays : ∀ kind, .exit kind ∉ l.subscriptions) (place : List Nat)
    (around : List SyntaxNode) : (n : SyntaxNode) → (s : σ) → l.after s (n.visitsAt place) =
      (n.sitesAt place around).foldl (fun s t => l.reach s t.node) s
  | ⟨kind, name, range, ownNameRange, slots⟩, s => by
      let n : SyntaxNode := ⟨kind, name, range, ownNameRange, slots⟩
      have left (s : σ) : l.after s (if kind.isScope then [⟨place, .exit kind, n⟩] else []) = s := by
        split
        · exact l.after_unwanted s (stays kind)
        · rfl
      have reached (s : σ) (vs : List SyntaxNode.Visit) :
          l.after s (⟨place, .anyNode, n⟩ :: ⟨place, .enter kind, n⟩ :: vs) = l.after (l.reach s n) vs :=
        rfl
      rw [SyntaxNode.visitsAt, SyntaxNode.sitesAt, reached, after_append, left, List.foldl_cons,
        after_visitsInSlots stays]

theorem after_visitsInSlots (stays : ∀ kind, .exit kind ∉ l.subscriptions) (place : List Nat)
    (around : List SyntaxNode) (i : Nat) : (slots : List (Option SyntaxNode)) → (s : σ) →
      l.after s (SyntaxNode.visitsInSlots place i slots) =
        (SyntaxNode.sitesInSlots place around i slots).foldl (fun s t => l.reach s t.node) s
  | [], s => rfl
  | none :: rest, s => by
      rw [SyntaxNode.visitsInSlots, SyntaxNode.sitesInSlots, after_visitsInSlots stays]
  | some child :: rest, s => by
      rw [SyntaxNode.visitsInSlots, SyntaxNode.sitesInSlots, after_append, List.foldl_append,
        after_visitsAt stays _ around child, after_visitsInSlots stays]

end

/-- A listener that does not ask when nodes are left reaches each site once. -/
theorem run_eq_foldl_reach (stays : ∀ kind, .exit kind ∉ l.subscriptions) (s : σ) (root : SyntaxNode) :
    l.run s root = root.sites.foldl (fun s t => l.reach s t.node) s := by
  rw [run_eq, SyntaxNode.visits, after_visitsAt stays [] [], SyntaxNode.sites]

end Reach

end Listener

end CodeAtlas
