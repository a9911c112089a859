import CodeAtlas.Arena
import CodeAtlas.Text.Bytes

/-!
# The graph of a prefix index

A prefix index keeps its nodes in an arena, where they refer to one another by handle. The labels of
the edges from the root to a node spell the key of the value stored there. Inserting a key that leaves
an edge in its middle divides the edge there. Removing a key releases the nodes that have become
useless, and leaves a node with one child as it is.

An arbitrary graph may hold stale handles, or lead in a circle. An operation therefore comes to a
`Run`, which can stop at a fault or never end. On the graphs of prefix indexes no run does either.
-/

namespace CodeAtlas.PrefixIndex

structure Node (α : Type) where
  /-- The part of a key between the parent and this node. -/
  label : List Char
  value : Option α
  /-- The nodes below, in the order in which their edges came into being. -/
  children : List Handle
  /-- The node above, which the root lacks. -/
  parent : Option Handle

def Node.isDead {α : Type} (node : Node α) : Bool :=
  node.value.isNone && node.children.isEmpty

/-- Nodes, the one at which keys begin, and the number of values stored. -/
structure Graph (α : Type) where
  nodes : Arena (Node α)
  root : Handle
  size : Nat

/-! ## Runs -/

/-- What an operation cannot do. -/
inductive Fault where
  | staleHandle
  /-- Fill a slot that the arena does not have. -/
  | missingSlot
  /-- Pass to a child that the node does not have. -/
  | missingChild
  /-- Cut a text within a character, or behind its end. -/
  | insideCharacter
  | negativeSize
deriving DecidableEq

/-- What an operation comes to: an answer, a fault, or nothing if it never ends. -/
abbrev Run := ExceptT Fault Option

def Run.Ends {β : Type} (r : Run β) : Prop :=
  ∃ b, r = pure b

/-- The answer of a run that comes to one. -/
def Run.answer {β : Type} : (r : Run β) → r.Ends → β
  | some (.ok b), _ => b
  | some (.error _), h => False.elim (by obtain ⟨b, hb⟩ := h; cases hb)
  | none, h => False.elim (by obtain ⟨b, hb⟩ := h; cases hb)

theorem Run.eq_pure_answer {β : Type} {r : Run β} (e : r.Ends) : r = pure (r.answer e) := by
  obtain ⟨b, rfl⟩ := e
  rfl

theorem Run.answer_eq {β : Type} {r : Run β} {b : β} (h : r = pure b) (e : r.Ends) :
    r.answer e = b := by
  subst h
  rfl

theorem Run.pure_inj {β : Type} {b c : β} : (pure b : Run β) = pure c ↔ b = c := by
  constructor
  · intro same
    cases same
    rfl
  · rintro rfl
    rfl

/-- Two runs one after the other come to an answer if both do. -/
theorem Run.bind_eq_pure {β γ : Type} {r : Run β} {f : β → Run γ} {c : γ} :
    r >>= f = pure c ↔ ∃ b, r = pure b ∧ f b = pure c := by
  constructor
  · intro run
    match r with
    | some (.ok b) => exact ⟨b, rfl, run⟩
    | some (.error _) => cases run
    | none => cases run
  · rintro ⟨b, rfl, run⟩
    exact run

/-- The parts of a text before and behind a byte offset. -/
def cut (n : Nat) (cs : List Char) : Run (List Char × List Char) :=
  if Text.IsBoundary n cs then pure (Text.takeBytes n cs, Text.dropBytes n cs)
  else throw .insideCharacter

theorem cut_append (xs ys : List Char) : cut (Text.byteLength xs) (xs ++ ys) = pure (xs, ys) := by
  simp [cut, Text.isBoundary_append]

/-! ## Notes of cuts

What note is taken of a cut is up to the caller, and makes no difference to the answer. -/

/-- A text that an insertion cuts, and the offset at which it does. -/
inductive Cut where
  | key (rest : List Char) (offset : Nat)
  | label (text : List Char) (offset : Nat)

/-- The parts of the text before and behind the offset. -/
def Cut.parts : Cut → Run (List Char × List Char)
  | key text n => cut n text
  | label text n => cut n text

/-- A run that keeps notes of its cuts. -/
abbrev Noting (σ : Type) := StateT σ Run

section Noting

variable {σ : Type} {β γ : Type} {note : Cut → σ → σ} {s s' : σ}

/-- Takes note of a cut and makes it. -/
def Cut.make (note : Cut → σ → σ) (c : Cut) : Noting σ (List Char × List Char) := do
  modify (note c)
  c.parts

/-- Takes note of cuts, one after the other. -/
def noteAll (note : Cut → σ → σ) (cuts : List Cut) : Noting σ Unit :=
  cuts.forM fun c => modify (note c)

theorem Cut.make_eq {c : Cut} {parts : List Char × List Char} (run : c.parts = pure parts) :
    c.make note = do
      modify (note c)
      return parts := by
  rw [make, run, liftM_pure]

theorem run_noteAll (cuts : List Cut) (b : β) :
    (do noteAll note cuts; return b : Noting σ β).run s = pure (b, cuts.foldl (fun s c => note c s) s) := by
  induction cuts generalizing s with
  | nil => rfl
  | cons c cuts ih => exact ih

/-- Two runs one after the other come to an answer if both do. -/
theorem Noting.bind_eq_pure {r : Noting σ β} {f : β → Noting σ γ} {c : γ} :
    (r >>= f).run s = pure (c, s') ↔ ∃ b s₁, r.run s = pure (b, s₁) ∧ (f b).run s₁ = pure (c, s') := by
  rw [StateT.run_bind, Run.bind_eq_pure, Prod.exists]

theorem Noting.liftM_eq_pure {r : Run β} {b : β} :
    (liftM r : Noting σ β).run s = pure (b, s') ↔ r = pure b ∧ s = s' := by
  have run : (liftM r : Noting σ β).run s = r >>= fun b => pure (b, s) := StateT.run_monadLift r s
  rw [run, Run.bind_eq_pure]
  constructor
  · rintro ⟨_, rfl, same⟩
    cases Run.pure_inj.mp same
    exact ⟨rfl, rfl⟩
  · rintro ⟨rfl, rfl⟩
    exact ⟨b, rfl, rfl⟩

end Noting

namespace Graph

variable {α : Type}

def node (g : Graph α) (h : Handle) : Run (Node α) :=
  match g.nodes.get? h with
  | some node => pure node
  | none => throw .staleHandle

def update (g : Graph α) (h : Handle) (f : Node α → Node α) : Run (Graph α) := do
  let _ ← g.node h
  return { g with nodes := g.nodes.modify h f }

theorem node_eq {g : Graph α} {h : Handle} {n : Node α} (live : g.nodes.get? h = some n) :
    g.node h = pure n := by
  simp [node, live]

theorem update_eq {g : Graph α} {h : Handle} {n : Node α} (live : g.nodes.get? h = some n)
    (f : Node α → Node α) : g.update h f = pure { g with nodes := g.nodes.modify h f } := by
  simp [update, node_eq live]

/-- Puts a node into a slot of the arena. -/
def alloc (g : Graph α) (n : Node α) : Run (Handle × Graph α) :=
  let (h, nodes) := g.nodes.alloc n
  if h.index < nodes.slots.size then pure (h, { g with nodes }) else throw .missingSlot

theorem alloc_eq {g : Graph α} (arena : g.nodes.WellFormed) {n : Node α} {k : Handle}
    {nodes' : Arena (Node α)} (added : g.nodes.alloc n = (k, nodes')) :
    g.alloc n = pure (k, { g with nodes := nodes' }) := by
  obtain ⟨-, -, get'⟩ := arena.of_alloc added
  have there : nodes'.get? k = some n := by rw [get', if_pos rfl]
  have lt := (Array.getElem?_eq_some_iff.mp (Arena.get?_eq_some.mp there)).1
  rw [alloc, added]
  exact if_pos lt

def empty : Graph α :=
  let (root, nodes) := Arena.empty.alloc ⟨[], none, [], none⟩
  ⟨nodes, root, 0⟩

/-! ## Insertion -/

/-- An edge that begins as a key does. -/
structure Overlap where
  position : Nat
  child : Handle
  /-- The number of bytes that its label has in common with the key. -/
  shared : Nat

/-- An edge with its place, if it has more in common with `rest` than the best edge so far. -/
def betterOverlap (g : Graph α) (rest : List Char) (best : Option Overlap) (edge : Handle × Nat) :
    Run (Option Overlap) := do
  let shared := Text.commonPrefixLength (← g.node edge.1).label rest
  if 0 < shared ∧ best.all fun o : Overlap => o.shared < shared then
    return some ⟨edge.2, edge.1, shared⟩
  else
    return best

/-- The edge below a node that has the longest common beginning with `rest`, the first such edge if
there are several. -/
def longestOverlap (g : Graph α) (here : Handle) (rest : List Char) : Run (Option Overlap) := do
  (← g.node here).children.zipIdx.foldlM (g.betterOverlap rest) none

/-- Stores a value at a node, and answers the value it replaces. -/
def store (g : Graph α) (here : Handle) (v : α) : Run (Option α × Graph α) := do
  let old := (← g.node here).value
  let g ← g.update here fun node => { node with value := some v }
  return (old, if old.isNone then { g with size := g.size + 1 } else g)

/-- Puts a new node with a value below a node, behind its other children. -/
def addLeaf (g : Graph α) (here : Handle) (rest : List Char) (v : α) : Run (Graph α) := do
  let (leaf, g) ← g.alloc ⟨rest, some v, [], some here⟩
  let g ← g.update here fun node => { node with children := node.children ++ [leaf] }
  return { g with size := g.size + 1 }

section Noting

variable {σ : Type} (note : Cut → σ → σ)

/-- Divides the edge to a child behind the first `shared` bytes of its label. The new node takes the
place of the child, which moves below it. -/
def split (g : Graph α) (here : Handle) (position shared : Nat) : Noting σ (Handle × Graph α) := do
  match (← g.node here).children[position]? with
  | none => throw .missingChild
  | some child =>
      let (front, back) ← Cut.make note (.label (← g.node child).label shared)
      let (mid, g) ← g.alloc ⟨front, none, [child], some here⟩
      let g ← g.update here fun node => { node with children := node.children.set position mid }
      let g ← g.update child fun node => { node with label := back, parent := some mid }
      return (mid, g)

/-- Divides the edge that a key leaves, and puts a value where the key goes on with `below`: at the new
node, or in a leaf of it. -/
def branchOff (g : Graph α) (here : Handle) (o : Overlap) (below : List Char) (v : α) :
    Noting σ (Graph α) := do
  let (mid, g) ← g.split note here o.position o.shared
  if below = [] then
    return (← g.store mid v).2
  else
    g.addLeaf mid below v

/-- Inserts a value for the key that `rest` continues from a node. -/
def insertBelow (g : Graph α) (here : Handle) (rest : List Char) (v : α) :
    Noting σ (Option α × Graph α) := do
  if rest = [] then
    g.store here v
  else
    match ← g.longestOverlap here rest with
    | none => return (none, ← g.addLeaf here rest v)
    | some o =>
        let below := (← Cut.make note (.key rest o.shared)).2
        if o.shared = Text.byteLength (← g.node o.child).label then
          g |>.insertBelow o.child below v
        else
          return (none, ← g.branchOff note here o below v)
partial_fixpoint

/-- Inserts a value, and answers the value the key had before. The empty key takes no value. -/
def insertNoting (g : Graph α) (key : String) (v : α) : Noting σ (Option α × Graph α) :=
  if key = "" then pure (none, g) else g.insertBelow note g.root key.toList v

end Noting

/-- An insertion of which no notes are kept. -/
def insert (g : Graph α) (key : String) (v : α) : Run (Option α × Graph α) :=
  (g.insertNoting (fun _ _ => ()) key v).run' ()

theorem insert_of_noteAll {g : Graph α} {key : String} {v : α} {cuts : List Cut} {done : Option α × Graph α}
    (run : g.insertNoting (fun _ _ => ()) key v = do
      noteAll (fun _ _ => ()) cuts
      return done) : g.insert key v = pure done := by
  rw [insert, StateT.run'_eq, run, run_noteAll]
  rfl

/-! ## Look-up -/

/-- The first child of a node with a label that `taken` accepts, that label, and the number of bytes
that `taken` makes of it. -/
def edge (g : Graph α) (here : Handle) (taken : List Char → Option Nat) :
    Run (Option (Handle × List Char × Nat)) := do
  (← g.node here).children.findSomeM? fun child => do
    let label := (← g.node child).label
    return (taken label).map fun n => (child, label, n)

/-- The node that `rest` leads to from a node, if it ends at one. -/
def findBelow (g : Graph α) (here : Handle) (rest : List Char) : Run (Option Handle) := do
  if rest = [] then
    return some here
  else
    let taken := fun label : List Char =>
      if label.isPrefixOf rest then some (Text.byteLength label) else none
    match ← g.edge here taken with
    | none => return none
    | some (child, _, n) => g |>.findBelow child (← cut n rest).2
partial_fixpoint

def find (g : Graph α) (key : String) : Run (Option Handle) :=
  g.findBelow g.root key.toList

def get? (g : Graph α) (key : String) : Run (Option α) := do
  match ← g.find key with
  | none => return none
  | some h => return (← g.node h).value

/-- The value of a key, and the graph with another value in its place. -/
def getMut? (g : Graph α) (key : String) : Run (Option (α × (α → Graph α))) := do
  match ← g.find key with
  | none => return none
  | some h =>
      return (← g.node h).value.map fun v =>
        (v, fun w => { g with nodes := g.nodes.modify h fun node => { node with value := some w } })

/-! ## Removal -/

/-- Releases a node and the nodes above it as long as they are dead. The root stays. -/
def prune (g : Graph α) (h : Handle) : Run (Graph α) := do
  if h = g.root then
    return g
  else
    let node ← g.node h
    if node.isDead then
      match node.parent with
      | none => return g
      | some parent =>
          let g ← g.update parent fun above =>
            { above with children := above.children.filter (· ≠ h) }
          { g with nodes := (g.nodes.release h).2 } |>.prune parent
    else
      return g
partial_fixpoint

def countDown (g : Graph α) : Run (Graph α) :=
  match g.size with
  | 0 => throw .negativeSize
  | n + 1 => pure { g with size := n }

/-- Removes a key, and answers the value it had. -/
def remove (g : Graph α) (key : String) : Run (Option α × Graph α) := do
  match ← g.find key with
  | none => return (none, g)
  | some h =>
      match (← g.node h).value with
      | none => return (none, g)
      | some v =>
          let g ← g.update h fun node => { node with value := none }
          return (some v, ← (← g.countDown).prune h)

/-! ## Listing

The keys that begin with a given text lie below one node, or below the edge in whose middle the text
ends. They are listed node before children, and children in order. The nodes that are still to be
visited wait on a stack. -/

/-- The node below which all keys that continue with `rest` lie, and the key that leads to it. The
text `rest` may end within the last edge. -/
def reachBelow (g : Graph α) (here : Handle) (key rest : List Char) :
    Run (Option (Handle × List Char)) := do
  if rest = [] then
    return some (here, key)
  else
    let taken := fun label : List Char =>
      if label.isPrefixOf rest then some (Text.byteLength label)
      else if rest.isPrefixOf label then some (Text.byteLength rest)
      else none
    match ← g.edge here taken with
    | none => return none
    | some (child, label, n) => g |>.reachBelow child (key ++ label) (← cut n rest).2
partial_fixpoint

def reach (g : Graph α) (start : String) : Run (Option (Handle × List Char)) :=
  g.reachBelow g.root [] start.toList

/-- Adds to `found` what lies at and below the nodes of a stack, on which each node stands with its
key. -/
def collectEntries (g : Graph α) (stack : List (Handle × List Char)) (found : Array (String × α)) :
    Run (Array (String × α)) := do
  match stack with
  | [] => return found
  | (h, key) :: stack =>
      let node ← g.node h
      let below ← node.children.mapM fun child => do return (child, key ++ (← g.node child).label)
      let found :=
        match node.value with
        | none => found
        | some v => found.push (String.ofList key, v)
      g |>.collectEntries (below ++ stack) found
partial_fixpoint

/-- The keys that begin with `start`, and their values. -/
def entries (g : Graph α) (start : String) : Run (List (String × α)) := do
  match ← g.reach start with
  | none => return []
  | some top => return (← g.collectEntries [top] #[]).toList

/-- The first value at and below the nodes of a stack, and the nodes that remain to be visited. -/
def next (g : Graph α) (stack : List Handle) : Run (Option (α × List Handle)) := do
  match stack with
  | [] => return none
  | h :: stack =>
      let node ← g.node h
      match node.value with
      | some v => return some (v, node.children ++ stack)
      | none => g |>.next (node.children ++ stack)
partial_fixpoint

def collectValues (g : Graph α) (stack : List Handle) (found : Array α) : Run (Array α) := do
  match ← g.next stack with
  | none => return found
  | some (v, stack) => g |>.collectValues stack (found.push v)
partial_fixpoint

/-- The nodes with which a walk through the values of the keys that begin with `start` begins. -/
def startAt (g : Graph α) (start : String) : Run (List Handle) := do
  return ((← g.reach start).map Prod.fst).toList

end Graph

end CodeAtlas.PrefixIndex
