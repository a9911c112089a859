import CodeAtlas.Proofs.Request.Outline
import CodeAtlas.Proofs.Syntax.Sites
import CodeAtlas.Request

/-!
# Outlines are forests

The forest of a tree is told by the ancestors of each node: a module, class or method with a name holds
what is defined inside it, a constant stands before what is defined below it, and any other node passes on
what its children contribute. A walk with a stack of frames answers with this forest. What it opens at a
node it closes when the node is left, so that no frame is missing and none stays open.
-/

namespace CodeAtlas

/-- Whether nodes of the kind have a body that a method can be defined in. -/
def SyntaxKind.hasBody : SyntaxKind → Bool
  | .moduleDef | .classDef | .singletonClass | .methodDef => true
  | _ => false

/-! ## The forest of a tree -/

namespace SyntaxNode

/-- Whether the nearest body around a place is that of a singleton class. -/
def inSingletonBody (around : List SyntaxNode) : Bool :=
  (nearest? SyntaxKind.hasBody around).any (·.kind == .singletonClass)

/-- The name under which a method below some ancestors is listed. -/
def methodTitle (n : SyntaxNode) (around : List SyntaxNode) (name : String) : String :=
  if inSingletonBody around || n.definesOnSelf then "self." ++ name else name

/-- What a node below some ancestors contributes to an outline, if `inside` is what its children
contribute. -/
def contribution (place : ByteRange → PositionRange) (around : List SyntaxNode) (inside : List OutlineItem)
    (n : SyntaxNode) : List OutlineItem :=
  let item (title : String) (kind : SymbolKind) (children : List OutlineItem) : OutlineItem :=
    ⟨title, kind, place n.range, place n.nameRange, children⟩
  match n.kind, n.name with
  | .moduleDef, some name => [item name .moduleKind inside]
  | .classDef, some name => [item name .classKind inside]
  | .methodDef, some name => [item (n.methodTitle around name) .methodKind inside]
  | .constWrite, some name => item name .constantKind [] :: inside
  | _, _ => inside

mutual

/-- The outline of a node below some ancestors. -/
def forestBelow (place : ByteRange → PositionRange) (around : List SyntaxNode) :
    SyntaxNode → List OutlineItem
  | ⟨kind, name, range, ownNameRange, slots⟩ =>
      let n : SyntaxNode := ⟨kind, name, range, ownNameRange, slots⟩
      n.contribution place around (forestInSlots place (around ++ [n]) slots)

def forestInSlots (place : ByteRange → PositionRange) (around : List SyntaxNode) :
    List (Option SyntaxNode) → List OutlineItem
  | [] => []
  | none :: rest => forestInSlots place around rest
  | some child :: rest => child.forestBelow place around ++ forestInSlots place around rest

end

def forest (place : ByteRange → PositionRange) (root : SyntaxNode) : List OutlineItem :=
  root.forestBelow place []

theorem inSingletonBody_concat (around : List SyntaxNode) (n : SyntaxNode) :
    inSingletonBody (around ++ [n]) = n.insideSingleton (inSingletonBody around) := by
  rw [inSingletonBody, nearest?_concat, insideSingleton]
  cases kind : n.kind <;> simp [SyntaxKind.hasBody, inSingletonBody, kind]

theorem listedWith_eq (place : ByteRange → PositionRange) (around : List SyntaxNode)
    (inside : List OutlineItem) (n : SyntaxNode) :
    n.listedWith place (inSingletonBody around) inside = n.contribution place around inside := by
  rw [listedWith, contribution, titleIn?]
  cases kind : n.kind with
  | moduleDef | classDef | constWrite =>
      cases n.name with
      | none => rfl
      | some name => simp [SyntaxKind.symbolKind?]
  | methodDef =>
      cases n.name with
      | none => rfl
      | some name =>
          cases onClass : inSingletonBody around || n.definesOnSelf with
          | true => simp [SyntaxKind.symbolKind?, methodTitle, onClass]
          | false => simp [SyntaxKind.symbolKind?, methodTitle, onClass]
  | _ => rfl

-- The flag that the recursion takes down a tree is what the ancestors tell.
mutual

theorem outlineIn_eq (place : ByteRange → PositionRange) : (n : SyntaxNode) → (around : List SyntaxNode) →
    n.outlineIn place (inSingletonBody around) = n.forestBelow place around
  | ⟨kind, name, range, ownNameRange, slots⟩, around => by
      rw [outlineIn, forestBelow, ← inSingletonBody_concat, outlineInSlots_eq place slots, listedWith_eq]

theorem outlineInSlots_eq (place : ByteRange → PositionRange) : (slots : List (Option SyntaxNode)) →
    (around : List SyntaxNode) →
    outlineInSlots place (inSingletonBody around) slots = forestInSlots place around slots
  | [], around => rfl
  | none :: rest, around => by
      rw [outlineInSlots, forestInSlots]
      exact outlineInSlots_eq place rest around
  | some child :: rest, around => by
      rw [outlineInSlots, forestInSlots, outlineIn_eq place child, outlineInSlots_eq place rest]

end

end SyntaxNode

namespace Outline

open SyntaxNode (Visit visitsInSlots)

variable {place : ByteRange → PositionRange}

theorem items_eq_forest (place : ByteRange → PositionRange) (root : SyntaxNode) :
    items place root = root.forest place :=
  (items_eq place root).trans (root.outlineIn_eq place [])

/-! ## Frames -/

theorem length_attach? (item : OutlineItem) {frames frames' : List Frame}
    (attached : attach? item frames = some frames') : frames'.length = frames.length := by
  induction frames generalizing frames' with
  | nil => cases attached
  | cons frame rest ih =>
      cases frame with
      | item name kind range nameRange children =>
          cases attached
          rfl
      | singleton | anonymous =>
          obtain ⟨rest', attached', rfl⟩ := Option.map_eq_some_iff.mp attached
          exact congrArg (· + 1) (ih attached')

theorem Draft.length_attach (d : Draft) (item : OutlineItem) :
    (d.attach item).frames.length = d.frames.length := by
  rw [attach]
  split
  · rename_i frames attached
    exact length_attach? item attached
  · rfl

theorem Draft.length_attachAll (d : Draft) (items : List OutlineItem) :
    (d.attachAll items).frames.length = d.frames.length := by
  induction items generalizing d with
  | nil => rfl
  | cons item items ih => exact (ih (d.attach item)).trans (d.length_attach item)

/-- A node that the outline is told of when it is left has opened a frame. -/
theorem Draft.length_entered (d : Draft) (n : SyntaxNode)
    (wanted : .exit n.kind ∈ (listener place).subscriptions) :
    (d.entered place n).frames.length = d.frames.length + 1 := by
  unfold entered
  cases kind : n.kind with
  | singletonClass => rfl
  | moduleDef | classDef | methodDef =>
      dsimp only
      split
      · rfl
      · rfl
  | _ => simp [listener, kind] at wanted

theorem Draft.length_le_entered (d : Draft) (n : SyntaxNode) :
    d.frames.length ≤ (d.entered place n).frames.length := by
  unfold entered
  cases n.kind with
  | singletonClass => exact Nat.le_succ _
  | constWrite => exact (d.length_attachAll _).ge
  | moduleDef | classDef | methodDef =>
      dsimp only
      split
      · exact Nat.le_succ _
      · exact Nat.le_succ _
  | _ => exact Nat.le_refl _

/-- Whenever a frame is closed in a walk, more than `depth` frames are open. -/
def StaysOpen (depth : Nat) (told : List (Draft × Visit)) : Prop :=
  ∀ t ∈ told, ∀ kind, t.2.event = .exit kind → depth < t.1.frames.length

section StaysOpen

variable {depth : Nat} {told told' : List (Draft × Visit)}

theorem StaysOpen.append (first : StaysOpen depth told) (second : StaysOpen depth told') :
    StaysOpen depth (told ++ told') := by
  intro t mem
  rcases List.mem_append.mp mem with mem | mem
  · exact first t mem
  · exact second t mem

theorem StaysOpen.mono {depth' : Nat} (le : depth' ≤ depth) (above : StaysOpen depth told) :
    StaysOpen depth' told :=
  fun t mem kind closes => Nat.lt_of_le_of_lt le (above t mem kind closes)

end StaysOpen

theorem staysOpen_entering (d : Draft) (n : SyntaxNode) (way : List Nat) (depth : Nat) :
    StaysOpen depth ((listener place).trace d [⟨way, .anyNode, n⟩, ⟨way, .enter n.kind, n⟩]) := by
  have any : Event.anyNode ∉ (listener place).subscriptions := by simp [listener]
  intro t mem kind closes
  rw [Listener.trace, if_neg any, Listener.trace] at mem
  split at mem
  · obtain rfl := List.mem_singleton.mp mem
    cases closes
  · cases mem

theorem staysOpen_leaving (d : Draft) (n : SyntaxNode) (way : List Nat) (below : List OutlineItem) :
    StaysOpen d.frames.length ((listener place).trace ((d.entered place n).attachAll below)
      (if n.kind.isScope then [⟨way, .exit n.kind, n⟩] else [])) := by
  intro t mem kind closes
  split at mem
  · rw [Listener.trace] at mem
    split at mem
    · rename_i wanted
      obtain rfl := List.mem_singleton.mp mem
      have opened := d.length_entered n wanted
      rw [Draft.length_attachAll, opened]
      exact Nat.lt_succ_self _
    · cases mem
  · cases mem

-- By induction on the tree, for any frames that are open around it.
mutual

theorem staysOpen_visitsAt (way : List Nat) : (n : SyntaxNode) → (d : Draft) →
    StaysOpen d.frames.length ((listener place).trace d (n.visitsAt way))
  | ⟨kind, name, range, ownNameRange, slots⟩, d => by
      let n : SyntaxNode := ⟨kind, name, range, ownNameRange, slots⟩
      have visits_eq : n.visitsAt way = [⟨way, .anyNode, n⟩, ⟨way, .enter n.kind, n⟩] ++
          (visitsInSlots way 0 slots ++ if n.kind.isScope then [⟨way, .exit n.kind, n⟩] else []) := by
        rw [SyntaxNode.visitsAt]
        rfl
      have inside := staysOpen_visitsInSlots way 0 slots (d.entered place n)
      rw [visits_eq, Listener.trace_append, Listener.trace_append, after_entering, after_visitsInSlots]
      refine (staysOpen_entering d n way _).append (.append ?_ (staysOpen_leaving d n way _))
      exact inside.mono (d.length_le_entered n)

theorem staysOpen_visitsInSlots (way : List Nat) (i : Nat) : (slots : List (Option SyntaxNode)) →
    (d : Draft) → StaysOpen d.frames.length ((listener place).trace d (visitsInSlots way i slots))
  | [], d => by
      intro t mem
      cases mem
  | none :: rest, d => by
      rw [visitsInSlots]
      exact staysOpen_visitsInSlots way (i + 1) rest d
  | some child :: rest, d => by
      have later := staysOpen_visitsInSlots way (i + 1) rest
        (d.attachAll (child.outlineIn place d.inSingleton))
      rw [Draft.length_attachAll] at later
      rw [visitsInSlots, Listener.trace_append, after_visitsAt]
      exact (staysOpen_visitsAt (way ++ [i]) child d).append later

end

/-- What some calls make of a draft. -/
def handleAll (place : ByteRange → PositionRange) (d : Draft) (calls : List Dispatcher.Call) : Draft :=
  calls.foldl (fun d call => handle place d call.event call.node) d

/-- Whenever a frame is closed in a walk, one is open. -/
theorem frames_ne_nil {root : SyntaxNode} {before rest : List Dispatcher.Call} {call : Dispatcher.Call}
    {kind : SyntaxKind} (calls_eq : (listener place).dispatcher.calls root = before ++ call :: rest)
    (closes : call.event = .exit kind) : (handleAll place .start before).frames ≠ [] := by
  rw [Listener.calls_eq_told] at calls_eq
  obtain ⟨v, told, event_eq, -⟩ := (listener place).mem_trace_of_told (s := .start) calls_eq
  have above := staysOpen_visitsAt [] root .start _ told kind (event_eq.trans closes)
  exact List.ne_nil_of_length_pos above

/-- When a walk is over, no frame is open. -/
theorem frames_run (root : SyntaxNode) : ((listener place).run Draft.start root).frames = [] := by
  have kept : ((Draft.start).attachAll (root.outlineIn place false)).frames.length = 0 :=
    Draft.length_attachAll _ _
  rw [Listener.run_eq, SyntaxNode.visits, after_visitsAt]
  exact List.length_eq_zero_iff.mp kept

/-! ## Items as data -/

theorem values_eq_map (items : List OutlineItem) : values items = items.map OutlineItem.toValue := by
  induction items with
  | nil => rfl
  | cons item items ih => rw [values, ih, List.map_cons]

/-- An item is written with its children if it has any, and without a field for them otherwise. -/
theorem children_toValue (item : OutlineItem) : ∃ fields, item.toValue = .object fields ∧
    ∀ v, ("children", v) ∈ fields ↔
      item.children ≠ [] ∧ v = .array (item.children.map OutlineItem.toValue) := by
  obtain ⟨name, kind, range, selectionRange, children⟩ := item
  cases children with
  | nil =>
      refine ⟨_, by rw [OutlineItem.toValue], fun v => ?_⟩
      simp
  | cons child rest =>
      refine ⟨_, by rw [OutlineItem.toValue], fun v => ?_⟩
      simp [values_eq_map]

/-- The outline of a document is the forest of its tree. The walk that builds it closes a frame only while
one is open, and leaves none open. Where an item has no children, clients are told of none. -/
theorem outline_eq_forest (w : Workspace) (path : String) :
    w.query (.outline path) =
        .outline ((w.source? path).map fun s => s.root.forest (w.toPositionRange s)) ∧
      (∀ item : OutlineItem, ∃ fields, item.toValue = .object fields ∧
        ∀ v, ("children", v) ∈ fields ↔
          item.children ≠ [] ∧ v = .array (item.children.map OutlineItem.toValue)) ∧
      ∀ (place : ByteRange → PositionRange) (root : SyntaxNode),
        let calls := (listener place).dispatcher.calls root
        let last := (listener place).run Draft.start root
        last = handleAll place .start calls ∧
          (∀ before call rest kind, calls = before ++ call :: rest → call.event = .exit kind →
            (handleAll place .start before).frames ≠ []) ∧
          last.frames = [] ∧ last.roots.reverse = root.forest place := by
  refine ⟨?_, children_toValue, fun place root => ⟨?_, ?_, frames_run root, items_eq_forest place root⟩⟩
  · simp only [Workspace.query, answer, items_eq_forest]
  · rw [Listener.run_eq_foldl_told, ← Listener.calls_eq_told]
    rfl
  · intro before call rest kind calls_eq closes
    exact frames_ne_nil calls_eq closes

end Outline

end CodeAtlas
