import CodeAtlas.Proofs.Related
import CodeAtlas.Proofs.Symbol.Contents
import CodeAtlas.Proofs.Symbol.Nesting
import CodeAtlas.Request.Outline

/-!
# Outlines and symbols

The outline of a document is a forest that a recursion over the tree builds, with the definitions inside a
definition as its children. Read from the top, each item before those inside it, it lists the symbols that
the index has of the document, in the same order.
-/

namespace CodeAtlas

/-! ## The recursion -/

namespace SyntaxNode

/-- The name and kind under which a node is listed, if it is, in the body of a singleton class or not. -/
def titleIn? (singleton : Bool) (n : SyntaxNode) : Option (String × SymbolKind) := do
  let kind ← n.kind.symbolKind?
  let name ← n.name
  if n.kind = .methodDef ∧ (singleton || n.definesOnSelf) then some ("self." ++ name, kind)
  else some (name, kind)

/-- Whether what stands below a node is in the body of a singleton class. -/
def insideSingleton (singleton : Bool) (n : SyntaxNode) : Bool :=
  match n.kind with
  | .singletonClass => true
  | .moduleDef | .classDef | .methodDef => false
  | _ => singleton

/-- What a node adds to an outline, if `below` is what the nodes below it add. Only a constant does not
take up what is defined below it. -/
def listedWith (place : ByteRange → PositionRange) (singleton : Bool) (below : List OutlineItem)
    (n : SyntaxNode) : List OutlineItem :=
  match n.titleIn? singleton with
  | none => below
  | some (name, kind) =>
      if n.kind = .constWrite then ⟨name, kind, place n.range, place n.nameRange, []⟩ :: below
      else [⟨name, kind, place n.range, place n.nameRange, below⟩]

mutual

/-- The items that a node and those below it add to an outline. -/
def outlineIn (place : ByteRange → PositionRange) (singleton : Bool) : SyntaxNode → List OutlineItem
  | ⟨kind, name, range, ownNameRange, slots⟩ =>
      let n : SyntaxNode := ⟨kind, name, range, ownNameRange, slots⟩
      n.listedWith place singleton (outlineInSlots place (n.insideSingleton singleton) slots)

def outlineInSlots (place : ByteRange → PositionRange) (singleton : Bool) :
    List (Option SyntaxNode) → List OutlineItem
  | [] => []
  | none :: rest => outlineInSlots place singleton rest
  | some child :: rest => child.outlineIn place singleton ++ outlineInSlots place singleton rest

end

end SyntaxNode

/-! ## The walk -/

namespace Outline

open SyntaxNode (visitsInSlots outlineInSlots)

variable {place : ByteRange → PositionRange}

/-- Puts items below the innermost definition that is open, one after the other. -/
def Draft.attachAll (d : Draft) (items : List OutlineItem) : Draft :=
  items.foldl attach d

theorem Draft.attachAll_append (d : Draft) (items items' : List OutlineItem) :
    d.attachAll (items ++ items') = (d.attachAll items).attachAll items' :=
  List.foldl_append

/-- The draft with another innermost frame. -/
def Draft.push (d : Draft) (frame : Frame) : Draft :=
  { d with frames := frame :: d.frames }

/-- A frame that holds no definition passes items on to those around it. -/
theorem Draft.attach_push (d : Draft) {frame : Frame} (item : OutlineItem)
    (bare : frame = .singleton ∨ frame = .anonymous) :
    (d.push frame).attach item = (d.attach item).push frame := by
  have passed : attach? item (frame :: d.frames) = (attach? item d.frames).map (frame :: ·) := by
    rcases bare with rfl | rfl
    · rfl
    · rfl
  rw [attach, push, passed, attach]
  cases attach? item d.frames with
  | none => rfl
  | some frames => rfl

theorem Draft.attachAll_push (d : Draft) {frame : Frame} (items : List OutlineItem)
    (bare : frame = .singleton ∨ frame = .anonymous) :
    (d.push frame).attachAll items = (d.attachAll items).push frame := by
  induction items generalizing d with
  | nil => rfl
  | cons item items ih =>
      rw [attachAll, List.foldl_cons, d.attach_push item bare, ← attachAll, ih]
      rfl

/-- A definition that is open collects the items inside it. -/
theorem Draft.attachAll_item (d : Draft) (name : String) (kind : SymbolKind) (range nameRange : ByteRange)
    (children items : List OutlineItem) :
    (d.push (.item name kind range nameRange children)).attachAll items =
      d.push (.item name kind range nameRange (items.reverse ++ children)) := by
  induction items generalizing children with
  | nil => rfl
  | cons item items ih =>
      rw [attachAll, List.foldl_cons]
      have here : (d.push (.item name kind range nameRange children)).attach item =
          d.push (.item name kind range nameRange (item :: children)) := rfl
      rw [here, ← attachAll, ih, List.reverse_cons, List.append_assoc]
      rfl

theorem Draft.inSingleton_attach (d : Draft) (item : OutlineItem) :
    (d.attach item).inSingleton = d.inSingleton := by
  obtain ⟨frames, roots⟩ := d
  cases frames with
  | nil => rfl
  | cons frame rest =>
      have split : (⟨frame :: rest, roots⟩ : Draft) = push ⟨rest, roots⟩ frame := rfl
      cases frame with
      | item => rfl
      | singleton =>
          rw [split, attach_push _ item (.inl rfl)]
          rfl
      | anonymous =>
          rw [split, attach_push _ item (.inr rfl)]
          rfl

theorem Draft.inSingleton_attachAll (d : Draft) (items : List OutlineItem) :
    (d.attachAll items).inSingleton = d.inSingleton := by
  induction items generalizing d with
  | nil => rfl
  | cons item items ih => exact (ih (d.attach item)).trans (d.inSingleton_attach item)

/-- What entering a node makes of a draft. -/
def Draft.entered (place : ByteRange → PositionRange) (d : Draft) (n : SyntaxNode) : Draft :=
  match n.kind with
  | .singletonClass => d.push .singleton
  | .constWrite => d.attachAll (n.listedWith place d.inSingleton [])
  | .moduleDef | .classDef | .methodDef =>
      match n.titleIn? d.inSingleton with
      | none => d.push .anonymous
      | some (name, kind) => d.push (.item name kind n.range n.nameRange [])
  | _ => d

theorem Draft.inSingleton_entered (d : Draft) (n : SyntaxNode) :
    (d.entered place n).inSingleton = n.insideSingleton d.inSingleton := by
  unfold entered SyntaxNode.insideSingleton
  cases n.kind with
  | constWrite => exact d.inSingleton_attachAll _
  | moduleDef | classDef | methodDef =>
      dsimp only
      cases n.titleIn? d.inSingleton with
      | none => rfl
      | some title => rfl
  | _ => rfl

theorem handle_enter (d : Draft) (n : SyntaxNode)
    (wanted : .enter n.kind ∈ (listener place).subscriptions) :
    handle place d (.enter n.kind) n = d.entered place n := by
  unfold handle Draft.entered SyntaxNode.listedWith
  have title : d.title? n = n.titleIn? d.inSingleton := rfl
  rw [title]
  cases kind : n.kind with
  | constWrite =>
      dsimp only
      cases n.titleIn? d.inSingleton with
      | none => rfl
      | some title => simp [Draft.attachAll]
  | moduleDef | classDef | methodDef =>
      dsimp only
      cases n.titleIn? d.inSingleton with
      | none => rfl
      | some title => rfl
  | singletonClass => rfl
  | _ => simp [listener, kind] at wanted

theorem entered_of_unwanted (d : Draft) (n : SyntaxNode)
    (unwanted : .enter n.kind ∉ (listener place).subscriptions) : d.entered place n = d := by
  unfold Draft.entered
  cases kind : n.kind with
  | constWrite | moduleDef | classDef | methodDef | singletonClass => simp [listener, kind] at unwanted
  | _ => rfl

theorem after_entering (d : Draft) (n : SyntaxNode) (way : List Nat) :
    (listener place).after d [⟨way, .anyNode, n⟩, ⟨way, .enter n.kind, n⟩] = d.entered place n := by
  have any : Event.anyNode ∉ (listener place).subscriptions := by simp [listener]
  rw [Listener.after_cons, (listener place).after_unwanted d any]
  by_cases wanted : .enter n.kind ∈ (listener place).subscriptions
  · exact ((listener place).after_wanted d wanted).trans (handle_enter d n wanted)
  · exact ((listener place).after_unwanted d wanted).trans (entered_of_unwanted d n wanted).symm

theorem titleIn?_of_symbolKind? {n : SyntaxNode} (none' : n.kind.symbolKind? = none) (singleton : Bool) :
    n.titleIn? singleton = none := by
  rw [SyntaxNode.titleIn?, none']
  rfl

/-- What has been put below a node reaches its place in the outline when the node is left. -/
theorem after_leaving (d : Draft) (n : SyntaxNode) (way : List Nat) (below : List OutlineItem) :
    (listener place).after ((d.entered place n).attachAll below)
        (if n.kind.isScope then [⟨way, .exit n.kind, n⟩] else []) =
      d.attachAll (n.listedWith place d.inSingleton below) := by
  have wanted {kind : SyntaxKind} (d' : Draft) (listed : .exit kind ∈ (listener place).subscriptions) :
      (listener place).after d' [⟨way, .exit kind, n⟩] = handle place d' (.exit kind) n :=
    (listener place).after_wanted d' listed
  have unwanted {kind : SyntaxKind} (d' : Draft) (other : .exit kind ∉ (listener place).subscriptions) :
      (listener place).after d' [⟨way, .exit kind, n⟩] = d' :=
    (listener place).after_unwanted d' other
  unfold Draft.entered SyntaxNode.listedWith
  cases kind : n.kind with
  | constWrite =>
      cases n.titleIn? d.inSingleton with
      | none => rfl
      | some title => rfl
  | singletonClass =>
      rw [titleIn?_of_symbolKind? (by rw [kind]; rfl)]
      dsimp only
      rw [d.attachAll_push below (.inl rfl)]
      exact wanted _ (by simp [listener])
  | moduleDef | classDef | methodDef =>
      cases n.titleIn? d.inSingleton with
      | none =>
          dsimp only
          rw [d.attachAll_push below (.inr rfl)]
          exact wanted _ (by simp [listener])
      | some title =>
          dsimp only
          rw [d.attachAll_item, List.append_nil]
          refine (wanted _ (by simp [listener])).trans ?_
          simp [handle, Draft.push, Draft.attachAll]
  | program | block | lambda =>
      rw [titleIn?_of_symbolKind? (by rw [kind]; rfl)]
      exact unwanted _ (by simp [listener])
  | _ =>
      rw [titleIn?_of_symbolKind? (by rw [kind]; rfl)]
      rfl

-- By induction on the tree, for any frames that are open around it.
mutual

theorem after_visitsAt (way : List Nat) : (n : SyntaxNode) → (d : Draft) →
    (listener place).after d (n.visitsAt way) = d.attachAll (n.outlineIn place d.inSingleton)
  | ⟨kind, name, range, ownNameRange, slots⟩, d => by
      let n : SyntaxNode := ⟨kind, name, range, ownNameRange, slots⟩
      have visits_eq : n.visitsAt way = [⟨way, .anyNode, n⟩, ⟨way, .enter n.kind, n⟩] ++
          (visitsInSlots way 0 slots ++ if n.kind.isScope then [⟨way, .exit n.kind, n⟩] else []) := by
        rw [SyntaxNode.visitsAt]
        rfl
      rw [visits_eq, Listener.after_append, after_entering, Listener.after_append,
        after_visitsInSlots way 0 slots, d.inSingleton_entered, after_leaving, SyntaxNode.outlineIn]

theorem after_visitsInSlots (way : List Nat) (i : Nat) : (slots : List (Option SyntaxNode)) →
    (d : Draft) → (listener place).after d (visitsInSlots way i slots) =
      d.attachAll (outlineInSlots place d.inSingleton slots)
  | [], d => rfl
  | none :: rest, d => by
      rw [visitsInSlots, outlineInSlots]
      exact after_visitsInSlots way (i + 1) rest d
  | some child :: rest, d => by
      rw [visitsInSlots, outlineInSlots, Listener.after_append, after_visitsAt (way ++ [i]) child,
        after_visitsInSlots way (i + 1) rest, d.inSingleton_attachAll, d.attachAll_append]

end

/-- The items of an outline are those that the recursion over the tree builds. -/
theorem items_eq (place : ByteRange → PositionRange) (root : SyntaxNode) :
    items place root = root.outlineIn place false := by
  have roots (found : List OutlineItem) (d : Draft) (open' : d.frames = []) :
      d.attachAll found = ⟨[], found.reverse ++ d.roots⟩ := by
    induction found generalizing d with
    | nil =>
        obtain ⟨frames, listed⟩ := d
        cases open'
        rfl
    | cons item found ih =>
        obtain ⟨frames, listed⟩ := d
        cases open'
        rw [Draft.attachAll, List.foldl_cons, ← Draft.attachAll, ih _ rfl, List.reverse_cons,
          List.append_assoc]
        rfl
  rw [items, Listener.run_eq, SyntaxNode.visits, after_visitsAt, roots _ _ rfl]
  simp [Draft.start, Draft.inSingleton]

end Outline

/-! ## Reading an outline from the top -/

mutual

/-- An item of an outline and those inside it, each before those inside it. -/
def OutlineItem.preorder : OutlineItem → List OutlineItem
  | ⟨name, kind, range, selectionRange, children⟩ =>
      ⟨name, kind, range, selectionRange, children⟩ :: Outline.preorder children

def Outline.preorder : List OutlineItem → List OutlineItem
  | [] => []
  | item :: rest => item.preorder ++ Outline.preorder rest

end

namespace Outline

open SyntaxNode (outlineInSlots symbolsInSlots)

/-- An item of an outline stands for a symbol, at the places that clients are told of. -/
structure Lists (place : ByteRange → PositionRange) (item : OutlineItem) (entry : SymbolEntry) : Prop where
  kind : item.kind = entry.kind
  range : item.range = place entry.range
  selectionRange : item.selectionRange = place entry.nameRange

variable {place : ByteRange → PositionRange} {path : String}

theorem preorder_append (items items' : List OutlineItem) :
    preorder (items ++ items') = preorder items ++ preorder items' := by
  induction items with
  | nil => rfl
  | cons item items ih => rw [List.cons_append, preorder, preorder, ih, List.append_assoc]

/-- A node is listed if it defines a symbol. -/
theorem rel_titleIn? (singleton : Bool) (scope : Scope) (n : SyntaxNode) :
    Option.Rel (fun title entry => title.2 = entry.kind ∧ entry.range = n.range ∧
      entry.nameRange = n.nameRange) (n.titleIn? singleton) (n.symbolIn? path scope) := by
  unfold SyntaxNode.titleIn? SyntaxNode.symbolIn?
  cases kind : n.kind with
  | moduleDef | classDef | constWrite =>
      cases n.name with
      | none => exact .none
      | some name => exact .some ⟨rfl, rfl, rfl⟩
  | methodDef =>
      cases n.name with
      | none => exact .none
      | some name =>
          simp only [SyntaxKind.symbolKind?, Option.bind_eq_bind, Option.bind_some]
          split
          · exact .some ⟨rfl, rfl, rfl⟩
          · exact .some ⟨rfl, rfl, rfl⟩
  | _ => exact .none

theorem lists_listedWith (singleton : Bool) (scope : Scope) (n : SyntaxNode) {below : List OutlineItem}
    {entries : List SymbolEntry} (inside : List.Forall₂ (Lists place) (preorder below) entries) :
    List.Forall₂ (Lists place) (preorder (n.listedWith place singleton below))
      ((n.symbolIn? path scope).toList ++ entries) := by
  rw [SyntaxNode.listedWith]
  have same : Option.Rel _ (n.titleIn? singleton) (n.symbolIn? path scope) :=
    rel_titleIn? singleton scope n
  match n.titleIn? singleton, n.symbolIn? path scope, same with
  | _, _, .none => exact inside
  | some (name, kind), some entry, .some ⟨kind_eq, range_eq, nameRange_eq⟩ =>
      have first (children : List OutlineItem) :
          Lists place ⟨name, kind, place n.range, place n.nameRange, children⟩ entry :=
        ⟨kind_eq, congrArg place range_eq.symm, congrArg place nameRange_eq.symm⟩
      dsimp only
      split
      · exact .cons (first []) inside
      · rw [preorder, OutlineItem.preorder, preorder, List.append_nil]
        exact .cons (first below) inside

mutual

theorem lists_outlineIn : (n : SyntaxNode) → (singleton : Bool) → (scope : Scope) →
    List.Forall₂ (Lists place) (preorder (n.outlineIn place singleton)) (n.symbolsIn path scope)
  | ⟨kind, name, range, ownNameRange, slots⟩, singleton, scope => by
      rw [SyntaxNode.outlineIn, SyntaxNode.symbolsIn]
      exact lists_listedWith singleton scope _ (lists_outlineInSlots slots _ _)

theorem lists_outlineInSlots : (slots : List (Option SyntaxNode)) → (singleton : Bool) →
    (scope : Scope) → List.Forall₂ (Lists place) (preorder (outlineInSlots place singleton slots))
      (symbolsInSlots path scope slots)
  | [], singleton, scope => .nil
  | none :: rest, singleton, scope => by
      rw [outlineInSlots, symbolsInSlots]
      exact lists_outlineInSlots rest singleton scope
  | some child :: rest, singleton, scope => by
      rw [outlineInSlots, symbolsInSlots, preorder_append]
      exact List.rel_append (lists_outlineIn child singleton scope)
        (lists_outlineInSlots rest singleton scope)

end

/-- Read from the top, the outline of a document lists the symbols that its source defines, one for one and
in the same order. -/
theorem outline_lists_symbols (w : Workspace) (path : String) :
    Option.Rel (fun items s => List.Forall₂ (Lists (w.toPositionRange s)) (preorder items) s.symbols)
      (answer w path) (w.source? path) := by
  rw [answer]
  cases w.source? path with
  | none => exact .none
  | some s =>
      have listed : List.Forall₂ (Lists (w.toPositionRange s))
          (preorder (s.root.outlineIn (w.toPositionRange s) false))
          (s.root.symbolsIn s.path ⟨none, false⟩) := lists_outlineIn s.root false ⟨none, false⟩
      rw [← items_eq, ← definitions_eq] at listed
      exact .some listed

end Outline

end CodeAtlas
