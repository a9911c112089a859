import CodeAtlas.Walk
import CodeAtlas.Workspace

/-!
# Outlines

The definitions of a document as a hierarchy. A definition is listed below the nearest named namespace
or method around it. A singleton method is listed under its name with `self.` in front.
-/

namespace CodeAtlas

/-- A definition with the definitions inside it. -/
structure OutlineItem where
  name : String
  kind : SymbolKind
  range : PositionRange
  selectionRange : PositionRange
  children : List OutlineItem

namespace Outline

/-- What is open around a place in a walk. -/
inductive Frame where
  /-- A definition whose children, latest first, are still being collected. -/
  | item (name : String) (kind : SymbolKind) (range nameRange : ByteRange)
      (children : List OutlineItem)
  | singleton
  | anonymous

/-- The open frames, innermost first, and the definitions below none of them, latest first. -/
structure Draft where
  frames : List Frame
  roots : List OutlineItem

def Draft.start : Draft :=
  ⟨[], []⟩

def Draft.inSingleton (d : Draft) : Bool :=
  match d.frames with
  | .singleton :: _ => true
  | _ => false

/-- The name and kind under which a node is listed, if it is. -/
def Draft.title? (d : Draft) (n : SyntaxNode) : Option (String × SymbolKind) := do
  let kind ← n.kind.symbolKind?
  let name ← n.name
  if n.kind = .methodDef ∧ (d.inSingleton || n.definesOnSelf) then some ("self." ++ name, kind)
  else some (name, kind)

/-- Puts an item below the innermost definition among the frames, if there is one. -/
def attach? (item : OutlineItem) : List Frame → Option (List Frame)
  | [] => none
  | .item name kind range nameRange children :: rest =>
      some (.item name kind range nameRange (item :: children) :: rest)
  | frame :: rest => (attach? item rest).map (frame :: ·)

def Draft.attach (d : Draft) (item : OutlineItem) : Draft :=
  match attach? item d.frames with
  | some frames => { d with frames }
  | none => { d with roots := item :: d.roots }

/-- What an event means for the outline. Byte ranges are turned into what clients are told by
`place`. -/
def handle (place : ByteRange → PositionRange) (d : Draft) (event : Event) (n : SyntaxNode) : Draft :=
  match event with
  | .enter .singletonClass => { d with frames := .singleton :: d.frames }
  | .enter .constWrite =>
      match d.title? n with
      | none => d
      | some (name, kind) => d.attach ⟨name, kind, place n.range, place n.nameRange, []⟩
  | .enter _ =>
      match d.title? n with
      | none => { d with frames := .anonymous :: d.frames }
      | some (name, kind) =>
          { d with frames := .item name kind n.range n.nameRange [] :: d.frames }
  | .exit _ =>
      match d.frames with
      | [] => d
      | .item name kind range nameRange children :: rest =>
          Draft.attach { d with frames := rest }
            ⟨name, kind, place range, place nameRange, children.reverse⟩
      | _ :: rest => { d with frames := rest }
  | .anyNode => d

def listener (place : ByteRange → PositionRange) : Listener Draft where
  subscriptions :=
    .enter .constWrite ::
      [SyntaxKind.moduleDef, .classDef, .singletonClass, .methodDef].flatMap fun kind =>
        [.enter kind, .exit kind]
  handle := handle place

def items (place : ByteRange → PositionRange) (root : SyntaxNode) : List OutlineItem :=
  ((listener place).run Draft.start root).roots.reverse

def answer (w : Workspace) (path : String) : Option (List OutlineItem) :=
  (w.source? path).map fun s => items (w.toPositionRange s) s.root

end Outline

end CodeAtlas
