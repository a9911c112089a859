import CodeAtlas.Request.Definition
import CodeAtlas.Request.Folding
import CodeAtlas.Request.Highlight
import CodeAtlas.Request.Outline
import CodeAtlas.Request.Selection
import CodeAtlas.Request.WorkspaceSymbols

/-!
# Requests

All questions that a workspace answers, and the form in which clients get the answers.
-/

namespace CodeAtlas

inductive Request where
  | workspaceSymbols (start : Option String)
  | highlight (path : String) (position : Position)
  | outline (path : String)
  | folding (path : String)
  | selection (path : String) (positions : List Position)
  | definition (path : String) (position : Position)

/-- An answer. A question about a document that is not loaded has none. -/
inductive Response where
  | workspaceSymbols (symbols : List SymbolInformation)
  | highlights (highlights : Option (List Highlight))
  | outline (items : Option (List OutlineItem))
  | folding (ranges : Option (List FoldingRange))
  | selection (ranges : Option (List SelectionRange))
  | definition (locations : Option (List Location))

def Request.path? : Request → Option String
  | .workspaceSymbols _ => none
  | .highlight path _ | .outline path | .folding path | .selection path _ | .definition path _ =>
      some path

def Workspace.query (w : Workspace) : Request → Response
  | .workspaceSymbols start => .workspaceSymbols (WorkspaceSymbols.answer w (start.getD ""))
  | .highlight path position => .highlights (Highlight.answer w path position)
  | .outline path => .outline (Outline.answer w path)
  | .folding path => .folding (Folding.answer w path)
  | .selection path positions => .selection (Selection.answer w path positions)
  | .definition path position => .definition (Definition.answer w path position)

/-! ## Answers as data -/

open Json (Value)

def Position.toValue (p : Position) : Value :=
  .object [("line", .nat p.line.toNat), ("character", .nat p.character.toNat)]

def PositionRange.toValue (r : PositionRange) : Value :=
  .object [("start", r.start.toValue), ("end", r.stop.toValue)]

def Location.toValue (l : Location) : Value :=
  .object [("uri", .text l.url.text), ("range", l.range.toValue)]

/-- A field that is left out if it has no value. -/
def optionalField {α : Type} (key : String) (encode : α → Value) (x : Option α) :
    List (String × Value) :=
  (x.map fun x => (key, encode x)).toList

def SymbolInformation.toValue (s : SymbolInformation) : Value :=
  .object <|
    [("name", .text s.name), ("kind", .nat s.kind.code), ("location", s.location.toValue)] ++
      optionalField "containerName" .text s.container

def Highlight.toValue (h : Highlight) : Value :=
  .object [("range", h.range.toValue), ("kind", .nat h.use.highlightCode)]

mutual

def OutlineItem.toValue : OutlineItem → Value
  | ⟨name, kind, range, selectionRange, children⟩ =>
      .object <|
        [("name", .text name), ("kind", .nat kind.code), ("range", range.toValue),
          ("selectionRange", selectionRange.toValue)] ++
        match children with
        | [] => []
        | child :: rest => [("children", .array (Outline.values (child :: rest)))]

def Outline.values : List OutlineItem → List Value
  | [] => []
  | item :: rest => item.toValue :: Outline.values rest

end

def FoldingRange.toValue (r : FoldingRange) : Value :=
  let number (n : UInt32) : Value := .nat n.toNat
  .object <|
    [("startLine", number r.startLine)] ++
      optionalField "startCharacter" number r.startCharacter ++
      [("endLine", number r.endLine)] ++
      optionalField "endCharacter" number r.endCharacter ++
      optionalField "collapsedText" .text r.collapsedText

def SelectionRange.toValue : SelectionRange → Value
  | ⟨range, none⟩ => .object [("range", range.toValue)]
  | ⟨range, some parent⟩ => .object [("range", range.toValue), ("parent", parent.toValue)]

def listValue {α : Type} (encode : α → Value) (xs : List α) : Value :=
  .array (xs.map encode)

def Response.toValue : Response → Value
  | .workspaceSymbols symbols => listValue SymbolInformation.toValue symbols
  | .highlights found => .orNull (listValue Highlight.toValue) found
  | .outline items => .orNull (listValue OutlineItem.toValue) items
  | .folding ranges => .orNull (listValue FoldingRange.toValue) ranges
  | .selection ranges => .orNull (listValue SelectionRange.toValue) ranges
  | .definition locations => .orNull (listValue Location.toValue) locations

end CodeAtlas
