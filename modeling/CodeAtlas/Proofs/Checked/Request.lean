import CodeAtlas.Proofs.Checked.Arena
import CodeAtlas.Proofs.Checked.LineTable
import CodeAtlas.Proofs.Checked.Workspace
import CodeAtlas.Request

/-!
# Requests with checked steps

No request fails on a workspace that has come about by adding and removing source files, whatever their
texts and trees are, which paths and positions it names, and how the workspace is configured.
-/

namespace CodeAtlas.Checked

open WorkspaceIndex (Change)

/-! ## Answers -/

section Answers

variable (w : CodeAtlas.Workspace)

def offsetAt (s : Source) (p : Position) : Run Nat :=
  Run.ended (toOffset s w.settings.positionEncoding p)

def rangeAt (s : Source) (r : ByteRange) : Except Fault PositionRange :=
  toPositionRange s w.settings.positionEncoding r

def locate? (path : String) (range : ByteRange) : Run (Option Location) := do
  match w.source? path with
  | none => return none
  | some s => return some ⟨.ofPath path, ← Run.ended (rangeAt w s range)⟩

/-- The definitions of the names that begin with `start`, in the order of a walk through the graph. -/
def search (start : String) : Run (List SymbolEntry) := do
  let graph := w.index.names.graph
  let names ← Run.index (graph.collectValues (← Run.index (graph.startAt start)) #[])
  return names.toList.flatMap w.index.resolve

def describe? (entry : SymbolEntry) : Run (Option SymbolInformation) := do
  let location ← locate? w entry.path entry.range
  return location.map fun location => ⟨entry.name, entry.kind, location, entry.container⟩

def workspaceSymbols (start : String) : Run (List SymbolInformation) := do
  let described ← (w.settings.limit (← search w start)).mapM (describe? w)
  return described.reduceOption

def highlight (path : String) (p : Position) : Run (Option (List Highlight)) := do
  match w.source? path with
  | none => return none
  | some s =>
      let way := s.root.pathAt (← offsetAt w s p)
      match way.getLast?.bind SyntaxNode.identity? with
      | none => return none
      | some symbol =>
          let scope := Highlight.scope symbol s.root way
          let listener := Highlight.listener symbol w.settings.highlightsWrites
          let search ← run listener.subscriptions (steady listener) (.start scope) scope
          let found ← search.found.reverse.mapM fun (range, use) => do
            return (⟨← Run.ended (rangeAt w s range), use⟩ : Highlight)
          return if found.isEmpty then none else some found

/-- What an event means for an outline. -/
def outlineHandle (place : ByteRange → Except Fault PositionRange) (d : Outline.Draft) (event : Event)
    (n : SyntaxNode) : Except Fault Outline.Draft := do
  match event with
  | .enter .singletonClass => return { d with frames := .singleton :: d.frames }
  | .enter .constWrite =>
      match d.title? n with
      | none => return d
      | some (name, kind) => return d.attach ⟨name, kind, ← place n.range, ← place n.nameRange, []⟩
  | .enter _ =>
      match d.title? n with
      | none => return { d with frames := .anonymous :: d.frames }
      | some (name, kind) =>
          return { d with frames := .item name kind n.range n.nameRange [] :: d.frames }
  | .exit _ =>
      match d.frames with
      | [] => return d
      | .item name kind range nameRange children :: rest =>
          return Outline.Draft.attach { d with frames := rest }
            ⟨name, kind, ← place range, ← place nameRange, children.reverse⟩
      | _ :: rest => return { d with frames := rest }
  | .anyNode => return d

def outline (path : String) : Run (Option (List OutlineItem)) := do
  match w.source? path with
  | none => return none
  | some s =>
      let place := w.toPositionRange s
      let draft ← run (Outline.listener place).subscriptions (outlineHandle (rangeAt w s)) .start s.root
      return some draft.roots.reverse

def folding (path : String) : Run (Option (List FoldingRange)) := do
  match w.source? path with
  | none => return none
  | some s =>
      let found ← run (Folding.foldable.map Event.enter)
        (fun found _ n => do
          let range ← rangeAt w s n.range
          return (Folding.ofNode? (fun _ => range) w.settings.lineFoldingOnly n).toList ++ found)
        [] s.root
      return some found.reverse

def around (s : Source) (p : Position) : Run SelectionRange := do
  let listener := Selection.listener (← offsetAt w s p)
  let found ← run listener.subscriptions (steady listener) [] s.root
  let placed ← found.reverse.mapM fun range => Run.ended (rangeAt w s range)
  return (Selection.chain (withoutRepeats placed)).getD ⟨⟨p, p⟩, none⟩

def selection (path : String) (positions : List Position) : Run (Option (List SelectionRange)) := do
  match w.source? path with
  | none => return none
  | some s => return some (← positions.mapM (around w s))

def definition (path : String) (p : Position) : Run (Option (List Location)) := do
  match w.source? path with
  | none => return none
  | some s =>
      let way := s.root.pathAt (← offsetAt w s p)
      let found ← match way.getLast? with
        | none => pure []
        | some target =>
            let listener := Definition.listener w.index (.below way.dropLast)
            Run.ended (runForTarget listener.subscriptions (steady listener) [] target)
      let locations ← found.mapM fun entry => locate? w entry.path entry.range
      let locations := locations.reduceOption
      return if locations.isEmpty then none else some locations

def query : Request → Run Response
  | .workspaceSymbols start => return .workspaceSymbols (← workspaceSymbols w (start.getD ""))
  | .highlight path p => return .highlights (← highlight w path p)
  | .outline path => return .outline (← outline w path)
  | .folding path => return .folding (← folding w path)
  | .selection path positions => return .selection (← selection w path positions)
  | .definition path p => return .definition (← definition w path p)

/-! ## No request fails -/

theorem offsetAt_eq (s : Source) (p : Position) : offsetAt w s p = pure (w.toOffset s p) := by
  rw [offsetAt, toOffset_eq]
  rfl

theorem rangeAt_eq (s : Source) (r : ByteRange) : rangeAt w s r = .ok (w.toPositionRange s r) :=
  toPositionRange_eq s _ r

theorem locate?_eq (path : String) (range : ByteRange) :
    locate? w path range = pure (w.locate? path range) := by
  rw [locate?, Workspace.locate?]
  cases w.source? path with
  | none => rfl
  | some s =>
      dsimp only
      rw [rangeAt_eq]
      rfl

theorem search_eq (start : String) : search w start = pure (w.index.search start) := by
  have begun := PrefixIndex.Run.eq_pure_answer (w.index.names.startAt_ends start)
  have collected := PrefixIndex.Run.eq_pure_answer (w.index.names.iter start).collect_ends
  rw [search, begun, Run.index_pure, pure_bind]
  rw [PrefixIndex.iter] at collected
  rw [collected]
  rfl

theorem reduceOption_map_eq {α β : Type} (f : α → Option β) (xs : List α) :
    (xs.map f).reduceOption = xs.filterMap f :=
  List.filterMap_map

theorem workspaceSymbols_eq (start : String) :
    workspaceSymbols w start = pure (WorkspaceSymbols.answer w start) := by
  have described : describe? w = fun entry => pure (WorkspaceSymbols.describe? w entry) := by
    funext entry
    rw [describe?, locate?_eq, pure_bind]
    rfl
  rw [workspaceSymbols, search_eq, pure_bind, described, List.mapM_pure, pure_bind, reduceOption_map_eq,
    WorkspaceSymbols.answer]

theorem occurrencesAlong_eq (root : SyntaxNode) (writes : Bool) (way : List SyntaxNode) :
    Highlight.occurrencesAlong root writes way =
      (way.getLast?.bind SyntaxNode.identity?).map fun symbol =>
        let scope := Highlight.scope symbol root way
        ((Highlight.listener symbol writes).run (.start scope) scope).found.reverse := by
  rw [Highlight.occurrencesAlong]
  cases way.getLast? with
  | none => rfl
  | some target => cases named : target.identity? <;> simp [named]

theorem highlight_eq (path : String) (p : Position) :
    highlight w path p = pure (Highlight.answer w path p) := by
  rw [highlight, Highlight.answer]
  cases w.source? path with
  | none => rfl
  | some s =>
      dsimp only
      rw [offsetAt_eq, pure_bind, Option.bind_eq_bind, Option.bind_some, Highlight.occurrences,
        occurrencesAlong_eq]
      cases (s.root.pathAt (w.toOffset s p)).getLast?.bind SyntaxNode.identity? with
      | none => rfl
      | some symbol =>
          dsimp only
          rw [run_steady, pure_bind]
          simp only [rangeAt_eq, Run.ended_ok, pure_bind, List.mapM_pure, List.isEmpty_map]
          rfl

theorem outlineHandle_eq {place : ByteRange → Except Fault PositionRange}
    {place' : ByteRange → PositionRange} (same : ∀ r, place r = .ok (place' r)) (d : Outline.Draft)
    (event : Event) (n : SyntaxNode) :
    outlineHandle place d event n = .ok (Outline.handle place' d event n) := by
  obtain rfl : place = fun r => .ok (place' r) := funext same
  rw [outlineHandle.eq_def]
  split
  · rfl
  · rw [Outline.handle]
    cases d.title? n <;> rfl
  · next notSingleton notConst =>
      rw [Outline.handle]
      · cases d.title? n <;> rfl
      · exact notSingleton
      · exact notConst
  · rw [Outline.handle]
    cases d.frames with
    | nil => rfl
    | cons frame rest => cases frame <;> rfl
  · rfl

theorem outline_eq (path : String) : outline w path = pure (Outline.answer w path) := by
  rw [outline, Outline.answer]
  cases w.source? path with
  | none => rfl
  | some s =>
      dsimp only
      rw [run_eq (outlineHandle_eq (rangeAt_eq w s)), pure_bind]
      rfl

theorem folding_eq (path : String) : folding w path = pure (Folding.answer w path) := by
  rw [folding, Folding.answer]
  cases w.source? path with
  | none => rfl
  | some s =>
      have same (found : List FoldingRange) (event : Event) (n : SyntaxNode) : (do
          let range ← rangeAt w s n.range
          return (Folding.ofNode? (fun _ => range) w.settings.lineFoldingOnly n).toList ++ found) =
            Except.ok ((Folding.listener (w.toPositionRange s) w.settings.lineFoldingOnly).handle
              found event n) := by
        rw [rangeAt_eq]
        rfl
      dsimp only
      rw [← show (Folding.listener (w.toPositionRange s) w.settings.lineFoldingOnly).subscriptions =
        Folding.foldable.map Event.enter from rfl, run_eq same, pure_bind]
      rfl

theorem around_eq (s : Source) (p : Position) : around w s p = pure (Selection.around w s p) := by
  rw [around, offsetAt_eq, pure_bind]
  dsimp only
  rw [run_steady, pure_bind]
  simp only [rangeAt_eq, Run.ended_ok, List.mapM_pure, pure_bind]
  rfl

theorem selection_eq (path : String) (positions : List Position) :
    selection w path positions = pure (Selection.answer w path positions) := by
  rw [selection, Selection.answer]
  cases w.source? path with
  | none => rfl
  | some s =>
      have each : around w s = fun p => pure (Selection.around w s p) := funext (around_eq w s)
      dsimp only
      rw [each, List.mapM_pure, pure_bind]
      rfl

theorem definition_eq (path : String) (p : Position) :
    definition w path p = pure (Definition.answer w path p) := by
  rw [definition, Definition.answer]
  cases w.source? path with
  | none => rfl
  | some s =>
      dsimp only
      rw [offsetAt_eq, pure_bind, Option.bind_eq_bind, Option.bind_some, Definition.entries]
      cases (s.root.pathAt (w.toOffset s p)).getLast? with
      | none => rfl
      | some target =>
          dsimp only
          rw [runForTarget_steady, Run.ended_ok, pure_bind]
          simp only [locate?_eq, List.mapM_pure, pure_bind, reduceOption_map_eq]

theorem query_eq (q : Request) : query w q = pure (w.query q) := by
  cases q with
  | workspaceSymbols start => rw [query, workspaceSymbols_eq, pure_bind, Workspace.query]
  | highlight path p => rw [query, highlight_eq, pure_bind, Workspace.query]
  | outline path => rw [query, outline_eq, pure_bind, Workspace.query]
  | folding path => rw [query, folding_eq, pure_bind, Workspace.query]
  | selection path positions => rw [query, selection_eq, pure_bind, Workspace.query]
  | definition path p => rw [query, definition_eq, pure_bind, Workspace.query]

end Answers

/-! ## No analysis fails -/

/-- With every step checked, the line table of any text is found, any offset and position is converted,
any files are added and removed, and any request is answered. Each comes to what it comes to unchecked. -/
theorem no_fault :
    (∀ s : Source, lineStarts s.text = .ok (s.lines.map Text.Line.start) ∧
      (∀ offset, lineOf? s offset = .ok (s.lineOf? offset) ∧
        columnOf? s offset = .ok (s.columnOf? offset)) ∧
      ∀ encoding, (∀ p, toOffset s encoding p = .ok (s.toOffset encoding p)) ∧
        (∀ offset, toPosition s encoding offset = .ok (s.toPosition encoding offset)) ∧
        (∀ r, toByteRange s encoding r = .ok (s.toByteRange encoding r)) ∧
        ∀ r, toPositionRange s encoding r = .ok (s.toPositionRange encoding r)) ∧
    (∀ (settings : Settings) (cs : List Change),
      let w := (CodeAtlas.Workspace.empty settings).changes cs
      Workspace.afterChanges settings cs = pure (.of w) ∧ (∀ q, query w q = pure (w.query q)) ∧
        arenaSize w.index.names.graph.nodes = .ok w.index.names.graph.nodes.size) ∧
    ∀ (α : Type) (cs : List (ArenaChange α)),
      let a := cs.foldl ArenaChange.apply .empty
      cs.foldlM ArenaChange.applyChecked .empty = .ok a ∧ (∀ x, alloc a x = .ok (a.alloc x)) ∧
        arenaSize a = .ok a.size := by
  refine ⟨fun s => ⟨lineStarts_eq s, fun offset => ⟨lineOf?_eq s offset, columnOf?_eq s offset⟩,
    fun encoding => ⟨toOffset_eq s encoding, toPosition_eq s encoding, toByteRange_eq s encoding,
      toPositionRange_eq s encoding⟩⟩, fun settings cs => ?_, fun α cs => ?_⟩
  · obtain ⟨t, bears⟩ := ((CodeAtlas.Workspace.empty settings).changes cs).index.names.shaped
    exact ⟨Workspace.afterChanges_eq settings cs, query_eq _, arenaSize_eq bears.arena⟩
  · obtain ⟨applied, wf⟩ := ArenaChange.foldlM_applyChecked Arena.WellFormed.empty cs
    exact ⟨applied, alloc_eq wf, arenaSize_eq wf⟩

end CodeAtlas.Checked
