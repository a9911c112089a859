import CodeAtlas.Proofs.Position
import CodeAtlas.Proofs.Related
import CodeAtlas.Proofs.Walk
import CodeAtlas.Proofs.Workspace
import CodeAtlas.Request

/-!
# The encoding of positions is presentation only

Two workspaces that differ in nothing but the encoding of positions, asked about the same offsets, give
the same answers: the same things in the same order, and ranges that cover the same bytes. Where an answer
depends on positions, as when ranges without a second line are dropped or equal ranges are listed once, it
depends on what they have in common in both encodings.
-/

namespace CodeAtlas

/-- The workspace with its positions told in an encoding. -/
def Workspace.withEncoding (w : Workspace) (encoding : PositionEncoding) : Workspace :=
  { w with settings := { w.settings with positionEncoding := encoding } }

namespace Workspace

variable (w : Workspace) (encoding : PositionEncoding) (s : Source)

@[simp] theorem source?_withEncoding (path : String) :
    (w.withEncoding encoding).source? path = w.source? path := rfl

@[simp] theorem index_withEncoding : (w.withEncoding encoding).index = w.index := rfl

@[simp] theorem highlightsWrites_withEncoding :
    (w.withEncoding encoding).settings.highlightsWrites = w.settings.highlightsWrites := rfl

@[simp] theorem toOffset_withEncoding (p : Position) :
    (w.withEncoding encoding).toOffset s p = s.toOffset encoding p := rfl

@[simp] theorem toPositionRange_withEncoding :
    (w.withEncoding encoding).toPositionRange s = s.toPositionRange encoding := rfl

end Workspace

/-! ## Answers that say the same -/

/-- Two ranges of a source that are told in one encoding each, and cover the same lines and bytes. -/
structure SameRange (s : Source) (e e' : PositionEncoding) (r r' : PositionRange) : Prop where
  startLine : r.start.line = r'.start.line
  stopLine : r.stop.line = r'.stop.line
  bytes : s.toByteRange e r = s.toByteRange e' r'

structure SameHighlight (s : Source) (e e' : PositionEncoding) (h h' : Highlight) : Prop where
  range : SameRange s e e' h.range h'.range
  use : h.use = h'.use

inductive SameItem (s : Source) (e e' : PositionEncoding) : OutlineItem → OutlineItem → Prop
  | mk {name : String} {kind : SymbolKind} {range range' nameRange nameRange' : PositionRange}
      {children children' : List OutlineItem} (whole : SameRange s e e' range range')
      (named : SameRange s e e' nameRange nameRange')
      (below : List.Forall₂ (SameItem s e e') children children') :
      SameItem s e e' ⟨name, kind, range, nameRange, children⟩ ⟨name, kind, range', nameRange', children'⟩

structure SameFolding (s : Source) (e e' : PositionEncoding) (f f' : FoldingRange) : Prop where
  startLine : f.startLine = f'.startLine
  endLine : f.endLine = f'.endLine
  start : Option.Rel (fun c c' => s.toOffset e ⟨f.startLine, c⟩ = s.toOffset e' ⟨f'.startLine, c'⟩)
    f.startCharacter f'.startCharacter
  stop : Option.Rel (fun c c' => s.toOffset e ⟨f.endLine, c⟩ = s.toOffset e' ⟨f'.endLine, c'⟩)
    f.endCharacter f'.endCharacter
  collapsedText : f.collapsedText = f'.collapsedText

/-- Two chains of ranges to select that are equally long and range by range the same. -/
def SameSelection (s : Source) (e e' : PositionEncoding) (r r' : SelectionRange) : Prop :=
  List.Forall₂ (SameRange s e e') r.toList r'.toList

/-- Two locations of one range of bytes in one file, which they name alike. -/
structure SameLocation (w : Workspace) (e e' : PositionEncoding) (l l' : Location) : Prop where
  url : l.url = l'.url
  range : ∃ path r s, (w.withEncoding e).locate? path r = some l ∧
    (w.withEncoding e').locate? path r = some l' ∧ w.source? path = some s ∧
      SameRange s e e' l.range l'.range

structure SameSymbol (w : Workspace) (e e' : PositionEncoding) (i i' : SymbolInformation) : Prop where
  name : i.name = i'.name
  kind : i.kind = i'.kind
  container : i.container = i'.container
  location : SameLocation w e e' i.location i'.location

/-- Two answers about a document: both are missing, or they list as many things, which say the same in the
source that is loaded for the document. -/
def SameList {α : Type} (w : Workspace) (path? : Option String) (same : Source → α → α → Prop) :
    Option (List α) → Option (List α) → Prop :=
  Option.Rel fun xs ys => ∃ path s, path? = some path ∧ w.source? path = some s ∧
    List.Forall₂ (same s) xs ys

/-- Two answers to a question that are told in one encoding each, and say the same. -/
inductive SameResponse (w : Workspace) (e e' : PositionEncoding) (path? : Option String) :
    Response → Response → Prop
  | workspaceSymbols {xs ys : List SymbolInformation} (same : List.Forall₂ (SameSymbol w e e') xs ys) :
      SameResponse w e e' path? (.workspaceSymbols xs) (.workspaceSymbols ys)
  | highlights {xs ys : Option (List Highlight)} (same : SameList w path? (SameHighlight · e e') xs ys) :
      SameResponse w e e' path? (.highlights xs) (.highlights ys)
  | outline {xs ys : Option (List OutlineItem)} (same : SameList w path? (SameItem · e e') xs ys) :
      SameResponse w e e' path? (.outline xs) (.outline ys)
  | folding {xs ys : Option (List FoldingRange)} (same : SameList w path? (SameFolding · e e') xs ys) :
      SameResponse w e e' path? (.folding xs) (.folding ys)
  | selection {xs ys : Option (List SelectionRange)}
      (same : SameList w path? (SameSelection · e e') xs ys) :
      SameResponse w e e' path? (.selection xs) (.selection ys)
  | definition {xs ys : Option (List Location)}
      (same : Option.Rel (List.Forall₂ (SameLocation w e e')) xs ys) :
      SameResponse w e e' path? (.definition xs) (.definition ys)

/-! ## Questions that ask for the same -/

/-- Two positions in a document are those of one offset. -/
def SamePlace (w : Workspace) (e e' : PositionEncoding) (path : String) (p p' : Position) : Prop :=
  ∃ offset, ∀ s, w.source? path = some s → p = s.toPosition e offset ∧ p' = s.toPosition e' offset

/-- Two questions that are asked in one encoding each, about the same places. -/
inductive SameRequest (w : Workspace) (e e' : PositionEncoding) : Request → Request → Prop
  | workspaceSymbols (start : Option String) :
      SameRequest w e e' (.workspaceSymbols start) (.workspaceSymbols start)
  | highlight {path : String} {p p' : Position} (place : SamePlace w e e' path p p') :
      SameRequest w e e' (.highlight path p) (.highlight path p')
  | outline (path : String) : SameRequest w e e' (.outline path) (.outline path)
  | folding (path : String) : SameRequest w e e' (.folding path) (.folding path)
  | selection {path : String} {ps ps' : List Position}
      (places : List.Forall₂ (SamePlace w e e' path) ps ps') :
      SameRequest w e e' (.selection path ps) (.selection path ps')
  | definition {path : String} {p p' : Position} (place : SamePlace w e e' path p p') :
      SameRequest w e e' (.definition path p) (.definition path p')

/-! ## Analyses of one source -/

section Source

variable {s : Source} {e e' : PositionEncoding}

theorem sameRange_toPositionRange (bytes : s.byteLength < UInt32.size) (r : ByteRange) :
    SameRange s e e' (s.toPositionRange e r) (s.toPositionRange e' r) where
  startLine := Source.line_toPosition e e' r.start
  stopLine := Source.line_toPosition e e' r.stop
  bytes := by
    rw [Source.toByteRange, Source.toByteRange, Source.toPositionRange, Source.toPositionRange,
      Source.toOffset_toPosition_eq bytes e e' r.start, Source.toOffset_toPosition_eq bytes e e' r.stop]

theorem toPositionRange_eq_iff (bytes : s.byteLength < UInt32.size) (r r' : ByteRange) :
    s.toPositionRange e r = s.toPositionRange e r' ↔
      s.toPositionRange e' r = s.toPositionRange e' r' := by
  have carry (e e' : PositionEncoding) (same : s.toPositionRange e r = s.toPositionRange e r') :
      s.toPositionRange e' r = s.toPositionRange e' r' := by
    obtain ⟨start, stop⟩ := PositionRange.mk.inj same
    exact congrArg₂ PositionRange.mk (Source.toPosition_eq_of_eq bytes e e' _ start)
      (Source.toPosition_eq_of_eq bytes e e' _ stop)
  exact ⟨carry e e', carry e' e⟩

namespace Outline

/-- Frames of two walks that open the same definitions. -/
inductive SameFrame (s : Source) (e e' : PositionEncoding) : Frame → Frame → Prop
  | item {name : String} {kind : SymbolKind} {range nameRange : ByteRange}
      {children children' : List OutlineItem}
      (below : List.Forall₂ (SameItem s e e') children children') :
      SameFrame s e e' (.item name kind range nameRange children)
        (.item name kind range nameRange children')
  | singleton : SameFrame s e e' .singleton .singleton
  | anonymous : SameFrame s e e' .anonymous .anonymous

structure SameDraft (s : Source) (e e' : PositionEncoding) (d d' : Draft) : Prop where
  frames : List.Forall₂ (SameFrame s e e') d.frames d'.frames
  roots : List.Forall₂ (SameItem s e e') d.roots d'.roots

variable {d d' : Draft} {item item' : OutlineItem}

theorem SameDraft.title?_eq (same : SameDraft s e e' d d') (n : SyntaxNode) :
    d.title? n = d'.title? n := by
  have singleton : d.inSingleton = d'.inSingleton := by
    obtain ⟨frames, roots⟩ := d
    obtain ⟨frames', roots'⟩ := d'
    cases same.frames with
    | nil => rfl
    | cons frame _ => cases frame <;> rfl
  rw [Draft.title?, Draft.title?, singleton]

theorem sameFrames_attach? {frames frames' : List Frame} (same : SameItem s e e' item item')
    (open' : List.Forall₂ (SameFrame s e e') frames frames') :
    Option.Rel (List.Forall₂ (SameFrame s e e')) (attach? item frames) (attach? item' frames') := by
  induction open' with
  | nil => exact .none
  | cons frame open' ih =>
      cases frame with
      | item below => exact .some (.cons (.item (.cons same below)) open')
      | singleton => exact rel_map (fun _ _ rest => .cons .singleton rest) ih
      | anonymous => exact rel_map (fun _ _ rest => .cons .anonymous rest) ih

theorem SameDraft.attach (same : SameDraft s e e' d d') (same' : SameItem s e e' item item') :
    SameDraft s e e' (d.attach item) (d'.attach item') := by
  rw [Draft.attach, Draft.attach]
  match attach? item d.frames, attach? item' d'.frames, sameFrames_attach? same' same.frames with
  | _, _, .none => exact ⟨same.frames, .cons same' same.roots⟩
  | _, _, .some frames => exact ⟨frames, same.roots⟩

theorem SameDraft.handle (bytes : s.byteLength < UInt32.size) (same : SameDraft s e e' d d')
    (event : Event) (n : SyntaxNode) :
    SameDraft s e e' (handle (s.toPositionRange e) d event n)
      (handle (s.toPositionRange e') d' event n) := by
  unfold Outline.handle
  rw [same.title?_eq]
  split
  · exact ⟨.cons .singleton same.frames, same.roots⟩
  · split
    · exact same
    · exact same.attach (.mk (sameRange_toPositionRange bytes _) (sameRange_toPositionRange bytes _) .nil)
  · split
    · exact ⟨.cons .anonymous same.frames, same.roots⟩
    · exact ⟨.cons (.item .nil) same.frames, same.roots⟩
  · obtain ⟨frames, roots⟩ := d
    obtain ⟨frames', roots'⟩ := d'
    obtain ⟨open', listed⟩ := same
    cases open' with
    | nil => exact ⟨.nil, listed⟩
    | cons frame open' =>
        cases frame with
        | item below =>
            have left : SameDraft s e e' ⟨_, roots⟩ ⟨_, roots'⟩ := ⟨open', listed⟩
            exact left.attach (.mk (sameRange_toPositionRange bytes _) (sameRange_toPositionRange bytes _)
              (List.rel_reverse below))
        | singleton => exact ⟨open', listed⟩
        | anonymous => exact ⟨open', listed⟩
  · exact same

theorem sameItems (bytes : s.byteLength < UInt32.size) (root : SyntaxNode) :
    List.Forall₂ (SameItem s e e') (items (s.toPositionRange e) root)
      (items (s.toPositionRange e') root) := by
  have start : SameDraft s e e' .start .start := ⟨.nil, .nil⟩
  have same := Listener.run_related (listener (s.toPositionRange e)) (listener (s.toPositionRange e'))
    (SameDraft s e e') rfl (fun _ _ event n same => same.handle bytes event n) start root
  exact List.rel_reverse same.roots

end Outline

namespace Folding

theorem sameFolding_ofNode? (bytes : s.byteLength < UInt32.size) (linesOnly : Bool) (n : SyntaxNode) :
    Option.Rel (SameFolding s e e') (ofNode? (s.toPositionRange e) linesOnly n)
      (ofNode? (s.toPositionRange e') linesOnly n) := by
  have same : SameRange s e e' _ _ := sameRange_toPositionRange bytes n.range
  have single : (endsInBlock n || (s.toPositionRange e n.range).stop.line ≤
      (s.toPositionRange e n.range).start.line) = (endsInBlock n ||
        (s.toPositionRange e' n.range).stop.line ≤ (s.toPositionRange e' n.range).start.line) := by
    rw [same.startLine, same.stopLine]
  obtain ⟨start, stop⟩ := ByteRange.mk.inj same.bytes
  simp only [ofNode?, single]
  split
  · exact .none
  · refine .some ⟨same.startLine, same.stopLine, ?_, ?_, rfl⟩
    · cases linesOnly with
      | true => exact .none
      | false => exact .some start
    · cases linesOnly with
      | true => exact .none
      | false => exact .some stop

theorem sameFoldings (bytes : s.byteLength < UInt32.size) (linesOnly : Bool) (root : SyntaxNode) :
    List.Forall₂ (SameFolding s e e') (ranges (s.toPositionRange e) linesOnly root)
      (ranges (s.toPositionRange e') linesOnly root) := by
  refine List.rel_reverse (Listener.run_related (listener (s.toPositionRange e) linesOnly)
    (listener (s.toPositionRange e') linesOnly) (List.Forall₂ (SameFolding s e e')) rfl
    (fun found found' _ n same => ?_) .nil root)
  exact List.rel_append (forall₂_toList (sameFolding_ofNode? bytes linesOnly n)) same

end Folding

namespace Selection

/-- Ranges that are repeated in one encoding are repeated in the other one. -/
theorem same_withoutRepeats (bytes : s.byteLength < UInt32.size) (rs : List ByteRange) :
    List.Forall₂ (SameRange s e e') (withoutRepeats (rs.map (s.toPositionRange e)))
      (withoutRepeats (rs.map (s.toPositionRange e'))) := by
  induction rs with
  | nil => exact .nil
  | cons r rs ih =>
      cases rs with
      | nil => exact .cons (sameRange_toPositionRange bytes r) .nil
      | cons r' rs =>
          rw [List.map_cons, List.map_cons, List.map_cons, List.map_cons, withoutRepeats, withoutRepeats]
          by_cases repeated : s.toPositionRange e r = s.toPositionRange e r'
          · rw [if_pos repeated, if_pos ((toPositionRange_eq_iff bytes r r').mp repeated)]
            exact ih
          · rw [if_neg repeated, if_neg (mt (toPositionRange_eq_iff bytes r r').mpr repeated)]
            exact .cons (sameRange_toPositionRange bytes r) ih

theorem same_chain {rs rs' : List PositionRange} (same : List.Forall₂ (SameRange s e e') rs rs') :
    Option.Rel (SameSelection s e e') (chain rs) (chain rs') := by
  have within {r r' : PositionRange} {o o' : Option SelectionRange} (inner : SameRange s e e' r r')
      (outer : Option.Rel (SameSelection s e e') o o') : SameSelection s e e' ⟨r, o⟩ ⟨r', o'⟩ := by
    cases outer with
    | none => exact .cons inner .nil
    | some outer => exact .cons inner outer
  -- The fold goes on from any two chains that are the same so far.
  suffices more : ∀ o o', Option.Rel (SameSelection s e e') o o' → Option.Rel (SameSelection s e e')
      (rs.foldl (fun parent range => some ⟨range, parent⟩) o)
      (rs'.foldl (fun parent range => some ⟨range, parent⟩) o') from more none none .none
  induction same with
  | nil => exact fun o o' outer => outer
  | cons inner _ ih => exact fun o o' outer => ih _ _ (.some (within inner outer))

end Selection

end Source

/-! ## Answers -/

section Workspace

variable {w : Workspace} {e e' : PositionEncoding} {path : String} {p p' : Position}

/-- Positions of one offset bring a cursor to the same place. -/
theorem SamePlace.toOffset_eq (place : SamePlace w e e' path p p') {s : Source}
    (bytes : s.byteLength < UInt32.size) (loaded : w.source? path = some s) :
    s.toOffset e p = s.toOffset e' p' := by
  obtain ⟨offset, at_offset⟩ := place
  obtain ⟨rfl, rfl⟩ := at_offset s loaded
  exact Source.toOffset_toPosition_eq bytes e e' offset

theorem Selection.same_around {s : Source} (bytes : s.byteLength < UInt32.size)
    (loaded : w.source? path = some s) (place : SamePlace w e e' path p p') :
    SameSelection s e e' (around (w.withEncoding e) s p) (around (w.withEncoding e') s p') := by
  have cursor := place.toOffset_eq bytes loaded
  obtain ⟨offset, at_offset⟩ := place
  obtain ⟨rfl, rfl⟩ := at_offset s loaded
  have found (cursor : Nat) : Option.Rel (SameSelection s e e')
      (chain (withoutRepeats ((ranges s.root cursor).map (s.toPositionRange e))))
      (chain (withoutRepeats ((ranges s.root cursor).map (s.toPositionRange e')))) :=
    same_chain (same_withoutRepeats bytes _)
  have alone : SameSelection s e e' ⟨⟨s.toPosition e offset, s.toPosition e offset⟩, none⟩
      ⟨⟨s.toPosition e' offset, s.toPosition e' offset⟩, none⟩ :=
    .cons (sameRange_toPositionRange bytes ⟨offset, offset⟩) .nil
  simp only [around, Workspace.toOffset_withEncoding, Workspace.toPositionRange_withEncoding, cursor]
  exact rel_getD (found _) alone

variable (short : ∀ path s, w.source? path = some s → s.byteLength < UInt32.size)
include short

theorem sameLocation_locate? (e e' : PositionEncoding) (path : String) (range : ByteRange) :
    Option.Rel (SameLocation w e e') ((w.withEncoding e).locate? path range)
      ((w.withEncoding e').locate? path range) := by
  have located (encoding : PositionEncoding) : (w.withEncoding encoding).locate? path range =
      (w.source? path).map fun s => ⟨.ofPath path, s.toPositionRange encoding range⟩ := rfl
  cases loaded : w.source? path with
  | none =>
      rw [located, located, loaded]
      exact .none
  | some s =>
      simp only [loaded, Option.map_some] at located
      rw [located, located]
      exact .some ⟨rfl, path, range, s, located e, located e', loaded,
        sameRange_toPositionRange (short path s loaded) range⟩

theorem sameSymbols_answer (start : String) :
    List.Forall₂ (SameSymbol w e e') (WorkspaceSymbols.answer (w.withEncoding e) start)
      (WorkspaceSymbols.answer (w.withEncoding e') start) := by
  refine forall₂_filterMap fun entry _ => ?_
  rw [WorkspaceSymbols.describe?, WorkspaceSymbols.describe?]
  refine rel_map (fun l l' same => ?_) (sameLocation_locate? short e e' entry.path entry.range)
  exact ⟨rfl, rfl, rfl, same⟩

theorem sameHighlights_answer (place : SamePlace w e e' path p p') :
    SameList w (some path) (SameHighlight · e e') (Highlight.answer (w.withEncoding e) path p)
      (Highlight.answer (w.withEncoding e') path p') := by
  simp only [Highlight.answer, Workspace.source?_withEncoding]
  cases loaded : w.source? path with
  | none => exact .none
  | some s =>
      have bytes := short path s loaded
      simp only [Option.bind_eq_bind, Option.bind_some, Workspace.toOffset_withEncoding,
        Workspace.highlightsWrites_withEncoding, place.toOffset_eq bytes loaded]
      cases Highlight.occurrences s.root w.settings.highlightsWrites (s.toOffset e' p') with
      | none => exact .none
      | some found =>
          rw [Option.bind_some, Option.bind_some]
          split
          · exact .none
          · refine .some ⟨path, s, rfl, loaded, forall₂_map fun found _ => ?_⟩
            exact ⟨sameRange_toPositionRange bytes found.1, rfl⟩

/-- Answers that are computed from the source alone say the same if the computations do. -/
theorem sameList_map {α : Type} {same : Source → α → α → Prop} {f f' : Source → List α}
    (each : ∀ s, w.source? path = some s → s.byteLength < UInt32.size →
      List.Forall₂ (same s) (f s) (f' s)) :
    SameList w (some path) same ((w.source? path).map f) ((w.source? path).map f') := by
  cases loaded : w.source? path with
  | none => exact .none
  | some s => exact .some ⟨path, s, rfl, loaded, each s loaded (short path s loaded)⟩

theorem sameItems_answer : SameList w (some path) (SameItem · e e')
    (Outline.answer (w.withEncoding e) path) (Outline.answer (w.withEncoding e') path) :=
  sameList_map short fun s _ bytes => Outline.sameItems bytes s.root

theorem sameFoldings_answer : SameList w (some path) (SameFolding · e e')
    (Folding.answer (w.withEncoding e) path) (Folding.answer (w.withEncoding e') path) :=
  sameList_map short fun s _ bytes => Folding.sameFoldings bytes w.settings.lineFoldingOnly s.root

theorem sameSelections_answer {ps ps' : List Position}
    (places : List.Forall₂ (SamePlace w e e' path) ps ps') :
    SameList w (some path) (SameSelection · e e') (Selection.answer (w.withEncoding e) path ps)
      (Selection.answer (w.withEncoding e') path ps') := by
  refine sameList_map short fun s loaded bytes => ?_
  exact List.rel_map (fun p p' place => Selection.same_around bytes loaded place) places

theorem sameLocations_answer (place : SamePlace w e e' path p p') :
    Option.Rel (List.Forall₂ (SameLocation w e e')) (Definition.answer (w.withEncoding e) path p)
      (Definition.answer (w.withEncoding e') path p') := by
  simp only [Definition.answer, Workspace.source?_withEncoding]
  cases loaded : w.source? path with
  | none => exact .none
  | some s =>
      have bytes := short path s loaded
      simp only [Option.bind_eq_bind, Option.bind_some, Workspace.toOffset_withEncoding,
        Workspace.index_withEncoding, place.toOffset_eq bytes loaded]
      refine rel_unlessEmpty (forall₂_filterMap fun entry _ => ?_)
      exact sameLocation_locate? short e e' entry.path entry.range

/-- Two workspaces that differ in nothing but the encoding of positions give the same answers to questions
about the same offsets, if the sources that are loaded are short enough for the numbers of clients. -/
theorem same_responses {q q' : Request} (same : SameRequest w e e' q q') :
    SameResponse w e e' q.path? ((w.withEncoding e).query q) ((w.withEncoding e').query q') := by
  cases same with
  | workspaceSymbols start => exact .workspaceSymbols (sameSymbols_answer short _)
  | highlight place => exact .highlights (sameHighlights_answer short place)
  | outline path => exact .outline (sameItems_answer short)
  | folding path => exact .folding (sameFoldings_answer short)
  | selection places => exact .selection (sameSelections_answer short places)
  | definition place => exact .definition (sameLocations_answer short place)

end Workspace

/-- A cursor behind a character of four bytes and two UTF-16 units selects the same ranges. -/
theorem same_selections_behind_emoji :
    let s := Source.new "app.rb" (String.ofList ['😀', 'x']) (.leaf .program ⟨0, 5⟩)
    let w := (Workspace.empty .default).changes [.index s]
    SameResponse w .utf16 .utf8 (some "app.rb")
      ((w.withEncoding .utf16).query (.selection "app.rb" [s.toPosition .utf16 4]))
      ((w.withEncoding .utf8).query (.selection "app.rb" [s.toPosition .utf8 4])) := by
  intro s w
  have only (path : String) (s' : Source) (loaded : w.source? path = some s') : s' = s := by
    have reflects := Workspace.reflects_changes .default [.index s]
    simpa [WorkspaceIndex.live] using ((reflects.source? path s').mp loaded).1
  have short : ∀ path s', w.source? path = some s' → s'.byteLength < UInt32.size := by
    intro path s' loaded
    have text_eq : s.text.toList = ['😀', 'x'] := String.toList_ofList
    rw [only path s' loaded, Source.byteLength_eq, text_eq]
    decide
  have place : SamePlace w .utf16 .utf8 "app.rb" (s.toPosition .utf16 4) (s.toPosition .utf8 4) := by
    refine ⟨4, fun s' loaded => ?_⟩
    rw [only _ s' loaded]
    exact ⟨rfl, rfl⟩
  exact same_responses short (.selection (.cons place .nil))

end CodeAtlas
