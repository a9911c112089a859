import CodeAtlas.Proofs.Position.Order
import CodeAtlas.Proofs.Repeats
import CodeAtlas.Proofs.Syntax.Sites
import CodeAtlas.Proofs.Workspace
import CodeAtlas.Request

/-!
# Selection ranges are nested

The ranges around a cursor are collected in one walk, and only what lies within the last range collected
is added to them. Each range in a selection lies within the next one then, in any tree, and this is still
so for the positions that a client gets, from which the repeats are taken out.
-/

namespace CodeAtlas

open SyntaxNode (Site)

/-! ## Every node once -/

namespace Listener

/-- A listener that wants every node and nothing else is told of each site once. -/
theorem run_eq_foldl_sites {σ : Type} {l : Listener σ} (wants : l.subscriptions = [.anyNode]) (s : σ)
    (root : SyntaxNode) : l.run s root = root.sites.foldl (fun s t => l.handle s .anyNode t.node) s := by
  have stays (kind : SyntaxKind) : .exit kind ∉ l.subscriptions := by simp [wants]
  have reach_eq (s : σ) (n : SyntaxNode) : l.reach s n = l.handle s .anyNode n := by
    simp [reach, wants]
  simp only [run_eq_foldl_reach stays, reach_eq]

end Listener

namespace Selection

variable {cursor : Nat} {root : SyntaxNode}

/-! ## The ranges collected -/

/-- The sites of a tree whose nodes a cursor touches. -/
def touched (root : SyntaxNode) (cursor : Nat) : List Site :=
  root.sites.filter (·.node.covers cursor)

/-- A node is added in front of the last range, if that holds it, or passed over. The first node that the
cursor touches is added always. -/
theorem handle_cases (cursor : Nat) (found : List ByteRange) (event : Event) (n : SyntaxNode) :
    (n.covers cursor ∧ (listener cursor).handle found event n = n.range :: found ∧
      ∀ outer ∈ found.head?, n.range.Within outer) ∨
    ((n.covers cursor → found ≠ []) ∧ (listener cursor).handle found event n = found) := by
  by_cases covers : n.covers cursor
  · cases found with
    | nil => exact .inl ⟨covers, by simp [listener, covers], by simp⟩
    | cons outer rest =>
        by_cases within : outer.start ≤ n.range.start ∧ n.range.stop ≤ outer.stop
        · exact .inl ⟨covers, by simp [listener, covers, within], by simpa [ByteRange.Within] using within⟩
        · exact .inr ⟨by simp, by simp only [listener, if_pos covers, if_neg within]⟩
  · exact .inr ⟨fun covers' => absurd covers' covers, if_neg covers⟩

/-- Ranges that a cursor touches, each within the next one. -/
structure Nested (cursor : Nat) (found : List ByteRange) : Prop where
  touches : ∀ r ∈ found, r.Contains cursor
  chain : found.IsChain ByteRange.Within

theorem Nested.handle {found : List ByteRange} (nested : Nested cursor found) (event : Event)
    (n : SyntaxNode) : Nested cursor ((listener cursor).handle found event n) := by
  rcases handle_cases cursor found event n with ⟨covers, added, within⟩ | ⟨-, kept⟩
  · rw [added]
    rw [SyntaxNode.covers, Bool.and_eq_true, decide_eq_true_eq, decide_eq_true_eq] at covers
    exact ⟨List.forall_mem_cons.mpr ⟨covers, nested.touches⟩,
      List.isChain_cons.mpr ⟨within, nested.chain⟩⟩
  · rw [kept]
    exact nested

theorem nested_run (cursor : Nat) (root : SyntaxNode) : Nested cursor ((listener cursor).run [] root) :=
  (listener cursor).run_induction ⟨List.forall_mem_nil _, .nil⟩
    (fun _ event n nested => nested.handle event n) root

/-- The outermost range is that of the first node that the cursor touches. -/
theorem getLast?_foldl (ts : List Site) (found : List ByteRange) :
    (ts.foldl (fun found t => (listener cursor).handle found .anyNode t.node) found).getLast? =
      found.getLast?.or ((ts.filter (·.node.covers cursor)).head?.map (·.node.range)) := by
  induction ts generalizing found with
  | nil => simp
  | cons t ts ih =>
      rw [List.foldl_cons, ih]
      rcases handle_cases cursor found .anyNode t.node with ⟨covers, added, -⟩ | ⟨some', kept⟩
      · rw [added, List.filter_cons, if_pos covers, List.getLast?_cons]
        cases found.getLast? with
        | none => rfl
        | some outer => rfl
      · rw [kept]
        by_cases covers : t.node.covers cursor
        · obtain ⟨outer, last⟩ := Option.isSome_iff_exists.mp (List.getLast?_isSome.mpr (some' covers))
          rw [last, Option.some_or, Option.some_or]
        · rw [List.filter_cons, if_neg covers]

theorem head?_ranges (root : SyntaxNode) (cursor : Nat) :
    (ranges root cursor).head? = (touched root cursor).head?.map (·.node.range) := by
  rw [ranges, List.head?_reverse, Listener.run_eq_foldl_sites rfl, getLast?_foldl]
  rfl

theorem isChain_ranges (root : SyntaxNode) (cursor : Nat) :
    (ranges root cursor).IsChain fun outer inner => inner.Within outer :=
  List.isChain_reverse.mpr (nested_run cursor root).chain

theorem touches_of_mem_ranges {r : ByteRange} (mem : r ∈ ranges root cursor) : r.Contains cursor :=
  (nested_run cursor root).touches r (List.mem_reverse.mp mem)

theorem ranges_eq_nil : ranges root cursor = [] ↔ touched root cursor = [] := by
  rw [← List.head?_eq_none_iff, head?_ranges, Option.map_eq_none_iff, List.head?_eq_none_iff]

/-- No range ends behind the first node that the cursor touches. -/
theorem stop_le_of_mem_ranges {limit : Nat}
    (first : ∀ t ∈ (touched root cursor).head?, t.node.range.stop ≤ limit) {r : ByteRange}
    (mem : r ∈ ranges root cursor) : r.stop ≤ limit := by
  refine (isChain_ranges root cursor).induction (·.stop ≤ limit) _ ?_ ?_ r mem
  · intro outer inner within le
    exact Nat.le_trans within.2 le
  · intro some'
    have head := head?_ranges root cursor
    rw [List.head?_eq_some_head some', eq_comm, Option.map_eq_some_iff] at head
    obtain ⟨t, mem, range_eq⟩ := head
    rw [← range_eq]
    exact first t mem

/-! ## Chains -/

theorem toList_foldl (rs : List PositionRange) (parent : Option SelectionRange) :
    ((rs.foldl (fun parent range => some ⟨range, parent⟩) parent).map SelectionRange.toList).getD [] =
      rs.reverse ++ (parent.map SelectionRange.toList).getD [] := by
  induction rs generalizing parent with
  | nil => rfl
  | cons r rs ih =>
      rw [List.foldl_cons, ih, List.reverse_cons, List.append_assoc]
      cases parent with
      | none => rfl
      | some outer => rfl

theorem toList_chain {rs : List PositionRange} (some' : rs ≠ []) (alone : SelectionRange) :
    ((chain rs).getD alone).toList = rs.reverse := by
  have listed := toList_foldl rs none
  rw [← chain] at listed
  cases chained : chain rs with
  | none =>
      rw [chained] at listed
      exact absurd (by simpa using listed.symm) some'
  | some selection => simpa [chained] using listed

section Around

variable {w : Workspace} {s : Source} {p : Position}

theorem toList_around_of_touched (some' : touched s.root (w.toOffset s p) ≠ []) :
    (around w s p).toList = (withoutRepeats
      ((ranges s.root (w.toOffset s p)).map (w.toPositionRange s))).reverse := by
  refine toList_chain (fun none' => some' (ranges_eq_nil.mp ?_)) _
  rw [← List.head?_eq_none_iff, head?_withoutRepeats, List.head?_eq_none_iff,
    List.map_eq_nil_iff] at none'
  exact none'

theorem toList_around_of_untouched (none' : touched s.root (w.toOffset s p) = []) :
    (around w s p).toList = [⟨p, p⟩] := by
  rw [around, ranges_eq_nil.mpr none']
  rfl

end Around

/-! ## What a client gets -/

/-- The positions of all places in the ranges around a cursor are in order: the text has not one line more
than clients can count, or the first node that the cursor touches does not end behind it. -/
def Placed (s : Source) (cursor : Nat) : Prop :=
  s.lineCount < UInt32.size ∨ ∀ t ∈ (touched s.root cursor).head?, t.node.range.stop ≤ s.byteLength

/-- What a client relies on in the selection for a position of a source. -/
structure Suits (w : Workspace) (s : Source) (p : Position) (selection : SelectionRange) : Prop where
  /-- Each range lies within its parent, and is not the same. -/
  nested : Placed s (w.toOffset s p) →
    selection.toList.IsChain fun inner outer => inner.Within outer ∧ inner ≠ outer
  /-- Ranges around the cursor are given if there are any. -/
  contains : Placed s (w.toOffset s p) → (∃ t ∈ s.root.sites, t.node.covers (w.toOffset s p)) →
    ∀ r ∈ selection.toList, r.Contains (w.toPosition s (w.toOffset s p))
  /-- The position is given by itself if there are none. -/
  alone : (∀ t ∈ s.root.sites, ¬t.node.covers (w.toOffset s p)) → selection.toList = [⟨p, p⟩]

theorem suits_around (w : Workspace) {s : Source} (bytes : s.byteLength < UInt32.size) (p : Position) :
    Suits w s p (around w s p) := by
  have ends (placed : Placed s (w.toOffset s p)) {r : ByteRange}
      (mem : r ∈ ranges s.root (w.toOffset s p)) :
      s.lineCount < UInt32.size ∨ r.stop ≤ s.byteLength :=
    placed.imp_right fun first => stop_le_of_mem_ranges first mem
  constructor
  · intro placed
    by_cases none' : touched s.root (w.toOffset s p) = []
    · rw [toList_around_of_untouched none']
      exact .singleton _
    rw [toList_around_of_touched none', List.isChain_reverse]
    have within : ((ranges s.root (w.toOffset s p)).map (w.toPositionRange s)).IsChain
        fun outer inner => inner.Within outer := by
      rw [List.isChain_map]
      refine (isChain_ranges _ _).imp_of_mem_imp fun outer inner outer_mem inner_mem nested => ?_
      exact s.within_toPositionRange bytes (ends placed outer_mem) nested (touches_of_mem_ranges inner_mem)
    exact (isChain_withoutRepeats within).imp fun outer inner ⟨held, differs⟩ => ⟨held, differs.symm⟩
  · rintro placed ⟨t, mem, covers⟩ r listed
    have some' : touched s.root (w.toOffset s p) ≠ [] :=
      List.ne_nil_of_mem (List.mem_filter.mpr ⟨mem, covers⟩)
    rw [toList_around_of_touched some', List.mem_reverse, mem_withoutRepeats] at listed
    obtain ⟨range, mem, rfl⟩ := List.mem_map.mp listed
    exact s.contains_toPositionRange bytes (ends placed mem) (touches_of_mem_ranges mem)
  · intro untouched
    exact toList_around_of_untouched (List.filter_eq_nil_iff.mpr untouched)

/-- The positions asked about get one selection each, in their order: nested ranges, all around the cursor,
or the position alone. -/
theorem selections_nested {w : Workspace} {path : String} {s : Source}
    (loaded : w.source? path = some s) (bytes : s.byteLength < UInt32.size)
    (positions : List Position) : ∃ selections,
      w.query (.selection path positions) = .selection (some selections) ∧
        List.Forall₂ (Suits w s) positions selections := by
  refine ⟨positions.map (around w s), ?_, ?_⟩
  · rw [Workspace.query, answer, loaded]
    rfl
  · rw [List.forall₂_map_right_iff, List.forall₂_same]
    exact fun p _ => suits_around w bytes p

/-- A node that reaches into the call before it, and over the end of the text, is passed over. -/
theorem selection_at_overlap :
    let call : SyntaxNode := .leaf .call ⟨0, 4⟩
    let beyond : SyntaxNode := .leaf .args ⟨3, 9⟩
    let s := Source.new "a.rb" "f(x)\n" ⟨.program, none, ⟨0, 5⟩, none, [some call, some beyond]⟩
    let w := (Workspace.empty .default).changes [.index s]
    w.source? "a.rb" = some s ∧ s.byteLength < UInt32.size ∧ ∃ selection,
      w.query (.selection "a.rb" [⟨0, 3⟩]) = .selection (some [selection]) ∧
        selection.toList.IsChain (fun inner outer => inner.Within outer ∧ inner ≠ outer) ∧
        ∀ r ∈ selection.toList, r.Contains (w.toPosition s 3) := by
  intro call beyond s w
  have loaded : w.source? "a.rb" = some s := Workspace.source?_changes_index .default s
  have bytes : s.byteLength < UInt32.size := by decide
  obtain ⟨selections, answered, suits⟩ := selections_nested loaded bytes [⟨0, 3⟩]
  obtain ⟨selection, rest, suit, none', rfl⟩ := List.forall₂_cons_left_iff.mp suits
  rw [List.forall₂_nil_left_iff.mp none'] at answered
  have placed : Placed s (w.toOffset s ⟨0, 3⟩) := .inl (by decide)
  have touches : ∃ t ∈ s.root.sites, t.node.covers (w.toOffset s ⟨0, 3⟩) :=
    ⟨⟨[], [], s.root⟩, List.mem_cons_self, rfl⟩
  exact ⟨loaded, bytes, selection, answered, suit.nested placed, suit.contains placed touches⟩

/-! ## Too many lines -/

/-- In a text of as many line feeds as fit 32 bits, a range that ends behind the text seems to end in the
first line, before the cursor that it was collected for. -/
theorem line_feeds_escape :
    let text := String.ofList (List.replicate 4294967295 '\n')
    let beyond : SyntaxNode := .leaf .statements ⟨0, 4294967296⟩
    let s := Source.new "a.rb" text ⟨.program, none, ⟨0, 0⟩, none, [some beyond]⟩
    let w := (Workspace.empty .default).changes [.index s]
    s.byteLength < UInt32.size ∧ beyond.covers (w.toOffset s ⟨0, 0⟩) ∧ ∃ selection,
      w.query (.selection "a.rb" [⟨0, 0⟩]) = .selection (some [selection]) ∧
        ¬∀ r ∈ selection.toList, r.Contains (w.toPosition s (w.toOffset s ⟨0, 0⟩)) := by
  intro text beyond s w
  have loaded : w.source? "a.rb" = some s := Workspace.source?_changes_index .default s
  have text_eq : s.text.toList = List.replicate 4294967295 '\n' := String.toList_ofList
  have bytes : s.byteLength = 4294967295 := by
    rw [Source.byteLength_eq, text_eq, Source.byteLength_lineFeeds]
  have count : s.lineCount = UInt32.size := by
    rw [Source.lineCount, s.lines_eq, List.size_toArray, text_eq]
    exact Source.length_linesFrom_lineFeeds 0 4294967295
  have at_end : w.toOffset s ⟨0, 0⟩ = s.byteLength := Source.toOffset_of_lineCount_eq count _ _
  have cursor : w.toOffset s ⟨0, 0⟩ = 4294967295 := at_end.trans bytes
  have fits : s.byteLength < UInt32.size := by
    rw [bytes]
    decide
  refine ⟨fits, by rw [cursor]; decide, around w s ⟨0, 0⟩, ?_, fun contains => ?_⟩
  · rw [Workspace.query, answer, loaded]
    rfl
  have touched_eq : touched s.root 4294967295 = [⟨[0], [s.root], beyond⟩] := rfl
  have outermost : beyond.range ∈ ranges s.root 4294967295 := by
    refine List.mem_of_head? ?_
    rw [head?_ranges, touched_eq]
    rfl
  have listed : w.toPositionRange s beyond.range ∈ (around w s ⟨0, 0⟩).toList := by
    rw [toList_around_of_touched (by rw [cursor, touched_eq]; simp), cursor, List.mem_reverse,
      mem_withoutRepeats]
    exact List.mem_map_of_mem outermost
  have past : s.byteLength < beyond.range.stop := by
    rw [bytes]
    decide
  have held := contains _ listed
  rw [at_end] at held
  exact Source.not_contains_of_lineCount_eq fits count past held

end Selection

end CodeAtlas
