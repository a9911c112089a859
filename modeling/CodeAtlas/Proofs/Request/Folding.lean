import CodeAtlas.Proofs.Syntax.Paths
import CodeAtlas.Proofs.Walk
import CodeAtlas.Proofs.Workspace
import CodeAtlas.Request
import Mathlib.Tactic.MkIffOfInductiveProp

/-!
# What folds

A folding range is listed for each node of a foldable kind that ends on a later line than it starts, in the
order of the tree. A call that ends in a block is left to its block. The block is judged by itself, so that a
call on several lines folds nowhere if its block stands on one of them.

In a tree with its ranges in their places, what folds is nested or lies apart.
-/

namespace CodeAtlas

open SyntaxNode (ChildrenInOrder Everywhere HoldsChildren Site)

/-- The last child of a node, if it is a block. -/
def SyntaxNode.endingBlock? (n : SyntaxNode) : Option SyntaxNode :=
  n.children.getLast?.filter (·.kind = .block)

/-- The same range for a client that folds whole lines. -/
def FoldingRange.withoutCharacters (f : FoldingRange) : FoldingRange :=
  { f with startCharacter := none, endCharacter := none }

/-- The workspace with its folding ranges told in whole lines or not. -/
def Workspace.withLineFolding (w : Workspace) (linesOnly : Bool) : Workspace :=
  { w with settings := { w.settings with lineFoldingOnly := linesOnly } }

namespace Folding

variable {place : ByteRange → PositionRange} {linesOnly : Bool} {n : SyntaxNode} {root : SyntaxNode}

/-- A node is folded as a whole. -/
@[mk_iff]
structure Folds (place : ByteRange → PositionRange) (n : SyntaxNode) : Prop where
  foldable : n.kind ∈ foldable
  /-- A call that ends in a block is left to it. -/
  whole : ¬(n.kind = .call ∧ n.endingBlock?.isSome)
  spans : (place n.range).SpansLines

instance : DecidablePred (Folds place) := fun n =>
  decidable_of_iff _ (folds_iff place n).symm

/-- The folding range of a whole node. -/
def ofNode (place : ByteRange → PositionRange) (n : SyntaxNode) : FoldingRange :=
  let range := place n.range
  ⟨range.start.line, some range.start.character, range.stop.line, some range.stop.character, n.name⟩

/-- Folding ranges as they are told to a client. -/
def tell (linesOnly : Bool) (folds : List FoldingRange) : List FoldingRange :=
  if linesOnly then folds.map FoldingRange.withoutCharacters else folds

/-! ## The listing -/

theorem endsInBlock_iff : endsInBlock n ↔ n.kind = .call ∧ n.endingBlock?.isSome := by
  rw [endsInBlock, SyntaxNode.endingBlock?, Bool.and_eq_true, beq_iff_eq]
  cases n.children.getLast? with
  | none => rfl
  | some last =>
      by_cases block : last.kind = .block
      · simp [block]
      · simp [block]

/-- What is told of a node of a foldable kind. -/
theorem ofNode?_eq (kind : n.kind ∈ foldable) : ofNode? place linesOnly n =
    if Folds place n then some (if linesOnly then (ofNode place n).withoutCharacters else ofNode place n)
    else none := by
  have skipped : (endsInBlock n || (place n.range).stop.line ≤ (place n.range).start.line) ↔
      ¬Folds place n := by
    rw [Bool.or_eq_true, decide_eq_true_eq, ← UInt32.not_lt, endsInBlock_iff, folds_iff,
      PositionRange.SpansLines]
    tauto
  rw [ofNode?]
  by_cases folds : Folds place n
  · rw [if_neg (fun skips => skipped.mp skips folds), if_pos folds]
    cases linesOnly with
    | true => rfl
    | false => rfl
  · rw [if_pos (skipped.mpr folds), if_neg folds]

/-- The sites of a tree whose nodes fold. -/
def folded (place : ByteRange → PositionRange) (root : SyntaxNode) : List Site :=
  root.sites.filter fun t => Folds place t.node

theorem reach_listener (found : List FoldingRange) : (listener place linesOnly).reach found n =
    if Folds place n then tell linesOnly [ofNode place n] ++ found else found := by
  have subscribed : Event.enter n.kind ∈ (listener place linesOnly).subscriptions ↔ n.kind ∈ foldable := by
    simp [listener]
  have unwanted : Event.anyNode ∉ (listener place linesOnly).subscriptions := by simp [listener]
  rw [Listener.reach, if_neg unwanted]
  by_cases kind : n.kind ∈ foldable
  · have handled : (listener place linesOnly).handle found (.enter n.kind) n =
        (ofNode? place linesOnly n).toList ++ found := rfl
    rw [if_pos (subscribed.mpr kind), handled, ofNode?_eq kind]
    split
    · cases linesOnly with
      | true => rfl
      | false => rfl
    · rfl
  · rw [if_neg (mt subscribed.mp kind), if_neg fun folds => kind folds.foldable]

theorem tell_append (folds folds' : List FoldingRange) :
    tell linesOnly (folds ++ folds') = tell linesOnly folds ++ tell linesOnly folds' := by
  cases linesOnly with
  | true => exact List.map_append
  | false => rfl

/-- Some sites add the folding ranges of those that fold, the last one in front. -/
theorem foldl_reach (ts : List Site) (found : List FoldingRange) :
    (ts.foldl (fun found t => (listener place linesOnly).reach found t.node) found).reverse =
      found.reverse ++
        tell linesOnly ((ts.filter fun t => Folds place t.node).map fun t => ofNode place t.node) := by
  induction ts generalizing found with
  | nil =>
      cases linesOnly with
      | true => exact (List.append_nil _).symm
      | false => exact (List.append_nil _).symm
  | cons t ts ih =>
      rw [List.foldl_cons, ih, reach_listener]
      by_cases folds : Folds place t.node
      · rw [if_pos folds, List.filter_cons_of_pos (by simpa using folds), List.map_cons,
          ← List.singleton_append, tell_append, List.reverse_append, List.append_assoc]
        cases linesOnly with
        | true => rfl
        | false => rfl
      · rw [if_neg folds, List.filter_cons_of_neg (by simpa using folds)]

theorem ranges_eq (place : ByteRange → PositionRange) (linesOnly : Bool) (root : SyntaxNode) :
    ranges place linesOnly root =
      tell linesOnly ((folded place root).map fun t => ofNode place t.node) := by
  have stays (kind : SyntaxKind) : Event.exit kind ∉ (listener place linesOnly).subscriptions := by
    simp [listener]
  rw [ranges, Listener.run_eq_foldl_reach stays, foldl_reach, folded]
  rfl

theorem query_folding {w : Workspace} {path : String} {s : Source} (loaded : w.source? path = some s) :
    w.query (.folding path) = .folding (some (tell w.settings.lineFoldingOnly
      ((folded (w.toPositionRange s) s.root).map fun t => ofNode (w.toPositionRange s) t.node))) := by
  rw [Workspace.query, answer, loaded, Option.map_some, ranges_eq]

theorem mem_folded {t : Site} : t ∈ folded place root ↔ t ∈ root.sites ∧ Folds place t.node := by
  rw [folded, List.mem_filter, decide_eq_true_eq]

/-- The nodes that fold are listed in the order of the tree, each once, and with the same lines and names for
clients that fold whole lines. In a tree with its ranges in their places a later one lies within an earlier
one, or starts no earlier than that ends. -/
theorem foldings_listed {w : Workspace} {path : String} {s : Source} (loaded : w.source? path = some s) :
    ∃ ts : List Site, ts.Pairwise Site.Precedes ∧
      (∀ t, t ∈ ts ↔ t ∈ s.root.sites ∧ Folds (w.toPositionRange s) t.node) ∧
      (∀ linesOnly, (w.withLineFolding linesOnly).query (.folding path) =
        .folding (some (tell linesOnly (ts.map fun t => ofNode (w.toPositionRange s) t.node)))) ∧
      (s.root.Everywhere HoldsChildren → s.root.Everywhere ChildrenInOrder →
        ts.Pairwise fun t t' =>
          t'.node.range.Within t.node.range ∨ t.node.range.stop ≤ t'.node.range.start) := by
  have ordered : (folded (w.toPositionRange s) s.root).Pairwise Site.Precedes :=
    s.root.pairwise_sites.filter _
  refine ⟨folded (w.toPositionRange s) s.root, ordered, fun t => mem_folded, fun linesOnly => ?_,
    fun holds inOrder => ?_⟩
  · exact query_folding (w := w.withLineFolding linesOnly) loaded
  · refine ordered.imp_of_mem fun {t t'} mem mem' precedes => ?_
    exact SyntaxNode.within_or_stop_le_start holds inOrder (SyntaxNode.mem_sites.mp (mem_folded.mp mem).1)
      (SyntaxNode.mem_sites.mp (mem_folded.mp mem').1) precedes

/-- A method in a class, and an array in it, which ends where its method ends. -/
theorem foldings_listed_array :
    let array : SyntaxNode := .leaf .array ⟨16, 25⟩
    let method : SyntaxNode := ⟨.methodDef, some "f", ⟨8, 25⟩, some ⟨12, 13⟩, [none, none, some array]⟩
    let root : SyntaxNode := ⟨.classDef, some "A", ⟨0, 29⟩, some ⟨6, 7⟩, [none, some method]⟩
    let s := Source.new "a.rb" "class A\ndef f\n [1,\n  2]\nend" root
    let w := (Workspace.empty .default).changes [.index s]
    w.source? "a.rb" = some s ∧ root.Everywhere HoldsChildren ∧ root.Everywhere ChildrenInOrder ∧
      ∃ ts : List Site, ⟨[1, 2], [root, method], array⟩ ∈ ts ∧
        (w.withLineFolding true).query (.folding "a.rb") =
          .folding (some (tell true (ts.map fun t => ofNode (w.toPositionRange s) t.node))) ∧
        ts.Pairwise fun t t' =>
          t'.node.range.Within t.node.range ∨ t.node.range.stop ≤ t'.node.range.start := by
  intro array method root s w
  have loaded : w.source? "a.rb" = some s := Workspace.source?_changes_index .default s
  have holds : root.Everywhere HoldsChildren := by decide
  have inOrder : root.Everywhere ChildrenInOrder := by decide
  have folds : Folds (w.toPositionRange s) array := by decide +kernel
  obtain ⟨ts, -, listed, told, laminar⟩ := foldings_listed loaded
  have below : ⟨[1, 2], [root, method], array⟩ ∈ root.sites :=
    SyntaxNode.mem_sites.mpr (.step rfl (.step rfl (.here array)))
  exact ⟨loaded, holds, inOrder, ts, (listed _).mpr ⟨below, folds⟩, told true, laminar holds inOrder⟩

/-! ## Calls with blocks -/

/-- A site is that of the block in which the node at another one ends. -/
structure IsEndingBlock (t b : Site) : Prop where
  place : ∃ i, b.place = t.place ++ [i]
  around : b.around = t.path
  node : t.node.endingBlock? = some b.node

theorem kind_of_endingBlock? {block : SyntaxNode} (ends : n.endingBlock? = some block) :
    block.kind = .block := by
  have block' := (Option.filter_eq_some_iff.mp ends).2
  rwa [decide_eq_true_eq] at block'

theorem exists_isEndingBlock {t : Site} (mem : t ∈ root.sites) {block : SyntaxNode}
    (ends : t.node.endingBlock? = some block) : ∃ b ∈ root.sites, IsEndingBlock t b ∧ b.node = block := by
  have last : block ∈ t.node.children :=
    List.mem_of_getLast? (Option.filter_eq_some_iff.mp ends).1
  obtain ⟨i, slot⟩ := SyntaxNode.mem_children_iff.mp last
  have way := (SyntaxNode.mem_sites.mp mem).trans (.step slot (.here block))
  exact ⟨⟨t.place ++ [i], t.path, block⟩, SyntaxNode.mem_sites.mpr way, ⟨⟨i, rfl⟩, rfl, ends⟩, rfl⟩

theorem folds_block (block : n.kind = .block) : Folds place n ↔ (place n.range).SpansLines := by
  rw [folds_iff, block]
  simp [foldable]

theorem folds_call (call : n.kind = .call) (spans : (place n.range).SpansLines) :
    Folds place n ↔ n.endingBlock? = none := by
  rw [folds_iff, call]
  simp [foldable, spans]

/-- A call on several lines folds, or its block does, if and only if the block takes several lines itself. -/
theorem folded_call_iff {t : Site} (mem : t ∈ root.sites) (call : t.node.kind = .call)
    (spans : (place t.node.range).SpansLines) :
    (t ∈ folded place root ∨ ∃ b ∈ folded place root, IsEndingBlock t b) ↔
      ∀ block ∈ t.node.endingBlock?, (place block.range).SpansLines := by
  have own : t ∈ folded place root ↔ t.node.endingBlock? = none := by
    rw [mem_folded, folds_call call spans]
    exact and_iff_right mem
  rw [own]
  cases ends : t.node.endingBlock? with
  | none => simp
  | some block =>
      have folds : Folds place block ↔ (place block.range).SpansLines :=
        folds_block (kind_of_endingBlock? ends)
      simp only [reduceCtorEq, false_or, Option.mem_some_iff, forall_eq']
      constructor
      · rintro ⟨b, mem, -, -, node⟩
        cases ends.symm.trans node
        exact folds.mp (mem_folded.mp mem).2
      · intro spans'
        obtain ⟨b, mem, isBlock, rfl⟩ := exists_isEndingBlock mem ends
        exact ⟨b, mem_folded.mpr ⟨mem, folds.mpr spans'⟩, isBlock⟩

/-- A call that takes several lines folds, or its block does, but where the block in which it ends stands on
one line. -/
theorem calls_fold_iff {w : Workspace} {path : String} {s : Source} (loaded : w.source? path = some s) :
    ∃ ts : List Site, (∀ t ∈ ts, t ∈ s.root.sites) ∧
      w.query (.folding path) = .folding (some (tell w.settings.lineFoldingOnly
        (ts.map fun t => ofNode (w.toPositionRange s) t.node))) ∧
      (∀ t ∈ s.root.sites, t.node.kind = .call → (w.toPositionRange s t.node.range).SpansLines →
        ((t ∈ ts ∨ ∃ b ∈ ts, IsEndingBlock t b) ↔
          ∀ block ∈ t.node.endingBlock?, (w.toPositionRange s block.range).SpansLines)) ∧
      (s.lineCount < UInt32.size → ∀ r : ByteRange,
        (w.toPositionRange s r).SpansLines ↔ s.lineNumber r.start < s.lineNumber r.stop) := by
  refine ⟨folded (w.toPositionRange s) s.root, fun t mem => (mem_folded.mp mem).1, query_folding loaded, ?_,
    fun lines r => Source.spansLines_iff lines r⟩
  intro t mem call spans
  exact folded_call_iff mem call spans

/-- A call is folded at its block, which takes two lines. -/
theorem calls_fold_each :
    let block : SyntaxNode := .leaf .block ⟨5, 15⟩
    let call : SyntaxNode := ⟨.call, some "each", ⟨0, 15⟩, some ⟨0, 4⟩, [none, some block]⟩
    let s := Source.new "a.rb" "each do |x|\nend" call
    let w := (Workspace.empty .default).changes [.index s]
    w.source? "a.rb" = some s ∧ (w.toPositionRange s call.range).SpansLines ∧ ∃ ts : List Site,
      w.query (.folding "a.rb") =
        .folding (some (ts.map fun t => ofNode (w.toPositionRange s) t.node)) ∧
      (⟨[], [], call⟩ ∈ ts ∨ ∃ b ∈ ts, IsEndingBlock ⟨[], [], call⟩ b) := by
  intro block call s w
  have loaded : w.source? "a.rb" = some s := Workspace.source?_changes_index .default s
  have spans : (w.toPositionRange s call.range).SpansLines := by decide +kernel
  have spans' : (w.toPositionRange s block.range).SpansLines := by decide +kernel
  obtain ⟨ts, -, told, folds, -⟩ := calls_fold_iff loaded
  have here : ⟨[], [], call⟩ ∈ s.root.sites := SyntaxNode.mem_sites.mpr (.here call)
  refine ⟨loaded, spans, ts, told, (folds _ here rfl spans).mpr ?_⟩
  rintro _ ⟨⟩
  exact spans'

/-- Nothing folds where the arguments of a call take two lines and its block stands on one. -/
theorem call_unfolded_before_block :
    let block : SyntaxNode := .leaf .block ⟨12, 17⟩
    let call : SyntaxNode :=
      ⟨.call, some "sum", ⟨0, 17⟩, some ⟨0, 3⟩, [none, some (.leaf .args ⟨3, 11⟩), some block]⟩
    let s := Source.new "a.rb" "sum(1,\n  2) { 3 }\n" ⟨.program, none, ⟨0, 18⟩, none, [some call]⟩
    let w := (Workspace.empty .default).changes [.index s]
    ⟨[0], [s.root], call⟩ ∈ s.root.sites ∧ (w.toPositionRange s call.range).SpansLines ∧
      w.query (.folding "a.rb") = .folding (some []) := by
  intro block call s w
  have loaded : w.source? "a.rb" = some s := Workspace.source?_changes_index .default s
  have below : ⟨[0], [s.root], call⟩ ∈ s.root.sites :=
    SyntaxNode.mem_sites.mpr (.step rfl (.here call))
  have nothing : (folded (w.toPositionRange s) s.root).map
      (fun t => ofNode (w.toPositionRange s) t.node) = [] := by decide +kernel
  refine ⟨below, by decide +kernel, ?_⟩
  rw [query_folding loaded, nothing]
  rfl

end Folding

end CodeAtlas
