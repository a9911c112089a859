import CodeAtlas.Proofs.Arena.Peak
import CodeAtlas.Proofs.PrefixIndex.Soundness

/-!
# The peak of a prefix index

Within an insertion the arena of the nodes only grows, and within a removal no slot is added to it. So a prefix
index has as many slots as it has had nodes at the same time, at most, since it came about or was last cleared.
-/

namespace CodeAtlas.PrefixIndex

open Arena (Grown)

variable {α β : Type}

namespace Graph

variable {σ : Type} {note : Cut → σ → σ} {s s' : σ} {g g' : Graph α} {h : Handle}

/-! ## Insertion -/

theorem nodes_update {f : Node α → Node α} (run : g.update h f = pure g') : g'.nodes = g.nodes.modify h f := by
  obtain ⟨_, -, same⟩ := Run.bind_eq_pure.mp run
  rw [← Run.pure_inj.mp same]

theorem nodes_alloc {n : Node α} (run : g.alloc n = pure (h, g')) : g'.nodes = (g.nodes.alloc n).2 := by
  simp only [alloc] at run
  split at run
  · cases Run.pure_inj.mp run
    rfl
  · cases run

theorem grown_store {v : α} {old : Option α} (run : g.store h v = pure (old, g')) :
    Grown g.nodes g'.nodes := by
  obtain ⟨_, -, run⟩ := Run.bind_eq_pure.mp run
  obtain ⟨g₁, updated, run⟩ := Run.bind_eq_pure.mp run
  have nodes_eq : g'.nodes = g₁.nodes := by
    cases Run.pure_inj.mp run
    split <;> rfl
  rw [nodes_eq, nodes_update updated]
  exact g.nodes.grown_modify h _

theorem grown_addLeaf {rest : List Char} {v : α} (run : g.addLeaf h rest v = pure g') :
    Grown g.nodes g'.nodes := by
  obtain ⟨⟨leaf, g₁⟩, allocated, run⟩ := Run.bind_eq_pure.mp run
  obtain ⟨g₂, updated, run⟩ := Run.bind_eq_pure.mp run
  cases Run.pure_inj.mp run
  rw [nodes_update updated, nodes_alloc allocated]
  exact (g.nodes.grown_alloc _).trans (Arena.grown_modify _ _ _)

theorem grown_split {position shared : Nat} {mid : Handle}
    (run : (g.split note h position shared).run s = pure ((mid, g'), s')) : Grown g.nodes g'.nodes := by
  obtain ⟨_, _, -, run⟩ := Noting.bind_eq_pure.mp run
  split at run
  · cases run
  · obtain ⟨_, _, -, run⟩ := Noting.bind_eq_pure.mp run
    obtain ⟨_, _, -, run⟩ := Noting.bind_eq_pure.mp run
    obtain ⟨⟨k, g₁⟩, _, allocated, run⟩ := Noting.bind_eq_pure.mp run
    obtain ⟨g₂, _, updated, run⟩ := Noting.bind_eq_pure.mp run
    obtain ⟨g₃, _, updated', run⟩ := Noting.bind_eq_pure.mp run
    cases Run.pure_inj.mp run
    rw [nodes_update (Noting.liftM_eq_pure.mp updated').1, nodes_update (Noting.liftM_eq_pure.mp updated).1,
      nodes_alloc (Noting.liftM_eq_pure.mp allocated).1]
    exact ((g.nodes.grown_alloc _).trans (Arena.grown_modify _ _ _)).trans (Arena.grown_modify _ _ _)

theorem grown_branchOff {o : Overlap} {below : List Char} {v : α}
    (run : (g.branchOff note h o below v).run s = pure (g', s')) : Grown g.nodes g'.nodes := by
  obtain ⟨⟨mid, g₁⟩, _, divided, run⟩ := Noting.bind_eq_pure.mp run
  refine (grown_split divided).trans ?_
  dsimp only at run
  split at run
  · obtain ⟨⟨old, g₂⟩, _, stored, run⟩ := Noting.bind_eq_pure.mp run
    cases Run.pure_inj.mp run
    exact grown_store (Noting.liftM_eq_pure.mp stored).1
  · exact grown_addLeaf (Noting.liftM_eq_pure.mp run).1

theorem grown_insertBelow {parent : Option Handle} {t : Tree α} (lives : t.LivesIn g.nodes parent)
    (valid : t.Valid) {rest : List Char} {v : α} {old : Option α}
    (run : (g.insertBelow note t.handle rest v).run s = pure ((old, g'), s')) : Grown g.nodes g'.nodes := by
  induction valid generalizing parent rest s with
  | @intro h l w ts labelled alive apart below ih =>
      have valid : (Tree.node h l w ts).Valid := .intro labelled alive apart below
      rw [Tree.handle_node] at run
      cases goesOn ts rest with
      | ends =>
          rw [insertBelow, if_pos rfl] at run
          exact grown_store (Noting.liftM_eq_pure.mp run).1
      | apart ne apart =>
          rw [insertBelow_of_apart lives ne apart] at run
          obtain ⟨g₁, _, added, run⟩ := Noting.bind_eq_pure.mp run
          cases Run.pure_inj.mp run
          exact grown_addLeaf (Noting.liftM_eq_pure.mp added).1
      | follows children ne =>
          subst children
          rw [insertBelow_of_follows lives valid ne] at run
          exact ih _ List.mem_append_cons_self (lives.child List.mem_append_cons_self) run
      | leaves children label ne ne' parted =>
          subst children
          rw [insertBelow_of_leaves lives valid label ne ne' parted] at run
          obtain ⟨_, _, -, run⟩ := Noting.bind_eq_pure.mp run
          obtain ⟨g₁, _, branched, run⟩ := Noting.bind_eq_pure.mp run
          cases Run.pure_inj.mp run
          exact grown_branchOff branched

/-- An insertion only adds nodes. -/
theorem grown_insert {t : Tree α} (bears : g.Bears t) {key : String} {v : α} {old : Option α}
    (run : g.insert key v = pure (old, g')) : Grown g.nodes g'.nodes := by
  rw [insert, insertNoting] at run
  split at run
  · cases Run.pure_inj.mp run
    exact .filled rfl (Nat.le_refl _)
  · rw [← bears.root, StateT.run'_eq, map_eq_pure_bind] at run
    obtain ⟨⟨_, _⟩, run, same⟩ := Run.bind_eq_pure.mp run
    cases Run.pure_inj.mp same
    exact grown_insertBelow bears.lives bears.valid run

/-! ## Removal -/

theorem size_slots_update {f : Node α → Node α} (run : g.update h f = pure g') :
    g'.nodes.slots.size = g.nodes.slots.size := by
  rw [nodes_update run]
  exact Array.size_modify

theorem get?_of_node {n : Node α} (run : g.node h = pure n) : g.nodes.get? h = some n := by
  rw [node] at run
  split at run
  · next live => rw [live, Run.pure_inj.mp run]
  · cases run

/-- Each step of the walk upwards releases a node, so the induction is on the nodes that are left. -/
theorem size_slots_prune (arena : g.nodes.WellFormed) (run : g.prune h = pure g') :
    g'.nodes.slots.size = g.nodes.slots.size := by
  induction left : g.nodes.count using Nat.strong_induction_on generalizing g h with
  | _ n ih =>
      rw [prune] at run
      split at run
      · rw [Run.pure_inj.mp run]
      · obtain ⟨node, here, run⟩ := Run.bind_eq_pure.mp run
        split at run
        · split at run
          · rw [Run.pure_inj.mp run]
          · next parent _ =>
              obtain ⟨g₁, updated, run⟩ := Run.bind_eq_pure.mp run
              have nodes_eq := nodes_update updated
              have arena₁ : g₁.nodes.WellFormed := nodes_eq ▸ arena.modify parent _
              have live : g₁.nodes.get? h ≠ none := by
                rw [nodes_eq, Arena.get?_modify, get?_of_node here]
                split <;> exact Option.some_ne_none _
              obtain ⟨node₁, here₁⟩ := Option.ne_none_iff_exists'.mp live
              have fewer : (g₁.nodes.release h).2.count < n := by
                rw [← left, ← arena.count_modify parent, ← nodes_eq, ← arena₁.count_release here₁]
                exact Nat.lt_succ_self _
              rw [ih _ fewer (arena₁.release h) run rfl, Arena.size_slots_release]
              exact size_slots_update updated
        · rw [Run.pure_inj.mp run]

/-- A removal adds no slot. -/
theorem size_slots_remove (arena : g.nodes.WellFormed) {key : String} {old : Option α}
    (run : g.remove key = pure (old, g')) : g'.nodes.slots.size = g.nodes.slots.size := by
  obtain ⟨found, -, run⟩ := Run.bind_eq_pure.mp run
  split at run
  · cases Run.pure_inj.mp run
    rfl
  · obtain ⟨node, -, run⟩ := Run.bind_eq_pure.mp run
    split at run
    · cases Run.pure_inj.mp run
      rfl
    · obtain ⟨g₁, updated, run⟩ := Run.bind_eq_pure.mp run
      obtain ⟨g₂, counted, run⟩ := Run.bind_eq_pure.mp run
      obtain ⟨g₃, pruned, run⟩ := Run.bind_eq_pure.mp run
      cases Run.pure_inj.mp run
      have nodes_eq : g₂.nodes = g₁.nodes := by
        rw [countDown] at counted
        split at counted
        · cases counted
        · cases Run.pure_inj.mp counted
          rfl
      have arena₂ : g₂.nodes.WellFormed := by
        rw [nodes_eq, nodes_update updated]
        exact arena.modify _ _
      rw [size_slots_prune arena₂ pruned, nodes_eq, size_slots_update updated]

/-- A write through a reference to a value adds no slot. -/
theorem size_slots_write {key : String} {v : α} {write : α → Graph α}
    (run : g.getMut? key = pure (some (v, write))) (w : α) :
    (write w).nodes.slots.size = g.nodes.slots.size := by
  obtain ⟨found, -, run⟩ := Run.bind_eq_pure.mp run
  split at run
  · cases Run.pure_inj.mp run
  · obtain ⟨node, -, run⟩ := Run.bind_eq_pure.mp run
    obtain ⟨v, -, ref⟩ := Option.map_eq_some_iff.mp (Run.pure_inj.mp run)
    cases ref
    exact Array.size_modify

/-! ## Edits -/

/-- An edit other than clearing lets the arena of the nodes grow, or adds no slot to it. -/
theorem grown_or_same_of_edit {t : Tree α} (bears : g.Bears t) {e : Edit α} (kept : e ≠ .clear)
    {answer : Option α} (run : g.edit e = pure (answer, g')) :
    Grown g.nodes g'.nodes ∨ g'.nodes.slots.size = g.nodes.slots.size := by
  cases e with
  | insert key v => exact .inl (grown_insert bears run)
  | remove key => exact .inr (size_slots_remove bears.arena run)
  | delete key =>
      obtain ⟨⟨old, g₁⟩, removed, run⟩ := Run.bind_eq_pure.mp run
      cases Run.pure_inj.mp run
      exact .inr (size_slots_remove bears.arena removed)
  | write key f =>
      obtain ⟨ref, found, run⟩ := Run.bind_eq_pure.mp run
      split at run
      · cases Run.pure_inj.mp run
        exact .inr rfl
      · cases Run.pure_inj.mp run
        exact .inr (size_slots_write found _)
  | clear => exact absurd rfl kept

end Graph

theorem wellFormed_nodes (ix : PrefixIndex α) : ix.graph.nodes.WellFormed := by
  obtain ⟨t, bears⟩ := ix.shaped
  exact bears.arena

theorem slots_edit (ix : PrefixIndex α) {e : Edit α} (kept : e ≠ .clear) :
    (ix.edit e).2.graph.nodes.slots.size =
      max (ix.edit e).2.graph.nodes.count ix.graph.nodes.slots.size := by
  have wf := (ix.edit e).2.wellFormed_nodes
  obtain ⟨t, bears⟩ := ix.shaped
  rcases Graph.grown_or_same_of_edit bears kept (ix.graph_edit e) with grown | same
  · exact wf.slots_of_grown grown
  · exact wf.slots_of_same same

theorem slots_empty :
    (empty : PrefixIndex α).graph.nodes.slots.size = (empty : PrefixIndex α).graph.nodes.count := by
  have total := (empty : PrefixIndex α).wellFormed_nodes.length_vacant_add_count
  exact total.symm.trans (Nat.zero_add _)

theorem edits_append_singleton (ix : PrefixIndex α) (es : List (Edit α)) (e : Edit α) :
    (ix.edits (es ++ [e])).2 = ((ix.edits es).2.edit e).2 := by
  induction es generalizing ix with
  | nil => rfl
  | cons first es ih => exact ih _

/-! ## Nodes since the last clearing -/

/-- The numbers of nodes that an index has had since it came about or was last cleared. -/
def nodeCounts (es : List (Edit α)) : Set Nat :=
  {n | ∃ past since, past ++ since = es ∧ .clear ∉ since ∧ (empty.edits past).2.graph.nodes.count = n}

theorem mem_nodeCounts_self (es : List (Edit α)) : (empty.edits es).2.graph.nodes.count ∈ nodeCounts es :=
  ⟨es, [], List.append_nil es, List.not_mem_nil, rfl⟩

theorem mem_nodeCounts_append {es : List (Edit α)} {e : Edit α} {n : Nat} :
    n ∈ nodeCounts (es ++ [e]) ↔
      n = (empty.edits (es ++ [e])).2.graph.nodes.count ∨ e ≠ .clear ∧ n ∈ nodeCounts es := by
  constructor
  · rintro ⟨past, since, whole, kept, rfl⟩
    rcases List.eq_nil_or_concat since with rfl | ⟨since, last, rfl⟩
    · rw [List.append_nil] at whole
      exact .inl (by rw [whole])
    · rw [List.concat_eq_append, ← List.append_assoc] at whole
      obtain ⟨front, rfl⟩ := List.append_singleton_inj.mp whole
      simp only [List.concat_eq_append, List.mem_append, List.mem_singleton, not_or] at kept
      exact .inr ⟨Ne.symm kept.2, past, since, front, kept.1, rfl⟩
  · rintro (rfl | ⟨kept, past, since, rfl, kept', rfl⟩)
    · exact mem_nodeCounts_self _
    · refine ⟨past, since ++ [e], (List.append_assoc _ _ _).symm, ?_, rfl⟩
      simp only [List.mem_append, List.mem_singleton, not_or]
      exact ⟨kept', Ne.symm kept⟩

/-- The number of slots is the greatest number of nodes since the last clearing. -/
theorem isGreatest_nodeCounts (es : List (Edit α)) :
    IsGreatest (nodeCounts es) (empty.edits es).2.graph.nodes.slots.size := by
  induction es using List.reverseRecOn with
  | nil =>
      refine ⟨⟨[], [], rfl, List.not_mem_nil, slots_empty.symm⟩, ?_⟩
      rintro _ ⟨past, since, none', -, rfl⟩
      rw [(List.append_eq_nil_iff.mp none').1]
      exact slots_empty.ge
  | append_singleton es e ih =>
      by_cases cleared : e = .clear
      · subst cleared
        have only : nodeCounts (es ++ [.clear]) = {(empty.edits (es ++ [.clear])).2.graph.nodes.count} := by
          ext n
          rw [mem_nodeCounts_append, or_iff_left fun kept => kept.1 rfl, Set.mem_singleton_iff]
        rw [only, edits_append_singleton]
        exact slots_empty ▸ isGreatest_singleton
      · have further : nodeCounts (es ++ [e]) =
            Insert.insert (empty.edits (es ++ [e])).2.graph.nodes.count (nodeCounts es) := by
          ext n
          rw [mem_nodeCounts_append, and_iff_right cleared, Set.mem_insert_iff]
        rw [further, edits_append_singleton, slots_edit _ cleared]
        exact ih.insert _

/-- Whatever is done with an arena that was empty, it has as many slots as there have been values in it at the
same time, and each handle that has been given out is below that number. So a prefix index has as many slots as
it has had nodes at the same time since it came about or was last cleared. -/
theorem slots_at_peak :
    (∀ ops : List (Arena.Operation β),
      IsGreatest (Arena.counts ops) (Arena.empty.run ops).2.slots.size ∧
      ∀ h, .handle h ∈ (Arena.empty.run ops).1 → h.index < (Arena.empty.run ops).2.slots.size) ∧
    ∀ es : List (Edit α), IsGreatest (nodeCounts es) (empty.edits es).2.graph.nodes.slots.size :=
  ⟨fun ops => ⟨Arena.isGreatest_counts ops, fun _ => Arena.index_lt_of_run⟩, isGreatest_nodeCounts⟩

end CodeAtlas.PrefixIndex
