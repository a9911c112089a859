import CodeAtlas.PrefixIndex.Replacement

/-!
# Removal from a graph

On a graph in which a tree lives, a removal takes the value from its node and releases the nodes that
are dead then. The walk upwards ends at the first node that is not.
-/

namespace CodeAtlas.PrefixIndex.Graph

open PrefixIndex.Tree (handle LivesIn Erases Replaced)

variable {α : Type} {g : Graph α} {parent : Option Handle} {h k : Handle} {l rest : List Char}
  {w : Option α} {xs ys ts : List (Tree α)} {t u : Tree α}

theorem isDead_iff (t : Tree α) (parent : Option Handle) :
    (Node.mk t.label t.value (t.children.map handle) parent).isDead = true ↔ t.IsDead := by
  simp [Node.isDead, Tree.IsDead]

theorem prune_root : g.prune g.root = pure g := by
  rw [prune, if_pos rfl]

/-- The walk upwards stops at a node that is not dead. -/
theorem prune_of_alive (lives : t.LivesIn g.nodes parent) (alive : ¬t.IsDead) :
    g.prune t.handle = pure g := by
  rw [prune]
  split
  · rfl
  · simp only [node_eq lives.get?_handle, pure_bind]
    rw [if_neg fun dead => alive ((isDead_iff t parent).mp dead)]

/-- The walk upwards releases a dead node and passes to the node above. -/
theorem prune_of_dead
    (lives : (Tree.node h l w (xs ++ Tree.node k rest none [] :: ys)).LivesIn g.nodes parent)
    (inner : k ≠ g.root) :
    g.prune k = Graph.prune
      { g with
        nodes := ((g.nodes.modify h fun node =>
          { node with children := node.children.filter (· ≠ k) }).release k).2 } h := by
  have here := (lives.child (t := .node k rest none []) List.mem_append_cons_self).get?
  rw [prune, if_neg inner]
  simp [node_eq here, update_eq lives.get?, Node.isDead]

/-- Where a text leads to a value, the walk upwards from there goes on above the tree as it would if
the tree had been replaced. -/
theorem prune_of_leads {v : α} (arena : g.nodes.WellFormed) (lives : t.LivesIn g.nodes parent)
    (nodup : t.handles.Nodup) (root : ∀ s ∈ t.children, g.root ∉ s.handles)
    (leads : t.Leads rest u) (stored : u.value = some v) :
    ∃ t' nodes', Erases v rest t t' ∧ nodes'.WellFormed ∧ Replaced g.nodes nodes' parent t t' ∧
      Graph.prune
        { g with nodes := g.nodes.modify u.handle fun node => { node with value := none } }
        u.handle = Graph.prune { g with nodes := nodes' } t.handle := by
  induction leads generalizing parent with
  | @here t =>
      cases t with
      | node h l w ts =>
          cases stored
          exact ⟨_, _, .here, arena.modify h _, .store lives nodup none, rfl⟩
  | @child h l w ts s rest u mem leads ih =>
      obtain ⟨xs, ys, rfl⟩ := List.append_of_mem mem
      have outside : g.root ∉ s.handles := root s mem
      have outside' : ∀ r ∈ s.children, g.root ∉ r.handles := fun r hr hk => by
        cases s
        exact outside (Tree.mem_handles_of_child hr hk)
      obtain ⟨s', nodes', erases, arena', replaced, run⟩ :=
        ih (lives.child mem) (Tree.nodup_handles_append.mp nodup).1 outside' stored
      have above := Replaced.child lives nodup erases.handle_eq replaced
      -- The walk has come up to `s`. It goes on only if the removal has left nothing there.
      by_cases dead : s'.IsDead
      · cases s' with
        | node k lk vk us =>
            obtain ⟨rfl, rfl⟩ := dead
            have same : k = s.handle := erases.handle_eq
            have inner : k ≠ g.root := fun e => outside (e ▸ same ▸ s.handle_mem_handles)
            have dropped := Replaced.drop above.lives above.nodup
            refine ⟨_, _, .pruned erases ⟨rfl, rfl⟩, (arena'.modify h _).release k,
              above.trans dropped, ?_⟩
            rw [run, ← same, prune_of_dead (g := { g with nodes := nodes' }) above.lives inner]
            rfl
      · refine ⟨_, _, .kept erases dead, arena', above, ?_⟩
        have stop := prune_of_alive (g := { g with nodes := nodes' }) replaced.lives dead
        have stop' := prune_of_alive (g := { g with nodes := nodes' }) above.lives (by simp)
        rw [run, ← erases.handle_eq, stop]
        exact stop'.symm

end CodeAtlas.PrefixIndex.Graph
