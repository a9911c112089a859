import CodeAtlas.PrefixIndex.Replacement

/-!
# Walks through a graph

A walk keeps the nodes to be visited on a stack. Where each of them is the top of a tree, the walk
ends, and it meets node before children and children in order.
-/

namespace CodeAtlas.PrefixIndex.Graph

open PrefixIndex.Tree (handle LivesIn)

variable {α : Type} {g : Graph α}

/-! ## Entries -/

/-- The children of a node, each with its key. -/
theorem mapM_child_keys {parent : Option Handle} {ts : List (Tree α)}
    (lives : ∀ t ∈ ts, t.LivesIn g.nodes parent) (key : List Char) :
    ((ts.map handle).mapM fun child => do return (child, key ++ (← g.node child).label)) =
      (pure (ts.map fun t => (t.handle, key ++ t.label)) : Run (List (Handle × List Char))) := by
  induction ts with
  | nil => rfl
  | cons t ts ih =>
      have here := (lives t (by simp)).get?_handle
      have ih := ih fun u hu => lives u (by simp [hu])
      simp only [List.map_cons, List.mapM_cons, node_eq here, pure_bind, ih]

/-- A walk collects the entries of the trees on the stack, one tree after another. -/
theorem collectEntries_eq (stack : List (Tree α × List Char))
    (lives : ∀ s ∈ stack, ∃ parent, s.1.LivesIn g.nodes parent) (found : Array (String × α)) :
    g.collectEntries (stack.map fun s => (s.1.handle, s.2)) found =
      pure (found ++ ((stack.flatMap fun s => s.1.entries s.2).map
        fun e => (String.ofList e.1, e.2)).toArray) := by
  generalize size : ((stack.map Prod.fst).flatMap Tree.handles).length = n
  -- The stack may grow. What decreases is the number of nodes at and below those that wait on it.
  induction n using Nat.strongRecOn generalizing stack found with
  | ind n ih =>
      cases stack with
      | nil =>
          rw [List.map_nil, collectEntries]
          simp
      | cons s stack =>
          obtain ⟨⟨h, l, v, ts⟩, key⟩ := s
          obtain ⟨parent, livesT⟩ := lives _ List.mem_cons_self
          have below := mapM_child_keys (fun t ht => livesT.child ht) key
          have step := fun found' => ih _ (by
              simp only [← size, List.map_cons, List.map_append, List.map_map, Function.comp_def,
                List.map_id', List.flatMap_cons, List.flatMap_append, List.length_append,
                Tree.handles_node, List.length_cons]
              omega)
            (ts.map (fun t => (t, key ++ t.label)) ++ stack)
            (fun s hs => by
              rcases List.mem_append.mp hs with hs | hs
              · obtain ⟨t, ht, rfl⟩ := List.mem_map.mp hs
                exact ⟨_, livesT.child ht⟩
              · exact lives s (List.mem_cons_of_mem _ hs))
            found' rfl
          rw [List.map_cons, collectEntries]
          simp only [Tree.handle_node, node_eq livesT.get?, pure_bind, below]
          simp only [List.map_append, List.map_map, Function.comp_def] at step
          rw [step]
          cases v with
          | none => simp [List.flatMap_map]
          | some v => simp [List.flatMap_map]

/-! ## Values -/

/-- A step of the walk answers the first value and leaves the rest on the stack. -/
theorem next_eq (stack : List (Tree α)) (lives : ∀ t ∈ stack, ∃ parent, t.LivesIn g.nodes parent) :
    (stack.flatMap Tree.values = [] ∧ g.next (stack.map handle) = pure none) ∨
      ∃ v, ∃ rest : List (Tree α), stack.flatMap Tree.values = v :: rest.flatMap Tree.values ∧
        (∀ t ∈ rest, ∃ parent, t.LivesIn g.nodes parent) ∧
        g.next (stack.map handle) = pure (some (v, rest.map handle)) := by
  generalize size : (stack.flatMap Tree.handles).length = n
  induction n using Nat.strongRecOn generalizing stack with
  | ind n ih =>
      cases stack with
      | nil =>
          refine .inl ⟨rfl, ?_⟩
          rw [List.map_nil, next]
      | cons t stack =>
          obtain ⟨h, l, v, ts⟩ := t
          obtain ⟨parent, livesT⟩ := lives _ List.mem_cons_self
          have lives' : ∀ t ∈ ts ++ stack, ∃ parent, t.LivesIn g.nodes parent := fun t ht => by
            rcases List.mem_append.mp ht with ht | ht
            · exact ⟨_, livesT.child ht⟩
            · exact lives t (List.mem_cons_of_mem _ ht)
          rw [List.map_cons, next]
          simp only [Tree.handle_node, node_eq livesT.get?, pure_bind]
          cases v with
          | some v =>
              refine .inr ⟨v, ts ++ stack, ?_, lives', ?_⟩
              · simp [Tree.values_node]
              · simp
          | none =>
              have step := ih _ (by
                  simp only [← size, List.flatMap_cons, List.flatMap_append, List.length_append,
                    Tree.handles_node, List.length_cons]
                  omega)
                (ts ++ stack) lives' rfl
              simpa [Tree.values_node] using step

/-- A walk collects the values of the trees on the stack, one tree after another. -/
theorem collectValues_eq (stack : List (Tree α))
    (lives : ∀ t ∈ stack, ∃ parent, t.LivesIn g.nodes parent) (found : Array α) :
    g.collectValues (stack.map handle) found =
      pure (found ++ (stack.flatMap Tree.values).toArray) := by
  generalize size : (stack.flatMap Tree.values).length = n
  induction n generalizing stack found with
  | zero =>
      have none' : stack.flatMap Tree.values = [] := List.length_eq_zero_iff.mp size
      rcases next_eq stack lives with ⟨-, run⟩ | ⟨v, rest, values, -, -⟩
      · rw [collectValues, run]
        simp [none']
      · rw [values] at none'
        cases none'
  | succ n ih =>
      rcases next_eq stack lives with ⟨none', -⟩ | ⟨v, rest, values, lives', run⟩
      · rw [none'] at size
        cases size
      · have step := ih rest lives' (found.push v) (by
          rw [values] at size
          exact Nat.succ.inj size)
        rw [collectValues, run, values]
        simp only [pure_bind, step]
        simp

end CodeAtlas.PrefixIndex.Graph
