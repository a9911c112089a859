import CodeAtlas.Proofs.PrefixIndex.FiniteMap
import Mathlib.Data.List.Nodup

/-!
# Soundness of the graph

Edits of a graph that began empty come to an answer. They leave a graph in which each node hangs at its
place and none is stale, and on such a graph all questions have answers.
-/

namespace CodeAtlas.PrefixIndex

open Text (commonPrefix)

variable {α : Type}

namespace Tree

/-- A node with the trees below it, and the handle of its parent. -/
inductive Part (t : Tree α) : Option Handle → Tree α → Prop
  | top : Part t none t
  | child {p u s} (part : Part t p u) (mem : s ∈ u.children) : Part t (some u.handle) s

section Part

variable {t u : Tree α} {p : Option Handle}

theorem Part.livesIn {nodes : Arena (Node α)} (part : t.Part p u) (lives : t.LivesIn nodes none) :
    u.LivesIn nodes p := by
  induction part with
  | top => exact lives
  | @child p u s part mem ih =>
      cases u
      exact ih.child mem

theorem Part.valid (part : t.Part p u) (valid : t.Valid) : u.Valid := by
  induction part with
  | top => exact valid
  | @child p u s part mem ih =>
      cases u
      exact (ih.child mem).2.2

theorem map_handle_sublist (ts : List (Tree α)) : (ts.map handle).Sublist (ts.flatMap handles) := by
  induction ts with
  | nil => exact .slnil
  | cons t ts ih =>
      obtain ⟨h, l, v, us⟩ := t
      rw [List.map_cons, List.flatMap_cons, handles_node, handle_node, List.cons_append]
      exact (ih.trans (List.sublist_append_right _ _)).cons_cons h

theorem Part.nodup (part : t.Part p u) (nodup : t.handles.Nodup) : u.handles.Nodup := by
  induction part with
  | top => exact nodup
  | @child p u s part mem ih =>
      obtain ⟨h, l, v, us⟩ := u
      rw [handles_node] at ih
      exact (List.pairwise_flatMap.mp (List.nodup_cons.mp ih).2).1 s mem

theorem Part.nodup_children (part : t.Part p u) (nodup : t.handles.Nodup) :
    (u.children.map handle).Nodup := by
  have := part.nodup nodup
  obtain ⟨h, l, v, us⟩ := u
  rw [handles_node] at this
  exact (List.nodup_cons.mp this).2.sublist (map_handle_sublist us)

theorem Part.exists_part (part : t.Part p u) {k : Handle} (mem : k ∈ u.handles) :
    ∃ p' s, t.Part p' s ∧ s.handle = k := by
  induction u using values.induct generalizing p with
  | case1 h l v us ih =>
      rw [handles_node, List.mem_cons, List.mem_flatMap] at mem
      rcases mem with rfl | ⟨s, hs, mem⟩
      · exact ⟨p, _, part, rfl⟩
      · exact ih s hs (.child part hs) mem

end Part

/-- The nodes with a value are as many as the values. -/
theorem LivesIn.countP_handles {nodes : Arena (Node α)} {t : Tree α} {p : Option Handle}
    (lives : t.LivesIn nodes p) :
    (t.handles.countP fun k => ((nodes.get? k).bind Node.value).isSome) = t.values.length := by
  induction lives with
  | @intro p h l v ts here below ih =>
      have counts := congrArg List.sum (List.map_congr_left ih)
      rw [handles_node, values_node, List.countP_cons, List.countP_flatMap, List.length_append,
        List.length_flatMap, Function.comp_def, counts, here]
      cases v <;> simp [Nat.add_comm]

end Tree

namespace Graph

/-! ## Sound graphs -/

/-- The handles on the way from the root down to a node, behind the root. -/
inductive Path (g : Graph α) : List Handle → Handle → Prop
  | root : Path g [] g.root
  | child {hs h node k} (path : Path g hs h) (here : g.nodes.get? h = some node)
      (mem : k ∈ node.children) : Path g (hs ++ [k]) k

/-- The nodes of the graph hang below the root, each at one place, and none is useless or stale. -/
structure Sound (g : Graph α) : Prop where
  root : ∃ ks, g.nodes.get? g.root = some ⟨[], none, ks, none⟩
  labelled : ∀ h node, g.nodes.get? h = some node → h ≠ g.root → node.label ≠ []
  linked : ∀ h node, g.nodes.get? h = some node → h ≠ g.root →
    ∃ p above, node.parent = some p ∧ g.nodes.get? p = some above ∧ above.children.count h = 1 ∧
      ∀ q other, g.nodes.get? q = some other → h ∈ other.children → q = p
  apart : ∀ h node, g.nodes.get? h = some node → node.children.Pairwise fun j k =>
    ∀ a b, g.nodes.get? j = some a → g.nodes.get? k = some b → commonPrefix a.label b.label = []
  alive : ∀ h node, g.nodes.get? h = some node → h ≠ g.root → node.value ≠ none ∨ node.children ≠ []
  children : ∀ h node, g.nodes.get? h = some node → ∀ k ∈ node.children, g.nodes.get? k ≠ none
  parent : ∀ h node p, g.nodes.get? h = some node → node.parent = some p → g.nodes.get? p ≠ none
  reached : ∀ h node, g.nodes.get? h = some node → ∃! hs, g.Path hs h
  size : g.size = g.nodes.toList.countP fun e => e.2.value.isSome

section Sound

variable {g : Graph α} {t : Tree α} (bears : g.Bears t)

include bears

theorem Bears.mem_handles {h : Handle} : h ∈ t.handles ↔ ∃ node, g.nodes.get? h = some node := by
  rw [← Option.ne_none_iff_exists']
  refine ⟨bears.lives.get?_ne_none, fun live => ?_⟩
  by_contra out
  exact live (bears.vacant h out)

theorem Bears.exists_part {h : Handle} {node : Node α} (here : g.nodes.get? h = some node) :
    ∃ p u, t.Part p u ∧ u.handle = h ∧ node = ⟨u.label, u.value, u.children.map Tree.handle, p⟩ := by
  obtain ⟨p, u, part, rfl⟩ := Tree.Part.top.exists_part (bears.mem_handles.mpr ⟨node, here⟩)
  refine ⟨p, u, part, rfl, ?_⟩
  rw [(part.livesIn bears.lives).get?_handle] at here
  exact (Option.some.inj here).symm

/-- A node other than the root is a child. -/
theorem Bears.exists_child {h : Handle} {node : Node α} (here : g.nodes.get? h = some node)
    (ne : h ≠ g.root) :
    ∃ p r u, t.Part p r ∧ u ∈ r.children ∧ u.handle = h ∧
      node = ⟨u.label, u.value, u.children.map Tree.handle, some r.handle⟩ := by
  obtain ⟨p, u, part, rfl, rfl⟩ := bears.exists_part here
  cases part with
  | top => exact absurd bears.root ne
  | @child p r _ part mem => exact ⟨p, r, u, part, mem, rfl, rfl⟩

/-- A child is live, and its parent link names the node that has it. -/
theorem Bears.parent_eq {h k : Handle} {node : Node α} (here : g.nodes.get? h = some node)
    (mem : k ∈ node.children) : ∃ below, g.nodes.get? k = some below ∧ below.parent = some h := by
  obtain ⟨p, u, part, rfl, rfl⟩ := bears.exists_part here
  obtain ⟨s, hs, rfl⟩ := List.mem_map.mp mem
  exact ⟨_, ((Tree.Part.child part hs).livesIn bears.lives).get?_handle, rfl⟩

theorem Bears.root_eq : ∃ ks, g.nodes.get? g.root = some ⟨[], none, ks, none⟩ := by
  have := bears.lives.get?_handle
  rw [bears.root, bears.label, bears.value] at this
  exact ⟨_, this⟩

theorem Bears.exists_path {p : Option Handle} {u : Tree α} (part : t.Part p u) :
    ∃ hs, g.Path hs u.handle := by
  induction part with
  | top => exact ⟨[], bears.root ▸ .root⟩
  | @child p u s part mem ih =>
      obtain ⟨hs, path⟩ := ih
      exact ⟨_, path.child (part.livesIn bears.lives).get?_handle (List.mem_map_of_mem mem)⟩

theorem Bears.path_unique {hs hs' : List Handle} {h : Handle} (path : g.Path hs h)
    (path' : g.Path hs' h) : hs = hs' := by
  obtain ⟨ks, root⟩ := bears.root_eq
  -- The parent link of the last node leaves no choice of the step that leads to it.
  induction path generalizing hs' with
  | root =>
      cases path' with
      | root => rfl
      | child path' here' mem' =>
          obtain ⟨below, there, link⟩ := bears.parent_eq here' mem'
          rw [root] at there
          cases there
          cases link
  | @child hs h node k path here mem ih =>
      obtain ⟨below, there, link⟩ := bears.parent_eq here mem
      cases path' with
      | root =>
          rw [root] at there
          cases there
          cases link
      | child path' here' mem' =>
          obtain ⟨below', there', link'⟩ := bears.parent_eq here' mem'
          rw [there] at there'
          cases there'
          rw [link] at link'
          cases link'
          rw [ih path']

theorem Bears.size_eq : g.size = g.nodes.toList.countP fun e => e.2.value.isSome := by
  have members : ∀ k, k ∈ t.handles ↔ k ∈ g.nodes.toList.map Prod.fst := by
    intro k
    simp [bears.mem_handles, Arena.mem_toList]
  have valued : ∀ e ∈ g.nodes.toList,
      ((g.nodes.get? e.1).bind Node.value).isSome = e.2.value.isSome := fun e he => by
    rw [Arena.mem_toList.mp he, Option.bind_some]
  have same : t.handles.Perm (g.nodes.toList.map Prod.fst) :=
    (List.perm_ext_iff_of_nodup bears.nodup g.nodes.nodup_toList).mpr members
  rw [bears.size, ← bears.lives.countP_handles, same.countP_eq, List.countP_map]
  exact List.countP_congr fun e he => by rw [Function.comp_apply, valued e he]

theorem Bears.sound : g.Sound where
  root := bears.root_eq
  labelled h node here ne := by
    obtain ⟨p, r, u, part, mem, rfl, rfl⟩ := bears.exists_child here ne
    have valid := part.valid bears.valid
    cases r
    exact (valid.child mem).1
  linked h node here ne := by
    obtain ⟨p, r, u, part, mem, rfl, rfl⟩ := bears.exists_child here ne
    refine ⟨r.handle, _, rfl, (part.livesIn bears.lives).get?_handle, ?_, fun q other live mem' => ?_⟩
    · exact List.count_eq_one_of_mem (part.nodup_children bears.nodup) (List.mem_map_of_mem mem)
    · obtain ⟨_, there, link⟩ := bears.parent_eq live mem'
      rw [here] at there
      cases there
      exact (Option.some.inj link).symm
  apart h node here := by
    obtain ⟨p, u, part, rfl, rfl⟩ := bears.exists_part here
    have lives := fun s hs => ((Tree.Part.child (s := s) part hs).livesIn bears.lives).get?_handle
    have valid := part.valid bears.valid
    obtain ⟨h, l, v, us⟩ := u
    have ⟨_, _, apart, _⟩ := valid
    rw [List.pairwise_map]
    refine apart.imp_of_mem fun {s s'} hs hs' apart a b ha hb => ?_
    rw [lives s hs] at ha
    rw [lives s' hs'] at hb
    cases ha
    cases hb
    exact apart
  alive h node here ne := by
    obtain ⟨p, r, u, part, mem, rfl, rfl⟩ := bears.exists_child here ne
    have valid := part.valid bears.valid
    cases r
    have alive := (valid.child mem).2.1
    rw [Tree.IsDead, not_and_or] at alive
    exact alive.imp_right fun ne none' => ne (List.map_eq_nil_iff.mp none')
  children h node here k mem := by
    obtain ⟨below, there, -⟩ := bears.parent_eq here mem
    rw [there]
    exact Option.some_ne_none _
  parent h node p here link := by
    obtain ⟨p', u, part, rfl, rfl⟩ := bears.exists_part here
    cases part with
    | top => cases link
    | @child _ r _ part mem =>
        cases link
        rw [(part.livesIn bears.lives).get?_handle]
        exact Option.some_ne_none _
  reached h node here := by
    obtain ⟨p, u, part, rfl, -⟩ := bears.exists_part here
    obtain ⟨hs, path⟩ := bears.exists_path part
    exact ⟨hs, path, fun hs' path' => bears.path_unique path' path⟩
  size := bears.size_eq

end Sound

/-! ## Edits -/

def edit (g : Graph α) : Edit α → Run (Option α × Graph α)
  | .insert key v => g.insert key v
  | .remove key => g.remove key
  | .delete key => do return (none, (← g.remove key).2)
  | .write key f => do
      match ← g.getMut? key with
      | none => return (none, g)
      | some (v, write) => return (some v, write (f v))
  | .clear => return (none, empty)

def edits (g : Graph α) : List (Edit α) → Run (List (Option α) × Graph α)
  | [] => return ([], g)
  | e :: es => do
      let (answer, g) ← g.edit e
      let (answers, g) ← g.edits es
      return (answer :: answers, g)

end Graph

theorem graph_getMut? (ix : PrefixIndex α) (key : String) :
    ix.graph.getMut? key =
      pure ((ix.getMut? key).map fun ref => (ref.1, fun w => (ref.2 w).graph)) := by
  refine (Run.eq_pure_answer (ix.getMut?_ends key)).trans (congrArg pure ?_)
  rw [getMut?]
  split <;> rename_i h <;> exact h

/-- An edit of a prefix index is the edit of its graph, which comes to an answer. -/
theorem graph_edit (ix : PrefixIndex α) (e : Edit α) :
    ix.graph.edit e = pure ((ix.edit e).1, (ix.edit e).2.graph) := by
  cases e with
  | insert key v => exact Run.eq_pure_answer (ix.insert_ends key v)
  | remove key => exact Run.eq_pure_answer (ix.remove_ends key)
  | delete key =>
      rw [Graph.edit, Run.eq_pure_answer (ix.remove_ends key)]
      rfl
  | write key f =>
      rw [Graph.edit, graph_getMut?, pure_bind, edit]
      cases ix.getMut? key <;> rfl
  | clear => rfl

theorem graph_edits (ix : PrefixIndex α) (es : List (Edit α)) :
    ix.graph.edits es = pure ((ix.edits es).1, (ix.edits es).2.graph) := by
  induction es generalizing ix with
  | nil => rfl
  | cons e es ih =>
      simp only [Graph.edits, graph_edit, pure_bind, ih]
      rfl

/-- Edits of a graph that began empty come to an answer. The graph that they leave is sound, and so no
question that is put to it, and no further edit, stops at a fault or never ends. -/
theorem edits_sound (es : List (Edit α)) :
    ∃ answers g, Graph.empty.edits es = pure (answers, g) ∧ g.Sound ∧
      (∀ e, (g.edit e).Ends) ∧ (∀ key, (g.get? key).Ends ∧ (g.getMut? key).Ends) ∧
      ∀ start, (g.entries start).Ends ∧
        (do g.collectValues (← g.startAt start) #[] : Run (Array α)).Ends := by
  let ix := (empty.edits es).2
  obtain ⟨t, bears⟩ := ix.shaped
  refine ⟨_, ix.graph, graph_edits empty es, bears.sound, fun e => ⟨_, ix.graph_edit e⟩,
    fun key => ⟨ix.get?_ends key, ix.getMut?_ends key⟩, fun start => ⟨ix.entries_ends start, ?_⟩⟩
  rw [Run.eq_pure_answer (ix.startAt_ends start), pure_bind]
  exact (ix.iter start).collect_ends

end CodeAtlas.PrefixIndex
