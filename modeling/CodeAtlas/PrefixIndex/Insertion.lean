import CodeAtlas.PrefixIndex.Replacement

/-!
# Insertion in a graph

On a graph in which a valid tree lives, an insertion comes to an answer, and replaces the tree by the
one that the value has been inserted into. It cuts texts between characters only, and divides no label so
that a part of it is empty.
-/

namespace CodeAtlas.PrefixIndex

/-- The cut lies between two characters, and within a label it lies behind the first and before the last. -/
def Cut.IsClean : Cut → Prop
  | key rest offset => Text.IsBoundary offset rest
  | label text offset =>
      Text.IsBoundary offset text ∧ Text.takeBytes offset text ≠ [] ∧ Text.dropBytes offset text ≠ []

theorem Cut.isClean_key (xs ys : List Char) : (Cut.key (xs ++ ys) (Text.byteLength xs)).IsClean :=
  Text.isBoundary_append xs ys

theorem Cut.isClean_label {xs ys : List Char} (ne : xs ≠ []) (ne' : ys ≠ []) :
    (Cut.label (xs ++ ys) (Text.byteLength xs)).IsClean := by
  simp [Cut.IsClean, Text.isBoundary_append, ne, ne']

namespace Graph

open Text (commonPrefix byteLength)
open PrefixIndex.Tree (handle label LivesIn Inserts Replaced)

variable {α σ : Type} {g : Graph α} {parent : Option Handle} {h : Handle} {l rest : List Char}
  {w : Option α} {xs ys ts : List (Tree α)} {t : Tree α} {note : Cut → σ → σ}

/-! ## The edge to follow -/

/-- Edges that begin otherwise do not compete. -/
theorem foldlM_betterOverlap_of_apart {us : List (Tree α)}
    (lives : ∀ u ∈ us, u.LivesIn g.nodes parent)
    (apart : ∀ u ∈ us, commonPrefix u.label rest = []) (best : Option Overlap) (n : Nat) :
    ((us.map handle).zipIdx n).foldlM (g.betterOverlap rest) best = pure best := by
  induction us generalizing n with
  | nil => rfl
  | cons u us ih =>
      have here := (lives u (by simp)).get?_handle
      have none' : Text.commonPrefixLength u.label rest = 0 := by
        rw [← Text.byteLength_commonPrefix, apart u (by simp)]
        rfl
      have step : g.betterOverlap rest best (u.handle, n) = pure best := by
        simp [betterOverlap, node_eq here, none']
      simp only [List.map_cons, List.zipIdx_cons, List.foldlM_cons, step, pure_bind]
      exact ih (fun v hv => lives v (by simp [hv])) (fun v hv => apart v (by simp [hv])) (n + 1)

theorem longestOverlap_of_apart (lives : (Tree.node h l w ts).LivesIn g.nodes parent)
    (apart : ∀ t ∈ ts, commonPrefix t.label rest = []) :
    g.longestOverlap h rest = pure none := by
  simp only [longestOverlap, node_eq lives.get?, pure_bind]
  exact foldlM_betterOverlap_of_apart (fun t ht => lives.child ht) apart none 0

theorem longestOverlap_of_common (lives : (Tree.node h l w (xs ++ t :: ys)).LivesIn g.nodes parent)
    (valid : (Tree.node h l w (xs ++ t :: ys)).Valid) (common : commonPrefix t.label rest ≠ []) :
    g.longestOverlap h rest =
      pure (some ⟨xs.length, t.handle, byteLength (commonPrefix t.label rest)⟩) := by
  have apart := valid.apart_of_common common
  have here := (lives.child (t := t) List.mem_append_cons_self).get?_handle
  have positive : 0 < Text.commonPrefixLength t.label rest := by
    rw [← Text.byteLength_commonPrefix, Nat.pos_iff_ne_zero]
    exact fun e => common (Text.byteLength_eq_zero.mp e)
  have step : g.betterOverlap rest none (t.handle, xs.length) =
      pure (some ⟨xs.length, t.handle, byteLength (commonPrefix t.label rest)⟩) := by
    simp [betterOverlap, node_eq here, positive, Text.byteLength_commonPrefix]
  have before := foldlM_betterOverlap_of_apart
    (fun u (hu : u ∈ xs) => lives.sibling (List.mem_append_left ys hu))
    (fun u hu => apart u (List.mem_append_left ys hu)) none 0
  have behind := foldlM_betterOverlap_of_apart
    (fun u (hu : u ∈ ys) => lives.sibling (List.mem_append_right xs hu))
    (fun u hu => apart u (List.mem_append_right xs hu))
  simp only [longestOverlap, node_eq lives.get?, pure_bind, List.map_append, List.map_cons,
    List.zipIdx_append, List.zipIdx_cons, List.foldlM_append, before, List.foldlM_cons,
    List.length_map, Nat.zero_add, step]
  exact behind _ _

/-! ## The steps of an insertion -/

theorem store_eq (lives : (Tree.node h l w ts).LivesIn g.nodes parent) (v : α) :
    g.store h v = pure (w,
      { g with
        nodes := g.nodes.modify h fun node => { node with value := some v }
        size := if w.isNone then g.size + 1 else g.size }) := by
  simp only [store, node_eq lives.get?, update_eq lives.get?, pure_bind]
  cases w <;> rfl

theorem addLeaf_eq (arena : g.nodes.WellFormed)
    (lives : (Tree.node h l w ts).LivesIn g.nodes parent) (rest : List Char) (v : α) {k : Handle}
    {nodes' : Arena (Node α)} (added : g.nodes.alloc ⟨rest, some v, [], some h⟩ = (k, nodes')) :
    g.addLeaf h rest v = pure
      { g with
        nodes := nodes'.modify h fun node => { node with children := node.children ++ [k] }
        size := g.size + 1 } := by
  obtain ⟨-, vacant, get'⟩ := arena.of_alloc added
  have ne : h ≠ k := fun e => by simp [← e, lives.get?] at vacant
  have here : nodes'.get? h = some ⟨l, w, ts.map handle, parent⟩ := by
    rw [get', if_neg ne, lives.get?]
  simp [addLeaf, alloc_eq arena added, update_eq (g := { g with nodes := nodes' }) here]

theorem split_eq (arena : g.nodes.WellFormed)
    (lives : (Tree.node h l w (xs ++ t :: ys)).LivesIn g.nodes parent)
    (nodup : (Tree.node h l w (xs ++ t :: ys)).handles.Nodup) {front back : List Char}
    (label : t.label = front ++ back) {k : Handle} {nodes' : Arena (Node α)}
    (added : g.nodes.alloc ⟨front, none, [t.handle], some h⟩ = (k, nodes')) :
    g.split note h xs.length (byteLength front) = do
      modify (note (.label t.label (byteLength front)))
      return (k,
        { g with
          nodes := (nodes'.modify h fun node =>
            { node with children := node.children.set xs.length k }).modify t.handle
              fun node => { node with label := back, parent := some k } }) := by
  have here := (lives.child (t := t) List.mem_append_cons_self).get?_handle
  obtain ⟨-, vacant, get'⟩ := arena.of_alloc added
  have hk : h ≠ k := fun e => by simp [← e, lives.get?] at vacant
  have tk : t.handle ≠ k := fun e => by simp [← e, here] at vacant
  have ht : t.handle ≠ h := fun e =>
    Tree.not_mem_handles_of_child nodup List.mem_append_cons_self (e ▸ t.handle_mem_handles)
  have top : nodes'.get? h = some ⟨l, w, (xs ++ t :: ys).map handle, parent⟩ := by
    simp [get', hk, lives.get?]
  have child : (nodes'.modify h fun node =>
      { node with children := node.children.set xs.length k }).get? t.handle =
        some ⟨t.label, t.value, t.children.map handle, some h⟩ := by
    simp [Arena.get?_modify, get', ht, tk, here]
  have divided : Cut.make note (.label (front ++ back) (byteLength front)) = _ :=
    Cut.make_eq (cut_append front back)
  simp only [split, node_eq lives.get?, liftM_pure, pure_bind, List.map_append, List.map_cons,
    List.getElem?_append_right, List.length_map, Nat.le_refl, Nat.sub_self, List.getElem?_cons_zero,
    node_eq here, label, divided, bind_assoc, alloc_eq arena added]
  refine bind_congr fun _ => ?_
  rw [update_eq (g := { g with nodes := nodes' }) top, liftM_pure, pure_bind, update_eq child, liftM_pure,
    pure_bind]

/-- Where a key leaves an edge, the edge is divided and the value put there. -/
theorem branchOff_eq (arena : g.nodes.WellFormed)
    (lives : (Tree.node h l w (xs ++ t :: ys)).LivesIn g.nodes parent)
    (nodup : (Tree.node h l w (xs ++ t :: ys)).handles.Nodup) {front back below : List Char}
    (label : t.label = front ++ back) (ne : front ≠ []) (ne' : back ≠ [])
    (parted : commonPrefix back below = []) (v : α) :
    ∃ t' nodes',
      (∀ {σ : Type} (note : Cut → σ → σ),
        g.branchOff note h ⟨xs.length, t.handle, byteLength front⟩ below v = do
          modify (note (.label t.label (byteLength front)))
          return { g with nodes := nodes', size := g.size + 1 }) ∧
      nodes'.WellFormed ∧
      Inserts v (front ++ below) none (Tree.node h l w (xs ++ t :: ys)) t' ∧
      Replaced g.nodes nodes' parent (Tree.node h l w (xs ++ t :: ys)) t' := by
  cases added : g.nodes.alloc ⟨front, none, [t.handle], some h⟩ with
  | mk k nodes₁ =>
      obtain ⟨arena₁, -⟩ := arena.of_alloc added
      have divided := Replaced.divide arena lives nodup front back added
      have arena₂ := (arena₁.modify h fun node =>
        { node with children := node.children.set xs.length k }).modify t.handle
          fun node => { node with label := back, parent := some k }
      simp only [branchOff, split_eq arena lives nodup label added, bind_assoc, pure_bind]
      generalize (nodes₁.modify h fun node =>
        { node with children := node.children.set xs.length k }).modify t.handle
          (fun node => { node with label := back, parent := some k }) = nodes₂ at divided arena₂
      have livesMid := divided.lives.child List.mem_append_cons_self
      have nodupMid := (Tree.nodup_handles_append.mp divided.nodup).1
      by_cases atEnd : below = []
      · subst atEnd
        have stored := store_eq (g := { g with nodes := nodes₂ }) livesMid v
        simp only [if_pos, stored, liftM_pure, pure_bind, List.append_nil]
        exact ⟨_, _, fun _ => rfl, arena₂.modify k _, .divide label ne ne',
          divided.trans (.child divided.lives divided.nodup rfl
            (.store livesMid nodupMid (some v)))⟩
      · cases added' : nodes₂.alloc ⟨below, some v, [], some k⟩ with
        | mk k' nodes₃ =>
            obtain ⟨arena₃, -⟩ := arena₂.of_alloc added'
            have leaf := addLeaf_eq (g := { g with nodes := nodes₂ }) arena₂ livesMid below v added'
            simp only [if_neg atEnd, leaf, liftM_pure]
            exact ⟨_, _, fun _ => rfl, arena₃.modify k _, .branch label ne ne' atEnd parted,
              divided.trans (.child divided.lives divided.nodup rfl
                (.addLeaf arena₂ livesMid nodupMid below v added'))⟩

/-! ## Insertion below a node -/

/-- How a text goes on below a node. -/
inductive GoesOn (ts : List (Tree α)) : List Char → Prop
  | ends : GoesOn ts []
  /-- No edge begins as the text does. -/
  | apart {rest : List Char} (ne : rest ≠ []) (apart : ∀ t ∈ ts, commonPrefix t.label rest = []) :
      GoesOn ts rest
  | follows {xs ys : List (Tree α)} {t : Tree α} {below : List Char} (children : ts = xs ++ t :: ys)
      (ne : t.label ≠ []) : GoesOn ts (t.label ++ below)
  /-- The text leaves an edge in its middle. -/
  | leaves {xs ys : List (Tree α)} {t : Tree α} {front back below : List Char}
      (children : ts = xs ++ t :: ys) (label : t.label = front ++ back) (ne : front ≠ []) (ne' : back ≠ [])
      (parted : commonPrefix back below = []) : GoesOn ts (front ++ below)

theorem goesOn (ts : List (Tree α)) (rest : List Char) : GoesOn ts rest := by
  by_cases e : rest = []
  · rw [e]
    exact .ends
  · by_cases follow : ∃ t ∈ ts, commonPrefix t.label rest ≠ []
    · obtain ⟨t, mem, common⟩ := follow
      obtain ⟨xs, ys, children⟩ := List.append_of_mem mem
      -- The edge may end where it parts from the key, or go on with `back`.
      obtain ⟨back, below, label, rest_eq, parted⟩ := Text.exists_append_commonPrefix t.label rest
      by_cases whole : back = []
      · rw [whole, List.append_nil] at label
        rw [← label] at rest_eq common
        rw [rest_eq]
        exact .follows children common
      · rw [rest_eq]
        exact .leaves children label common whole parted
    · exact .apart e fun t ht => Decidable.byContradiction fun common => follow ⟨t, ht, common⟩

theorem insertBelow_of_apart (lives : (Tree.node h l w ts).LivesIn g.nodes parent) (ne : rest ≠ [])
    (apart : ∀ t ∈ ts, commonPrefix t.label rest = []) (v : α) :
    g.insertBelow note h rest v = do return (none, ← g.addLeaf h rest v) := by
  rw [insertBelow, if_neg ne, longestOverlap_of_apart lives apart, liftM_pure, pure_bind]

section Edge

variable (lives : (Tree.node h l w (xs ++ t :: ys)).LivesIn g.nodes parent)
  (valid : (Tree.node h l w (xs ++ t :: ys)).Valid)
include lives valid

theorem longestOverlap_of_front {front back below : List Char} (label : t.label = front ++ back)
    (ne : front ≠ []) (parted : commonPrefix back below = []) :
    g.longestOverlap h (front ++ below) = pure (some ⟨xs.length, t.handle, byteLength front⟩) := by
  have common : commonPrefix t.label (front ++ below) = front := by
    rw [label, Text.commonPrefix_append, parted, List.append_nil]
  have overlap := longestOverlap_of_common lives valid (by rwa [common])
  rwa [common] at overlap

theorem insertBelow_of_follows (ne : t.label ≠ []) (below : List Char) (v : α) :
    g.insertBelow note h (t.label ++ below) v = (do
      modify (note (.key (t.label ++ below) (byteLength t.label)))
      g.insertBelow note t.handle below v) := by
  have here := (lives.child (t := t) List.mem_append_cons_self).get?_handle
  have overlap := longestOverlap_of_front lives valid (List.append_nil _).symm ne
    (Text.commonPrefix_nil_left below)
  have made : Cut.make note (.key (t.label ++ below) (byteLength t.label)) = _ :=
    Cut.make_eq (cut_append t.label below)
  rw [insertBelow, if_neg fun e => ne (List.append_eq_nil_iff.mp e).1, overlap]
  simp only [liftM_pure, pure_bind, made, bind_assoc, node_eq here, if_true]

theorem insertBelow_of_leaves {front back below : List Char} (label : t.label = front ++ back)
    (ne : front ≠ []) (ne' : back ≠ []) (parted : commonPrefix back below = []) (v : α) :
    g.insertBelow note h (front ++ below) v = do
      modify (note (.key (front ++ below) (byteLength front)))
      return (none, ← g.branchOff note h ⟨xs.length, t.handle, byteLength front⟩ below v) := by
  have here := (lives.child (t := t) List.mem_append_cons_self).get?_handle
  have overlap := longestOverlap_of_front lives valid label ne parted
  have longer : byteLength front ≠ byteLength t.label := by
    rw [label, Text.byteLength_append]
    exact fun e => ne' (Text.byteLength_eq_zero.mp (by omega))
  have made : Cut.make note (.key (front ++ below) (byteLength front)) = _ :=
    Cut.make_eq (cut_append front below)
  rw [insertBelow, if_neg fun e => ne (List.append_eq_nil_iff.mp e).1, overlap]
  simp only [liftM_pure, pure_bind, made, bind_assoc, node_eq here, if_neg longer]

end Edge

/-- An insertion comes to an answer whatever notes are kept, makes clean cuts, and replaces the tree below the
node. -/
theorem insertBelow_eq (arena : g.nodes.WellFormed) (lives : t.LivesIn g.nodes parent)
    (nodup : t.handles.Nodup) (valid : t.Valid) (rest : List Char) (v : α) :
    ∃ cuts old t' nodes',
      (∀ {σ : Type} (note : Cut → σ → σ), g.insertBelow note t.handle rest v = do
        noteAll note cuts
        return (old,
          { g with nodes := nodes', size := if old.isNone then g.size + 1 else g.size })) ∧
      (∀ c ∈ cuts, c.IsClean) ∧
      nodes'.WellFormed ∧ Inserts v rest old t t' ∧ Replaced g.nodes nodes' parent t t' := by
  -- By induction on the tree. It alone decides the cuts, so they come before the notes that are kept of them.
  induction valid generalizing parent rest with
  | @intro h l w ts labelled alive apart below ih =>
      have valid : (Tree.node h l w ts).Valid := .intro labelled alive apart below
      rw [Tree.handle_node]
      cases goesOn ts rest with
      | ends =>
          refine ⟨[], w, _, _, fun note => ?_, List.forall_mem_nil _, arena.modify h _, .store,
            .store lives nodup (some v)⟩
          rw [insertBelow, if_pos rfl, store_eq lives]
          rfl
      | apart ne apart =>
          cases added : g.nodes.alloc ⟨rest, some v, [], some h⟩ with
          | mk k nodes' =>
              obtain ⟨arena', -⟩ := arena.of_alloc added
              refine ⟨[], none, _, _, fun note => ?_, List.forall_mem_nil _, arena'.modify h _,
                .leaf ne apart, .addLeaf arena lives nodup rest v added⟩
              rw [insertBelow_of_apart lives ne apart, addLeaf_eq arena lives rest v added, liftM_pure,
                pure_bind]
              rfl
      | @follows xs ys t behind children ne =>
          subst children
          have nodupT := (Tree.nodup_handles_append.mp nodup).1
          obtain ⟨cuts, old, t', nodes', run, clean, arena', inserts, replaced⟩ :=
            ih t List.mem_append_cons_self (lives.child List.mem_append_cons_self) nodupT behind
          have clean := List.forall_mem_cons.mpr ⟨Cut.isClean_key t.label behind, clean⟩
          refine ⟨_ :: cuts, old, _, nodes', fun note => ?_, clean, arena', .child inserts,
            .child lives nodup inserts.handle_eq replaced⟩
          rw [insertBelow_of_follows lives valid ne, run]
          rfl
      | @leaves xs ys t front back behind children label ne ne' parted =>
          subst children
          obtain ⟨t', nodes', run, arena', inserts, replaced⟩ :=
            branchOff_eq arena lives nodup label ne ne' parted v
          have cleanLabel : (Cut.label t.label (byteLength front)).IsClean := by
            rw [label]
            exact Cut.isClean_label ne ne'
          have clean := List.forall_mem_cons.mpr
            ⟨Cut.isClean_key front behind, List.forall_mem_singleton.mpr cleanLabel⟩
          refine ⟨_, none, t', nodes', fun note => ?_, clean, arena', inserts, replaced⟩
          rw [insertBelow_of_leaves lives valid label ne ne' parted, run]
          rfl

/-- Where a text leads to a value, another value put in its place is an insertion. -/
theorem replaced_of_leads {nodes : Arena (Node α)} {u : Tree α} {v : α}
    (lives : t.LivesIn nodes parent) (nodup : t.handles.Nodup) (leads : t.Leads rest u)
    (stored : u.value = some v) (w : α) :
    ∃ t', Inserts w rest (some v) t t' ∧
      Replaced nodes (nodes.modify u.handle fun node => { node with value := some w }) parent t t' := by
  induction leads generalizing parent with
  | @here t =>
      cases t with
      | node h l old ts =>
          cases stored
          exact ⟨_, .store, .store lives nodup (some w)⟩
  | child mem leads ih =>
      obtain ⟨xs, ys, rfl⟩ := List.append_of_mem mem
      obtain ⟨s', inserts, replaced⟩ :=
        ih (lives.child mem) (Tree.nodup_handles_append.mp nodup).1 stored
      exact ⟨_, .child inserts, .child lives nodup inserts.handle_eq replaced⟩

end Graph

end CodeAtlas.PrefixIndex
