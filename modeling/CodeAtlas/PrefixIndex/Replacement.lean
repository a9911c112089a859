import CodeAtlas.PrefixIndex.Tree

/-!
# Trees in an arena

A tree lives in an arena if each of its nodes stands at its handle, with the handles of its children
and of its parent. A change of the arena that replaces one tree by another and touches nothing else
is a replacement. Replacements compose, and a replacement of a child is one of the whole tree.
-/

namespace CodeAtlas.PrefixIndex.Tree

variable {α : Type} {nodes nodes' nodes'' : Arena (Node α)} {parent : Option Handle}

/-- Each node of the tree stands at its handle, and the top has the given parent. -/
inductive LivesIn (nodes : Arena (Node α)) : Option Handle → Tree α → Prop
  | intro {parent h l v ts} (here : nodes.get? h = some ⟨l, v, ts.map handle, parent⟩)
      (below : ∀ t ∈ ts, LivesIn nodes (some h) t) : LivesIn nodes parent (node h l v ts)

/-- One tree has taken the place of another in the arena, and nothing else has changed. -/
structure Replaced (nodes nodes' : Arena (Node α)) (parent : Option Handle) (t t' : Tree α) :
    Prop where
  lives : t'.LivesIn nodes' parent
  nodup : t'.handles.Nodup
  fresh : ∀ k ∈ t'.handles, k ∈ t.handles ∨ nodes.get? k = none
  freed : ∀ k ∈ t.handles, k ∈ t'.handles ∨ nodes'.get? k = none
  frame : ∀ k, k ∉ t.handles → k ∉ t'.handles → nodes'.get? k = nodes.get? k

theorem LivesIn.get? {h : Handle} {l : List Char} {v : Option α} {ts : List (Tree α)}
    (lives : (node h l v ts).LivesIn nodes parent) :
    nodes.get? h = some ⟨l, v, ts.map handle, parent⟩ := by
  cases lives with
  | intro here below => exact here

theorem LivesIn.get?_handle {t : Tree α} (lives : t.LivesIn nodes parent) :
    nodes.get? t.handle = some ⟨t.label, t.value, t.children.map handle, parent⟩ := by
  cases t
  exact lives.get?

theorem LivesIn.child {h : Handle} {l : List Char} {v : Option α} {ts : List (Tree α)} {t : Tree α}
    (lives : (node h l v ts).LivesIn nodes parent) (mem : t ∈ ts) : t.LivesIn nodes (some h) := by
  cases lives with
  | intro here below => exact below t mem

/-- A tree lives on where its cells stay as they are. -/
theorem LivesIn.congr {t : Tree α} (lives : t.LivesIn nodes parent)
    (same : ∀ k ∈ t.handles, nodes'.get? k = nodes.get? k) : t.LivesIn nodes' parent := by
  induction lives with
  | intro here below ih =>
      simp only [handles_node, List.mem_cons, List.mem_flatMap] at same
      refine .intro ((same _ (.inl rfl)).trans here) fun t ht => ih t ht fun k hk => ?_
      exact same k (.inr ⟨t, ht, hk⟩)

theorem LivesIn.get?_ne_none {t : Tree α} (lives : t.LivesIn nodes parent) {k : Handle}
    (mem : k ∈ t.handles) : nodes.get? k ≠ none := by
  induction lives with
  | intro here below ih =>
      simp only [handles_node, List.mem_cons, List.mem_flatMap] at mem
      rcases mem with rfl | ⟨t, ht, hk⟩
      · simp [here]
      · exact ih t ht hk

theorem mem_handles_of_child {h k : Handle} {l : List Char} {v : Option α} {ts : List (Tree α)}
    {t : Tree α} (mem : t ∈ ts) (hk : k ∈ t.handles) : k ∈ (node h l v ts).handles := by
  rw [handles_node]
  exact List.mem_cons_of_mem _ (List.mem_flatMap.mpr ⟨t, mem, hk⟩)

theorem not_mem_handles_of_child {h : Handle} {l : List Char} {v : Option α} {ts : List (Tree α)}
    {t : Tree α} (nodup : (node h l v ts).handles.Nodup) (mem : t ∈ ts) : h ∉ t.handles := by
  rw [handles_node, List.nodup_cons] at nodup
  exact fun hk => nodup.1 (List.mem_flatMap.mpr ⟨t, mem, hk⟩)

/-- A tree lives on below another parent and behind another label. -/
theorem LivesIn.move {t : Tree α} {back : List Char} {parent' : Option Handle}
    (lives : t.LivesIn nodes parent) (nodup : t.handles.Nodup)
    (top : nodes'.get? t.handle =
      (nodes.get? t.handle).map fun node => { node with label := back, parent := parent' })
    (same : ∀ k ∈ t.handles, k ≠ t.handle → nodes'.get? k = nodes.get? k) :
    (t.relabel back).LivesIn nodes' parent' := by
  cases lives with
  | @intro _ h _ _ _ here below =>
      rw [handle_node, here] at top
      refine .intro top fun u hu => (below u hu).congr fun k hk => ?_
      have ne : k ≠ h := fun e => not_mem_handles_of_child nodup hu (e ▸ hk)
      exact same k (mem_handles_of_child hu hk) ne

/-! ## A child among its siblings -/

section Siblings

variable {h : Handle} {l : List Char} {w : Option α} {xs ys : List (Tree α)} {t t' : Tree α}

theorem mem_handles_append {k : Handle} :
    k ∈ (node h l w (xs ++ t :: ys)).handles ↔
      k ∈ t.handles ∨ k ∈ (node h l w (xs ++ ys)).handles := by
  simp only [handles_node, List.flatMap_append, List.flatMap_cons, List.mem_cons, List.mem_append]
  constructor
  · rintro (h | h | h | h) <;> simp [h]
  · rintro (h | h | h | h) <;> simp [h]

theorem nodup_handles_append :
    (node h l w (xs ++ t :: ys)).handles.Nodup ↔
      t.handles.Nodup ∧ (node h l w (xs ++ ys)).handles.Nodup ∧
        ∀ k ∈ t.handles, k ∉ (node h l w (xs ++ ys)).handles := by
  have perm : ((node h l w (xs ++ t :: ys)).handles).Perm
      (t.handles ++ (node h l w (xs ++ ys)).handles) := by
    simp only [handles_node, List.flatMap_append, List.flatMap_cons]
    refine (List.Perm.cons h ?_).trans List.perm_middle.symm
    rw [← List.append_assoc, ← List.append_assoc]
    exact List.perm_append_comm.append_right _
  rw [perm.nodup_iff, List.nodup_append]
  refine and_congr_right fun _ => and_congr_right fun _ => ?_
  exact ⟨fun h k hk hk' => h k hk k hk' rfl, fun h k hk k' hk' e => h k hk (e ▸ hk')⟩

/-- Around a child stands what is left of the tree without it. -/
theorem LivesIn.sibling (lives : (node h l w (xs ++ t :: ys)).LivesIn nodes parent) {u : Tree α}
    (mem : u ∈ xs ++ ys) : u.LivesIn nodes (some h) :=
  lives.child (by
    rcases List.mem_append.mp mem with hu | hu <;> simp [hu])

end Siblings

/-! ## Replacements -/

theorem Replaced.trans {t t' t'' : Tree α} (first : Replaced nodes nodes' parent t t')
    (second : Replaced nodes' nodes'' parent t' t'') : Replaced nodes nodes'' parent t t'' := by
  refine ⟨second.lives, second.nodup, fun k hk => ?_, fun k hk => ?_, fun k hk hk'' => ?_⟩
  · by_cases old : k ∈ t.handles
    · exact .inl old
    · rcases second.fresh k hk with mid | vacant
      · exact first.fresh k mid
      · by_cases mid : k ∈ t'.handles
        · exact first.fresh k mid
        · exact .inr ((first.frame k old mid).symm.trans vacant)
  · by_cases new : k ∈ t''.handles
    · exact .inl new
    · rcases first.freed k hk with mid | vacant
      · exact second.freed k mid
      · by_cases mid : k ∈ t'.handles
        · exact second.freed k mid
        · exact .inr ((second.frame k mid new).trans vacant)
  · by_cases mid : k ∈ t'.handles
    · have before := (first.fresh k mid).resolve_left hk
      have after := (second.freed k mid).resolve_left hk''
      rw [before, after]
    · exact (second.frame k mid hk'').trans (first.frame k hk mid)

section Steps

variable {h : Handle} {l : List Char} {w : Option α} {xs ys ts : List (Tree α)} {t t' : Tree α}

/-- A replacement of a child replaces the tree. -/
theorem Replaced.child (lives : (node h l w (xs ++ t :: ys)).LivesIn nodes parent)
    (nodup : (node h l w (xs ++ t :: ys)).handles.Nodup) (handle_eq : t'.handle = t.handle)
    (replaced : Replaced nodes nodes' (some h) t t') :
    Replaced nodes nodes' parent (node h l w (xs ++ t :: ys)) (node h l w (xs ++ t' :: ys)) := by
  obtain ⟨-, nodupR, disjoint⟩ := nodup_handles_append.mp nodup
  have live : ∀ k ∈ (node h l w (xs ++ ys)).handles, nodes.get? k ≠ none := fun k hk =>
    lives.get?_ne_none (mem_handles_append.mpr (.inr hk))
  have disjoint' : ∀ k ∈ t'.handles, k ∉ (node h l w (xs ++ ys)).handles := fun k hk hk' =>
    (replaced.fresh k hk).elim (fun old => disjoint k old hk') (live k hk')
  have same : ∀ k ∈ (node h l w (xs ++ ys)).handles, nodes'.get? k = nodes.get? k := fun k hk =>
    replaced.frame k (fun old => disjoint k old hk) (fun new => disjoint' k new hk)
  refine ⟨.intro ?_ fun u hu => ?_, nodup_handles_append.mpr ⟨replaced.nodup, nodupR, disjoint'⟩,
    fun k hk => ?_, fun k hk => ?_, fun k hk hk' => ?_⟩
  · rw [same h (by simp), lives.get?]
    simp [handle_eq]
  · rcases List.mem_append.mp hu with hu | hu
    · exact (lives.sibling (List.mem_append_left ys hu)).congr fun k hk =>
        same k (mem_handles_of_child (List.mem_append_left ys hu) hk)
    · rcases List.mem_cons.mp hu with rfl | hu
      · exact replaced.lives
      · exact (lives.sibling (List.mem_append_right xs hu)).congr fun k hk =>
          same k (mem_handles_of_child (List.mem_append_right xs hu) hk)
  · rcases mem_handles_append.mp hk with new | around
    · exact (replaced.fresh k new).imp_left fun old => mem_handles_append.mpr (.inl old)
    · exact .inl (mem_handles_append.mpr (.inr around))
  · rcases mem_handles_append.mp hk with old | around
    · exact (replaced.freed k old).imp_left fun new => mem_handles_append.mpr (.inl new)
    · exact .inl (mem_handles_append.mpr (.inr around))
  · exact replaced.frame k (fun old => hk (mem_handles_append.mpr (.inl old)))
      (fun new => hk' (mem_handles_append.mpr (.inl new)))

theorem Replaced.store (lives : (node h l w ts).LivesIn nodes parent)
    (nodup : (node h l w ts).handles.Nodup) (v : Option α) :
    Replaced nodes (nodes.modify h fun node => { node with value := v }) parent (node h l w ts)
      (node h l v ts) := by
  refine ⟨.intro ?_ fun t ht => (lives.child ht).congr fun k hk => ?_, ?_, fun k hk => ?_,
    fun k hk => ?_, fun k hk _ => ?_⟩
  · simp [Arena.get?_modify, lives.get?]
  · rw [Arena.get?_modify, if_neg fun e : k = h => not_mem_handles_of_child nodup ht (e ▸ hk)]
  · simpa using nodup
  · exact .inl (by simpa using hk)
  · exact .inl (by simpa using hk)
  · rw [Arena.get?_modify, if_neg fun e : k = h => hk (by simp [e])]

/-- A new node with a value is put behind the children of a node. -/
theorem Replaced.addLeaf (wf : nodes.WellFormed) (lives : (node h l w ts).LivesIn nodes parent)
    (nodup : (node h l w ts).handles.Nodup) (rest : List Char) (v : α) {k : Handle}
    (added : nodes.alloc ⟨rest, some v, [], some h⟩ = (k, nodes')) :
    Replaced nodes
      (nodes'.modify h fun node => { node with children := node.children ++ [k] }) parent
      (node h l w ts) (node h l w (ts ++ [node k rest (some v) []])) := by
  obtain ⟨-, vacant, get'⟩ := wf.of_alloc added
  have new : k ∉ (node h l w ts).handles := fun hk => lives.get?_ne_none hk vacant
  have ne : h ≠ k := fun e => new (by simp [e])
  refine ⟨.intro ?_ fun t ht => ?_, ?_, fun x hx => ?_, fun x hx => ?_, fun x hx hx' => ?_⟩
  · simp [Arena.get?_modify, get', ne, lives.get?]
  · rcases List.mem_append.mp ht with ht | ht
    · refine (lives.child ht).congr fun x hx => ?_
      have hxh : x ≠ h := fun e => not_mem_handles_of_child nodup ht (e ▸ hx)
      have hxk : x ≠ k := fun e => new (mem_handles_of_child ht (e ▸ hx))
      rw [Arena.get?_modify, if_neg hxh, get', if_neg hxk]
    · rw [List.mem_singleton.mp ht]
      refine .intro ?_ (by simp)
      simp [Arena.get?_modify, get', ne.symm]
  · have : (ts ++ [node k rest (some v) []]).flatMap handles = ts.flatMap handles ++ [k] := by simp
    rw [handles_node, this, ← List.cons_append, ← handles_node h l w]
    refine List.nodup_append.mpr ⟨nodup, by simp, fun x hx y hy e => new ?_⟩
    rwa [← List.mem_singleton.mp hy, ← e]
  · simp only [handles_node, List.flatMap_append, List.mem_cons, List.mem_append] at hx ⊢
    rcases hx with rfl | hx | hx
    · exact .inl (.inl rfl)
    · exact .inl (.inr hx)
    · simp only [List.flatMap_cons, handles_node, List.flatMap_nil, List.append_nil,
        List.mem_singleton] at hx
      exact .inr (hx ▸ vacant)
  · simp only [handles_node, List.flatMap_append, List.mem_cons, List.mem_append] at hx ⊢
    exact .inl (hx.imp_right .inl)
  · have hxh : x ≠ h := fun e => hx (by simp [e])
    have hxk : x ≠ k := fun e => hx' (by simp [e])
    rw [Arena.get?_modify, if_neg hxh, get', if_neg hxk]

/-- A new node takes the place of a child, which moves below it. -/
theorem Replaced.wedge (lives : (node h l w (xs ++ t :: ys)).LivesIn nodes parent)
    (nodup : (node h l w (xs ++ t :: ys)).handles.Nodup) {front back : List Char} {k : Handle}
    (vacant : nodes.get? k = none)
    (top : nodes'.get? h =
      some ⟨l, w, (xs ++ node k front none [t.relabel back] :: ys).map handle, parent⟩)
    (between : nodes'.get? k = some ⟨front, none, [t.handle], some h⟩)
    (moved : nodes'.get? t.handle =
      (nodes.get? t.handle).map fun node => { node with label := back, parent := some k })
    (same : ∀ x, x ≠ h → x ≠ t.handle → x ≠ k → nodes'.get? x = nodes.get? x) :
    Replaced nodes nodes' parent (node h l w (xs ++ t :: ys))
      (node h l w (xs ++ node k front none [t.relabel back] :: ys)) := by
  have new : k ∉ (node h l w (xs ++ t :: ys)).handles := fun hk => lives.get?_ne_none hk vacant
  rw [mem_handles_append, not_or] at new
  obtain ⟨newT, newR⟩ := new
  obtain ⟨nodupT, nodupR, disjoint⟩ := nodup_handles_append.mp nodup
  have sibling : ∀ u ∈ xs ++ ys, u.LivesIn nodes' (some h) := fun u hu => by
    refine (lives.sibling hu).congr fun x hx => same x ?_ ?_ ?_
    · exact fun e => not_mem_handles_of_child nodupR hu (e ▸ hx)
    · exact fun e => disjoint x (e ▸ t.handle_mem_handles) (mem_handles_of_child hu hx)
    · exact fun e => newR (e ▸ mem_handles_of_child hu hx)
  have child : (t.relabel back).LivesIn nodes' (some k) := by
    refine (lives.child List.mem_append_cons_self).move nodupT moved fun x hx hxt => same x ?_ hxt ?_
    · exact fun e => disjoint x hx (by simp [e])
    · exact fun e => newT (e ▸ hx)
  have mid : (node k front none [t.relabel back]).handles = k :: t.handles := by simp
  refine ⟨.intro top fun u hu => ?_, nodup_handles_append.mpr ⟨?_, nodupR, ?_⟩, fun x hx => ?_,
    fun x hx => ?_, fun x hx hx' => ?_⟩
  · rcases List.mem_append.mp hu with hu | hu
    · exact sibling u (List.mem_append_left ys hu)
    · rcases List.mem_cons.mp hu with rfl | hu
      · exact .intro (by simpa using between) (by simpa using child)
      · exact sibling u (List.mem_append_right xs hu)
  · rw [mid]
    exact List.nodup_cons.mpr ⟨newT, nodupT⟩
  · rw [mid]
    exact List.forall_mem_cons.mpr ⟨newR, disjoint⟩
  · rw [mem_handles_append, mid] at hx
    rcases hx with hx | hx
    · rcases List.mem_cons.mp hx with rfl | hx
      · exact .inr vacant
      · exact .inl (mem_handles_append.mpr (.inl hx))
    · exact .inl (mem_handles_append.mpr (.inr hx))
  · rw [mem_handles_append] at hx
    rw [mem_handles_append, mid]
    exact .inl (hx.imp_left (List.mem_cons_of_mem k))
  · rw [mem_handles_append, not_or] at hx
    rw [mem_handles_append, mid, not_or, List.mem_cons, not_or] at hx'
    exact same x (fun e => hx.2 (by simp [e])) (fun e => hx.1 (e ▸ t.handle_mem_handles)) hx'.1.1

/-- The edge to a child is divided: a new node takes the place of the child, which moves below it. -/
theorem Replaced.divide (wf : nodes.WellFormed)
    (lives : (node h l w (xs ++ t :: ys)).LivesIn nodes parent)
    (nodup : (node h l w (xs ++ t :: ys)).handles.Nodup) (front back : List Char) {k : Handle}
    (added : nodes.alloc ⟨front, none, [t.handle], some h⟩ = (k, nodes')) :
    Replaced nodes
      ((nodes'.modify h fun node =>
          { node with children := node.children.set xs.length k }).modify t.handle
        fun node => { node with label := back, parent := some k }) parent
      (node h l w (xs ++ t :: ys))
      (node h l w (xs ++ node k front none [t.relabel back] :: ys)) := by
  obtain ⟨-, vacant, get'⟩ := wf.of_alloc added
  have livesT := lives.child (t := t) List.mem_append_cons_self
  have hk : h ≠ k := fun e => by simp [← e, lives.get?] at vacant
  have kt : k ≠ t.handle := fun e => by simp [e, livesT.get?_handle] at vacant
  have ht : h ≠ t.handle := fun e =>
    not_mem_handles_of_child nodup List.mem_append_cons_self (e ▸ t.handle_mem_handles)
  refine .wedge lives nodup vacant ?_ ?_ ?_ fun x hxh hxt hxk => ?_
  · simp [Arena.get?_modify, get', ht, hk, lives.get?]
  · simp [Arena.get?_modify, get', hk.symm, kt]
  · simp [Arena.get?_modify, get', ht.symm, kt.symm]
  · rw [Arena.get?_modify, if_neg hxt, Arena.get?_modify, if_neg hxh, get', if_neg hxk]

/-- A child without children of its own is taken away. -/
theorem Replaced.drop {k : Handle} {lk : List Char} {vk : Option α}
    (lives : (node h l w (xs ++ node k lk vk [] :: ys)).LivesIn nodes parent)
    (nodup : (node h l w (xs ++ node k lk vk [] :: ys)).handles.Nodup) :
    Replaced nodes
      ((nodes.modify h fun node => { node with children := node.children.filter (· ≠ k) }).release
        k).2 parent
      (node h l w (xs ++ node k lk vk [] :: ys)) (node h l w (xs ++ ys)) := by
  obtain ⟨-, nodupR, disjoint⟩ := nodup_handles_append.mp nodup
  simp only [handles_node, List.flatMap_nil, List.mem_singleton, forall_eq] at disjoint
  rw [← handles_node h l w] at disjoint
  have hk : h ≠ k := fun e => disjoint (by simp [e])
  have around : ∀ u ∈ xs ++ ys, u.handle ≠ k := fun u hu e =>
    disjoint (e ▸ mem_handles_of_child hu u.handle_mem_handles)
  refine ⟨.intro ?_ fun u hu => (lives.sibling hu).congr fun x hx => ?_, nodupR, fun x hx => ?_,
    fun x hx => ?_, fun x hx hx' => ?_⟩
  · have keep : ∀ us : List (Tree α), (∀ u ∈ us, u.handle ≠ k) →
        (us.map handle).filter (· ≠ k) = us.map handle := fun us hus =>
      List.filter_eq_self.mpr (by simpa using hus)
    have keepX := keep xs fun u hu => around u (List.mem_append_left ys hu)
    have keepY := keep ys fun u hu => around u (List.mem_append_right xs hu)
    simp only [decide_not] at keepX keepY
    simp [Arena.get?_release, Arena.get?_modify, hk, lives.get?, keepX, keepY]
  · have hxh : x ≠ h := fun e => not_mem_handles_of_child nodupR hu (e ▸ hx)
    have hxk : x ≠ k := fun e => disjoint (e ▸ mem_handles_of_child hu hx)
    rw [Arena.get?_release, if_neg hxk, Arena.get?_modify, if_neg hxh]
  · exact .inl (mem_handles_append.mpr (.inr hx))
  · rcases mem_handles_append.mp hx with hx | hx
    · simp only [handles_node, List.flatMap_nil, List.mem_singleton] at hx
      exact .inr (by rw [hx, Arena.get?_release, if_pos rfl])
    · exact .inl hx
  · have hxh : x ≠ h := fun e => hx' (by simp [e])
    have hxk : x ≠ k := fun e => hx (mem_handles_append.mpr (.inl (by simp [e])))
    rw [Arena.get?_release, if_neg hxk, Arena.get?_modify, if_neg hxh]

end Steps

end CodeAtlas.PrefixIndex.Tree
