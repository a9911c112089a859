import CodeAtlas.PrefixIndex.Graph

/-!
# Trees of nodes

The nodes of a prefix index form a tree. Here the tree stands for itself, with the handle of each
node kept beside its label and value, and the operations are relations between trees. They say where
a key leads, and what an insertion or a removal leaves.
-/

namespace CodeAtlas.PrefixIndex

open Text (commonPrefix)

/-- A node with its handle, and the trees below it. -/
inductive Tree (α : Type) where
  | node (handle : Handle) (label : List Char) (value : Option α) (children : List (Tree α))

namespace Tree

variable {α : Type}

def handle : Tree α → Handle
  | node h _ _ _ => h

def label : Tree α → List Char
  | node _ l _ _ => l

def value : Tree α → Option α
  | node _ _ v _ => v

def children : Tree α → List (Tree α)
  | node _ _ _ ts => ts

def relabel (l : List Char) : Tree α → Tree α
  | node h _ v ts => node h l v ts

def handles : Tree α → List Handle
  | node h _ _ ts => h :: ts.flatMap handles

/-- The values and the keys they stand under, if `key` leads to the tree. -/
def entries (key : List Char) : Tree α → List (List Char × α)
  | node _ _ v ts => (v.map (Prod.mk key)).toList ++ ts.flatMap fun t => t.entries (key ++ t.label)

/-- The values, in the order of the entries. -/
def values : Tree α → List α
  | node _ _ v ts => v.toList ++ ts.flatMap values

def IsDead (t : Tree α) : Prop :=
  t.value = none ∧ t.children = []

/-- Below the top each edge has a label and leads to a node that is not dead, and no two edges of one
node begin alike. -/
inductive Valid : Tree α → Prop
  | intro {h l v ts} (labelled : ∀ t ∈ ts, t.label ≠ []) (alive : ∀ t ∈ ts, ¬t.IsDead)
      (apart : ts.Pairwise fun t u => commonPrefix t.label u.label = [])
      (below : ∀ t ∈ ts, t.Valid) : Valid (node h l v ts)

/-! ## Where a key leads -/

/-- The labels on the way down to a node spell a text. -/
inductive Leads : Tree α → List Char → Tree α → Prop
  | here {t} : Leads t [] t
  | child {h l v ts t rest u} (mem : t ∈ ts) (leads : Leads t rest u) :
      Leads (node h l v ts) (t.label ++ rest) u

def Stores (t : Tree α) (rest : List Char) (v : α) : Prop :=
  ∃ u, t.Leads rest u ∧ u.value = some v

/-- A text ends at a node, or within the edge to it. The last text is the way to the node. -/
inductive Reaches : Tree α → List Char → Tree α → List Char → Prop
  | here {t} : Reaches t [] t []
  | within {h l v ts t rest back} (mem : t ∈ ts) (label : t.label = rest ++ back) (ne : rest ≠ [])
      (ne' : back ≠ []) : Reaches (node h l v ts) rest t t.label
  | child {h l v ts t rest u way} (mem : t ∈ ts) (reaches : Reaches t rest u way) :
      Reaches (node h l v ts) (t.label ++ rest) u (t.label ++ way)

/-! ## What an insertion leaves -/

/-- A value is inserted where a text leads, in place of the value that stood there. -/
inductive Inserts (v : α) : List Char → Option α → Tree α → Tree α → Prop
  | store {h l old ts} : Inserts v [] old (node h l old ts) (node h l (some v) ts)
  | leaf {h l w ts k rest} (ne : rest ≠ []) (apart : ∀ t ∈ ts, commonPrefix t.label rest = []) :
      Inserts v rest none (node h l w ts) (node h l w (ts ++ [node k rest (some v) []]))
  | child {h l w xs t t' ys rest old} (inserts : Inserts v rest old t t') :
      Inserts v (t.label ++ rest) old (node h l w (xs ++ t :: ys)) (node h l w (xs ++ t' :: ys))
  | divide {h l w xs t ys k front back} (label : t.label = front ++ back) (ne : front ≠ [])
      (ne' : back ≠ []) :
      Inserts v front none (node h l w (xs ++ t :: ys))
        (node h l w (xs ++ node k front (some v) [t.relabel back] :: ys))
  | branch {h l w xs t ys k k' front back rest} (label : t.label = front ++ back) (ne : front ≠ [])
      (ne' : back ≠ []) (ne'' : rest ≠ []) (apart : commonPrefix back rest = []) :
      Inserts v (front ++ rest) none (node h l w (xs ++ t :: ys))
        (node h l w (xs ++ node k front none [t.relabel back, node k' rest (some v) []] :: ys))

/-! ## What a removal leaves -/

/-- The value to which a text leads is removed, and the nodes that are dead then. -/
inductive Erases (v : α) : List Char → Tree α → Tree α → Prop
  | here {h l ts} : Erases v [] (node h l (some v) ts) (node h l none ts)
  | kept {h l w xs t t' ys rest} (erases : Erases v rest t t') (alive : ¬t'.IsDead) :
      Erases v (t.label ++ rest) (node h l w (xs ++ t :: ys)) (node h l w (xs ++ t' :: ys))
  | pruned {h l w xs t t' ys rest} (erases : Erases v rest t t') (dead : t'.IsDead) :
      Erases v (t.label ++ rest) (node h l w (xs ++ t :: ys)) (node h l w (xs ++ ys))

/-! ## Trees stay valid -/

@[simp]
theorem handle_node (h : Handle) (l : List Char) (v : Option α) (ts : List (Tree α)) :
    (node h l v ts).handle = h := rfl

@[simp]
theorem label_node (h : Handle) (l : List Char) (v : Option α) (ts : List (Tree α)) :
    (node h l v ts).label = l := rfl

@[simp]
theorem isDead_node (h : Handle) (l : List Char) (v : Option α) (ts : List (Tree α)) :
    (node h l v ts).IsDead ↔ v = none ∧ ts = [] := Iff.rfl

@[simp]
theorem handles_node (h : Handle) (l : List Char) (v : Option α) (ts : List (Tree α)) :
    (node h l v ts).handles = h :: ts.flatMap handles := by
  rw [handles]

@[simp]
theorem entries_node (key : List Char) (h : Handle) (l : List Char) (v : Option α)
    (ts : List (Tree α)) :
    (node h l v ts).entries key =
      (v.map (Prod.mk key)).toList ++ ts.flatMap fun t => t.entries (key ++ t.label) := by
  rw [entries]

theorem values_node (h : Handle) (l : List Char) (v : Option α) (ts : List (Tree α)) :
    (node h l v ts).values = v.toList ++ ts.flatMap values := by
  rw [values]

theorem map_snd_entries (key : List Char) (t : Tree α) : (t.entries key).map Prod.snd = t.values := by
  induction t using values.induct generalizing key with
  | case1 h l v ts ih =>
      rw [entries_node, values_node, List.map_append, List.map_flatMap]
      congr 1
      · cases v <;> rfl
      · rw [List.flatMap_def, List.flatMap_def, List.map_congr_left fun t ht => ih t ht _]

theorem handle_mem_handles (t : Tree α) : t.handle ∈ t.handles := by
  cases t
  simp

@[simp]
theorem handle_relabel (l : List Char) (t : Tree α) : (t.relabel l).handle = t.handle := by
  cases t
  rfl

@[simp]
theorem label_relabel (l : List Char) (t : Tree α) : (t.relabel l).label = l := by
  cases t
  rfl

@[simp]
theorem handles_relabel (l : List Char) (t : Tree α) : (t.relabel l).handles = t.handles := by
  cases t
  simp [relabel]

@[simp]
theorem entries_relabel (l key : List Char) (t : Tree α) :
    (t.relabel l).entries key = t.entries key := by
  cases t
  simp [relabel]

@[simp]
theorem values_relabel (l : List Char) (t : Tree α) : (t.relabel l).values = t.values := by
  cases t
  simp [relabel, values_node]

@[simp]
theorem isDead_relabel (l : List Char) (t : Tree α) : (t.relabel l).IsDead ↔ t.IsDead := by
  cases t
  rfl

theorem Valid.relabel {t : Tree α} (h : t.Valid) (l : List Char) : (t.relabel l).Valid := by
  cases h with
  | intro labelled alive apart below => exact .intro labelled alive apart below

theorem Valid.leaf (h : Handle) (l : List Char) (v : Option α) : (node h l v []).Valid :=
  .intro (by simp) (by simp) .nil (by simp)

/-- A part of the text that two labels do not share is not shared by their beginnings. -/
theorem commonPrefix_eq_nil_of_prefix {xs ys zs : List Char} (h : commonPrefix xs ys = [])
    (hz : zs <+: ys) : commonPrefix xs zs = [] := by
  obtain ⟨ws, rfl⟩ := hz
  cases xs with
  | nil => rfl
  | cons x xs =>
      cases zs with
      | nil => rfl
      | cons z zs => exact Text.commonPrefix_cons_eq_nil.mpr (Text.commonPrefix_cons_eq_nil.mp h)

theorem Valid.replace {h : Handle} {l : List Char} {w : Option α} {xs ys : List (Tree α)}
    {t t' : Tree α} (valid : (node h l w (xs ++ t :: ys)).Valid) (valid' : t'.Valid)
    (ne : t'.label ≠ []) (alive' : ¬t'.IsDead) (front : t'.label <+: t.label) :
    (node h l w (xs ++ t' :: ys)).Valid := by
  cases valid with
  | intro labelled alive apart below =>
      simp only [List.forall_mem_append, List.forall_mem_cons] at labelled alive below
      obtain ⟨apartX, apartT, apartXT⟩ := List.pairwise_append.mp apart
      obtain ⟨apartTY, apartY⟩ := List.pairwise_cons.mp apartT
      refine .intro ?_ ?_ (List.pairwise_append.mpr ⟨apartX, List.pairwise_cons.mpr ⟨?_, apartY⟩, ?_⟩) ?_
      · simpa only [List.forall_mem_append, List.forall_mem_cons] using ⟨labelled.1, ne, labelled.2.2⟩
      · simpa only [List.forall_mem_append, List.forall_mem_cons] using ⟨alive.1, alive', alive.2.2⟩
      · intro u hu
        rw [Text.commonPrefix_comm]
        exact commonPrefix_eq_nil_of_prefix ((Text.commonPrefix_comm _ _).trans (apartTY u hu)) front
      · intro x hx u hu
        rcases List.mem_cons.mp hu with rfl | hu
        · exact commonPrefix_eq_nil_of_prefix (apartXT x hx t (by simp)) front
        · exact apartXT x hx u (by simp [hu])
      · simpa only [List.forall_mem_append, List.forall_mem_cons] using ⟨below.1, valid', below.2.2⟩

theorem Valid.drop {h : Handle} {l : List Char} {w : Option α} {xs ys : List (Tree α)}
    {t : Tree α} (valid : (node h l w (xs ++ t :: ys)).Valid) : (node h l w (xs ++ ys)).Valid := by
  have sub : (xs ++ ys).Sublist (xs ++ t :: ys) := List.Sublist.append_left (List.sublist_cons_self t ys) xs
  cases valid with
  | intro labelled alive apart below =>
      exact .intro (fun u hu => labelled u (sub.subset hu)) (fun u hu => alive u (sub.subset hu))
        (apart.sublist sub) (fun u hu => below u (sub.subset hu))

theorem Valid.child {h : Handle} {l : List Char} {w : Option α} {ts : List (Tree α)} {t : Tree α}
    (valid : (node h l w ts).Valid) (mem : t ∈ ts) : t.label ≠ [] ∧ ¬t.IsDead ∧ t.Valid := by
  cases valid with
  | intro labelled alive _ below => exact ⟨labelled t mem, alive t mem, below t mem⟩

/-- At most one edge below a node begins as a text does. -/
theorem Valid.apart_of_common {h : Handle} {l rest : List Char} {w : Option α}
    {xs ys : List (Tree α)} {t : Tree α} (valid : (node h l w (xs ++ t :: ys)).Valid)
    (common : commonPrefix t.label rest ≠ []) :
    ∀ u ∈ xs ++ ys, commonPrefix u.label rest = [] := by
  intro u hu
  refine Decidable.byContradiction fun common' => ?_
  cases valid with
  | intro _ _ apart _ =>
      obtain ⟨-, apartT, apartXT⟩ := List.pairwise_append.mp apart
      rcases List.mem_append.mp hu with hu | hu
      · exact Text.commonPrefix_ne_nil_trans common' common (apartXT u hu t (by simp))
      · exact Text.commonPrefix_ne_nil_trans common common' ((List.pairwise_cons.mp apartT).1 u hu)

theorem Valid.eq_of_common {h : Handle} {l rest : List Char} {w : Option α} {ts : List (Tree α)}
    {t u : Tree α} (valid : (node h l w ts).Valid) (ht : t ∈ ts) (hu : u ∈ ts)
    (ct : commonPrefix t.label rest ≠ []) (cu : commonPrefix u.label rest ≠ []) : u = t := by
  obtain ⟨xs, ys, rfl⟩ := List.append_of_mem ht
  have apart := valid.apart_of_common ct
  rcases List.mem_append.mp hu with hu | hu
  · exact absurd (apart u (List.mem_append_left ys hu)) cu
  · rcases List.mem_cons.mp hu with rfl | hu
    · rfl
    · exact absurd (apart u (List.mem_append_right xs hu)) cu

section Inserts

variable {v : α} {rest : List Char} {old : Option α} {t t' : Tree α}

theorem Inserts.handle_eq (h : Inserts v rest old t t') : t'.handle = t.handle := by
  cases h <;> rfl

theorem Inserts.label_eq (h : Inserts v rest old t t') : t'.label = t.label := by
  cases h <;> rfl

theorem Inserts.value_eq_none (h : Inserts v rest old t t') (inner : rest ≠ [] ∨ old ≠ none)
    (none' : t.value = none) : t'.value = none := by
  cases h with
  | store => exact inner.elim (absurd rfl ·) (absurd none' ·)
  | _ => exact none'

theorem Inserts.length_values (h : Inserts v rest old t t') :
    t'.values.length = if old.isNone then t.values.length + 1 else t.values.length := by
  induction h with
  | @store _ _ old => cases old <;> simp [values_node]
  | leaf => simp [values_node, Nat.add_assoc]
  | @child _ _ _ _ _ _ _ _ old inserts ih =>
      simp only [values_node, List.flatMap_append, List.flatMap_cons, List.length_append, ih]
      cases old with
      | none => simp only [Option.isNone_none, if_true]; omega
      | some _ => rfl
  | divide =>
      simp only [values_node, values_relabel, List.flatMap_append, List.flatMap_cons,
        List.flatMap_nil, List.length_append, Option.toList_some, List.length_cons, List.length_nil,
        Option.isNone_none, if_true]
      omega
  | branch =>
      simp only [values_node, values_relabel, List.flatMap_append, List.flatMap_cons,
        List.flatMap_nil, List.length_append, Option.toList_some, Option.toList_none,
        List.length_cons, List.length_nil, Option.isNone_none, if_true]
      omega

theorem Inserts.alive (h : Inserts v rest old t t') : ¬t'.IsDead := by
  cases h <;> simp

theorem Inserts.valid (h : Inserts v rest old t t') (valid : t.Valid) : t'.Valid := by
  induction h with
  | store =>
      cases valid with
      | intro labelled alive apart below => exact .intro labelled alive apart below
  | @leaf _ _ _ ts k rest ne separate =>
      cases valid with
      | intro labelled alive apart below =>
          refine .intro (List.forall_mem_append.mpr ⟨labelled, by simpa using ne⟩)
            (List.forall_mem_append.mpr ⟨alive, by simp⟩)
            (List.pairwise_append.mpr ⟨apart, by simp, by simpa using separate⟩)
            (List.forall_mem_append.mpr ⟨below, by simp [Valid.leaf]⟩)
  | child inserts ih =>
      obtain ⟨ne, -, validT⟩ := valid.child List.mem_append_cons_self
      exact valid.replace (ih validT) (inserts.label_eq ▸ ne) inserts.alive (inserts.label_eq ▸ List.prefix_rfl)
  | @divide _ _ _ _ t _ k front back label ne ne' =>
      obtain ⟨-, alive, validT⟩ := valid.child List.mem_append_cons_self
      refine valid.replace (.intro ?_ ?_ ?_ ?_) ne ?_ (by rw [label]; exact List.prefix_append _ _)
      · simpa using ne'
      · simpa using alive
      · simp
      · simpa using validT.relabel back
      · simp
  | @branch _ _ _ _ t _ k k' front back rest label ne ne' ne'' apart =>
      obtain ⟨-, alive, validT⟩ := valid.child List.mem_append_cons_self
      refine valid.replace (.intro ?_ ?_ ?_ ?_) ne ?_ (by rw [label]; exact List.prefix_append _ _)
      · simpa using ⟨ne', ne''⟩
      · simpa using alive
      · simpa using apart
      · simpa [Valid.leaf] using validT.relabel back
      · simp

end Inserts

section Erases

variable {v : α} {rest : List Char} {t t' : Tree α}

theorem Erases.handle_eq (h : Erases v rest t t') : t'.handle = t.handle := by
  cases h <;> rfl

theorem Erases.label_eq (h : Erases v rest t t') : t'.label = t.label := by
  cases h <;> rfl

theorem Erases.value_eq_none (h : Erases v rest t t') (none' : t.value = none) :
    t'.value = none := by
  cases h with
  | here => rfl
  | _ => exact none'

theorem Erases.length_values (h : Erases v rest t t') :
    t.values.length = t'.values.length + 1 := by
  induction h with
  | here => simp [values_node]
  | kept erases alive ih =>
      simp only [values_node, List.flatMap_append, List.flatMap_cons, List.length_append, ih]
      omega
  | @pruned _ _ _ _ _ t' _ _ erases dead ih =>
      cases t' with
      | node k l w ts =>
          obtain ⟨rfl, rfl⟩ := dead
          simp only [values_node, Option.toList_none, List.flatMap_nil, List.append_nil,
            List.length_nil, Nat.zero_add] at ih
          simp only [values_node, List.flatMap_append, List.flatMap_cons, List.length_append, ih]
          omega

theorem Erases.valid (h : Erases v rest t t') (valid : t.Valid) : t'.Valid := by
  induction h with
  | here =>
      cases valid with
      | intro labelled alive apart below => exact .intro labelled alive apart below
  | kept erases alive ih =>
      obtain ⟨ne, -, validT⟩ := valid.child List.mem_append_cons_self
      exact valid.replace (ih validT) (erases.label_eq ▸ ne) alive (erases.label_eq ▸ List.prefix_rfl)
  | pruned erases dead ih => exact valid.drop

end Erases

end Tree

end CodeAtlas.PrefixIndex
