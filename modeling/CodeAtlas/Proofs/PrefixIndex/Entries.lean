import CodeAtlas.PrefixIndex.Tree

/-!
# The entries of a tree

In the list of the entries of a valid tree each key stands before its extensions. A removal takes one
entry out of the list. An insertion changes one entry or adds one, and where it adds one depends on the
list alone. The entries below a node are those that begin with a text.
-/

namespace CodeAtlas.PrefixIndex.Tree

open Text (commonPrefix)

variable {α : Type} {h : Handle} {l p rest : List Char} {w : Option α} {xs ys ts : List (Tree α)}
  {t t' u : Tree α} {v : α}

/-! ## Keys -/

theorem mem_entries_node {e : List Char × α} :
    e ∈ (node h l w ts).entries p ↔
      (∃ v, w = some v ∧ e = (p, v)) ∨ ∃ u ∈ ts, e ∈ u.entries (p ++ u.label) := by
  simp only [entries_node, List.mem_append, Option.mem_toList, Option.map_eq_some_iff,
    List.mem_flatMap, eq_comm (a := e)]

theorem prefix_of_mem_entries {e : List Char × α} (mem : e ∈ t.entries p) : p <+: e.1 := by
  induction t using values.induct generalizing p with
  | case1 h l w ts ih =>
      rcases mem_entries_node.mp mem with ⟨v, -, rfl⟩ | ⟨u, hu, mem⟩
      · exact List.prefix_rfl
      · exact (List.prefix_append p u.label).trans (ih u hu mem)

theorem prefix_of_mem_below {front : List Char} {e : List Char × α} (hl : front <+: t.label)
    (mem : e ∈ t.entries (p ++ t.label)) : p ++ front <+: e.1 :=
  ((List.prefix_append_right_inj p).mpr hl).trans (prefix_of_mem_entries mem)

theorem mem_entries : (p ++ rest, v) ∈ t.entries p ↔ t.Stores rest v := by
  induction t using values.induct generalizing p rest with
  | case1 h l w ts ih =>
      rw [mem_entries_node]
      constructor
      · rintro (⟨v', value, e⟩ | ⟨u, hu, mem⟩)
        · simp only [Prod.mk.injEq, List.append_right_eq_self] at e
          obtain ⟨rfl, rfl⟩ := e
          exact ⟨_, .here, value⟩
        · obtain ⟨rest', rfl⟩ := (List.prefix_append_right_inj p).mp (prefix_of_mem_entries mem)
          rw [← List.append_assoc] at mem
          obtain ⟨x, leads, value⟩ := (ih u hu).mp mem
          exact ⟨x, .child hu leads, value⟩
      · rintro ⟨x, leads, value⟩
        cases leads with
        | here => exact .inl ⟨v, value, by rw [List.append_nil]⟩
        | @child _ _ _ _ u rest' _ hu leads =>
            refine .inr ⟨u, hu, ?_⟩
            rw [← List.append_assoc]
            exact (ih u hu).mpr ⟨x, leads, value⟩

theorem Valid.entries_ne_nil (valid : t.Valid) (alive : ¬t.IsDead) (p : List Char) :
    t.entries p ≠ [] := by
  induction t using values.induct generalizing p with
  | case1 h l w ts ih =>
      rw [entries_node]
      cases w with
      | some v => simp
      | none =>
          cases ts with
          | nil => simp at alive
          | cons u us =>
              obtain ⟨-, alive', valid'⟩ := valid.child (t := u) (by simp)
              simp [ih u (by simp) valid' alive' (p ++ u.label)]

/-- The key of another subtree has nothing more in common with a key than what leads to the node. -/
theorem prefix_of_apart {rest q : List Char} {e : List Char × α} (mem : e ∈ u.entries (p ++ u.label))
    (ne : u.label ≠ []) (apart : commonPrefix u.label rest = []) (hq : q <+: e.1)
    (hq' : q <+: p ++ rest) : q <+: p := by
  obtain ⟨back, e_eq⟩ := prefix_of_mem_entries mem
  have common := Text.prefix_commonPrefix hq hq'
  rwa [← e_eq, List.append_assoc, Text.commonPrefix_append, Text.commonPrefix_append_left ne apart,
    List.append_nil] at common

/-- Each key stands before its extensions. -/
theorem Valid.pairwise_entries (valid : t.Valid) (p : List Char) :
    (t.entries p).Pairwise fun e e' => ¬e'.1 <+: e.1 := by
  induction t using values.induct generalizing p with
  | case1 h l w ts ih =>
      obtain ⟨labelled, -, apart, below⟩ := valid
      have longer : ∀ u ∈ ts, ∀ e ∈ u.entries (p ++ u.label), ¬e.1 <+: p := by
        intro u hu e he back
        have := ((prefix_of_mem_entries he).trans back).length_le
        have := List.length_pos_iff.mpr (labelled u hu)
        simp only [List.length_append] at *
        omega
      rw [entries_node, List.pairwise_append, List.pairwise_flatMap]
      -- Keys below two siblings have `p` in common and nothing more, and no key below a child is as short.
      refine ⟨by cases w <;> simp, ⟨fun u hu => ih u hu (below u hu) _, ?_⟩, ?_⟩
      · refine apart.imp_of_mem fun {u u'} hu hu' apart e he e' he' back => ?_
        obtain ⟨rest, e_eq⟩ := prefix_of_mem_entries he
        have apart' : commonPrefix u'.label (u.label ++ rest) = [] := by
          rw [Text.commonPrefix_comm]
          exact Text.commonPrefix_append_left (labelled u hu) apart
        rw [← e_eq, List.append_assoc] at back
        exact longer u' hu' e' he' (prefix_of_apart he' (labelled u' hu') apart' List.prefix_rfl back)
      · intro e he e' he'
        obtain ⟨u, hu, he'⟩ := List.mem_flatMap.mp he'
        obtain ⟨v, -, rfl⟩ := Option.map_eq_some_iff.mp (Option.mem_toList.mp he)
        exact longer u hu e' he'

/-! ## The entries around a subtree -/

/-- The entries of a node, in the middle of which stand those of one child. The keys of the others share
nothing with the label of that child. -/
theorem Valid.exists_entries_around (valid : (node h l w (xs ++ t :: ys)).Valid) (p : List Char) :
    ∃ before after,
      (∀ us, (node h l w (xs ++ (us ++ ys))).entries p =
        before ++ (us.flatMap fun u => u.entries (p ++ u.label)) ++ after) ∧
      ∀ rest, commonPrefix t.label rest ≠ [] → ∀ e ∈ before ++ after, ∀ q,
        q <+: e.1 → q <+: p ++ rest → q <+: p := by
  refine ⟨(w.map (Prod.mk p)).toList ++ xs.flatMap fun u => u.entries (p ++ u.label),
    ys.flatMap fun u => u.entries (p ++ u.label), fun us => by simp, ?_⟩
  intro rest common e he q hq hq'
  simp only [List.append_assoc, List.mem_append, Option.mem_toList, Option.map_eq_some_iff,
    ← List.flatMap_append, List.mem_flatMap] at he
  rcases he with ⟨v, -, rfl⟩ | he
  · exact hq
  · obtain ⟨u, hu, he⟩ : ∃ u ∈ xs ++ ys, e ∈ u.entries (p ++ u.label) := by
      simpa only [List.mem_append, or_and_right, exists_or, List.mem_flatMap] using he
    have sub : u ∈ xs ++ t :: ys :=
      (List.Sublist.append_left (List.sublist_cons_self t ys) xs).subset hu
    exact prefix_of_apart he (valid.child sub).1 (valid.apart_of_common common u hu) hq hq'

/-! ## Removal -/

theorem IsDead.entries_eq (dead : t.IsDead) (p : List Char) : t.entries p = [] := by
  cases t
  obtain ⟨rfl, rfl⟩ := dead
  simp

/-- A removal takes one entry out. -/
theorem Erases.entries_eq (erases : Erases v rest t t') (p : List Char) :
    ∃ before after, t.entries p = before ++ (p ++ rest, v) :: after ∧
      t'.entries p = before ++ after := by
  induction erases generalizing p with
  | @here h l ts => exact ⟨[], ts.flatMap fun u => u.entries (p ++ u.label), by simp, by simp⟩
  | @kept h l w xs t t' ys rest erases alive ih =>
      obtain ⟨before, after, old, new⟩ := ih (p ++ t.label)
      refine ⟨(w.map (Prod.mk p)).toList ++ (xs.flatMap fun u => u.entries (p ++ u.label)) ++ before,
        after ++ ys.flatMap fun u => u.entries (p ++ u.label), ?_, ?_⟩
      · simp [old]
      · simp [erases.label_eq, new]
  | @pruned h l w xs t t' ys rest erases dead ih =>
      obtain ⟨before, after, old, new⟩ := ih (p ++ t.label)
      rw [dead.entries_eq] at new
      obtain ⟨rfl, rfl⟩ := List.append_eq_nil_iff.mp new.symm
      refine ⟨(w.map (Prod.mk p)).toList ++ xs.flatMap fun u => u.entries (p ++ u.label),
        ys.flatMap fun u => u.entries (p ++ u.label), ?_, ?_⟩
      · simp [old]
      · simp

/-! ## Insertion -/

/-- The place of a key between others. Here `start` is the longest beginning of the key with which one
of the others begins. If it is the key itself, the first of them that begin with it follows, otherwise
the last one precedes. -/
structure Between (start key : List Char) (before after : List (List Char)) : Prop where
  begins : start <+: key
  longest : ∀ k ∈ before ++ after, ∀ q, q <+: k → q <+: key → q <+: start
  first : start = key → (∀ k ∈ before, ¬start <+: k) ∧ ∃ k ∈ after.head?, start <+: k
  last : start ≠ key → (∃ k ∈ before.getLast?, start <+: k) ∧ ∀ k ∈ after, ¬start <+: k

theorem Between.append {start key : List Char} {before after before' after' : List (List Char)}
    (between : Between start key before after)
    (short : ∀ k ∈ before' ++ after', ∀ q, q <+: k → q <+: key → q <+: start)
    (other : ∀ k ∈ before' ++ after', ¬start <+: k) :
    Between start key (before' ++ before) (after ++ after') where
  begins := between.begins
  longest k hk := by
    simp only [List.mem_append] at hk
    rcases hk with (hk | hk) | hk | hk
    · exact short k (List.mem_append_left _ hk)
    · exact between.longest k (List.mem_append_left _ hk)
    · exact between.longest k (List.mem_append_right _ hk)
    · exact short k (List.mem_append_right _ hk)
  first e := by
    obtain ⟨none', k, hk, sub⟩ := between.first e
    refine ⟨List.forall_mem_append.mpr ⟨fun k hk => other k (by simp [hk]), none'⟩, k, ?_, sub⟩
    simp_all [List.head?_append]
  last e := by
    obtain ⟨⟨k, hk, begins⟩, none'⟩ := between.last e
    refine ⟨⟨k, ?_, begins⟩, List.forall_mem_append.mpr ⟨none', fun k hk => other k (by simp [hk])⟩⟩
    simp_all [List.getLast?_append]

/-- A value is put under a key into a list of entries. -/
inductive Puts (key : List Char) (v : α) :
    Option α → List (List Char × α) → List (List Char × α) → Prop
  | change (old before after) :
      Puts key v (some old) (before ++ (key, old) :: after) (before ++ (key, v) :: after)
  | only : Puts key v none [] [(key, v)]
  | add (before after) {start} (between : Between start key (before.map Prod.fst) (after.map Prod.fst)) :
      Puts key v none (before ++ after) (before ++ (key, v) :: after)

section Puts

variable {key start : List Char} {old : Option α} {es es' before after : List (List Char × α)}

theorem Puts.first (all : ∀ e ∈ es, key <+: e.1) : Puts key v none es ((key, v) :: es) := by
  cases es with
  | nil => exact .only
  | cons e es =>
      have between : Between key key [] ((e :: es).map Prod.fst) :=
        ⟨List.prefix_rfl, fun _ _ _ _ hq => hq, fun _ => ⟨by simp, e.1, rfl, all e (by simp)⟩,
          fun ne => absurd rfl ne⟩
      exact .add [] (e :: es) between

theorem Puts.last (hstart : start <+: key) (ne : start ≠ key) (all : ∀ e ∈ es, start <+: e.1)
    (short : ∀ e ∈ es, ∀ q, q <+: e.1 → q <+: key → q <+: start) :
    Puts key v none es (es ++ [(key, v)]) := by
  rcases List.eq_nil_or_concat es with rfl | ⟨es, e, rfl⟩
  · exact .only
  · rw [List.concat_eq_append] at all short ⊢
    have between : Between start key ((es ++ [e]).map Prod.fst) [] :=
      ⟨hstart, by rwa [List.append_nil, List.forall_mem_map], fun e => absurd e ne, fun _ =>
        ⟨⟨e.1, by simp, all e (by simp)⟩, by simp⟩⟩
    have added : Puts key v none (es ++ [e] ++ []) (es ++ [e] ++ [(key, v)]) := .add _ [] between
    simpa using added

/-- Among entries that have less in common with the key, the value is put into the same place. -/
theorem Puts.around (puts : Puts key v old es es') (ne : es ≠ []) (all : ∀ e ∈ es, start <+: e.1)
    (hstart : start <+: key) (lt : p.length < start.length) (hp : p <+: start)
    (short : ∀ e ∈ before ++ after, ∀ q, q <+: e.1 → q <+: key → q <+: p) :
    Puts key v old (before ++ es ++ after) (before ++ es' ++ after) := by
  cases puts with
  | change w b a => simpa using Puts.change (v := v) w (before ++ b) (a ++ after)
  | only => exact absurd rfl ne
  -- The entries share more with the key than those around them do, so `s`, which is at least as much,
  -- stays the longest.
  | @add b a s between =>
      have hs : start <+: s := by
        obtain ⟨e, he⟩ := List.exists_mem_of_ne_nil _ ne
        refine between.longest e.1 ?_ start (all e he) hstart
        rw [← List.map_append]
        exact List.mem_map_of_mem he
      have keys : ∀ k ∈ before.map Prod.fst ++ after.map Prod.fst, ∀ q,
          q <+: k → q <+: key → q <+: p := by
        rw [← List.map_append, List.forall_mem_map]
        exact short
      have other : ∀ k ∈ before.map Prod.fst ++ after.map Prod.fst, ¬s <+: k := by
        intro k hk begins
        have := (hs.trans (keys k hk s begins between.begins)).length_le
        omega
      have between' :=
        between.append (fun k hk q hq hq' => (keys k hk q hq hq').trans (hp.trans hs)) other
      rw [← List.map_append, ← List.map_append] at between'
      simpa using Puts.add (v := v) _ _ between'

end Puts

/-- What is done to the entries of one child is done to those of the node. -/
theorem Valid.puts_around (valid : (node h l w (xs ++ t :: ys)).Valid) {us : List (Tree α)}
    {front : List Char} {old : Option α}
    (puts : Puts (p ++ rest) v old (t.entries (p ++ t.label))
      (us.flatMap fun u => u.entries (p ++ u.label)))
    (ne : front ≠ []) (hl : front <+: t.label) (hr : front <+: rest) :
    Puts (p ++ rest) v old ((node h l w (xs ++ t :: ys)).entries p)
      ((node h l w (xs ++ (us ++ ys))).entries p) := by
  obtain ⟨-, alive, validT⟩ := valid.child (t := t) List.mem_append_cons_self
  obtain ⟨before, after, around, apart⟩ := valid.exists_entries_around p
  have all : ∀ e ∈ t.entries (p ++ t.label), p ++ front <+: e.1 := fun e => prefix_of_mem_below hl
  have longer : p.length < (p ++ front).length := by simpa using List.length_pos_iff.mpr ne
  have common : commonPrefix t.label rest ≠ [] := fun none' =>
    ne (List.prefix_nil.mp (none' ▸ Text.prefix_commonPrefix hl hr))
  have moved := puts.around (validT.entries_ne_nil alive _) all
    ((List.prefix_append_right_inj p).mpr hr) longer (List.prefix_append p front) (apart rest common)
  have was := around [t]
  rw [List.flatMap_singleton] at was
  rwa [← was, ← around us] at moved

/-- An insertion puts one entry in. -/
theorem Inserts.puts_entries {old : Option α} (inserts : Inserts v rest old t t') (valid : t.Valid)
    (p : List Char) : Puts (p ++ rest) v old (t.entries p) (t'.entries p) := by
  induction inserts generalizing p with
  | @store h l old ts =>
      cases old with
      | none =>
          have all : ∀ e ∈ (node h l none ts).entries p, p <+: e.1 := fun e => prefix_of_mem_entries
          simpa using Puts.first (v := v) all
      | some old => simpa using Puts.change (v := v) old [] _
  | @leaf h l w ts k rest ne apart =>
      have all : ∀ e ∈ (node h l w ts).entries p, p <+: e.1 := fun e => prefix_of_mem_entries
      have short : ∀ e ∈ (node h l w ts).entries p, ∀ q, q <+: e.1 → q <+: p ++ rest → q <+: p := by
        intro e he q hq hq'
        rcases mem_entries_node.mp he with ⟨v, -, rfl⟩ | ⟨u, hu, he⟩
        · exact hq
        · exact prefix_of_apart he (valid.child hu).1 (apart u hu) hq hq'
      have longer : p ≠ p ++ rest := by simpa using ne
      simpa using Puts.last (v := v) (List.prefix_append p rest) longer all short
  | @child h l w xs t t' ys rest old inserts ih =>
      obtain ⟨ne, -, validT⟩ := valid.child (t := t) List.mem_append_cons_self
      have puts : Puts (p ++ (t.label ++ rest)) v old (t.entries (p ++ t.label))
          ([t'].flatMap fun u => u.entries (p ++ u.label)) := by
        rw [List.flatMap_singleton, inserts.label_eq, ← List.append_assoc]
        exact ih validT (p ++ t.label)
      exact valid.puts_around puts ne List.prefix_rfl (List.prefix_append t.label rest)
  | @divide h l w xs t ys k front back label ne ne' =>
      have hl : front <+: t.label := label ▸ List.prefix_append front back
      have all : ∀ e ∈ t.entries (p ++ t.label), p ++ front <+: e.1 := fun e => prefix_of_mem_below hl
      have puts : Puts (p ++ front) v none (t.entries (p ++ t.label))
          ([node k front (some v) [t.relabel back]].flatMap fun u => u.entries (p ++ u.label)) := by
        simpa [label] using Puts.first (v := v) all
      exact valid.puts_around puts ne hl List.prefix_rfl
  | @branch h l w xs t ys k k' front back rest label ne ne' ne'' apart =>
      have hl : front <+: t.label := label ▸ List.prefix_append front back
      have all : ∀ e ∈ t.entries (p ++ t.label), p ++ front <+: e.1 := fun e => prefix_of_mem_below hl
      have short : ∀ e ∈ t.entries (p ++ t.label), ∀ q,
          q <+: e.1 → q <+: p ++ front ++ rest → q <+: p ++ front := by
        intro e he q hq hq'
        have he' : e ∈ (t.relabel back).entries (p ++ front ++ (t.relabel back).label) := by
          simpa [label] using he
        exact prefix_of_apart he' (by simpa using ne') (by simpa using apart) hq hq'
      have longer : p ++ front ≠ p ++ front ++ rest := by simpa using ne''
      have puts : Puts (p ++ (front ++ rest)) v none (t.entries (p ++ t.label))
          ([node k front none [t.relabel back, node k' rest (some v) []]].flatMap
            fun u => u.entries (p ++ u.label)) := by
        simpa [label] using Puts.last (v := v) (List.prefix_append _ rest) longer all short
      exact valid.puts_around puts ne hl (List.prefix_append front rest)

/-! ## What is stored -/

theorem Valid.nodup_keys (valid : t.Valid) (p : List Char) : ((t.entries p).map Prod.fst).Nodup := by
  rw [List.Nodup, List.pairwise_map]
  refine (valid.pairwise_entries p).imp fun {e e'} back same => back ?_
  exact same ▸ List.prefix_rfl

theorem ne_of_nodup_keys {key : List Char} {before after : List (List Char × α)}
    (nodup : ((before ++ (key, v) :: after).map Prod.fst).Nodup) :
    ∀ e ∈ before ++ after, e.1 ≠ key := by
  rw [(List.perm_middle.map Prod.fst).nodup_iff, List.map_cons, List.nodup_cons] at nodup
  rintro e he rfl
  exact nodup.1 (List.mem_map.mpr ⟨e, he, rfl⟩)

theorem Puts.exists_split {key : List Char} {old : Option α} {es es' : List (List Char × α)}
    (puts : Puts key v old es es') (nodup : (es'.map Prod.fst).Nodup) :
    ∃ before after, es = before ++ (old.map (Prod.mk key)).toList ++ after ∧
      es' = before ++ (key, v) :: after ∧ ∀ e ∈ before ++ after, e.1 ≠ key := by
  cases puts with
  | change old before after => exact ⟨before, after, by simp, rfl, ne_of_nodup_keys nodup⟩
  | only => exact ⟨[], [], rfl, rfl, by simp⟩
  | add before after between => exact ⟨before, after, by simp, rfl, ne_of_nodup_keys nodup⟩

theorem stores_iff {k : List Char} {w : α} : t.Stores k w ↔ (k, w) ∈ t.entries [] :=
  mem_entries.symm

/-- After an insertion the key has the new value, and all other keys have the values they had. -/
theorem Inserts.stores_iff {old : Option α} (inserts : Inserts v rest old t t') (valid : t.Valid)
    {k : List Char} {w : α} : t'.Stores k w ↔ if k = rest then w = v else t.Stores k w := by
  obtain ⟨before, after, was, now, other⟩ :=
    (inserts.puts_entries valid []).exists_split ((inserts.valid valid).nodup_keys [])
  rw [Tree.stores_iff, Tree.stores_iff, was, now]
  have := other (k, w)
  cases old <;> grind

/-- An insertion answers the value the key had. -/
theorem Inserts.stores_old {old : Option α} (inserts : Inserts v rest old t t') (valid : t.Valid)
    {w : α} : t.Stores rest w ↔ old = some w := by
  obtain ⟨before, after, was, now, other⟩ :=
    (inserts.puts_entries valid []).exists_split ((inserts.valid valid).nodup_keys [])
  rw [Tree.stores_iff, was]
  have := other (rest, w)
  cases old <;> grind

theorem Erases.stores_iff (erases : Erases v rest t t') (valid : t.Valid) {k : List Char} {w : α} :
    t'.Stores k w ↔ k ≠ rest ∧ t.Stores k w := by
  obtain ⟨before, after, was, now⟩ := erases.entries_eq []
  have other := ne_of_nodup_keys (was ▸ valid.nodup_keys [])
  rw [Tree.stores_iff, Tree.stores_iff, was, now]
  have := other (k, w)
  grind

/-- A removal answers the value the key had. -/
theorem Erases.stores_old (erases : Erases v rest t t') (valid : t.Valid) {w : α} :
    t.Stores rest w ↔ w = v := by
  obtain ⟨before, after, was, now⟩ := erases.entries_eq []
  have other := ne_of_nodup_keys (was ▸ valid.nodup_keys [])
  rw [Tree.stores_iff, was]
  have := other (rest, w)
  grind

/-! ## The entries that begin with a text -/

/-- If a text begins as the label of a child does, the entries that begin with it are below that child. -/
theorem Valid.filter_entries_node (valid : (node h l w ts).Valid) (mem : t ∈ ts)
    (common : commonPrefix t.label rest ≠ []) (p : List Char) :
    ((node h l w ts).entries p).filter (fun e => (p ++ rest).isPrefixOf e.1) =
      (t.entries (p ++ t.label)).filter (fun e => (p ++ rest).isPrefixOf e.1) := by
  obtain ⟨xs, ys, rfl⟩ := List.append_of_mem mem
  obtain ⟨before, after, around, apart⟩ := valid.exists_entries_around p
  have none' : ∀ e ∈ before ++ after, ¬(p ++ rest).isPrefixOf e.1 := by
    intro e he begins
    have back := apart rest common e he _ (List.isPrefixOf_iff_prefix.mp begins) List.prefix_rfl
    have := back.length_le
    rw [List.length_append] at this
    have : rest = [] := List.length_eq_zero_iff.mp (by omega)
    simp [this] at common
  have node_entries := around [t]
  rw [List.singleton_append, List.flatMap_singleton] at node_entries
  rw [node_entries, List.filter_append, List.filter_append,
    List.filter_eq_nil_iff.mpr fun e he => none' e (List.mem_append_left _ he),
    List.filter_eq_nil_iff.mpr fun e he => none' e (List.mem_append_right _ he),
    List.nil_append, List.append_nil]

theorem Reaches.filter_entries {way : List Char} (reaches : t.Reaches rest u way) (valid : t.Valid)
    (p : List Char) :
    (t.entries p).filter (fun e => (p ++ rest).isPrefixOf e.1) = u.entries (p ++ way) := by
  induction reaches generalizing p with
  | @here t =>
      rw [List.append_nil, List.filter_eq_self]
      exact fun e he => List.isPrefixOf_iff_prefix.mpr (prefix_of_mem_entries he)
  | @within h l w ts t rest back mem label ne ne' =>
      have common : commonPrefix t.label rest ≠ [] := by
        rwa [label, Text.commonPrefix_comm, Text.commonPrefix_append_self]
      rw [valid.filter_entries_node mem common, List.filter_eq_self]
      have hl : rest <+: t.label := label ▸ List.prefix_append rest back
      exact fun e he => List.isPrefixOf_iff_prefix.mpr (prefix_of_mem_below hl he)
  | @child h l w ts t rest u way mem reaches ih =>
      obtain ⟨ne, -, validT⟩ := valid.child mem
      have common : commonPrefix t.label (t.label ++ rest) ≠ [] := by
        rwa [Text.commonPrefix_append_self]
      rw [valid.filter_entries_node mem common, ← List.append_assoc, ih validT, List.append_assoc]

/-- A text with which an entry begins is reached. -/
theorem exists_reaches {e : List Char × α} (mem : e ∈ t.entries p) (begins : p ++ rest <+: e.1) :
    ∃ u way, t.Reaches rest u way := by
  induction t using values.induct generalizing p rest with
  | case1 h l w ts ih =>
      rcases mem_entries_node.mp mem with ⟨v, -, rfl⟩ | ⟨u, hu, mem⟩
      · have back := begins.length_le
        simp only [List.length_append] at back
        obtain rfl : rest = [] := List.length_eq_zero_iff.mp (by omega)
        exact ⟨_, _, .here⟩
      · by_cases nil : rest = []
        · subst nil
          exact ⟨_, _, .here⟩
        · rcases List.prefix_or_prefix_of_prefix begins (prefix_of_mem_entries mem) with sub | sub
          · obtain ⟨back, label⟩ := (List.prefix_append_right_inj p).mp sub
            cases back with
            | nil =>
                rw [List.append_nil] at label
                exact ⟨u, _, by simpa [label] using Reaches.child hu .here⟩
            | cons c back => exact ⟨_, _, .within hu label.symm nil (by simp)⟩
          · obtain ⟨rest', rfl⟩ := (List.prefix_append_right_inj p).mp sub
            rw [← List.append_assoc] at begins
            obtain ⟨x, way, reaches⟩ := ih u hu mem begins
            exact ⟨x, _, .child hu reaches⟩

end CodeAtlas.PrefixIndex.Tree
