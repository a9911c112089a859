import CodeAtlas.PrefixIndex.Descent
import CodeAtlas.PrefixIndex.Insertion
import CodeAtlas.PrefixIndex.Removal
import CodeAtlas.PrefixIndex.Traversal

/-!
# The shape of the graphs of prefix indexes

The graph of a prefix index bears a valid tree and holds nothing else. Each operation on such a graph
comes to an answer. It leaves a graph that bears a tree again, the one that the relations on trees
name.
-/

namespace CodeAtlas.PrefixIndex.Graph

open PrefixIndex.Tree (handle LivesIn Inserts Erases Replaced)

variable {α : Type}

/-- The live nodes of the graph are those of a valid tree, whose top is the root and holds nothing. -/
structure Bears (g : Graph α) (t : Tree α) : Prop where
  arena : g.nodes.WellFormed
  root : t.handle = g.root
  lives : t.LivesIn g.nodes none
  nodup : t.handles.Nodup
  vacant : ∀ k, k ∉ t.handles → g.nodes.get? k = none
  valid : t.Valid
  label : t.label = []
  value : t.value = none
  size : g.size = t.values.length

theorem bears_empty : (empty : Graph α).Bears (.node ⟨0⟩ [] none []) where
  arena := Arena.WellFormed.empty.alloc _
  root := rfl
  lives := .intro rfl (by simp)
  nodup := by simp
  vacant := by
    intro k hk
    have := Arena.WellFormed.empty.get?_alloc (⟨[], none, [], none⟩ : Node α) k
    simp only [Tree.handles_node, List.flatMap_nil, List.mem_singleton] at hk
    exact this.trans (by simp [Arena.empty, Arena.alloc, hk, Arena.get?])
  valid := .leaf _ _ _
  label := rfl
  value := rfl
  size := by simp [empty, Tree.values_node]

/-- A graph whose tree is replaced bears the tree that takes its place. -/
theorem Bears.replace {g : Graph α} {t t' : Tree α} (bears : g.Bears t) {nodes' : Arena (Node α)}
    (arena : nodes'.WellFormed) (replaced : Replaced g.nodes nodes' none t t')
    (handle_eq : t'.handle = t.handle) (valid : t'.Valid) (label_eq : t'.label = t.label)
    (value : t'.value = none) : Bears ⟨nodes', g.root, t'.values.length⟩ t' where
  arena := arena
  root := handle_eq.trans bears.root
  lives := replaced.lives
  nodup := replaced.nodup
  vacant k hk := by
    by_cases old : k ∈ t.handles
    · exact (replaced.freed k old).resolve_left hk
    · exact (replaced.frame k old hk).trans (bears.vacant k old)
  valid := valid
  label := label_eq.trans bears.label
  value := value
  size := rfl

variable {g : Graph α} {t : Tree α} (bears : g.Bears t)

include bears

/-! ## Look-up -/

theorem Bears.find_eq (key : String) :
    ∃ o : Option (Tree α), g.find key = pure (o.map handle) ∧ ∀ u, o = some u ↔ t.Leads key.toList u := by
  have := findBelow_eq bears.lives bears.valid key.toList
  rwa [bears.root] at this

theorem Bears.get?_eq (key : String) :
    ∃ o, g.get? key = pure o ∧ ∀ v, o = some v ↔ t.Stores key.toList v := by
  obtain ⟨o, run, found⟩ := bears.find_eq key
  cases o with
  | none =>
      refine ⟨none, by simp [get?, run], fun v => ⟨fun h => by simp at h, ?_⟩⟩
      rintro ⟨u, leads, -⟩
      cases (found u).mpr leads
  | some u =>
      have leads := (found u).mp rfl
      obtain ⟨p, livesU⟩ := bears.lives.leads leads
      refine ⟨u.value, by simp [get?, run, node_eq livesU.get?_handle], fun v => ⟨fun h => ?_, ?_⟩⟩
      · exact ⟨u, leads, h⟩
      · rintro ⟨u', leads', h⟩
        cases (found u').mpr leads'
        exact h

/-! ## Changes -/

/-- Whatever notes are kept, an insertion makes the same clean cuts, and leaves a tree that the value has been
inserted into. The empty key changes nothing. -/
theorem Bears.insertNoting_eq (key : String) (v : α) :
    ∃ cuts old g' t',
      (∀ {σ : Type} (note : Cut → σ → σ), g.insertNoting note key v = do
        noteAll note cuts
        return (old, g')) ∧
      (∀ c ∈ cuts, c.IsClean) ∧ g'.Bears t' ∧
      if key = "" then old = none ∧ g' = g ∧ t' = t else Inserts v key.toList old t t' := by
  by_cases e : key = ""
  · refine ⟨[], none, g, t, fun note => ?_, List.forall_mem_nil _, bears, ?_⟩
    · rw [insertNoting, if_pos e]
      rfl
    · rw [if_pos e]
      exact ⟨rfl, rfl, rfl⟩
  · have ne : key.toList ≠ [] := fun h => e (String.toList_eq_nil_iff.mp h)
    obtain ⟨cuts, old, t', nodes', run, clean, arena', inserts, replaced⟩ :=
      insertBelow_eq bears.arena bears.lives bears.nodup bears.valid key.toList v
    have bears' := bears.replace arena' replaced inserts.handle_eq (inserts.valid bears.valid)
      inserts.label_eq (inserts.value_eq_none (.inl ne) bears.value)
    rw [inserts.length_values, ← bears.size] at bears'
    rw [bears.root] at run
    refine ⟨cuts, old, _, t', fun note => ?_, clean, bears', by rwa [if_neg e]⟩
    rw [insertNoting, if_neg e, run]

theorem Bears.insert_eq (key : String) (v : α) :
    ∃ old g' t', g.insert key v = pure (old, g') ∧ g'.Bears t' ∧
      if key = "" then old = none ∧ g' = g ∧ t' = t else Inserts v key.toList old t t' := by
  obtain ⟨cuts, old, g', t', run, -, bears', change⟩ := bears.insertNoting_eq key v
  exact ⟨old, g', t', insert_of_noteAll (run _), bears', change⟩

/-- A reference to a value shows it, and to write through it is to insert. -/
theorem Bears.getMut?_eq (key : String) :
    ∃ o, g.getMut? key = pure o ∧ g.get? key = pure (o.map Prod.fst) ∧
      ∀ v write, o = some (v, write) → ∀ w, ∃ t', (write w).Bears t' ∧
        Inserts w key.toList (some v) t t' := by
  obtain ⟨o, run, found⟩ := bears.find_eq key
  cases o with
  | none =>
      exact ⟨none, by simp [getMut?, run], by simp [get?, run], fun v write h => by simp at h⟩
  | some u =>
      have leads := (found u).mp rfl
      obtain ⟨p, livesU⟩ := bears.lives.leads leads
      refine ⟨_, by simp [getMut?, run, node_eq livesU.get?_handle]; rfl,
        by simp [get?, run, node_eq livesU.get?_handle, Function.comp_def], fun v write h w => ?_⟩
      obtain ⟨v', stored, h⟩ := Option.map_eq_some_iff.mp h
      cases h
      obtain ⟨t', inserts, replaced⟩ := replaced_of_leads bears.lives bears.nodup leads stored w
      have bears' := bears.replace (bears.arena.modify _ _) replaced inserts.handle_eq
        (inserts.valid bears.valid) inserts.label_eq
        (inserts.value_eq_none (.inr (by simp)) bears.value)
      rw [inserts.length_values, ← bears.size] at bears'
      exact ⟨t', bears', inserts⟩

/-- A removal leaves a tree from which the value has been erased, or the tree as it is if there is
none. -/
theorem Bears.remove_eq (key : String) :
    ∃ old g' t', g.remove key = pure (old, g') ∧ g'.Bears t' ∧
      match old with
      | none => (∀ v, ¬t.Stores key.toList v) ∧ g' = g ∧ t' = t
      | some v => Erases v key.toList t t' := by
  obtain ⟨o, run, found⟩ := bears.find_eq key
  cases o with
  | none =>
      refine ⟨none, g, t, by simp [remove, run], bears, ?_, rfl, rfl⟩
      rintro v ⟨u, leads, -⟩
      cases (found u).mpr leads
  | some u =>
      have leads := (found u).mp rfl
      obtain ⟨p, livesU⟩ := bears.lives.leads leads
      cases stored : u.value with
      | none =>
          refine ⟨none, g, t, ?_, bears, ?_, rfl, rfl⟩
          · simp [remove, run, node_eq livesU.get?_handle, stored]
          · rintro v ⟨u', leads', h⟩
            cases (found u').mpr leads'
            simp [stored] at h
      | some v =>
          have outside : ∀ s ∈ t.children, g.root ∉ s.handles := by
            rw [← bears.root]
            cases t
            exact fun s hs => Tree.not_mem_handles_of_child bears.nodup hs
          obtain ⟨t', nodes', erases, arena', replaced, pruned⟩ :=
            prune_of_leads (g := { g with size := g.size - 1 }) bears.arena bears.lives bears.nodup
              outside leads stored
          have bears' := bears.replace arena' replaced erases.handle_eq (erases.valid bears.valid)
            erases.label_eq (erases.value_eq_none bears.value)
          have size : g.size = t'.values.length + 1 := bears.size.trans erases.length_values
          simp only [size, Nat.add_sub_cancel, bears.root] at pruned
          refine ⟨some v, _, t', ?_, bears', erases⟩
          simp only [remove, run, Option.map_some, pure_bind, node_eq livesU.get?_handle, stored,
            update_eq livesU.get?_handle, countDown, size, pruned]
          rw [prune_root (g := ⟨nodes', g.root, t'.values.length⟩), pure_bind]

/-! ## Listing -/

/-- The entries that begin with a text are those of the tree that it reaches. -/
theorem Bears.entries_eq (start : String) :
    ∃ o : Option (Tree α × List Char), (∀ u way, o = some (u, way) ↔ t.Reaches start.toList u way) ∧
      g.entries start = pure ((o.elim [] fun top => top.1.entries top.2).map
        fun e => (String.ofList e.1, e.2)) := by
  obtain ⟨o, run, reached⟩ := reachBelow_eq bears.lives bears.valid [] start.toList
  rw [bears.root] at run
  refine ⟨o, reached, ?_⟩
  cases o with
  | none => simp [entries, reach, run]
  | some top =>
      obtain ⟨u, way⟩ := top
      have lives := bears.lives.reaches ((reached u way).mp rfl)
      have walk := collectEntries_eq [(u, way)] (by simpa using lives) #[]
      simp only [List.map_cons, List.map_nil] at walk
      simp [entries, reach, run, walk]

/-- A walk through the values begins with the tree that the text reaches. -/
theorem Bears.startAt_eq (start : String) :
    ∃ o : Option (Tree α × List Char), (∀ u way, o = some (u, way) ↔ t.Reaches start.toList u way) ∧
      g.startAt start = pure ((o.map Prod.fst).toList.map handle) ∧
      ∀ u ∈ (o.map Prod.fst).toList, ∃ p, u.LivesIn g.nodes p := by
  obtain ⟨o, run, reached⟩ := reachBelow_eq bears.lives bears.valid [] start.toList
  rw [bears.root] at run
  refine ⟨o, reached, ?_, fun u hu => ?_⟩
  · cases o <;> simp [startAt, reach, run]
  · cases o with
    | none => simp at hu
    | some top =>
        simp only [Option.map_some, Option.toList_some, List.mem_singleton] at hu
        subst hu
        exact bears.lives.reaches ((reached top.1 top.2).mp rfl)

end CodeAtlas.PrefixIndex.Graph
