import CodeAtlas.PrefixIndex.Shape

/-!
# Prefix indexes

A prefix index maps texts to values and answers which keys begin with a given text. It is a graph of
nodes that bears a tree. So each operation on it comes to an answer, and what an operation leaves is
a prefix index again.
-/

namespace CodeAtlas

/-- A map from texts to values that can be searched by the beginning of a key. -/
structure PrefixIndex (α : Type) where
  graph : PrefixIndex.Graph α
  shaped : ∃ t, graph.Bears t

namespace PrefixIndex

variable {α : Type}

theorem ext_graph {ix ix' : PrefixIndex α} (h : ix.graph = ix'.graph) : ix = ix' := by
  cases ix
  cases h
  rfl

def empty : PrefixIndex α :=
  ⟨.empty, _, Graph.bears_empty⟩

def size (ix : PrefixIndex α) : Nat :=
  ix.graph.size

def isEmpty (ix : PrefixIndex α) : Bool :=
  ix.size == 0

def clear (_ : PrefixIndex α) : PrefixIndex α :=
  empty

/-! ## Insertion -/

theorem insert_ends (ix : PrefixIndex α) (key : String) (v : α) : (ix.graph.insert key v).Ends := by
  obtain ⟨t, bears⟩ := ix.shaped
  obtain ⟨old, g', t', run, -⟩ := bears.insert_eq key v
  exact ⟨(old, g'), run⟩

theorem insert_shaped (ix : PrefixIndex α) (key : String) (v : α) :
    ∃ t, ((ix.graph.insert key v).answer (ix.insert_ends key v)).2.Bears t := by
  obtain ⟨t, bears⟩ := ix.shaped
  obtain ⟨old, g', t', run, bears', -⟩ := bears.insert_eq key v
  exact ⟨t', by rwa [Run.answer_eq run]⟩

/-- Inserts a value, and answers the value the key had before. The empty key takes no value. -/
def insert (ix : PrefixIndex α) (key : String) (v : α) : Option α × PrefixIndex α :=
  let done := (ix.graph.insert key v).answer (ix.insert_ends key v)
  (done.1, ⟨done.2, ix.insert_shaped key v⟩)

/-! ## Look-up -/

theorem get?_ends (ix : PrefixIndex α) (key : String) : (ix.graph.get? key).Ends := by
  obtain ⟨t, bears⟩ := ix.shaped
  obtain ⟨o, run, -⟩ := bears.get?_eq key
  exact ⟨o, run⟩

def get? (ix : PrefixIndex α) (key : String) : Option α :=
  (ix.graph.get? key).answer (ix.get?_ends key)

def contains (ix : PrefixIndex α) (key : String) : Bool :=
  (ix.get? key).isSome

theorem getMut?_ends (ix : PrefixIndex α) (key : String) : (ix.graph.getMut? key).Ends := by
  obtain ⟨t, bears⟩ := ix.shaped
  obtain ⟨o, run, -⟩ := bears.getMut?_eq key
  exact ⟨o, run⟩

theorem getMut?_shaped (ix : PrefixIndex α) {key : String} {v : α} {write : α → Graph α}
    (h : (ix.graph.getMut? key).answer (ix.getMut?_ends key) = some (v, write)) (w : α) :
    ∃ t, (write w).Bears t := by
  obtain ⟨t, bears⟩ := ix.shaped
  obtain ⟨o, run, -, writes⟩ := bears.getMut?_eq key
  rw [Run.answer_eq run] at h
  obtain ⟨t', bears', -⟩ := writes v write h w
  exact ⟨t', bears'⟩

/-- The value of a key, and the index with another value in its place. -/
def getMut? (ix : PrefixIndex α) (key : String) : Option (α × (α → PrefixIndex α)) :=
  match h : (ix.graph.getMut? key).answer (ix.getMut?_ends key) with
  | none => none
  | some (v, write) => some (v, fun w => ⟨write w, ix.getMut?_shaped h w⟩)

/-! ## Removal -/

theorem remove_ends (ix : PrefixIndex α) (key : String) : (ix.graph.remove key).Ends := by
  obtain ⟨t, bears⟩ := ix.shaped
  obtain ⟨old, g', t', run, -⟩ := bears.remove_eq key
  exact ⟨(old, g'), run⟩

theorem remove_shaped (ix : PrefixIndex α) (key : String) :
    ∃ t, ((ix.graph.remove key).answer (ix.remove_ends key)).2.Bears t := by
  obtain ⟨t, bears⟩ := ix.shaped
  obtain ⟨old, g', t', run, bears', -⟩ := bears.remove_eq key
  exact ⟨t', by rwa [Run.answer_eq run]⟩

/-- Removes a key, and answers the value it had. -/
def remove (ix : PrefixIndex α) (key : String) : Option α × PrefixIndex α :=
  let done := (ix.graph.remove key).answer (ix.remove_ends key)
  (done.1, ⟨done.2, ix.remove_shaped key⟩)

def delete (ix : PrefixIndex α) (key : String) : PrefixIndex α :=
  (ix.remove key).2

/-! ## What the operations do to the tree -/

variable {ix : PrefixIndex α} {t : Tree α} (bears : ix.graph.Bears t)

include bears

theorem get?_eq_some {key : String} {v : α} : ix.get? key = some v ↔ t.Stores key.toList v := by
  obtain ⟨o, run, found⟩ := bears.get?_eq key
  rw [get?, Run.answer_eq run, found]

theorem exists_insert (key : String) (v : α) :
    ∃ t', (ix.insert key v).2.graph.Bears t' ∧
      if key = "" then (ix.insert key v).1 = none ∧ (ix.insert key v).2 = ix
      else t.Inserts v key.toList (ix.insert key v).1 t' := by
  obtain ⟨old, g', t', run, bears', change⟩ := bears.insert_eq key v
  have old_eq : (ix.insert key v).1 = old := congrArg Prod.fst (Run.answer_eq run _)
  have graph_eq : (ix.insert key v).2.graph = g' := congrArg Prod.snd (Run.answer_eq run _)
  refine ⟨t', by rwa [graph_eq], ?_⟩
  by_cases e : key = ""
  · rw [if_pos e] at change ⊢
    exact ⟨old_eq.trans change.1, ext_graph (graph_eq.trans change.2.1)⟩
  · rw [if_neg e] at change ⊢
    rwa [old_eq]

theorem map_fst_getMut? (key : String) : (ix.getMut? key).map Prod.fst = ix.get? key := by
  obtain ⟨o, run, run', -⟩ := bears.getMut?_eq key
  have get_eq : ix.get? key = o.map Prod.fst := Run.answer_eq run' _
  rw [get_eq, getMut?]
  split
  · rename_i h
    rw [Run.answer_eq run] at h
    rw [h]
    rfl
  · rename_i v write h
    rw [Run.answer_eq run] at h
    rw [h]
    rfl

theorem exists_write {key : String} {v : α} {write : α → PrefixIndex α}
    (h : ix.getMut? key = some (v, write)) (w : α) :
    ∃ t', (write w).graph.Bears t' ∧ t.Inserts w key.toList (some v) t' := by
  obtain ⟨o, run, -, writes⟩ := bears.getMut?_eq key
  rw [getMut?] at h
  split at h
  · cases h
  · rename_i v' write' h'
    rw [Run.answer_eq run] at h'
    cases h
    exact writes v write' h' w

theorem exists_remove (key : String) :
    ∃ t', (ix.remove key).2.graph.Bears t' ∧
      match (ix.remove key).1 with
      | none => (∀ v, ¬t.Stores key.toList v) ∧ (ix.remove key).2 = ix
      | some v => t.Erases v key.toList t' := by
  obtain ⟨old, g', t', run, bears', change⟩ := bears.remove_eq key
  have old_eq : (ix.remove key).1 = old := congrArg Prod.fst (Run.answer_eq run _)
  have graph_eq : (ix.remove key).2.graph = g' := congrArg Prod.snd (Run.answer_eq run _)
  refine ⟨t', by rwa [graph_eq], ?_⟩
  rw [old_eq]
  cases old with
  | none => exact ⟨change.1, ext_graph (graph_eq.trans change.2.1)⟩
  | some v => exact change

theorem size_eq : ix.size = t.values.length :=
  bears.size

end PrefixIndex

end CodeAtlas
