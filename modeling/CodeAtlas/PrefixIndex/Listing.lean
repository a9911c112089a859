import CodeAtlas.PrefixIndex.Basic

/-!
# Listing a prefix index

The keys that begin with a given text are listed node before children, and children in order. A walk
through their values can be left at any time.
-/

namespace CodeAtlas

/-- What remains of a walk through the values of a prefix index: the trees whose tops wait on the
stack. -/
structure PrefixIter (α : Type) where
  graph : PrefixIndex.Graph α
  stack : List Handle
  shaped : ∃ ts : List (PrefixIndex.Tree α), stack = ts.map PrefixIndex.Tree.handle ∧
    ∀ t ∈ ts, ∃ parent, t.LivesIn graph.nodes parent

namespace PrefixIter

open PrefixIndex (Run)

variable {α : Type}

theorem next_ends (it : PrefixIter α) : (it.graph.next it.stack).Ends := by
  obtain ⟨ts, stack_eq, lives⟩ := it.shaped
  rw [stack_eq]
  rcases PrefixIndex.Graph.next_eq ts lives with ⟨-, run⟩ | ⟨v, rest, -, -, run⟩
  · exact ⟨_, run⟩
  · exact ⟨_, run⟩

theorem next_shaped (it : PrefixIter α) {v : α} {stack : List Handle}
    (h : (it.graph.next it.stack).answer it.next_ends = some (v, stack)) :
    ∃ ts : List (PrefixIndex.Tree α), stack = ts.map PrefixIndex.Tree.handle ∧
      ∀ t ∈ ts, ∃ parent, t.LivesIn it.graph.nodes parent := by
  obtain ⟨ts, stack_eq, lives⟩ := it.shaped
  rcases PrefixIndex.Graph.next_eq ts lives with ⟨-, run⟩ | ⟨v', rest, -, lives', run⟩
  · rw [← stack_eq] at run
    rw [Run.answer_eq run] at h
    cases h
  · rw [← stack_eq] at run
    rw [Run.answer_eq run] at h
    cases h
    exact ⟨rest, rfl, lives'⟩

def next (it : PrefixIter α) : Option (α × PrefixIter α) :=
  match h : (it.graph.next it.stack).answer it.next_ends with
  | none => none
  | some (v, stack) => some (v, ⟨it.graph, stack, it.next_shaped h⟩)

def take : Nat → PrefixIter α → List α
  | 0, _ => []
  | n + 1, it =>
      match it.next with
      | none => []
      | some (v, it) => v :: it.take n

theorem collect_ends (it : PrefixIter α) : (it.graph.collectValues it.stack #[]).Ends := by
  obtain ⟨ts, stack_eq, lives⟩ := it.shaped
  rw [stack_eq]
  exact ⟨_, PrefixIndex.Graph.collectValues_eq ts lives #[]⟩

def toList (it : PrefixIter α) : List α :=
  ((it.graph.collectValues it.stack #[]).answer it.collect_ends).toList

end PrefixIter

namespace PrefixIndex

variable {α : Type}

theorem startAt_ends (ix : PrefixIndex α) (start : String) : (ix.graph.startAt start).Ends := by
  obtain ⟨t, bears⟩ := ix.shaped
  obtain ⟨o, -, run, -⟩ := bears.startAt_eq start
  exact ⟨_, run⟩

theorem startAt_shaped (ix : PrefixIndex α) (start : String) :
    ∃ ts : List (Tree α),
      (ix.graph.startAt start).answer (ix.startAt_ends start) = ts.map Tree.handle ∧
        ∀ t ∈ ts, ∃ parent, t.LivesIn ix.graph.nodes parent := by
  obtain ⟨t, bears⟩ := ix.shaped
  obtain ⟨o, -, run, lives⟩ := bears.startAt_eq start
  exact ⟨_, Run.answer_eq run _, lives⟩

/-- A walk through the values of the keys that begin with `start`. -/
def iter (ix : PrefixIndex α) (start : String) : PrefixIter α :=
  ⟨ix.graph, (ix.graph.startAt start).answer (ix.startAt_ends start), ix.startAt_shaped start⟩

def search (ix : PrefixIndex α) (start : String) : List α :=
  (ix.iter start).toList

theorem entries_ends (ix : PrefixIndex α) (start : String) : (ix.graph.entries start).Ends := by
  obtain ⟨t, bears⟩ := ix.shaped
  obtain ⟨o, -, run⟩ := bears.entries_eq start
  exact ⟨_, run⟩

/-- The keys that begin with `start`, and their values. -/
def entries (ix : PrefixIndex α) (start : String) : List (String × α) :=
  (ix.graph.entries start).answer (ix.entries_ends start)

end PrefixIndex

end CodeAtlas
