/-!
# Arenas

An arena keeps values in numbered slots. A slot that has been released is handed out again, the most
recently released one first, so a handle can go stale and later name another value.

Looking up, changing and releasing a stale handle have no effect; only `Arena.fetch` treats it as a
mistake of the caller.
-/

namespace CodeAtlas

/-- The number of a slot. It says nothing about whether the slot is in use. -/
structure Handle where
  index : Nat
deriving DecidableEq

namespace Handle

def number (h : Handle) : String :=
  toString h.index

def label (h : Handle) : String :=
  "#" ++ h.number

end Handle

/-- A store of values in numbered slots. -/
structure Arena (α : Type) where
  slots : Array (Option α)
  /-- The empty slots, the most recently released one first. -/
  vacant : List Nat

namespace Arena

variable {α : Type}

def empty : Arena α :=
  ⟨#[], []⟩

/-- Puts a value into a vacant slot, or into a new one if none is vacant. -/
def alloc (a : Arena α) (x : α) : Handle × Arena α :=
  match a.vacant with
  | [] => (⟨a.slots.size⟩, ⟨a.slots.push (some x), []⟩)
  | i :: rest => (⟨i⟩, ⟨a.slots.setIfInBounds i (some x), rest⟩)

def get? (a : Arena α) (h : Handle) : Option α :=
  a.slots[h.index]?.join

def modify (a : Arena α) (h : Handle) (f : α → α) : Arena α :=
  { a with slots := a.slots.modify h.index (Option.map f) }

/-- Empties the slot of a handle, and answers the value it held. -/
def release (a : Arena α) (h : Handle) : Option α × Arena α :=
  match a.get? h with
  | none => (none, a)
  | some x => (some x, ⟨a.slots.setIfInBounds h.index none, h.index :: a.vacant⟩)

def size (a : Arena α) : Nat :=
  a.slots.size - a.vacant.length

def isEmpty (a : Arena α) : Bool :=
  a.size == 0

/-- The occupied slots in the order of their numbers. -/
def toList (a : Arena α) : List (Handle × α) :=
  a.slots.toList.zipIdx.filterMap fun (slot, i) => slot.map fun x => (⟨i⟩, x)

/-- The mistake of reading through a handle that names no value. -/
inductive Error where
  | staleHandle
deriving DecidableEq

def Error.message : Error → String
  | .staleHandle => "stale arena index"

def fetch (a : Arena α) (h : Handle) : Except Error α :=
  match a.get? h with
  | some x => .ok x
  | none => .error .staleHandle

def replace (a : Arena α) (h : Handle) (x : α) : Except Error (Arena α) :=
  (a.fetch h).map fun _ => a.modify h fun _ => x

/-! ## Well-formed arenas -/

/-- The numbers of the empty slots are noted, each once. -/
structure WellFormed (a : Arena α) : Prop where
  nodup : a.vacant.Nodup
  mem_vacant : ∀ i, i ∈ a.vacant ↔ a.slots[i]? = some none

/-! ### What the operations do to look-ups -/

theorem get?_eq_some {a : Arena α} {h : Handle} {x : α} :
    a.get? h = some x ↔ a.slots[h.index]? = some (some x) := by
  simp [get?, Option.join_eq_some_iff]

theorem mem_toList {a : Arena α} {h : Handle} {x : α} : (h, x) ∈ a.toList ↔ a.get? h = some x := by
  obtain ⟨i⟩ := h
  simp only [toList, List.mem_filterMap, Prod.exists, List.mem_zipIdx_iff_getElem?,
    Array.getElem?_toList, Option.map_eq_some_iff, Prod.mk.injEq, Handle.mk.injEq, get?_eq_some]
  constructor
  · rintro ⟨slot, j, here, y, rfl, rfl, rfl⟩
    exact here
  · exact fun here => ⟨some x, i, here, x, rfl, rfl, rfl⟩

/-- The slots are listed in the order of their numbers. -/
theorem pairwise_toList (a : Arena α) :
    a.toList.Pairwise fun entry entry' => entry.1.index < entry'.1.index := by
  have numbers : (a.slots.toList.zipIdx.map Prod.snd).Pairwise (· < ·) := by
    rw [List.zipIdx_map_snd]
    exact List.pairwise_lt_range'
  rw [List.pairwise_map] at numbers
  rw [toList, List.pairwise_filterMap]
  refine numbers.imp fun {s s'} lt e he e' he' => ?_
  obtain ⟨x, -, rfl⟩ := Option.map_eq_some_iff.mp he
  obtain ⟨x', -, rfl⟩ := Option.map_eq_some_iff.mp he'
  exact lt

/-- Each slot is listed once. -/
theorem nodup_toList (a : Arena α) : (a.toList.map Prod.fst).Nodup := by
  rw [List.Nodup, List.pairwise_map]
  refine a.pairwise_toList.imp fun {entry entry'} lt same => ?_
  rw [same] at lt
  exact Nat.lt_irrefl _ lt

theorem get?_modify (a : Arena α) (h k : Handle) (f : α → α) :
    (a.modify h f).get? k = if k = h then (a.get? k).map f else a.get? k := by
  obtain ⟨i⟩ := h
  obtain ⟨j⟩ := k
  simp only [get?, modify, Array.getElem?_modify, Handle.mk.injEq]
  by_cases e : i = j
  · subst e
    cases a.slots[i]? <;> simp
  · simp [e, Ne.symm e]

theorem get?_release (a : Arena α) (h k : Handle) :
    (a.release h).2.get? k = if k = h then none else a.get? k := by
  obtain ⟨i⟩ := h
  obtain ⟨j⟩ := k
  unfold release
  split
  · rename_i stale
    split
    · rename_i e
      rw [e, stale]
    · rfl
  · simp only [get?, Array.getElem?_setIfInBounds, Handle.mk.injEq]
    by_cases e : i = j
    · subst e
      simp only [↓reduceIte]
      split <;> rfl
    · simp [e, Ne.symm e]

/-- A new value is put where none was. -/
theorem WellFormed.get?_alloc_fst {a : Arena α} (wf : a.WellFormed) (x : α) :
    a.get? (a.alloc x).1 = none := by
  unfold alloc
  split
  · simp [get?]
  · rename_i i rest hv
    have hi := (wf.mem_vacant i).mp (by simp [hv])
    simp [get?, hi]

theorem WellFormed.get?_alloc {a : Arena α} (wf : a.WellFormed) (x : α) (k : Handle) :
    (a.alloc x).2.get? k = if k = (a.alloc x).1 then some x else a.get? k := by
  obtain ⟨j⟩ := k
  unfold alloc
  split
  · simp only [get?, Array.getElem?_push, Handle.mk.injEq]
    split <;> rfl
  · rename_i i rest hv
    have hi := (wf.mem_vacant i).mp (by simp [hv])
    have hlt : i < a.slots.size := (Array.getElem?_eq_some_iff.mp hi).1
    simp only [get?, Array.getElem?_setIfInBounds, Handle.mk.injEq]
    by_cases e : i = j
    · subst e
      simp [hlt]
    · simp [e, Ne.symm e]

/-! ### The operations keep arenas well-formed -/

theorem WellFormed.empty : (empty : Arena α).WellFormed :=
  ⟨List.nodup_nil, by simp [Arena.empty]⟩

theorem WellFormed.alloc {a : Arena α} (wf : a.WellFormed) (x : α) : (a.alloc x).2.WellFormed := by
  unfold Arena.alloc
  split
  · rename_i hv
    refine ⟨List.nodup_nil, fun i => ?_⟩
    have := wf.mem_vacant i
    simp only [hv, List.not_mem_nil, false_iff] at this
    simp only [List.not_mem_nil, Array.getElem?_push, false_iff]
    split
    · simp
    · exact this
  · rename_i i rest hv
    have hd := wf.nodup
    simp only [hv, List.nodup_cons] at hd
    refine ⟨hd.2, fun j => ?_⟩
    have hj := wf.mem_vacant j
    simp only [hv, List.mem_cons] at hj
    simp only [Array.getElem?_setIfInBounds]
    by_cases e : i = j
    · subst e
      simp only [hd.1, false_iff, ↓reduceIte]
      split <;> simp
    · simp only [Ne.symm e, false_or] at hj
      simp [e, hj]

theorem WellFormed.of_alloc {a a' : Arena α} {x : α} {k : Handle} (wf : a.WellFormed)
    (added : a.alloc x = (k, a')) :
    a'.WellFormed ∧ a.get? k = none ∧ ∀ j, a'.get? j = if j = k then some x else a.get? j := by
  have arena := wf.alloc x
  have vacant := wf.get?_alloc_fst x
  have get' := wf.get?_alloc x
  rw [added] at arena vacant get'
  exact ⟨arena, vacant, get'⟩

theorem WellFormed.modify {a : Arena α} (wf : a.WellFormed) (h : Handle) (f : α → α) :
    (a.modify h f).WellFormed := by
  refine ⟨wf.nodup, fun i => (wf.mem_vacant i).trans ?_⟩
  simp only [Arena.modify, Array.getElem?_modify]
  split
  · simp
  · rfl

theorem WellFormed.release {a : Arena α} (wf : a.WellFormed) (h : Handle) :
    (a.release h).2.WellFormed := by
  unfold Arena.release
  split
  · exact wf
  · rename_i x hx
    have hs := get?_eq_some.mp hx
    have hlt : h.index < a.slots.size := (Array.getElem?_eq_some_iff.mp hs).1
    have hnot : h.index ∉ a.vacant := fun hm => by
      simp [(wf.mem_vacant _).mp hm] at hs
    refine ⟨List.nodup_cons.mpr ⟨hnot, wf.nodup⟩, fun i => ?_⟩
    simp only [List.mem_cons, Array.getElem?_setIfInBounds]
    by_cases e : h.index = i
    · simp [e, e ▸ hlt]
    · simp [e, Ne.symm e, wf.mem_vacant i]

end Arena

end CodeAtlas
