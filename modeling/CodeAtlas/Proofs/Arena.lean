import CodeAtlas.Arena
import Mathlib.Data.Finset.Dedup
import Mathlib.Data.Set.Card
import Mathlib.Logic.Function.Basic

/-!
# Arenas as partial maps

Whatever is done with an arena, and through whichever handles, it does what a partial map from handles to
values does: a new value gets a handle that names none, and a handle that names no value is passed over. The
vacant slots are those that hold no value, each of them noted once, so the size of an arena is the number of
handles that name a value.
-/

namespace CodeAtlas.Arena

variable {α : Type}

/-! ## Operations and their answers -/

/-- Something to be done with an arena. -/
inductive Operation (α : Type) where
  | alloc (x : α)
  | release (h : Handle)
  | get (h : Handle)
  /-- Looks a value up and changes it where it is. -/
  | modify (h : Handle) (f : α → α)
  | fetch (h : Handle)
  | replace (h : Handle) (x : α)

inductive Answer (α : Type) where
  | handle (h : Handle)
  | found (x : Option α)
  | fetched (x : Except Error α)

/-- Does something with an arena. What changes a value answers the one that was there. -/
def perform (a : Arena α) : Operation α → Answer α × Arena α
  | .alloc x => ((a.alloc x).map .handle id)
  | .release h => ((a.release h).map .found id)
  | .get h => (.found (a.get? h), a)
  | .modify h f => (.found (a.get? h), a.modify h f)
  | .fetch h => (.fetched (a.fetch h), a)
  | .replace h x =>
      match a.replace h x with
      | .ok a' => (.fetched (a.fetch h), a')
      | .error e => (.fetched (.error e), a)

def run (a : Arena α) : List (Operation α) → List (Answer α) × Arena α
  | [] => ([], a)
  | op :: ops =>
      let (answer, a) := a.perform op
      let (answers, a) := a.run ops
      (answer :: answers, a)

/-! ## Partial maps -/

/-- What is answered on a partial map, and what becomes of it. A new value gets any handle that names none. -/
inductive OnMap : (Handle → Option α) → Operation α → Answer α → (Handle → Option α) → Prop
  | alloc {m : Handle → Option α} {h : Handle} (x : α) (free : m h = none) :
      OnMap m (.alloc x) (.handle h) (Function.update m h (some x))
  | release {m : Handle → Option α} {h : Handle} {x : α} (live : m h = some x) :
      OnMap m (.release h) (.found (some x)) (Function.update m h none)
  | releaseStale {m : Handle → Option α} {h : Handle} (stale : m h = none) :
      OnMap m (.release h) (.found none) m
  | get (m : Handle → Option α) (h : Handle) : OnMap m (.get h) (.found (m h)) m
  | modify {m : Handle → Option α} {h : Handle} {x : α} (f : α → α) (live : m h = some x) :
      OnMap m (.modify h f) (.found (some x)) (Function.update m h (some (f x)))
  | modifyStale {m : Handle → Option α} {h : Handle} (f : α → α) (stale : m h = none) :
      OnMap m (.modify h f) (.found none) m
  | fetch {m : Handle → Option α} {h : Handle} {x : α} (live : m h = some x) :
      OnMap m (.fetch h) (.fetched (.ok x)) m
  | fetchStale {m : Handle → Option α} {h : Handle} (stale : m h = none) :
      OnMap m (.fetch h) (.fetched (.error .staleHandle)) m
  | replace {m : Handle → Option α} {h : Handle} {x : α} (y : α) (live : m h = some x) :
      OnMap m (.replace h y) (.fetched (.ok x)) (Function.update m h (some y))
  | replaceStale {m : Handle → Option α} {h : Handle} (y : α) (stale : m h = none) :
      OnMap m (.replace h y) (.fetched (.error .staleHandle)) m

/-- Some operations one after another, with their answers, on a partial map. -/
inductive RunOnMap : (Handle → Option α) → List (Operation α) → List (Answer α) → (Handle → Option α) → Prop
  | nil (m : Handle → Option α) : RunOnMap m [] [] m
  | cons {m m' m'' : Handle → Option α} {op : Operation α} {answer : Answer α}
      {ops : List (Operation α)} {answers : List (Answer α)} (first : OnMap m op answer m')
      (rest : RunOnMap m' ops answers m'') : RunOnMap m (op :: ops) (answer :: answers) m''

/-! ## Stale handles -/

section Stale

variable {a : Arena α} {h : Handle} (stale : a.get? h = none)
include stale

theorem release_stale : a.release h = (none, a) := by
  rw [release, stale]

theorem modify_stale (f : α → α) : a.modify h f = a := by
  have slots_eq : a.slots.modify h.index (Option.map f) = a.slots := by
    refine Array.ext_getElem? fun j => ?_
    rw [Array.getElem?_modify]
    split
    · next same =>
        subst same
        rw [get?, Option.join_eq_none_iff] at stale
        rcases stale with outside | empty
        · rw [outside]
          rfl
        · rw [empty]
          rfl
    · rfl
  rw [modify, slots_eq]

theorem fetch_stale : a.fetch h = .error .staleHandle := by
  rw [fetch, stale]

end Stale

theorem fetch_live {a : Arena α} {h : Handle} {x : α} (live : a.get? h = some x) : a.fetch h = .ok x := by
  rw [fetch, live]

/-! ## One operation -/

theorem get?_modify_live {a : Arena α} {h : Handle} {x : α} (live : a.get? h = some x) (f : α → α) :
    (a.modify h f).get? = Function.update a.get? h (some (f x)) := by
  funext k
  rw [get?_modify, Function.update_apply]
  split
  · next same => rw [same, live, Option.map_some]
  · rfl

theorem wellFormed_perform {a : Arena α} (wf : a.WellFormed) (op : Operation α) :
    (a.perform op).2.WellFormed := by
  cases op with
  | alloc x => exact wf.alloc x
  | release h => exact wf.release h
  | get h => exact wf
  | modify h f => exact wf.modify h f
  | fetch h => exact wf
  | replace h x =>
      rw [perform, replace]
      cases a.fetch h with
      | ok y => exact wf.modify h _
      | error e => exact wf

/-- What an operation does with an arena it does on the map of its values. -/
theorem onMap_perform {a : Arena α} (wf : a.WellFormed) (op : Operation α) :
    OnMap a.get? op (a.perform op).1 (a.perform op).2.get? := by
  cases op with
  | alloc x =>
      have after : (a.alloc x).2.get? = Function.update a.get? (a.alloc x).1 (some x) := by
        funext k
        rw [wf.get?_alloc, Function.update_apply]
      have new := OnMap.alloc x (wf.get?_alloc_fst x)
      rwa [← after] at new
  | release h =>
      rw [perform]
      cases held : a.get? h with
      | none =>
          rw [release_stale held]
          exact .releaseStale held
      | some x =>
          have answered : (a.release h).1 = some x := by rw [release, held]
          have after : (a.release h).2.get? = Function.update a.get? h none := by
            funext k
            rw [get?_release, Function.update_apply]
          have released := OnMap.release held
          rwa [← after, ← answered] at released
  | get h => exact .get a.get? h
  | modify h f =>
      rw [perform]
      cases held : a.get? h with
      | none =>
          rw [modify_stale held]
          exact .modifyStale f held
      | some x =>
          have modified := OnMap.modify f held
          rwa [← get?_modify_live held] at modified
  | fetch h =>
      rw [perform]
      cases held : a.get? h with
      | none =>
          rw [fetch_stale held]
          exact .fetchStale held
      | some x =>
          rw [fetch_live held]
          exact .fetch held
  | replace h y =>
      rw [perform, replace]
      cases held : a.get? h with
      | none =>
          rw [fetch_stale held]
          exact .replaceStale y held
      | some x =>
          rw [fetch_live held]
          have replaced := OnMap.replace y held
          rwa [← get?_modify_live held fun _ => y] at replaced

/-! ## Counting -/

/-- The numbers of the slots that hold no value. -/
def emptySlots (a : Arena α) : List Nat :=
  (List.range a.slots.size).filter fun i => (a.get? ⟨i⟩).isNone

/-- The numbers of the slots that hold a value. -/
def liveSlots (a : Arena α) : List Nat :=
  (List.range a.slots.size).filter fun i => (a.get? ⟨i⟩).isSome

theorem length_emptySlots_add_length_liveSlots (a : Arena α) :
    a.emptySlots.length + a.liveSlots.length = a.slots.size := by
  have divided := (List.range a.slots.size).length_eq_length_filter_add fun i => (a.get? ⟨i⟩).isNone
  rw [List.length_range] at divided
  simpa only [emptySlots, liveSlots, Option.not_isNone] using divided.symm

theorem mem_emptySlots {a : Arena α} {i : Nat} : i ∈ a.emptySlots ↔ a.slots[i]? = some none := by
  rw [emptySlots, List.mem_filter, List.mem_range, get?, Option.isNone_iff_eq_none,
    Option.join_eq_none_iff]
  constructor
  · rintro ⟨inside, outside | empty⟩
    · exact absurd (Array.getElem?_eq_none_iff.mp outside) (Nat.not_le.mpr inside)
    · exact empty
  · intro empty
    exact ⟨(Array.getElem?_eq_some_iff.mp empty).1, .inr empty⟩

/-- Each empty slot is noted once. -/
theorem WellFormed.vacant_perm {a : Arena α} (wf : a.WellFormed) : a.vacant.Perm a.emptySlots :=
  (List.perm_ext_iff_of_nodup wf.nodup (List.nodup_range.filter _)).mpr fun i =>
    (wf.mem_vacant i).trans mem_emptySlots.symm

theorem WellFormed.vacant_le {a : Arena α} (wf : a.WellFormed) : a.vacant.length ≤ a.slots.size := by
  have noted := wf.vacant_perm.length_eq
  have total := a.length_emptySlots_add_length_liveSlots
  omega

theorem live_eq (a : Arena α) :
    {h | (a.get? h).isSome} = ((a.liveSlots.map Handle.mk).toFinset : Set Handle) := by
  ext ⟨i⟩
  simp only [Set.mem_ofPred_eq, List.coe_toFinset, List.mem_map, Handle.mk.injEq, exists_eq_right, liveSlots,
    List.mem_filter, List.mem_range, iff_and_self]
  intro live
  obtain ⟨x, held⟩ := Option.isSome_iff_exists.mp live
  exact (Array.getElem?_eq_some_iff.mp (get?_eq_some.mp held)).1

theorem ncard_live (a : Arena α) : {h | (a.get? h).isSome}.ncard = a.liveSlots.length := by
  have nodup : (a.liveSlots.map Handle.mk).Nodup :=
    (List.nodup_range.filter _).map fun i j same => Handle.mk.inj same
  rw [live_eq, Set.ncard_coe_finset, List.toFinset_card_of_nodup nodup, List.length_map]

/-- What an arena tells about the values in it. -/
structure Accounts (a : Arena α) : Prop where
  /-- Each empty slot is noted once. -/
  vacant : a.vacant.Perm a.emptySlots
  vacant_le : a.vacant.length ≤ a.slots.size
  finite : {h | (a.get? h).isSome}.Finite
  size : a.size = {h | (a.get? h).isSome}.ncard
  mem_toList : ∀ h x, (h, x) ∈ a.toList ↔ a.get? h = some x
  increasing : a.toList.Pairwise fun entry entry' => entry.1.index < entry'.1.index

theorem WellFormed.accounts {a : Arena α} (wf : a.WellFormed) : a.Accounts := by
  refine ⟨wf.vacant_perm, wf.vacant_le, ?_, ?_, fun h x => Arena.mem_toList, a.pairwise_toList⟩
  · rw [live_eq]
    exact Finset.finite_toSet _
  · have total := a.length_emptySlots_add_length_liveSlots
    rw [ncard_live, Arena.size, wf.vacant_perm.length_eq]
    omega

/-! ## Runs -/

theorem runOnMap_run {a : Arena α} (wf : a.WellFormed) (ops : List (Operation α)) :
    RunOnMap a.get? ops (a.run ops).1 (a.run ops).2.get? ∧ (a.run ops).2.WellFormed := by
  induction ops generalizing a with
  | nil => exact ⟨.nil _, wf⟩
  | cons op ops ih =>
      obtain ⟨rest, wf'⟩ := ih (wellFormed_perform wf op)
      exact ⟨.cons (onMap_perform wf op) rest, wf'⟩

/-- Whatever is done with an arena that was empty, it answers and changes as a partial map does that was
empty. It keeps account of its values, and a handle that names none leaves it as it is. -/
theorem operations_refine_map (ops : List (Operation α)) :
    let (answers, a) := (empty : Arena α).run ops
    RunOnMap (fun _ => none) ops answers a.get? ∧ a.Accounts ∧
      ∀ h, a.get? h = none → a.release h = (none, a) ∧ ∀ f, a.modify h f = a := by
  obtain ⟨ran, wf⟩ := runOnMap_run (WellFormed.empty (α := α)) ops
  exact ⟨ran, wf.accounts, fun h stale => ⟨release_stale stale, modify_stale stale⟩⟩

end CodeAtlas.Arena
