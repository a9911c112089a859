import CodeAtlas.Proofs.Arena
import CodeAtlas.Proofs.Checked.Position

/-!
# Arenas with checked slots

A value is put into a slot by its number, and the size of an arena is a difference of two lengths. On the
arenas that come about from an empty one, whatever is put in, changed and released, and through whichever
handles, both can be done: the numbers of vacant slots are those of slots, each once.
-/

namespace CodeAtlas.Checked

variable {α : Type}

def alloc (a : Arena α) (x : α) : Except Fault (Handle × Arena α) :=
  match a.vacant with
  | [] => .ok (⟨a.slots.size⟩, ⟨a.slots.push (some x), []⟩)
  | i :: rest =>
      if i < a.slots.size then .ok (⟨i⟩, ⟨a.slots.setIfInBounds i (some x), rest⟩)
      else .error .missingSlot

def arenaSize (a : Arena α) : Except Fault Nat :=
  minus a.slots.size a.vacant.length

/-- A change of an arena. -/
inductive ArenaChange (α : Type) where
  | alloc (x : α)
  | modify (h : Handle) (f : α → α)
  | release (h : Handle)

namespace ArenaChange

def apply (a : Arena α) : ArenaChange α → Arena α
  | .alloc x => (a.alloc x).2
  | .modify h f => a.modify h f
  | .release h => (a.release h).2

def applyChecked (a : Arena α) : ArenaChange α → Except Fault (Arena α)
  | .alloc x => (Checked.alloc a x).map Prod.snd
  | .modify h f => .ok (a.modify h f)
  | .release h => .ok (a.release h).2

end ArenaChange

/-! ## No slot is missing -/

theorem alloc_eq {a : Arena α} (wf : a.WellFormed) (x : α) : alloc a x = .ok (a.alloc x) := by
  rw [alloc, Arena.alloc]
  cases vacant : a.vacant with
  | nil => rfl
  | cons i rest =>
      have empty := (wf.mem_vacant i).mp (by rw [vacant]; exact List.mem_cons_self)
      exact if_pos (Array.getElem?_eq_some_iff.mp empty).1

theorem arenaSize_eq {a : Arena α} (wf : a.WellFormed) : arenaSize a = .ok a.size :=
  minus_eq wf.vacant_le

namespace ArenaChange

theorem wellFormed_apply {a : Arena α} (wf : a.WellFormed) (c : ArenaChange α) :
    (c.apply a).WellFormed := by
  cases c with
  | alloc x => exact wf.alloc x
  | modify h f => exact wf.modify h f
  | release h => exact wf.release h

theorem applyChecked_eq {a : Arena α} (wf : a.WellFormed) (c : ArenaChange α) :
    c.applyChecked a = .ok (c.apply a) := by
  cases c with
  | alloc x =>
      rw [applyChecked, alloc_eq wf]
      rfl
  | modify h f => rfl
  | release h => rfl

theorem foldlM_applyChecked {a : Arena α} (wf : a.WellFormed) (cs : List (ArenaChange α)) :
    cs.foldlM applyChecked a = .ok (cs.foldl apply a) ∧ (cs.foldl apply a).WellFormed := by
  induction cs generalizing a with
  | nil => exact ⟨rfl, wf⟩
  | cons c cs ih =>
      rw [List.foldlM_cons, applyChecked_eq wf]
      exact ih (wellFormed_apply wf c)

end ArenaChange

end CodeAtlas.Checked
