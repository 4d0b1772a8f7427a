import Mathlib.Data.List.Basic

/-!
# A table of slots

The lowest free slot is taken first, as a descriptor table does. A slot that was taken
and freed again leaves every other slot as it was.
-/
namespace DistillerFS.Foundations

/-- `none` is a free slot, and so is every slot behind the end. -/
structure Slots (α : Type*) where
  slots : List (Option α)
  deriving DecidableEq, Repr

namespace Slots
variable {α : Type*}

def get (t : Slots α) (fd : ℕ) : Option α := t.slots[fd]?.join

def next (t : Slots α) : ℕ := t.slots.findIdx Option.isNone

def alloc (t : Slots α) (a : α) : Slots α where
  slots := if t.next < t.slots.length then t.slots.set t.next (some a) else t.slots ++ [some a]

def free (t : Slots α) (fd : ℕ) : Slots α where
  slots := t.slots.set fd none

def empty : Slots α := ⟨[]⟩

@[simp] theorem get_empty (fd : ℕ) : (empty : Slots α).get fd = none := rfl

theorem next_le (t : Slots α) : t.next ≤ t.slots.length := List.findIdx_le_length

theorem get_next (t : Slots α) : t.get t.next = none := by
  unfold get
  cases h : t.slots[t.next]? with
  | none => rfl
  | some x =>
    obtain ⟨hlt, hx⟩ := List.getElem?_eq_some_iff.mp h
    have hfree : (t.slots[t.next]).isNone = true := List.findIdx_getElem
    rw [hx] at hfree
    rw [Option.join_some, Option.isNone_iff_eq_none.mp hfree]

theorem get_alloc (t : Slots α) (a : α) (fd : ℕ) :
    (t.alloc a).get fd = if fd = t.next then some a else t.get fd := by
  by_cases hlt : t.next < t.slots.length
  · have hset : (t.alloc a).slots = t.slots.set t.next (some a) := if_pos hlt
    rw [get, hset, List.getElem?_set]
    by_cases hfd : fd = t.next
    · simp [hfd, hlt]
    · simp [hfd, Ne.symm hfd, get]
  · have hend : t.next = t.slots.length := Nat.le_antisymm t.next_le (Nat.le_of_not_lt hlt)
    have happend : (t.alloc a).slots = t.slots ++ [some a] := if_neg hlt
    rw [get, happend, List.getElem?_append, hend]
    rcases Nat.lt_trichotomy fd t.slots.length with h | h | h
    · simp [h, Nat.ne_of_lt h, get]
    · simp [h]
    · have hbehind : fd - t.slots.length ≠ 0 := by omega
      simp [Nat.not_lt_of_gt h, Nat.ne_of_gt h, get, hbehind]

theorem get_free (t : Slots α) (fd fd' : ℕ) :
    (t.free fd).get fd' = if fd' = fd then none else t.get fd' := by
  simp only [get, free, List.getElem?_set]
  by_cases h : fd' = fd
  · subst h
    split_ifs <;> rfl
  · simp [h, Ne.symm h]

/-- Taking a slot and freeing it again changes no slot. -/
theorem get_free_alloc (t : Slots α) (a : α) (fd : ℕ) :
    ((t.alloc a).free t.next).get fd = t.get fd := by
  rw [get_free, get_alloc]
  split_ifs with h
  · rw [h, get_next]
  · rfl

def write (t : Slots α) (fd : ℕ) (a : α) : Slots α where
  slots := t.slots.set fd (some a)

theorem get_write {t : Slots α} {fd : ℕ} (h : t.get fd ≠ none) (a : α) (fd' : ℕ) :
    (t.write fd a).get fd' = if fd' = fd then some a else t.get fd' := by
  have hlt : fd < t.slots.length := by
    by_contra hend
    rw [get, List.getElem?_eq_none (Nat.le_of_not_lt hend)] at h
    exact h rfl
  simp only [get, write, List.getElem?_set]
  by_cases hfd : fd' = fd
  · simp [hfd, hlt]
  · simp [hfd, Ne.symm hfd]

end Slots

end DistillerFS.Foundations
