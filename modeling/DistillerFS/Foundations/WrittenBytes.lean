import Mathlib.Data.List.Basic

/-!
# The bytes that were written to a file

A ledger beside the contents of a file: which byte was written at which offset, and not
cut off again. Whatever the writes and cuts are, the contents hold the ledger.
-/
namespace DistillerFS.Foundations

/-- The byte last written at each offset. -/
abbrev Written (α : Type*) := ℕ → Option α

namespace Written
variable {α : Type*} {w : Written α} {data : List α}

def nothing : Written α := fun _ => none

def overwrite (w : Written α) (pos : ℕ) (buf : List α) : Written α :=
  fun o => if pos ≤ o ∧ o < pos + buf.length then buf[o - pos]? else w o

def cutAt (w : Written α) (size : ℕ) : Written α := fun o => if o < size then w o else none

/-- A write leaves its bytes in the ledger. -/
theorem overwrite_get (w : Written α) (pos : ℕ) {buf : List α} {k : ℕ} {b : α}
    (h : buf[k]? = some b) : w.overwrite pos buf (pos + k) = some b := by
  have hk : k < buf.length := (List.getElem?_eq_some_iff.mp h).1
  rw [overwrite, if_pos ⟨Nat.le_add_right .., Nat.add_lt_add_left hk pos⟩, Nat.add_sub_cancel_left, h]

/-- Every byte of the ledger is there. -/
def HeldBy (w : Written α) (data : List α) : Prop := ∀ o b, w o = some b → data[o]? = some b

theorem nothing_heldBy (data : List α) : nothing.HeldBy data := by
  intro o b h
  cases h

/-- A write behind the end leaves a gap, which is filled. -/
theorem HeldBy.overwrite (h : w.HeldBy data) (fill : α) (pos : ℕ) (buf : List α) :
    (w.overwrite pos buf).HeldBy ((data ++ List.replicate (pos - data.length) fill).take pos ++
      buf ++ data.drop (pos + buf.length)) := by
  intro o b ho
  have hfront : ((data ++ List.replicate (pos - data.length) fill).take pos).length = pos := by
    simp only [List.length_take, List.length_append, List.length_replicate]
    omega
  unfold Written.overwrite at ho
  by_cases hin : pos ≤ o ∧ o < pos + buf.length
  · rw [if_pos hin] at ho
    rw [List.append_assoc, List.getElem?_append_right (by omega), hfront,
      List.getElem?_append_left (by omega), ho]
  · rw [if_neg hin] at ho
    have hold : data[o]? = some b := h o b ho
    have hlt : o < data.length := (List.getElem?_eq_some_iff.mp hold).1
    by_cases hbefore : o < pos
    · rw [List.append_assoc, List.getElem?_append_left (by omega), List.getElem?_take_of_lt hbefore,
        List.getElem?_append_left hlt, hold]
    · have hoffset : pos + buf.length + (o - (pos + buf.length)) = o := by omega
      rw [List.getElem?_append_right (by simp only [List.length_append, hfront]; omega),
        List.length_append, hfront, List.getElem?_drop, hoffset, hold]

theorem HeldBy.cutAt (h : w.HeldBy data) (fill : α) (size : ℕ) :
    (w.cutAt size).HeldBy ((data ++ List.replicate (size - data.length) fill).take size) := by
  intro o b ho
  unfold Written.cutAt at ho
  split_ifs at ho with hlt
  have hold : data[o]? = some b := h o b ho
  rw [List.getElem?_take_of_lt hlt, List.getElem?_append_left (List.getElem?_eq_some_iff.mp hold).1,
    hold]

end Written

end DistillerFS.Foundations
