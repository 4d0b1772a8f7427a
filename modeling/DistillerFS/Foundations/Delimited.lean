import Mathlib.Data.List.Basic

/-!
# Terminated records and separated fields

A text of records, each closed by a terminator, and a record of fields with a
separator between them. Both are read back by splitting, and a piece of a split
never holds the separator.
-/
namespace DistillerFS.Foundations

variable {α : Type*} [DecidableEq α]

theorem not_mem_of_mem_splitOn {a : α} {xs piece : List α} (h : piece ∈ xs.splitOn a) :
    a ∉ piece := by
  induction xs generalizing piece with
  | nil =>
    rw [List.splitOn_nil, List.mem_singleton] at h
    simp [h]
  | cons x xs ih =>
    rw [List.splitOn_cons_eq_if_modifyHead] at h
    by_cases hx : x = a
    · simp only [hx, beq_self_eq_true, if_true, List.mem_cons] at h
      rcases h with rfl | h
      · simp
      · exact ih h
    · simp only [beq_iff_eq, hx, if_false] at h
      cases hs : xs.splitOn a with
      | nil => exact absurd hs (List.splitOn_ne_nil a xs)
      | cons p ps =>
        rw [hs, List.modifyHead_cons, List.mem_cons] at h
        rcases h with rfl | h
        · have hp : a ∉ p := ih (by simp [hs])
          simp [hp, Ne.symm hx]
        · exact ih (by simp [hs, h])

theorem splitOn_append_of_not_mem {a : α} {xs : List α} (h : a ∉ xs) (ys : List α) :
    (xs ++ ys).splitOn a = (ys.splitOn a).modifyHead (xs ++ ·) := by
  induction xs with
  | nil =>
    rw [List.nil_append]
    cases ys.splitOn a <;> simp
  | cons x xs ih =>
    rw [List.mem_cons, not_or] at h
    have hx : (x == a) = false := beq_false_of_ne (Ne.symm h.1)
    rw [List.cons_append, List.splitOn_cons_eq_if_modifyHead, hx, ih h.2, if_neg Bool.false_ne_true,
      List.modifyHead_modifyHead]
    rfl

/-- The records of a text. What follows the last terminator counts as a record only
if it is not empty. -/
def records (terminator : α) (text : List α) : List (List α) :=
  if (text.splitOn terminator).getLast? = some [] then (text.splitOn terminator).dropLast
  else text.splitOn terminator

theorem splitOn_terminated (a : α) (ls : List (List α)) :
    (ls.flatMap (fun l => l ++ [a])).splitOn a = ls.flatMap (List.splitOn a) ++ [[]] := by
  induction ls with
  | nil => simp
  | cons l ls ih =>
    rw [List.flatMap_cons, List.append_assoc, List.singleton_append,
      List.splitOn_append_cons_self, ih, List.flatMap_cons, List.append_assoc]

/-- A written record that holds the terminator is read back in pieces. -/
theorem records_flatMap (a : α) (ls : List (List α)) :
    records a (ls.flatMap (fun l => l ++ [a])) = ls.flatMap (List.splitOn a) := by
  rw [records, splitOn_terminated]
  simp

/-- Records that do not hold the terminator are read back as they were written. -/
theorem records_terminated {a : α} {ls : List (List α)} (h : ∀ l ∈ ls, a ∉ l) :
    records a (ls.flatMap (fun l => l ++ [a])) = ls := by
  rw [records_flatMap]
  calc ls.flatMap (List.splitOn a)
      = ls.flatMap (fun l => [l]) := List.flatMap_congr (fun l hl => List.splitOn_eq_singleton (h l hl))
    _ = ls := by simp

theorem not_mem_of_mem_records {a : α} {text l : List α} (h : l ∈ records a text) : a ∉ l := by
  unfold records at h
  split_ifs at h
  · exact not_mem_of_mem_splitOn ((List.dropLast_sublist _).subset h)
  · exact not_mem_of_mem_splitOn h

/-- Three fields that do not hold the separator are read back as they were written. -/
theorem splitOn_three {a : α} {x y z : List α} (hx : a ∉ x) (hy : a ∉ y) (hz : a ∉ z) :
    (x ++ a :: (y ++ a :: z)).splitOn a = [x, y, z] := by
  rw [List.splitOn_append_cons_self_of_not_mem hx, List.splitOn_append_cons_self_of_not_mem hy,
    List.splitOn_eq_singleton hz]

end DistillerFS.Foundations
