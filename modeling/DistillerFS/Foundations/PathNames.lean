import DistillerFS.Foundations.Delimited

/-!
# The names in a path

A path is cut at the separator, and empty names do not count. A canonical path is one
that can be put together again from its names.
-/
namespace DistillerFS.Foundations

variable {α : Type*} [DecidableEq α]

def names (separator : α) (path : List α) : List (List α) :=
  (path.splitOn separator).filter (· ≠ [])

def absolute (separator : α) (ps : List (List α)) : List α :=
  if ps = [] then [separator] else ps.flatMap (separator :: ·)

theorem mem_names {separator : α} {path n : List α} (h : n ∈ names separator path) :
    n ≠ [] ∧ separator ∉ n := by
  obtain ⟨hsplit, hne⟩ := List.mem_filter.mp h
  exact ⟨by simpa using hne, not_mem_of_mem_splitOn hsplit⟩

theorem names_cons_separator (separator : α) (s : List α) :
    names separator (separator :: s) = names separator s := by
  have hsplit : ([] ++ separator :: s).splitOn separator = [] :: s.splitOn separator :=
    List.splitOn_append_cons_self_of_not_mem List.not_mem_nil s
  rw [List.nil_append] at hsplit
  simp [names, hsplit]

theorem names_cons {separator : α} {n : List α} (hne : n ≠ []) (hn : separator ∉ n) (s : List α) :
    names separator (n ++ separator :: s) = n :: names separator s := by
  rw [names, List.splitOn_append_cons_self_of_not_mem hn]
  simp [names, hne]

theorem names_append {separator : α} {ps : List (List α)}
    (h : ∀ n ∈ ps, n ≠ [] ∧ separator ∉ n) (s : List α) :
    names separator (ps.flatMap (separator :: ·) ++ separator :: s) =
      ps ++ names separator s := by
  induction ps with
  | nil => exact names_cons_separator separator s
  | cons n ps ih =>
    obtain ⟨hne, hn⟩ := h n (by simp)
    have hrest := ih (fun m hm => h m (List.mem_cons_of_mem n hm))
    obtain ⟨r, hr⟩ : ∃ r, ps.flatMap (separator :: ·) ++ separator :: s = separator :: r := by
      cases ps with
      | nil => exact ⟨s, rfl⟩
      | cons m ps => exact ⟨_, rfl⟩
    rw [hr, names_cons_separator] at hrest
    rw [List.flatMap_cons, List.append_assoc, hr, List.cons_append, names_cons_separator,
      names_cons hne hn, hrest, List.cons_append]

theorem names_of_not_mem {separator : α} {n : List α} (hne : n ≠ []) (hn : separator ∉ n) :
    names separator n = [n] := by
  have hsplit : n.splitOn separator = [n] := List.splitOn_eq_singleton hn
  simp [names, hsplit, hne]

/-- The names of a path are the ones it was put together from. -/
theorem names_absolute {separator : α} {ps : List (List α)}
    (h : ∀ n ∈ ps, n ≠ [] ∧ separator ∉ n) : names separator (absolute separator ps) = ps := by
  by_cases hps : ps = []
  · rw [hps, absolute, if_pos rfl, names_cons_separator]
    rfl
  · rw [absolute, if_neg hps]
    obtain ⟨hne, hn⟩ := h (ps.getLast hps) (List.getLast_mem hps)
    have hinit := names_append (fun n hmem => h n (List.dropLast_subset ps hmem)) (ps.getLast hps)
    rw [names_of_not_mem hne hn, List.dropLast_concat_getLast] at hinit
    have hflat : ps.dropLast.flatMap (separator :: ·) ++ separator :: ps.getLast hps =
        ps.flatMap (separator :: ·) := by
      conv_rhs => rw [← List.dropLast_concat_getLast hps]
      simp
    rw [← hflat, hinit]

end DistillerFS.Foundations
