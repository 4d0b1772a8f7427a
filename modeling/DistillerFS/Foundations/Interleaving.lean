import Mathlib.Data.List.Perm.Basic

/-!
# Interleavings of sequential threads

Each thread is the list of its atomic steps. A run picks, at every moment, one
thread that still has a step to make and takes that step.
-/
namespace DistillerFS.Foundations

variable {α : Type*}

/-- `Interleaving threads run`: the run takes every step of every thread once,
and keeps the order of the steps of each thread. -/
inductive Interleaving : List (List α) → List α → Prop
  | done (threads : List (List α)) (h : ∀ t ∈ threads, t = []) : Interleaving threads []
  | step (before : List (List α)) (a : α) (rest : List α) (after : List (List α)) (run : List α)
      (h : Interleaving (before ++ rest :: after) run) :
      Interleaving (before ++ (a :: rest) :: after) (a :: run)

/-- No step is lost, invented or taken twice. -/
theorem Interleaving.perm_flatten {threads : List (List α)} {run : List α}
    (h : Interleaving threads run) : run.Perm threads.flatten := by
  induction h with
  | done threads h =>
    have hf : threads.flatten = [] := List.flatten_eq_nil_iff.mpr h
    rw [hf]
  | step before a rest after run _ ih =>
    have hmove : (a :: (before.flatten ++ (rest ++ after.flatten))).Perm
        (before.flatten ++ a :: (rest ++ after.flatten)) := List.perm_middle.symm
    simpa using (ih.cons a).trans (by simpa using hmove)

theorem Interleaving.mem_iff {threads : List (List α)} {run : List α}
    (h : Interleaving threads run) (a : α) : a ∈ run ↔ ∃ t ∈ threads, a ∈ t := by
  rw [h.perm_flatten.mem_iff, List.mem_flatten]

theorem Interleaving.single (t : List α) : Interleaving [t] t := by
  induction t with
  | nil => exact .done _ (by simp)
  | cons a rest ih => exact .step [] a rest [] rest ih

/-- What is seen of a run is an interleaving of what is seen of its threads. -/
theorem Interleaving.filterMap {β : Type*} (f : α → Option β) {threads : List (List α)}
    {run : List α} (h : Interleaving threads run) :
    Interleaving (threads.map (List.filterMap f)) (run.filterMap f) := by
  induction h with
  | done threads h =>
    refine .done _ (fun t ht => ?_)
    obtain ⟨t', ht', rfl⟩ := List.mem_map.mp ht
    rw [h t' ht']
    rfl
  | step before a rest after run h ih =>
    rw [List.map_append, List.map_cons] at ih ⊢
    cases hf : f a with
    | none => rwa [List.filterMap_cons_none hf, List.filterMap_cons_none hf]
    | some b =>
      rw [List.filterMap_cons_some hf, List.filterMap_cons_some hf]
      exact .step _ b _ _ _ ih

section Counting
variable {β : Type*} {f : α → List β} {q : α → Bool} {r : β → Bool} {l : List α}

theorem countP_le_countP_flatMap (h : ∀ a ∈ l, (if q a = true then 1 else 0) ≤ (f a).countP r) :
    l.countP q ≤ (l.flatMap f).countP r := by
  induction l with
  | nil => exact Nat.le_refl 0
  | cons a l ih =>
    have hhead := h a (by simp)
    have htail := ih (fun b hb => h b (List.mem_cons_of_mem a hb))
    rw [List.countP_cons, List.flatMap_cons, List.countP_append]
    omega

/-- There are exactly the expected marks when no single step leaves more. -/
theorem countP_flatMap_eq_iff (h : ∀ a ∈ l, (if q a = true then 1 else 0) ≤ (f a).countP r) :
    (l.flatMap f).countP r = l.countP q ↔
      ∀ a ∈ l, (f a).countP r = if q a = true then 1 else 0 := by
  induction l with
  | nil => simp
  | cons a l ih =>
    have hhead := h a (by simp)
    have hrest := fun b hb => h b (List.mem_cons_of_mem a hb)
    have htail := countP_le_countP_flatMap hrest
    rw [List.countP_cons, List.flatMap_cons, List.countP_append, List.forall_mem_cons, ← ih hrest]
    omega

end Counting

end DistillerFS.Foundations
