import Mathlib.Data.Finset.Card
import Mathlib.Data.Multiset.MapFold
import Mathlib.Logic.Function.Basic

/-!
# Counting and collecting the places of an array

The places below a bound that have a property, their number and what stands in them, and
how both change when one place changes.
-/
namespace DistillerFS.Foundations

section Collect
variable {α : Type*}

/-- What stands in the places below `n` with a property. -/
def collect (P : ℕ → Prop) [DecidablePred P] (f : ℕ → α) (n : ℕ) : Multiset α :=
  ((Finset.range n).filter P).val.map f

variable {P Q : ℕ → Prop} [DecidablePred P] [DecidablePred Q] {f g : ℕ → α} {n m i : ℕ} {a : α}

theorem mem_collect : a ∈ collect P f n ↔ ∃ i < n, P i ∧ f i = a := by
  simp [collect, and_assoc]

theorem card_collect : (collect P f n).card = ((Finset.range n).filter P).card := by
  rw [collect, Multiset.card_map]
  rfl

theorem collect_congr (hplaces : ∀ x, x < n ∧ P x ↔ x < m ∧ Q x)
    (hfg : ∀ x < n, P x → f x = g x) : collect P f n = collect Q g m := by
  have hfilter : (Finset.range n).filter P = (Finset.range m).filter Q := by
    ext x
    simpa using hplaces x
  rw [collect, collect, ← hfilter]
  apply Multiset.map_congr rfl
  intro x hx
  obtain ⟨hlt, hx⟩ := Finset.mem_filter.mp (Finset.mem_val.mp hx)
  exact hfg x (Finset.mem_range.mp hlt) hx

/-- One place more. -/
theorem collect_insert (hi : i < n) (hfree : ¬ P i) (hplaces : ∀ x, Q x ↔ P x ∨ x = i)
    (hfg : ∀ x, P x → g x = f x) : collect Q g n = g i ::ₘ collect P f n := by
  have hfilter : (Finset.range n).filter Q = insert i ((Finset.range n).filter P) := by
    ext x
    simp only [Finset.mem_filter, Finset.mem_range, Finset.mem_insert, hplaces]
    constructor
    · rintro ⟨hx, hP | rfl⟩
      · exact .inr ⟨hx, hP⟩
      · exact .inl rfl
    · rintro (rfl | ⟨hx, hP⟩)
      · exact ⟨hi, .inr rfl⟩
      · exact ⟨hx, .inl hP⟩
  rw [collect, hfilter, Finset.insert_val_of_notMem (by simp [hfree]), Multiset.map_cons, collect]
  congr 1
  apply Multiset.map_congr rfl
  intro x hx
  exact hfg x (Finset.mem_filter.mp (Finset.mem_val.mp hx)).2

/-- Nothing stands in two places. -/
theorem nodup_collect : (collect P f n).Nodup ↔
    ∀ i < n, ∀ j < n, P i → P j → f i = f j → i = j := by
  constructor
  · intro h i hi j hj hPi hPj hf
    apply Multiset.inj_on_of_nodup_map h i _ j _ hf
    · exact Finset.mem_filter.mpr ⟨Finset.mem_range.mpr hi, hPi⟩
    · exact Finset.mem_filter.mpr ⟨Finset.mem_range.mpr hj, hPj⟩
  · intro h
    apply Multiset.Nodup.map_on _ ((Finset.range n).filter P).nodup
    intro i hi j hj hf
    obtain ⟨hi, hPi⟩ := Finset.mem_filter.mp (Finset.mem_val.mp hi)
    obtain ⟨hj, hPj⟩ := Finset.mem_filter.mp (Finset.mem_val.mp hj)
    exact h i (Finset.mem_range.mp hi) j (Finset.mem_range.mp hj) hPi hPj hf

end Collect

section Tally
variable {α : Type*} (P : α → Prop) [DecidablePred P]

def tally (f : ℕ → α) (n : ℕ) : ℕ := ((Finset.range n).filter (fun i => P (f i))).card

variable {P} {f : ℕ → α} {n x : ℕ} {a : α}

theorem tally_eq_card {β : Type*} (g : ℕ → β) :
    tally P f n = (collect (fun i => P (f i)) g n).card := card_collect.symm

theorem tally_le (P : α → Prop) [DecidablePred P] (f : ℕ → α) (n : ℕ) : tally P f n ≤ n := by
  have h := Finset.card_filter_le (Finset.range n) (fun i => P (f i))
  rwa [Finset.card_range] at h

theorem tally_eq_iff : tally P f n = n ↔ ∀ i < n, P (f i) := by
  have h := Finset.card_filter_eq_iff (s := Finset.range n) (p := fun i => P (f i))
  rw [Finset.card_range] at h
  rw [tally, h]
  simp

theorem tally_gain (hx : x < n) (hold : ¬ P (f x)) (hnew : P a) :
    tally P (Function.update f x a) n = tally P f n + 1 := by
  have hplaces : ∀ i, P (Function.update f x a i) ↔ P (f i) ∨ i = x := by
    intro i
    by_cases hi : i = x
    · simp [hi, hnew]
    · simp [hi]
  rw [tally_eq_card id, collect_insert hx hold hplaces (fun _ _ => rfl), Multiset.card_cons,
    tally_eq_card]

theorem tally_lose (hx : x < n) (hold : P (f x)) (hnew : ¬ P a) :
    tally P (Function.update f x a) n + 1 = tally P f n := by
  have hback : Function.update (Function.update f x a) x (f x) = f := by simp
  have hgain := @tally_gain _ P _ (Function.update f x a) n x (f x) hx (by simpa using hnew) hold
  rw [← hgain, hback]

theorem tally_keep (h : P (f x) ↔ P a) : tally P (Function.update f x a) n = tally P f n := by
  have hfilter : ∀ i, P (Function.update f x a i) ↔ P (f i) := by
    intro i
    by_cases hi : i = x
    · subst hi
      simp [h]
    · simp [hi]
  simp only [tally, hfilter]

end Tally

end DistillerFS.Foundations
