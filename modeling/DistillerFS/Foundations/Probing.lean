import Mathlib.Data.Fintype.EquivFin
import Mathlib.Data.Nat.ModEq
import Mathlib.Data.Nat.Prime.Basic
import Mathlib.Tactic.Ring

/-!
# Probing with growing steps

A table of 2^k buckets is searched from a start with steps of length 1, 2, 3 and so on.
The first 2^k places are all different, so the search passes every bucket, and it is back
at its start for the first time only after that.
-/
namespace DistillerFS.Foundations

/-- How far the search has come after `s` steps. -/
def stride : ℕ → ℕ
  | 0 => 0
  | s + 1 => stride s + (s + 1)

theorem two_mul_stride (s : ℕ) : 2 * stride s = s * (s + 1) := by
  induction s with
  | zero => rfl
  | succ s ih =>
    rw [stride, Nat.mul_add, ih]
    ring

theorem stride_add_stride (s d : ℕ) :
    2 * stride (s + d) = 2 * stride s + d * (s + (s + d) + 1) := by
  rw [two_mul_stride, two_mul_stride]
  ring

/-- Of two factors with an odd sum, one takes up the whole power of two. -/
theorem two_pow_dvd_factor {a b m : ℕ} (hodd : Odd (a + b)) (hdvd : 2 ^ m ∣ a * b) :
    2 ^ m ∣ a ∨ 2 ^ m ∣ b := by
  by_cases ha : Odd a
  · right
    exact Nat.Coprime.dvd_of_dvd_mul_left (ha.coprime_two_left.pow_left m) hdvd
  · left
    have hb : Odd b := (Nat.odd_add'.mp hodd).mpr (Nat.not_odd_iff_even.mp ha)
    exact Nat.Coprime.dvd_of_dvd_mul_right (hb.coprime_two_left.pow_left m) hdvd

/-- Two strides that agree are a multiple of the table apart, or are mirror images. -/
theorem stride_modEq {k s d : ℕ} (h : stride (s + d) ≡ stride s [MOD 2 ^ k]) :
    2 ^ (k + 1) ∣ d ∨ 2 ^ (k + 1) ∣ s + (s + d) + 1 := by
  have hdiff := stride_add_stride s d
  have hle : stride s ≤ stride (s + d) := by
    have hnonneg := Nat.zero_le (d * (s + (s + d) + 1))
    omega
  have hdvd := (Nat.modEq_iff_dvd' hle).mp h.symm
  apply two_pow_dvd_factor
  · exact ⟨s + d, by ring⟩
  · rw [pow_succ', show d * (s + (s + d) + 1) = 2 * (stride (s + d) - stride s) by omega]
    exact Nat.mul_dvd_mul_left 2 hdvd

theorem stride_injOn {k s t : ℕ} (hs : s < 2 ^ k) (ht : t < 2 ^ k)
    (h : stride s ≡ stride t [MOD 2 ^ k]) : s = t := by
  wlog hle : t ≤ s
  · exact (this ht hs h.symm (Nat.le_of_not_le hle)).symm
  obtain ⟨d, rfl⟩ := Nat.exists_eq_add_of_le hle
  have hpow : 2 ^ (k + 1) = 2 * 2 ^ k := pow_succ' 2 k
  rcases stride_modEq h with hd | hd
  · have hzero := Nat.eq_zero_of_dvd_of_lt hd (by omega)
    omega
  · have hlarge := Nat.le_of_dvd (by omega) hd
    omega

/-- The place of a search in a table of `n` buckets after `s` steps. -/
def probeSlot (n start s : ℕ) : ℕ := (start + stride s) % n

theorem probeSlot_lt {n : ℕ} (h : 0 < n) (start s : ℕ) : probeSlot n start s < n := Nat.mod_lt _ h

theorem probeSlot_zero {n start : ℕ} (h : start < n) : probeSlot n start 0 = start :=
  Nat.mod_eq_of_lt h

theorem probeSlot_mod (n start s : ℕ) : probeSlot n (start % n) s = probeSlot n start s :=
  Nat.mod_add_mod start n (stride s)

theorem probeSlot_succ (n start s : ℕ) :
    probeSlot n start (s + 1) = (probeSlot n start s + (s + 1)) % n := by
  rw [probeSlot, probeSlot, Nat.mod_add_mod, stride, Nat.add_assoc]

section PowerOfTwo
variable {k : ℕ} (start : ℕ)

theorem probeSlot_injOn {s t : ℕ} (hs : s < 2 ^ k) (ht : t < 2 ^ k)
    (h : probeSlot (2 ^ k) start s = probeSlot (2 ^ k) start t) : s = t :=
  stride_injOn hs ht (Nat.ModEq.add_left_cancel' start h)

theorem exists_probeSlot {i : ℕ} (hi : i < 2 ^ k) :
    ∃ s < 2 ^ k, probeSlot (2 ^ k) start s = i := by
  have hpos : 0 < 2 ^ k := Nat.two_pow_pos k
  let visit : Fin (2 ^ k) → Fin (2 ^ k) := fun s => ⟨probeSlot (2 ^ k) start s, probeSlot_lt hpos _ _⟩
  have hinjective : Function.Injective visit := by
    intro s t h
    exact Fin.ext (probeSlot_injOn start s.isLt t.isLt (Fin.mk.inj h))
  obtain ⟨s, hs⟩ := Finite.injective_iff_surjective.mp hinjective ⟨i, hi⟩
  exact ⟨s, s.isLt, Fin.mk.inj hs⟩

/-- Either the search may stop somewhere, and there is a first such place, or nowhere. -/
theorem first_stop_or_none (stop : ℕ → Bool) :
    (∃ s < 2 ^ k, stop (probeSlot (2 ^ k) start s) = true ∧
      ∀ t < s, stop (probeSlot (2 ^ k) start t) = false) ∨ ∀ i < 2 ^ k, stop i = false := by
  by_cases h : ∃ s, s < 2 ^ k ∧ stop (probeSlot (2 ^ k) start s) = true
  · left
    obtain ⟨hlt, hstop⟩ := Nat.find_spec h
    refine ⟨Nat.find h, hlt, hstop, fun t ht => ?_⟩
    by_contra hgoes
    exact Nat.find_min h ht ⟨by omega, by simpa using hgoes⟩
  · right
    intro i hi
    obtain ⟨s, hs, rfl⟩ := exists_probeSlot start hi
    by_contra hstop
    exact h ⟨s, hs, by simpa using hstop⟩

theorem probeSlot_ne_start {s : ℕ} (hstart : start < 2 ^ k) (hpos : 0 < s) (hs : s < 2 ^ k) :
    probeSlot (2 ^ k) start s ≠ start := by
  intro h
  rw [← probeSlot_zero hstart] at h
  have hzero := probeSlot_injOn _ hs (Nat.two_pow_pos k) (by rwa [probeSlot_zero hstart] at h ⊢)
  omega

theorem probeSlot_wraps (hstart : start < 2 ^ k) :
    probeSlot (2 ^ k) start (2 * 2 ^ k - 1) = start := by
  have hpos : 0 < 2 ^ k := Nat.two_pow_pos k
  have hstride : stride (2 * 2 ^ k - 1) = (2 * 2 ^ k - 1) * 2 ^ k := by
    have htwice := two_mul_stride (2 * 2 ^ k - 1)
    rw [Nat.sub_add_cancel (by omega)] at htwice
    apply Nat.eq_of_mul_eq_mul_left (show 0 < 2 by decide)
    rw [htwice]
    ring
  rw [probeSlot, hstride, Nat.add_mul_mod_self_right, Nat.mod_eq_of_lt hstart]

end PowerOfTwo

/-- How a search ends: at a bucket where it may stop, or back at its start. -/
inductive Probe (σ : Type*) where
  | stopped (i : ℕ) (seen : σ)
  | wrapped (seen : σ)
  | outOfFuel
  deriving DecidableEq, Repr

section Search
variable {σ : Type*} (stop : ℕ → Bool) (pass : σ → ℕ → σ) (mask : ℕ) (last : Option ℕ)

/-- The search from the bucket `i`, which is reached with `step` steps; `seen` is kept
about the buckets passed so far, and a search with a `last` bucket ends there. -/
def probe : ℕ → ℕ → ℕ → σ → Probe σ
  | 0, _, _, _ => .outOfFuel
  | fuel + 1, step, i, seen =>
    if stop i then .stopped i seen
    else
      let next := (i + (step + 1)) &&& mask
      if last = some next then .wrapped (pass seen i)
      else probe fuel (step + 1) next (pass seen i)

variable {stop pass last} {k start : ℕ}

def passed (n start s : ℕ) : List ℕ := (List.range s).map (probeSlot n start)

theorem passed_succ (n start s : ℕ) :
    passed n start (s + 1) = passed n start s ++ [probeSlot n start s] := by
  rw [passed, List.range_succ, List.map_append]
  rfl

theorem passed_mod (n start s : ℕ) : passed n (start % n) s = passed n start s := by
  unfold passed
  congr 1
  funext t
  exact probeSlot_mod n start t

theorem mem_passed_iff {n start s i : ℕ} :
    i ∈ passed n start s ↔ ∃ t < s, probeSlot n start t = i := by
  simp [passed]

/-- A long search has passed every bucket. -/
theorem mem_passed {s i : ℕ} (hs : 2 ^ k ≤ s) (hi : i < 2 ^ k) : i ∈ passed (2 ^ k) start s := by
  obtain ⟨t, ht, rfl⟩ := exists_probeSlot start hi
  exact List.mem_map.mpr ⟨t, List.mem_range.mpr (by omega), rfl⟩

theorem next_eq_probeSlot (s : ℕ) :
    (probeSlot (2 ^ k) start s + (s + 1)) &&& (2 ^ k - 1) = probeSlot (2 ^ k) start (s + 1) := by
  rw [Nat.and_two_pow_sub_one_eq_mod, probeSlot_succ]

theorem probe_advance (hstart : start < 2 ^ k) (fuel : ℕ) (seen : σ) {s : ℕ}
    (hgoes : ∀ t < s, stop (probeSlot (2 ^ k) start t) = false)
    (hlast : ∀ t < s, last ≠ some (probeSlot (2 ^ k) start (t + 1))) :
    probe stop pass (2 ^ k - 1) last (fuel + s) 0 start seen =
      probe stop pass (2 ^ k - 1) last fuel s (probeSlot (2 ^ k) start s)
        ((passed (2 ^ k) start s).foldl pass seen) := by
  induction s generalizing fuel with
  | zero => rw [probeSlot_zero hstart]; rfl
  | succ s ih =>
    have hbefore := ih (fuel + 1) (fun t ht => hgoes t (by omega)) (fun t ht => hlast t (by omega))
    rw [show fuel + (s + 1) = fuel + 1 + s by omega, hbefore, probe, if_neg]
    · simp only [next_eq_probeSlot, if_neg (hlast s (Nat.lt_succ_self s)), passed_succ,
        List.foldl_append, List.foldl_cons, List.foldl_nil]
    · rw [hgoes s (Nat.lt_succ_self s)]
      exact Bool.false_ne_true

/-- A search ends at the first bucket where it may stop. -/
theorem probe_stops (hstart : start < 2 ^ k) {fuel s : ℕ} (seen : σ) (hs : s < 2 ^ k)
    (hfuel : s < fuel) (hstop : stop (probeSlot (2 ^ k) start s) = true)
    (hgoes : ∀ t < s, stop (probeSlot (2 ^ k) start t) = false)
    (hlast : last = none ∨ last = some start) :
    probe stop pass (2 ^ k - 1) last fuel 0 start seen =
      .stopped (probeSlot (2 ^ k) start s) ((passed (2 ^ k) start s).foldl pass seen) := by
  obtain ⟨rest, rfl⟩ := Nat.exists_eq_add_of_lt hfuel
  rw [show s + rest + 1 = (rest + 1) + s by omega, probe_advance hstart _ _ hgoes, probe, if_pos hstop]
  intro t ht
  rcases hlast with rfl | rfl
  · exact nofun
  · intro h
    exact probeSlot_ne_start start hstart (Nat.succ_pos t) (by omega) (Option.some.inj h).symm

/-- A search that may stop nowhere comes back to its start, and has passed every bucket. -/
theorem probe_wraps (hstart : start < 2 ^ k) {fuel : ℕ} (seen : σ) (hfuel : 2 * 2 ^ k ≤ fuel)
    (hgoes : ∀ i < 2 ^ k, stop i = false) :
    ∃ s, 2 ^ k ≤ s ∧ probe stop pass (2 ^ k - 1) (some start) fuel 0 start seen =
      .wrapped ((passed (2 ^ k) start s).foldl pass seen) := by
  have hpos : 0 < 2 ^ k := Nat.two_pow_pos k
  have hback : ∃ s, probeSlot (2 ^ k) start (s + 1) = start := by
    refine ⟨2 * 2 ^ k - 2, ?_⟩
    rw [show 2 * 2 ^ k - 2 + 1 = 2 * 2 ^ k - 1 by omega]
    exact probeSlot_wraps start hstart
  let s := Nat.find hback
  have hs : probeSlot (2 ^ k) start (s + 1) = start := Nat.find_spec hback
  have hfirst : ∀ t < s, probeSlot (2 ^ k) start (t + 1) ≠ start := fun t ht => Nat.find_min hback ht
  have hle : s ≤ 2 * 2 ^ k - 2 := by
    apply Nat.find_min' hback
    rw [show 2 * 2 ^ k - 2 + 1 = 2 * 2 ^ k - 1 by omega]
    exact probeSlot_wraps start hstart
  refine ⟨s + 1, ?_, ?_⟩
  · by_contra hearly
    exact probeSlot_ne_start start hstart (Nat.succ_pos s) (by omega) hs
  · obtain ⟨rest, rfl⟩ := Nat.exists_eq_add_of_le (show s + 1 ≤ fuel by omega)
    have hslot : ∀ t, stop (probeSlot (2 ^ k) start t) = false :=
      fun t => hgoes _ (probeSlot_lt hpos start t)
    rw [show s + 1 + rest = (rest + 1) + s by omega, probe_advance hstart _ _ (fun t _ => hslot t),
      probe, if_neg]
    · simp only [next_eq_probeSlot, hs, if_true, passed_succ, List.foldl_append, List.foldl_cons,
        List.foldl_nil]
    · rw [hslot s]
      exact Bool.false_ne_true
    · intro t ht h
      exact hfirst t ht (Option.some.inj h).symm

end Search

end DistillerFS.Foundations
