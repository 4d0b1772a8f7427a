import DistillerFS.Recording.Rehash

/-!
# The growth of a khash table

`kh_put` rehashes a table with too many occupied buckets: into twice as many of them, or
into as many where half of them are deleted. A growth whose allocations succeed keeps the
entries and makes room. One whose allocations fail leaves the entries where they are.
-/
namespace DistillerFS
open Foundations

theorem roundBuckets_one : roundBuckets 1 = 4 := by decide

theorem roundBuckets_pred : ∀ k < 32, 2 ≤ k → roundBuckets (2 ^ k - 1) = 2 ^ k := by decide

theorem roundBuckets_succ : ∀ k < 31, 2 ≤ k → roundBuckets (2 ^ k + 1) = 2 ^ (k + 1) := by decide

/-- The largest table cannot be doubled in 32 bits. -/
theorem roundBuckets_last : roundBuckets (2 ^ 31 + 1) = 4 := by decide

theorem hashUpper_le {n : ℕ} (hn : 4 ≤ n) : hashUpper n ≤ n := by
  unfold hashUpper
  omega

theorem half_lt_hashUpper {n : ℕ} (hn : 4 ≤ n) : n < 2 * hashUpper n := by
  unfold hashUpper
  omega

namespace KHash
variable {K V : Type}

/-- The number of buckets that `kh_put` asks for when it finds too few. -/
def growthTarget (h : KHash K V) : ℕ :=
  if h.nBuckets > (2 * h.size) % 2 ^ 32 then roundBuckets (h.nBuckets - 1)
  else roundBuckets (h.nBuckets + 1)

/-- The next `kh_put` rehashes the table. -/
def Grows (h : KHash K V) : Prop := h.upperBound ≤ h.nOccupied ∧ h.size < hashUpper h.growthTarget

instance (h : KHash K V) : Decidable h.Grows := inferInstanceAs (Decidable (_ ∧ _))

def GrowthSucceeds (memory : ResizeMemory) (h : KHash K V) : Prop :=
  memory.newFlags = true ∧
    (h.nBuckets < h.growthTarget → memory.newKeys = true ∧ memory.newVals = true)

instance (memory : ResizeMemory) (h : KHash K V) : Decidable (GrowthSucceeds memory h) :=
  inferInstanceAs (Decidable (_ ∧ _))

variable {hashFunc : K → BitVec 32} {h : KHash K V} {memory : ResizeMemory}

theorem WellFormed.size_le (hw : h.WellFormed hashFunc) : h.size ≤ h.nBuckets := by
  rw [hw.size]
  exact tally_le ..

theorem WellFormed.size_le_nOccupied (hw : h.WellFormed hashFunc) : h.size ≤ h.nOccupied := by
  rw [hw.size, hw.nOccupied]
  apply Finset.card_le_card
  intro i hi
  simp only [Finset.mem_filter] at hi ⊢
  refine ⟨hi.1, ?_⟩
  rw [hi.2]
  exact nofun

theorem WellFormed.nBuckets_le (hw : h.WellFormed hashFunc) : h.nBuckets ≤ 2 ^ 31 := by
  rcases hw.buckets with hzero | ⟨k, -, hk, hn⟩
  · omega
  · rw [hn]
    exact Nat.pow_le_pow_right (by decide) hk

theorem WellFormed.growthTarget_cases (hw : h.WellFormed hashFunc) :
    h.nBuckets = 0 ∧ h.growthTarget = 4 ∨
    ∃ k, 2 ≤ k ∧ k ≤ 31 ∧ h.nBuckets = 2 ^ k ∧
      ((2 * h.size) % 2 ^ 32 < h.nBuckets ∧ h.growthTarget = 2 ^ k ∨
        h.nBuckets ≤ (2 * h.size) % 2 ^ 32 ∧ k < 31 ∧ h.growthTarget = 2 ^ (k + 1) ∨
        h.nBuckets ≤ (2 * h.size) % 2 ^ 32 ∧ k = 31 ∧ h.growthTarget = 4) := by
  rcases hw.buckets with hzero | ⟨k, hk, hk', hn⟩
  · left
    refine ⟨hzero, ?_⟩
    rw [growthTarget, hzero, if_neg (Nat.not_lt_zero _)]
    exact roundBuckets_one
  · right
    refine ⟨k, hk, hk', hn, ?_⟩
    by_cases hfew : (2 * h.size) % 2 ^ 32 < h.nBuckets
    · left
      refine ⟨hfew, ?_⟩
      rw [growthTarget, if_pos hfew, hn]
      exact roundBuckets_pred k (by omega) hk
    · right
      rw [growthTarget, if_neg hfew, hn]
      by_cases hlast : k = 31
      · right
        subst hlast
        exact ⟨by omega, rfl, roundBuckets_last⟩
      · left
        exact ⟨by omega, by omega, roundBuckets_succ k (by omega) hk⟩

/-- A table that is rehashed does not lose buckets. -/
theorem WellFormed.growthTarget_spec (hw : h.WellFormed hashFunc) (hgrows : h.Grows) :
    ∃ k, 2 ≤ k ∧ k ≤ 31 ∧ h.growthTarget = 2 ^ k ∧ h.nBuckets ≤ 2 ^ k := by
  rcases hw.growthTarget_cases with ⟨hzero, htarget⟩ |
    ⟨k, hk, hk', hn, ⟨-, htarget⟩ | ⟨-, hlt, htarget⟩ | ⟨hmany, rfl, htarget⟩⟩
  · exact ⟨2, le_rfl, by decide, htarget, by omega⟩
  · exact ⟨k, hk, hk', htarget, hn.le⟩
  · refine ⟨k + 1, by omega, by omega, htarget, ?_⟩
    rw [hn, pow_succ]
    omega
  · have hsize := hgrows.2
    rw [htarget, show hashUpper 4 = 3 by decide] at hsize
    omega

theorem WellFormed.room (hw : h.WellFormed hashFunc) (hgrows : ¬ h.Grows) (hsize : h.size < 2 ^ 31) :
    h.size < h.nBuckets := by
  have hle := hw.size_le_nOccupied
  have hupper := hw.upperBound
  by_cases hfew : h.nOccupied < h.upperBound
  · rcases hw.buckets with hzero | ⟨k, hk, -, hn⟩
    · rw [hupper, hzero, show hashUpper 0 = 0 by decide] at hfew
      omega
    · have hfour : 2 ^ 2 ≤ 2 ^ k := Nat.pow_le_pow_right (by decide) hk
      have hbound := hashUpper_le (show 4 ≤ h.nBuckets by omega)
      omega
  · have hfull : hashUpper h.growthTarget ≤ h.size := by
      by_contra hsmall
      exact hgrows ⟨by omega, by omega⟩
    rcases hw.growthTarget_cases with ⟨hzero, htarget⟩ |
      ⟨k, hk, hk', hn, ⟨hhalf, htarget⟩ | ⟨-, hlt, htarget⟩ | ⟨-, rfl, -⟩⟩
    · rw [htarget, show hashUpper 4 = 3 by decide] at hfull
      have hle := hw.size_le
      omega
    · have hfour : 2 ^ 2 ≤ 2 ^ k := Nat.pow_le_pow_right (by decide) hk
      have hbound := half_lt_hashUpper (show 4 ≤ 2 ^ k by omega)
      rw [htarget] at hfull
      omega
    · have hfour : 2 ^ 2 ≤ 2 ^ k := Nat.pow_le_pow_right (by decide) hk
      have hbound := half_lt_hashUpper (show 4 ≤ 2 ^ (k + 1) by rw [pow_succ]; omega)
      have hle := hw.size_le
      rw [htarget] at hfull
      rw [pow_succ] at hbound hfull
      omega
    · omega

theorem WellFormed.full (hw : h.WellFormed hashFunc) (hsize : 2 ^ 31 ≤ h.size) :
    h.nBuckets = 2 ^ 31 ∧ ¬ h.Grows ∧ ∀ i < h.nBuckets, h.flags i = .live := by
  have hle := hw.size_le
  have hle' := hw.nBuckets_le
  refine ⟨by omega, ?_, ?_⟩
  · rintro ⟨-, hsmall⟩
    have htarget : h.growthTarget = 2 ^ 31 := by
      have hn : h.nBuckets = 2 ^ 31 := by omega
      have hs : h.size = 2 ^ 31 := by omega
      rw [growthTarget, hn, hs, if_pos (by decide)]
      exact roundBuckets_pred 31 (by decide) (by decide)
    rw [htarget] at hsmall
    have hbound := @hashUpper_le (2 ^ 31) (by decide)
    omega
  · rw [← tally_eq_iff (P := (· = BucketFlag.live)), ← hw.size]
    omega

section Grow

theorem grow_eq_resize (hfull : h.upperBound ≤ h.nOccupied) :
    ∃ n, grow hashFunc memory h = resize hashFunc memory h n ∧ roundBuckets n = h.growthTarget := by
  unfold grow growthTarget
  rw [if_pos hfull]
  by_cases hfew : h.nBuckets > (2 * h.size) % 2 ^ 32
  · rw [if_pos hfew, if_pos hfew]
    exact ⟨_, rfl, rfl⟩
  · rw [if_neg hfew, if_neg hfew]
    exact ⟨_, rfl, rfl⟩

theorem grow_idle (hgrows : ¬ h.Grows) : grow hashFunc memory h = .ok (true, h) := by
  by_cases hfull : h.upperBound ≤ h.nOccupied
  · obtain ⟨n, hn, htarget⟩ := @grow_eq_resize _ _ hashFunc h memory hfull
    have hsize : h.size ≥ hashUpper (roundBuckets n) := by
      rw [htarget]
      by_contra hsmall
      exact hgrows ⟨hfull, by omega⟩
    rw [hn, resize, if_pos hsize]
  · rw [grow, if_neg hfull]

theorem WellFormed.setKeysLen (hw : h.WellFormed hashFunc) {keysLen : ℕ} (hle : h.nBuckets ≤ keysLen) :
    ({ h with keysLen := keysLen } : KHash K V).WellFormed hashFunc :=
  ⟨hw.buckets, hw.size, hw.nOccupied, hw.upperBound, hw.distinct, hw.reaches, hle, hw.valsLen⟩

/-- A failed growth changes at most the length of the array of the keys. -/
theorem grow_fails (hw : h.WellFormed hashFunc) (hgrows : h.Grows) (hfails : ¬ GrowthSucceeds memory h) :
    ∃ keysLen, h.nBuckets ≤ keysLen ∧
      grow hashFunc memory h = .ok (false, { h with keysLen := keysLen }) := by
  obtain ⟨n, hn, htarget⟩ := @grow_eq_resize _ _ hashFunc h memory hgrows.1
  rw [hn, resize, htarget, if_neg (Nat.not_le.mpr hgrows.2)]
  by_cases hflags : memory.newFlags = false
  · exact ⟨h.keysLen, hw.keysLen, if_pos hflags⟩
  rw [if_neg hflags]
  by_cases hmore : h.nBuckets < h.growthTarget
  · rw [if_pos hmore]
    by_cases hkeys : memory.newKeys = false
    · exact ⟨h.keysLen, hw.keysLen, if_pos hkeys⟩
    · rw [if_neg hkeys]
      by_cases hvals : memory.newVals = false
      · exact ⟨h.growthTarget, hmore.le, if_pos hvals⟩
      · refine absurd ⟨?_, fun _ => ⟨?_, ?_⟩⟩ hfails
        · simpa using hflags
        · simpa using hkeys
        · simpa using hvals
  · exact absurd ⟨by simpa using hflags, fun h => absurd h hmore⟩ hfails

theorem grow_succeeds (hw : h.WellFormed hashFunc) (hgrows : h.Grows)
    (hmemory : GrowthSucceeds memory h) : ∃ h', grow hashFunc memory h = .ok (true, h') ∧
      h'.WellFormed hashFunc ∧ h'.entries = h.entries ∧ h'.size = h.size ∧ h'.size < h'.nBuckets := by
  obtain ⟨n, hn, htarget⟩ := @grow_eq_resize _ _ hashFunc h memory hgrows.1
  obtain ⟨k, hk, hk', hpow, hle⟩ := hw.growthTarget_spec hgrows
  have hfour : 2 ^ 2 ≤ 2 ^ k := Nat.pow_le_pow_right (by decide) hk
  have hupper := @hashUpper_le (2 ^ k) hfour
  have hsize : h.size < hashUpper (2 ^ k) := hpow ▸ hgrows.2
  have hflags : ¬ memory.newFlags = false := by simp [hmemory.1]
  rw [hn, resize, htarget, hpow, if_neg (Nat.not_le.mpr hsize), if_neg hflags]
  by_cases hmore : h.nBuckets < 2 ^ k
  · obtain ⟨hkeys, hvals⟩ := hmemory.2 (hpow ▸ hmore)
    obtain ⟨h', hrehash, hw', hsame, hn', hs'⟩ := rehash_spec hw hk hk' (by omega) (le_refl (2 ^ k))
    refine ⟨h', ?_, hw', hsame, hs', by omega⟩
    rw [if_pos hmore, if_neg (by simp [hkeys]), if_neg (by simp [hvals]), hrehash]
    rfl
  · have hsame : ({ h with keysLen := h.keysLen, valsLen := 2 ^ k } : KHash K V) = h := by
      have hvals : h.valsLen = 2 ^ k := by
        rw [hw.valsLen]
        omega
      rw [← hvals]
    have hkeys := hw.keysLen
    obtain ⟨h', hrehash, hw', hentries, hn', hs'⟩ :=
      @rehash_spec _ _ _ _ hw k h.keysLen hk hk' (by omega) (by omega)
    refine ⟨h', ?_, hw', hentries, hs', by omega⟩
    rw [if_neg hmore, ← hsame, hrehash]
    rfl

/-- The first part of `kh_put`, where no allocation is needed that fails. -/
theorem grow_spec (hw : h.WellFormed hashFunc) (hmemory : h.Grows → GrowthSucceeds memory h) :
    ∃ h', grow hashFunc memory h = .ok (true, h') ∧ h'.WellFormed hashFunc ∧
      h'.entries = h.entries ∧ (h.size < 2 ^ 31 → h'.size < h'.nBuckets) := by
  by_cases hgrows : h.Grows
  · obtain ⟨h', hgrow, hw', hsame, -, hroom⟩ := grow_succeeds hw hgrows (hmemory hgrows)
    exact ⟨h', hgrow, hw', hsame, fun _ => hroom⟩
  · exact ⟨h, grow_idle hgrows, hw, rfl, hw.room hgrows⟩

end Grow

section Put
variable [DecidableEq K] {key : K} {v : V}

/-- Behind a failed growth the value goes past the end of its array. -/
theorem hashAdd_growth_fails (hw : h.WellFormed hashFunc) (hgrows : h.Grows)
    (hfails : ¬ GrowthSucceeds memory h) (key : Option K) : ∃ keysLen, h.nBuckets ≤ keysLen ∧
      hashAdd hashFunc memory h key v = if h.nBuckets = 0 then .error .nullPointer
        else .ok ({ h with keysLen := keysLen }, [h.nBuckets]) := by
  obtain ⟨keysLen, hle, hgrow⟩ := grow_fails hw hgrows hfails
  refine ⟨keysLen, hle, ?_⟩
  have hput : put hashFunc memory h key = .ok (h.nBuckets, { h with keysLen := keysLen }) := by
    rw [put, hgrow]
    rfl
  rw [hashAdd, hput]
  change setValue { h with keysLen := keysLen } h.nBuckets v = _
  simp only [setValue, hw.valsLen, if_neg (Nat.lt_irrefl _)]

omit [DecidableEq K] in
theorem setValue_inside {x : ℕ} (hx : x < h.valsLen) :
    setValue h x v = .ok ({ h with vals := Function.update h.vals x v }, []) := if_pos hx

theorem hashAdd_null (hw : h.WellFormed hashFunc) (hmemory : h.Grows → GrowthSucceeds memory h) :
    hashAdd hashFunc memory h none v = .error .nullPointer := by
  obtain ⟨h', hgrow, -⟩ := grow_spec hw hmemory
  rw [hashAdd, put, hgrow]
  rfl

/-- A new key finds its bucket, and no other entry changes. -/
theorem hashAdd_absent (hw : h.WellFormed hashFunc) (hmemory : h.Grows → GrowthSucceeds memory h)
    (hsize : h.size < 2 ^ 31) (hnone : h.lookup key = none) :
    ∃ h', hashAdd hashFunc memory h (some key) v = .ok (h', []) ∧ h'.WellFormed hashFunc ∧
      ∀ q, h'.lookup q = if q = key then some v else h.lookup q := by
  obtain ⟨t, hgrow, hw', hsame, hroom⟩ := grow_spec hw hmemory
  have hlookup := lookup_congr hw hw' hsame
  have hnone' : t.lookup key = none := by rw [hlookup, hnone]
  obtain ⟨x, hx, hchoose, hfree, hreaches⟩ := chooseBucket_absent hw' hnone' (hroom hsize)
  have hoccupied := occupy_wellFormed hw' hx hfree (lookup_eq_none.mp hnone') hreaches
  have hput : put hashFunc memory h (some key) = .ok (x, occupy t x key) := by
    rw [put, hgrow]
    change (chooseBucket hashFunc t key >>= _) = _
    rw [hchoose]
    rfl
  have hvals : x < (occupy t x key).valsLen := by
    rw [occupy_eq hfree, hw'.valsLen]
    exact hx
  refine ⟨_, ?_, hoccupied.setVals (Function.update t.vals x v), fun q => ?_⟩
  · rw [hashAdd, hput]
    change setValue (occupy t x key) x v = _
    rw [setValue_inside hvals, occupy_eq hfree]
  · rw [lookup_occupy hw' hx hfree hnone' hreaches, hlookup]

/-- In the largest table, when it is full, a new key takes the value of another key away. -/
theorem hashAdd_full (hw : h.WellFormed hashFunc) (hsize : 2 ^ 31 ≤ h.size)
    (hnone : h.lookup key = none) : ∃ x < h.nBuckets, h.flags x = .live ∧
      hashAdd hashFunc memory h (some key) v =
        .ok ({ h with vals := Function.update h.vals x v }, []) := by
  obtain ⟨hn, hgrows, hfull⟩ := hw.full hsize
  obtain ⟨hchoose, hx⟩ := chooseBucket_full hw hnone (by omega) hfull
  refine ⟨_, hx, hfull _ hx, ?_⟩
  have hput : put hashFunc memory h (some key) = .ok (home hashFunc h.nBuckets key, h) := by
    rw [put, grow_idle hgrows]
    change (chooseBucket hashFunc h key >>= _) = _
    rw [hchoose]
    exact congrArg (fun t => Except.ok (_, t)) (occupy_live (hfull _ hx))
  rw [hashAdd, hput]
  exact setValue_inside (by rwa [hw.valsLen])

end Put

end KHash

end DistillerFS
