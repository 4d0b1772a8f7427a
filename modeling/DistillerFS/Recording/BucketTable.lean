import DistillerFS.Recording.KHash
import DistillerFS.Foundations.Collecting

/-!
# What a khash table holds

Every live bucket can be reached by the search for its key, and no key is there twice. So
`kh_get` finds what is in the table, and `kh_put` finds a place for what is not.
-/
namespace DistillerFS
open Foundations

namespace KHash
variable {K V : Type} (hashFunc : K → BitVec 32)

/-- A search for the key comes to the bucket, and no empty bucket ends it before. -/
def Reaches (n : ℕ) (flags : ℕ → BucketFlag) (key : K) (i : ℕ) : Prop :=
  ∃ s, probeSlot n (hashFunc key).toNat s = i ∧
    ∀ t < s, flags (probeSlot n (hashFunc key).toNat t) ≠ .empty

structure WellFormed (h : KHash K V) : Prop where
  buckets : h.nBuckets = 0 ∨ ∃ k, 2 ≤ k ∧ k ≤ 31 ∧ h.nBuckets = 2 ^ k
  size : h.size = tally (· = .live) h.flags h.nBuckets
  nOccupied : h.nOccupied = tally (· ≠ .empty) h.flags h.nBuckets
  upperBound : h.upperBound = hashUpper h.nBuckets
  distinct : ∀ i < h.nBuckets, ∀ j < h.nBuckets, h.flags i = .live → h.flags j = .live →
    h.keys i = h.keys j → i = j
  reaches : ∀ i < h.nBuckets, h.flags i = .live → Reaches hashFunc h.nBuckets h.flags (h.keys i) i
  keysLen : h.nBuckets ≤ h.keysLen
  valsLen : h.valsLen = h.nBuckets

def lookup [DecidableEq K] (h : KHash K V) (key : K) : Option V :=
  ((List.range h.nBuckets).find? (fun i => h.flags i = .live ∧ h.keys i = key)).map h.vals

theorem wellFormed_init [Inhabited K] [Inhabited V] : (init : KHash K V).WellFormed hashFunc where
  buckets := .inl rfl
  size := rfl
  nOccupied := rfl
  upperBound := show 0 = hashUpper 0 by decide
  distinct := fun i hi => absurd hi (Nat.not_lt_zero i)
  reaches := fun i hi => absurd hi (Nat.not_lt_zero i)
  keysLen := le_rfl
  valsLen := rfl

section Lookup
variable [DecidableEq K] {h : KHash K V} {key : K}

theorem lookup_eq_none :
    h.lookup key = none ↔ ∀ i < h.nBuckets, h.flags i = .live → h.keys i ≠ key := by
  simp [lookup]

variable {hashFunc}

theorem lookup_eq_some (hw : h.WellFormed hashFunc) {v : V} : h.lookup key = some v ↔
    ∃ i < h.nBuckets, h.flags i = .live ∧ h.keys i = key ∧ h.vals i = v := by
  constructor
  · intro hv
    obtain ⟨i, hi, rfl⟩ := Option.map_eq_some_iff.mp hv
    have hfound := List.find?_some hi
    have hmem := List.mem_of_find?_eq_some hi
    rw [decide_eq_true_eq] at hfound
    exact ⟨i, List.mem_range.mp hmem, hfound.1, hfound.2, rfl⟩
  · rintro ⟨i, hi, hlive, rfl, rfl⟩
    cases hfound : h.lookup (h.keys i) with
    | none => exact absurd rfl (lookup_eq_none.mp hfound i hi hlive)
    | some v =>
      obtain ⟨j, hj, rfl⟩ := Option.map_eq_some_iff.mp hfound
      have hfound' := List.find?_some hj
      rw [decide_eq_true_eq] at hfound'
      rw [hw.distinct j (List.mem_range.mp (List.mem_of_find?_eq_some hj)) i hi hfound'.1 hlive
        hfound'.2]

end Lookup

section Search
variable {hashFunc} {h : KHash K V} {key : K} {k : ℕ}

theorem home_eq_mod (hn : h.nBuckets = 2 ^ k) :
    home hashFunc h.nBuckets key = (hashFunc key).toNat % 2 ^ k := by
  rw [home, hn, Nat.and_two_pow_sub_one_eq_mod]

theorem endsAt_eq_true [DecidableEq K] {i : ℕ} : h.endsAt key i = true ↔
    h.flags i = .empty ∨ h.flags i = .live ∧ h.keys i = key := by
  simp [endsAt]

/-- A bucket that is reached is reached within one round through the table. -/
theorem Reaches.exists_lt {n i : ℕ} {flags : ℕ → BucketFlag} (hn : n = 2 ^ k)
    (hr : Reaches hashFunc n flags key i) : ∃ s < n, probeSlot n (hashFunc key).toNat s = i ∧
      ∀ t < s, flags (probeSlot n (hashFunc key).toNat t) ≠ .empty := by
  subst hn
  obtain ⟨s, hs, hgoes⟩ := hr
  have hi : i < 2 ^ k := hs ▸ probeSlot_lt (Nat.two_pow_pos k) _ s
  obtain ⟨s', hs', hslot⟩ := exists_probeSlot (hashFunc key).toNat hi
  by_cases hle : s' ≤ s
  · exact ⟨s', hs', hslot, fun t ht => hgoes t (by omega)⟩
  · exact ⟨s, by omega, hs, hgoes⟩

theorem get_live [DecidableEq K] (hw : h.WellFormed hashFunc) {i : ℕ} (hi : i < h.nBuckets)
    (hlive : h.flags i = .live) : get hashFunc h (h.keys i) = .ok i := by
  obtain hzero | ⟨k, -, -, hn⟩ := hw.buckets
  · omega
  obtain ⟨s, hs, hslot, hgoes⟩ := (hw.reaches i hi hlive).exists_lt hn
  have hne : h.nBuckets ≠ 0 := by omega
  rw [get, if_neg hne, home_eq_mod hn]
  simp only [hn] at hi hs hslot hgoes ⊢
  have hstart : (hashFunc (h.keys i)).toNat % 2 ^ k < 2 ^ k := Nat.mod_lt _ (Nat.two_pow_pos k)
  have hprobe := @probe_stops Unit (h.endsAt (h.keys i)) (fun seen _ => seen) _ k _ hstart
    (2 * 2 ^ k) s () hs (by omega) ?_ ?_ (.inr rfl)
  · rw [probeSlot_mod, hslot] at hprobe
    simp only [hprobe, hlive, if_true]
  · rw [probeSlot_mod, hslot]
    exact endsAt_eq_true.mpr (.inr ⟨hlive, rfl⟩)
  · intro t ht
    rw [probeSlot_mod, Bool.eq_false_iff]
    intro hends
    rcases endsAt_eq_true.mp hends with hempty | ⟨hlive', hkey⟩
    · exact hgoes t ht hempty
    · have hlt : probeSlot (2 ^ k) (hashFunc (h.keys i)).toNat t < h.nBuckets :=
        hn ▸ probeSlot_lt (Nat.two_pow_pos k) _ t
      have hsame := hw.distinct _ hlt i (hn ▸ hi) hlive' hlive hkey
      have heq := probeSlot_injOn _ (show t < 2 ^ k by omega) hs (hsame.trans hslot.symm)
      omega

variable [DecidableEq K]

/-- Without an entry for the key, the search ends at empty buckets only. -/
theorem endsAt_absent (hnone : h.lookup key = none) {i : ℕ} (hi : i < h.nBuckets) :
    h.endsAt key i = true ↔ h.flags i = .empty := by
  rw [endsAt_eq_true]
  constructor
  · rintro (hempty | ⟨hlive, hkey⟩)
    · exact hempty
    · exact absurd hkey (lookup_eq_none.mp hnone i hi hlive)
  · exact .inl

theorem get_absent (hw : h.WellFormed hashFunc) (hnone : h.lookup key = none) :
    get hashFunc h key = .ok h.nBuckets := by
  obtain hzero | ⟨k, -, -, hn⟩ := hw.buckets
  · rw [get, if_pos hzero, hzero]
  have hpos : 0 < 2 ^ k := Nat.two_pow_pos k
  have hstart : (hashFunc key).toNat % 2 ^ k < 2 ^ k := Nat.mod_lt _ hpos
  have hne : h.nBuckets ≠ 0 := by omega
  rw [get, if_neg hne, home_eq_mod hn]
  simp only [hn]
  rcases @first_stop_or_none k ((hashFunc key).toNat % 2 ^ k) (h.endsAt key) with
    ⟨s, hs, hstop, hgoes⟩ | hgoes
  · have hlt : probeSlot (2 ^ k) ((hashFunc key).toNat % 2 ^ k) s < h.nBuckets :=
      hn ▸ probeSlot_lt hpos _ s
    have hempty := (endsAt_absent hnone hlt).mp hstop
    rw [probe_stops hstart () hs (by omega) hstop hgoes (.inr rfl)]
    simp only [hempty, reduceCtorEq, if_false]
  · obtain ⟨s, -, hprobe⟩ := @probe_wraps Unit _ (fun seen _ => seen) _ _ hstart _ () le_rfl hgoes
    rw [hprobe]

/-- `kh_get` and the value behind it are the lookup. -/
theorem get_eq (hw : h.WellFormed hashFunc) (key : K) :
    (∃ i < h.nBuckets, h.flags i = .live ∧ h.keys i = key ∧ get hashFunc h key = .ok i ∧
      h.lookup key = some (h.vals i)) ∨
    get hashFunc h key = .ok h.nBuckets ∧ h.lookup key = none := by
  cases hfound : h.lookup key with
  | none => exact .inr ⟨get_absent hw hfound, rfl⟩
  | some v =>
    obtain ⟨i, hi, hlive, rfl, rfl⟩ := (lookup_eq_some hw).mp hfound
    exact .inl ⟨i, hi, hlive, rfl, get_live hw hi hlive, rfl⟩

omit [DecidableEq K] in
/-- The site is the last deleted bucket among those passed, if there is one. -/
theorem foldl_lastDeleted (h : KHash K V) (init : ℕ) (l : List ℕ) :
    (l.foldl h.lastDeleted init = init ∧ ∀ i ∈ l, h.flags i ≠ .deleted) ∨
      (l.foldl h.lastDeleted init ∈ l ∧ h.flags (l.foldl h.lastDeleted init) = .deleted) := by
  induction l using List.reverseRecOn with
  | nil => exact .inl ⟨rfl, fun i hi => absurd hi List.not_mem_nil⟩
  | append_singleton l x ih =>
    rw [List.foldl_append, List.foldl_cons, List.foldl_nil, lastDeleted]
    by_cases hx : h.flags x = .deleted
    · right
      rw [if_pos hx]
      exact ⟨List.mem_append_right l (List.mem_singleton_self x), hx⟩
    · rw [if_neg hx]
      rcases ih with ⟨hinit, hnone⟩ | ⟨hmem, hdeleted⟩
      · left
        refine ⟨hinit, fun i hi => ?_⟩
        rcases List.mem_append.mp hi with hi | hi
        · exact hnone i hi
        · rw [List.mem_singleton.mp hi]
          exact hx
      · exact .inr ⟨List.mem_append_left _ hmem, hdeleted⟩

omit [DecidableEq K] in
theorem exists_not_live (hw : h.WellFormed hashFunc) (hroom : h.size < h.nBuckets) :
    ∃ i < h.nBuckets, h.flags i ≠ .live := by
  by_contra hall
  push Not at hall
  have hfull : tally (· = .live) h.flags h.nBuckets = h.nBuckets := tally_eq_iff.mpr hall
  rw [← hw.size] at hfull
  omega

omit [DecidableEq K] in
theorem reaches_home (hn : h.nBuckets = 2 ^ k) :
    Reaches hashFunc h.nBuckets h.flags key (home hashFunc h.nBuckets key) := by
  refine ⟨0, ?_, fun t ht => absurd ht (Nat.not_lt_zero t)⟩
  rw [home_eq_mod hn, hn]
  rfl

theorem site_stopped (hn : h.nBuckets = 2 ^ k) (hnone : h.lookup key = none) {s : ℕ}
    (hstop : h.endsAt key (probeSlot (2 ^ k) (hashFunc key).toNat s) = true)
    (hgoes : ∀ t < s, h.endsAt key (probeSlot (2 ^ k) (hashFunc key).toNat t) = false) {j site : ℕ}
    (hj : j = probeSlot (2 ^ k) (hashFunc key).toNat s)
    (hsite : site = (passed (2 ^ k) (hashFunc key).toNat s).foldl h.lastDeleted h.nBuckets) :
    ∃ x < h.nBuckets, (if h.flags j = .empty ∧ site ≠ h.nBuckets then site else j) = x ∧
      h.flags x ≠ .live ∧ Reaches hashFunc h.nBuckets h.flags key x := by
  have hlt : ∀ t, probeSlot (2 ^ k) (hashFunc key).toNat t < h.nBuckets := by
    intro t
    rw [hn]
    exact probeSlot_lt (Nat.two_pow_pos k) _ t
  have hend : h.flags j = .empty := by
    rw [hj]
    exact (endsAt_absent hnone (hlt s)).mp hstop
  have hbefore : ∀ t < s, h.flags (probeSlot h.nBuckets (hashFunc key).toNat t) ≠ .empty := by
    intro t ht hflag
    rw [hn] at hflag
    have hends := (endsAt_absent hnone (hlt t)).mpr hflag
    rw [hgoes t ht] at hends
    cases hends
  rcases foldl_lastDeleted h h.nBuckets (passed (2 ^ k) (hashFunc key).toNat s) with
    ⟨hinit, -⟩ | ⟨hmem, hdeleted⟩
  · refine ⟨j, hj ▸ hlt s, ?_, ?_, s, ?_, hbefore⟩
    · rw [hsite, hinit, if_neg (fun h => h.2 rfl)]
    · rw [hend]
      exact nofun
    · rw [hn, hj]
  · rw [← hsite] at hmem hdeleted
    obtain ⟨t, ht, hslot⟩ := mem_passed_iff.mp hmem
    refine ⟨site, hslot ▸ hlt t, ?_, ?_, t, ?_, fun u hu => hbefore u (hu.trans ht)⟩
    · have hne : site ≠ h.nBuckets := (hslot ▸ hlt t).ne
      rw [if_pos ⟨hend, hne⟩]
    · rw [hdeleted]
      exact nofun
    · rw [hn, hslot]

theorem site_wrapped (hw : h.WellFormed hashFunc) (hn : h.nBuckets = 2 ^ k)
    (hroom : h.size < h.nBuckets) (hnone : h.lookup key = none)
    (hgoes : ∀ i < 2 ^ k, h.endsAt key i = false) {s site : ℕ} (hs : 2 ^ k ≤ s)
    (hsite : site = (passed (2 ^ k) (hashFunc key).toNat s).foldl h.lastDeleted h.nBuckets) :
    site < h.nBuckets ∧ h.flags site ≠ .live ∧ Reaches hashFunc h.nBuckets h.flags key site := by
  have hfull : ∀ i < h.nBuckets, h.flags i ≠ .empty := by
    intro i hi hflag
    have hends := (endsAt_absent hnone hi).mpr hflag
    rw [hgoes i (hn ▸ hi)] at hends
    cases hends
  have hlt : ∀ t, probeSlot h.nBuckets (hashFunc key).toNat t < h.nBuckets := by
    intro t
    apply probeSlot_lt
    omega
  obtain ⟨i, hi, hlive⟩ := exists_not_live hw hroom
  have hdeleted : h.flags i = .deleted := by
    cases hflag : h.flags i with
    | empty => exact absurd hflag (hfull i hi)
    | deleted => rfl
    | live => exact absurd hflag hlive
  rcases foldl_lastDeleted h h.nBuckets (passed (2 ^ k) (hashFunc key).toNat s) with
    ⟨-, hnot⟩ | ⟨hmem, hdeleted⟩
  · exact absurd hdeleted (hnot i (mem_passed hs (hn ▸ hi)))
  · rw [← hsite] at hmem hdeleted
    obtain ⟨t, -, hslot⟩ := mem_passed_iff.mp hmem
    rw [← hn] at hslot
    refine ⟨hslot ▸ hlt t, ?_, t, hslot, fun u _ => hfull _ (hlt u)⟩
    rw [hdeleted]
    exact nofun

theorem chooseBucket_absent (hw : h.WellFormed hashFunc) (hnone : h.lookup key = none)
    (hroom : h.size < h.nBuckets) : ∃ x < h.nBuckets, chooseBucket hashFunc h key = .ok x ∧
      h.flags x ≠ .live ∧ Reaches hashFunc h.nBuckets h.flags key x := by
  obtain hzero | ⟨k, -, -, hn⟩ := hw.buckets
  · omega
  have hstart : (hashFunc key).toNat % 2 ^ k < 2 ^ k := Nat.mod_lt _ (Nat.two_pow_pos k)
  have hhome : home hashFunc h.nBuckets key < h.nBuckets := by
    rw [home_eq_mod hn, hn]
    exact hstart
  unfold chooseBucket
  by_cases hempty : h.flags (home hashFunc h.nBuckets key) = .empty
  · refine ⟨_, hhome, if_pos hempty, ?_, reaches_home hn⟩
    rw [hempty]
    exact nofun
  rw [if_neg hempty, home_eq_mod hn, show h.nBuckets - 1 = 2 ^ k - 1 by rw [hn]]
  have hfuel : 2 * 2 ^ k ≤ 2 * h.nBuckets := by rw [hn]
  rcases @first_stop_or_none k ((hashFunc key).toNat % 2 ^ k) (h.endsAt key) with
    ⟨s, hs, hstop, hgoes⟩ | hgoes
  · rw [probe_stops hstart _ hs (by omega) hstop hgoes (.inr rfl)]
    simp only [probeSlot_mod, passed_mod] at hstop hgoes ⊢
    obtain ⟨x, hx, hchosen, hplace⟩ := site_stopped hn hnone hstop hgoes rfl rfl
    exact ⟨x, hx, congrArg Except.ok hchosen, hplace⟩
  · obtain ⟨s, hs, hprobe⟩ := @probe_wraps _ _ h.lastDeleted _ _ hstart _ h.nBuckets hfuel hgoes
    rw [hprobe, passed_mod]
    obtain ⟨hlt, hplace⟩ := @site_wrapped _ _ hashFunc _ _ _ _ hw hn hroom hnone hgoes _ _ hs rfl
    exact ⟨_, hlt, congrArg Except.ok (if_neg hlt.ne), hplace⟩

/-- In a table without any other bucket than live ones, the search goes round and takes
the bucket it started from. -/
theorem chooseBucket_full (hw : h.WellFormed hashFunc) (hnone : h.lookup key = none)
    (hpos : 0 < h.nBuckets) (hfull : ∀ i < h.nBuckets, h.flags i = .live) :
    chooseBucket hashFunc h key = .ok (home hashFunc h.nBuckets key) ∧
      home hashFunc h.nBuckets key < h.nBuckets := by
  obtain hzero | ⟨k, -, -, hn⟩ := hw.buckets
  · omega
  have hstart : (hashFunc key).toNat % 2 ^ k < 2 ^ k := Nat.mod_lt _ (Nat.two_pow_pos k)
  have hhome : home hashFunc h.nBuckets key < h.nBuckets := by
    rw [home_eq_mod hn, hn]
    exact hstart
  refine ⟨?_, hhome⟩
  have hgoes : ∀ i < 2 ^ k, h.endsAt key i = false := by
    intro i hi
    rw [Bool.eq_false_iff]
    intro hends
    rw [endsAt_absent hnone (hn ▸ hi), hfull i (hn ▸ hi)] at hends
    cases hends
  have hfuel : 2 * 2 ^ k ≤ 2 * h.nBuckets := by rw [hn]
  unfold chooseBucket
  rw [if_neg (by rw [hfull _ hhome]; exact nofun), home_eq_mod hn,
    show h.nBuckets - 1 = 2 ^ k - 1 by rw [hn]]
  obtain ⟨s, -, hprobe⟩ := @probe_wraps _ _ h.lastDeleted _ _ hstart _ h.nBuckets hfuel hgoes
  rw [hprobe]
  rcases foldl_lastDeleted h h.nBuckets (passed (2 ^ k) ((hashFunc key).toNat % 2 ^ k) s) with
    ⟨hinit, -⟩ | ⟨hmem, hdeleted⟩
  · simp only [hinit, if_true]
  · obtain ⟨t, -, hslot⟩ := mem_passed_iff.mp hmem
    rw [hfull _ (hslot ▸ hn ▸ probeSlot_lt (Nat.two_pow_pos k) _ t)] at hdeleted
    cases hdeleted

end Search

section Insert
variable {hashFunc} {h : KHash K V} {key : K} {x : ℕ}

theorem occupy_eq (hx : h.flags x ≠ .live) : occupy h x key = { h with
    keys := Function.update h.keys x key
    flags := Function.update h.flags x .live
    size := h.size + 1
    nOccupied := if h.flags x = .empty then h.nOccupied + 1 else h.nOccupied } := by
  unfold occupy
  cases hflag : h.flags x with
  | empty => rfl
  | deleted => rfl
  | live => exact absurd hflag hx

theorem occupy_live (hx : h.flags x = .live) : occupy h x key = h := by
  unfold occupy
  rw [hx]

theorem Reaches.mono {n i : ℕ} {flags flags' : ℕ → BucketFlag}
    (hflags : ∀ j, flags j ≠ .empty → flags' j ≠ .empty) (hr : Reaches hashFunc n flags key i) :
    Reaches hashFunc n flags' key i := by
  obtain ⟨s, hs, hgoes⟩ := hr
  exact ⟨s, hs, fun t ht => hflags _ (hgoes t ht)⟩

theorem Reaches.taken {n i : ℕ} {flags : ℕ → BucketFlag} (hr : Reaches hashFunc n flags key i)
    (x : ℕ) : Reaches hashFunc n (Function.update flags x .live) key i := by
  apply hr.mono
  intro j hj
  by_cases hjx : j = x
  · rw [hjx, Function.update_self]
    exact nofun
  · rwa [Function.update_of_ne hjx]

theorem occupy_wellFormed (hw : h.WellFormed hashFunc) (hx : x < h.nBuckets)
    (hfree : h.flags x ≠ .live) (habsent : ∀ i < h.nBuckets, h.flags i = .live → h.keys i ≠ key)
    (hreaches : Reaches hashFunc h.nBuckets h.flags key x) :
    (occupy h x key).WellFormed hashFunc := by
  rw [occupy_eq hfree]
  refine ⟨hw.buckets, ?_, ?_, hw.upperBound, ?_, ?_, hw.keysLen, hw.valsLen⟩
  · have hgain : tally (· = .live) (Function.update h.flags x .live) h.nBuckets =
        tally (· = .live) h.flags h.nBuckets + 1 := tally_gain hx hfree rfl
    simp only [hgain, hw.size]
  · by_cases hempty : h.flags x = .empty
    · have hgain : tally (· ≠ .empty) (Function.update h.flags x .live) h.nBuckets =
          tally (· ≠ .empty) h.flags h.nBuckets + 1 := tally_gain hx (fun h => h hempty) (by simp)
      simp only [if_pos hempty, hgain, hw.nOccupied]
    · have hkeep : tally (· ≠ .empty) (Function.update h.flags x .live) h.nBuckets =
          tally (· ≠ .empty) h.flags h.nBuckets := tally_keep (iff_of_true hempty (by simp))
      simp only [if_neg hempty, hkeep, hw.nOccupied]
  · intro i hi j hj hlive hlive' hkeys
    by_cases hix : i = x <;> by_cases hjx : j = x
    · rw [hix, hjx]
    · subst hix
      simp only [Function.update_self, Function.update_of_ne hjx] at hkeys hlive'
      exact absurd hkeys.symm (habsent j hj hlive')
    · subst hjx
      simp only [Function.update_self, Function.update_of_ne hix] at hkeys hlive
      exact absurd hkeys (habsent i hi hlive)
    · simp only [Function.update_of_ne hix, Function.update_of_ne hjx] at hkeys hlive hlive'
      exact hw.distinct i hi j hj hlive hlive' hkeys
  · intro i hi hlive
    by_cases hix : i = x
    · subst hix
      simp only [Function.update_self]
      exact hreaches.taken i
    · simp only [Function.update_of_ne hix] at hlive ⊢
      exact (hw.reaches i hi hlive).taken x

/-- The values do not matter to the shape of the table. -/
theorem WellFormed.setVals (hw : h.WellFormed hashFunc) (vals : ℕ → V) :
    ({ h with vals := vals } : KHash K V).WellFormed hashFunc :=
  ⟨hw.buckets, hw.size, hw.nOccupied, hw.upperBound, hw.distinct, hw.reaches, hw.keysLen, hw.valsLen⟩

variable [DecidableEq K]

theorem lookup_occupy (hw : h.WellFormed hashFunc) (hx : x < h.nBuckets)
    (hfree : h.flags x ≠ .live) (hnone : h.lookup key = none)
    (hreaches : Reaches hashFunc h.nBuckets h.flags key x) (v : V) (q : K) :
    ({ occupy h x key with vals := Function.update h.vals x v } : KHash K V).lookup q =
      if q = key then some v else h.lookup q := by
  have hw' := (occupy_wellFormed hw hx hfree (lookup_eq_none.mp hnone) hreaches).setVals
    (Function.update h.vals x v)
  rw [occupy_eq hfree] at hw' ⊢
  by_cases hq : q = key
  · rw [if_pos hq, lookup_eq_some hw', hq]
    exact ⟨x, hx, Function.update_self .., Function.update_self .., Function.update_self ..⟩
  · rw [if_neg hq]
    cases hfound : h.lookup q with
    | none =>
      rw [lookup_eq_none]
      intro i hi hlive
      by_cases hix : i = x
      · rw [hix]
        simpa using Ne.symm hq
      · simp only [Function.update_of_ne hix] at hlive ⊢
        exact lookup_eq_none.mp hfound i hi hlive
    | some w =>
      obtain ⟨i, hi, hlive, hkey, hval⟩ := (lookup_eq_some hw).mp hfound
      have hix : i ≠ x := by
        rintro rfl
        exact hfree hlive
      rw [lookup_eq_some hw']
      refine ⟨i, hi, ?_, ?_, ?_⟩
      · simpa only [Function.update_of_ne hix] using hlive
      · simpa only [Function.update_of_ne hix] using hkey
      · simpa only [Function.update_of_ne hix] using hval

theorem lookup_setVal (hw : h.WellFormed hashFunc) (hx : x < h.nBuckets) (hlive : h.flags x = .live)
    (v : V) (q : K) : ({ h with vals := Function.update h.vals x v } : KHash K V).lookup q =
      if q = h.keys x then some v else h.lookup q := by
  have hw' := hw.setVals (Function.update h.vals x v)
  by_cases hq : q = h.keys x
  · rw [if_pos hq, lookup_eq_some hw', hq]
    exact ⟨x, hx, hlive, rfl, Function.update_self ..⟩
  · rw [if_neg hq]
    cases hfound : h.lookup q with
    | none =>
      rw [lookup_eq_none] at hfound ⊢
      exact hfound
    | some w =>
      obtain ⟨i, hi, hlive', hkey, hval⟩ := (lookup_eq_some hw).mp hfound
      have hix : i ≠ x := by
        rintro rfl
        exact hq hkey.symm
      rw [lookup_eq_some hw']
      exact ⟨i, hi, hlive', hkey, by simpa only [Function.update_of_ne hix] using hval⟩

end Insert

end KHash

end DistillerFS
