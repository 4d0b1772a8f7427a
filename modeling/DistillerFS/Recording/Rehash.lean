import DistillerFS.Recording.BucketTable
import Mathlib.Data.Finmap

/-!
# Rehashing a khash table

The old and the new table share their arrays. During a resize an entry is in the old table,
in the new one or in the hand of the kick-out process, and no entry is lost or doubled.
-/
namespace DistillerFS
open Foundations

namespace KHash
variable {K V : Type} (hashFunc : K → BitVec 32)

def entries (h : KHash K V) : Multiset (K × V) :=
  collect (fun i => h.flags i = .live) (fun i => (h.keys i, h.vals i)) h.nBuckets

section Entries
variable {hashFunc} {h : KHash K V}

theorem card_entries : h.entries.card = tally (· = .live) h.flags h.nBuckets := by
  rw [entries, card_collect]
  rfl

theorem mem_entries {q : K} {v : V} : (q, v) ∈ h.entries ↔
    ∃ i < h.nBuckets, h.flags i = .live ∧ h.keys i = q ∧ h.vals i = v := by
  simp only [entries, mem_collect, Prod.mk.injEq]

theorem lookup_eq_some_iff_mem [DecidableEq K] (hw : h.WellFormed hashFunc) {q : K} {v : V} :
    h.lookup q = some v ↔ (q, v) ∈ h.entries := by
  rw [lookup_eq_some hw, mem_entries]

theorem nodup_keys : (h.entries.map Prod.fst).Nodup ↔ ∀ i < h.nBuckets, ∀ j < h.nBuckets,
    h.flags i = .live → h.flags j = .live → h.keys i = h.keys j → i = j := by
  have hkeys : h.entries.map Prod.fst = collect (fun i => h.flags i = .live) h.keys h.nBuckets := by
    rw [entries, collect, Multiset.map_map]
    rfl
  rw [hkeys, nodup_collect]

theorem lookup_congr [DecidableEq K] {h' : KHash K V} (hw : h.WellFormed hashFunc)
    (hw' : h'.WellFormed hashFunc) (hsame : h'.entries = h.entries) (q : K) :
    h'.lookup q = h.lookup q := by
  ext v
  rw [lookup_eq_some_iff_mem hw', lookup_eq_some_iff_mem hw, hsame]

theorem size_eq_card [DecidableEq K] (hw : h.WellFormed hashFunc) {keys : Finset K}
    (hkeys : ∀ q, q ∈ keys ↔ h.lookup q ≠ none) : h.size = keys.card := by
  have hnodup := nodup_keys.mpr hw.distinct
  have hsame : (h.entries.map Prod.fst).toFinset = keys := by
    ext q
    rw [Multiset.mem_toFinset, hkeys, Option.ne_none_iff_exists', Multiset.mem_map]
    simp only [lookup_eq_some_iff_mem hw]
    constructor
    · rintro ⟨⟨q, v⟩, hmem, rfl⟩
      exact ⟨v, hmem⟩
    · rintro ⟨v, hmem⟩
      exact ⟨(q, v), hmem, rfl⟩
  rw [← hsame, Multiset.toFinset_card_of_nodup hnodup, Multiset.card_map, card_entries, hw.size]

/-- A table that answers as a finite map does has the size of the map. -/
theorem size_eq_card_keys [DecidableEq K] (hw : h.WellFormed hashFunc)
    {m : Finmap (fun _ : K => V)} (hm : ∀ q, h.lookup q = m.lookup q) : h.size = m.keys.card := by
  apply size_eq_card hw
  intro q
  rw [hm, Finmap.mem_keys, Finmap.mem_iff, Option.ne_none_iff_exists']

end Entries

namespace Resizing

/-- The bucket belongs to the old table of `n` buckets or to the new one. -/
def Holds (r : Resizing K V) (n i : ℕ) : Prop := (i < n ∧ r.oldFlags i = .live) ∨ r.newFlags i = .live

instance (r : Resizing K V) (n : ℕ) : DecidablePred (r.Holds n) :=
  fun _ => inferInstanceAs (Decidable (_ ∨ _))

def held (r : Resizing K V) (n m : ℕ) : Multiset (K × V) :=
  collect (r.Holds n) (fun i => (r.keys i, r.vals i)) (n + m)

def placed (r : Resizing K V) (i : ℕ) (e : K × V) : Resizing K V := { r with
  newFlags := Function.update r.newFlags i .live
  keys := Function.update r.keys i e.1
  vals := Function.update r.vals i e.2 }

theorem placed_holds (r : Resizing K V) (n i : ℕ) (e : K × V) (x : ℕ) :
    (r.placed i e).Holds n x ↔ r.Holds n x ∨ x = i := by
  by_cases hx : x = i
  · simp [Holds, placed, hx]
  · simp [Holds, placed, hx]

theorem held_placed {r : Resizing K V} {n m i : ℕ} (hi : i < m) (hnew : ¬ r.Holds n i) (e : K × V) :
    (r.placed i e).held n m = e ::ₘ r.held n m := by
  have hinsert := @collect_insert _ (r.Holds n) ((r.placed i e).Holds n) _ _
    (fun j => (r.keys j, r.vals j)) (fun j => ((r.placed i e).keys j, (r.placed i e).vals j))
    (n + m) i (by omega) hnew (r.placed_holds n i e) ?_
  · have hplace : ((r.placed i e).keys i, (r.placed i e).vals i) = e := by simp [placed]
    rw [hplace] at hinsert
    exact hinsert
  · intro x hx
    have hxi : x ≠ i := by
      rintro rfl
      exact hnew hx
    simp only [placed, Function.update_of_ne hxi]

end Resizing

/-- A resize from `n` to `m` buckets under way, with some entries in the hand. -/
structure Moving (n m : ℕ) (entries : Multiset (K × V)) (r : Resizing K V)
    (hand : Multiset (K × V)) : Prop where
  apart : ∀ i < n, r.oldFlags i = .live → r.newFlags i = .empty
  clean : ∀ i, r.newFlags i ≠ .deleted
  within : ∀ i, r.newFlags i = .live → i < m
  reaches : ∀ i, r.newFlags i = .live → Reaches hashFunc m r.newFlags (r.keys i) i
  conserved : r.held n m + hand = entries

variable {hashFunc} {n m : ℕ} {entries hand : Multiset (K × V)} {r : Resizing K V}

theorem Moving.take (hr : Moving hashFunc n m entries r hand) {j : ℕ} (hj : j < n)
    (hlive : r.oldFlags j = .live) :
    Moving hashFunc n m entries { r with oldFlags := Function.update r.oldFlags j .deleted }
      ((r.keys j, r.vals j) ::ₘ hand) := by
  have hempty := hr.apart j hj hlive
  refine ⟨?_, hr.clean, hr.within, hr.reaches, ?_⟩
  · intro i hi hold
    by_cases hij : i = j
    · rw [hij]
      exact hempty
    · simp only [Function.update_of_ne hij] at hold
      exact hr.apart i hi hold
  · have htaken : r.held n m = (r.keys j, r.vals j) ::ₘ
        ({ r with oldFlags := Function.update r.oldFlags j .deleted } : Resizing K V).held n m := by
      apply collect_insert (by omega)
      · simp [Resizing.Holds, hempty]
      · intro x
        by_cases hx : x = j
        · simp [Resizing.Holds, hx, hj, hlive]
        · simp [Resizing.Holds, hx]
      · exact fun _ _ => rfl
    rw [Multiset.add_cons, ← Multiset.cons_add, ← htaken, hr.conserved]

theorem Moving.settle {e : K × V} (hr : Moving hashFunc n m entries r (e ::ₘ hand)) {i : ℕ}
    (hi : i < m) (hempty : r.newFlags i = .empty) (hfree : i < n → r.oldFlags i ≠ .live)
    (hreaches : Reaches hashFunc m r.newFlags e.1 i) :
    Moving hashFunc n m entries (r.placed i e) hand := by
  have hold : ∀ j ≠ i, (r.placed i e).newFlags j = r.newFlags j ∧ (r.placed i e).keys j = r.keys j :=
    fun j hji => ⟨Function.update_of_ne hji .., Function.update_of_ne hji ..⟩
  constructor
  · intro j hj hlive
    have hji : j ≠ i := by
      rintro rfl
      exact hfree hj hlive
    rw [(hold j hji).1]
    exact hr.apart j hj hlive
  · intro j
    by_cases hji : j = i
    · simp [Resizing.placed, hji]
    · rw [(hold j hji).1]
      exact hr.clean j
  · intro j hlive
    by_cases hji : j = i
    · rwa [hji]
    · rw [(hold j hji).1] at hlive
      exact hr.within j hlive
  · intro j hlive
    by_cases hji : j = i
    · have hkey : (r.placed i e).keys i = e.1 := Function.update_self ..
      rw [hji, hkey]
      exact hreaches.taken i
    · rw [(hold j hji).1] at hlive
      rw [(hold j hji).2]
      exact (hr.reaches j hlive).taken i
  · have hnew : ¬ r.Holds n i := by
      rintro (⟨hi, hlive⟩ | hnew)
      · exact hfree hi hlive
      · rw [hempty] at hnew
        cases hnew
    rw [Resizing.held_placed hi hnew, Multiset.cons_add, ← Multiset.add_cons, hr.conserved]

/-- As long as there are fewer entries than new buckets, a new bucket is empty. -/
theorem Moving.exists_empty (hr : Moving hashFunc n m entries r hand) (hroom : entries.card < m) :
    ∃ i < m, r.newFlags i = .empty := by
  by_contra hnone
  push Not at hnone
  have hlive : ∀ i < m, r.newFlags i = .live := by
    intro i hi
    cases hflag : r.newFlags i with
    | empty => exact absurd hflag (hnone i hi)
    | deleted => exact absurd hflag (hr.clean i)
    | live => rfl
  have hsubset : Finset.range m ⊆ (Finset.range (n + m)).filter (r.Holds n) := by
    intro i hi
    rw [Finset.mem_range] at hi
    exact Finset.mem_filter.mpr ⟨Finset.mem_range.mpr (by omega), .inr (hlive i hi)⟩
  have hcard := Finset.card_le_card hsubset
  rw [Finset.card_range, ← card_collect (f := fun i => (r.keys i, r.vals i))] at hcard
  rw [← hr.conserved, Multiset.card_add] at hroom
  have hheld : (r.held n m).card = (collect (r.Holds n) (fun i => (r.keys i, r.vals i)) (n + m)).card := rfl
  omega

/-- The new table has an empty bucket for every key, and the search for the key finds it. -/
theorem Moving.finds {k : ℕ} (hr : Moving hashFunc n m entries r hand) (hm : m = 2 ^ k)
    (hroom : entries.card < m) (key : K) : ∃ i < m, r.newFlags i = .empty ∧
      Reaches hashFunc m r.newFlags key i ∧
      probe (fun i => r.newFlags i = .empty) (fun seen _ => seen) (m - 1) none m 0
        (home hashFunc m key) () = .stopped i () := by
  subst hm
  have hstart : (hashFunc key).toNat % 2 ^ k < 2 ^ k := Nat.mod_lt _ (Nat.two_pow_pos k)
  rcases @first_stop_or_none k ((hashFunc key).toNat % 2 ^ k) (fun i => r.newFlags i = .empty) with
    ⟨s, hs, hstop, hgoes⟩ | hgoes
  · have hprobe := @probe_stops Unit (fun i => r.newFlags i = .empty) (fun seen _ => seen) none k _
      hstart (2 ^ k) s () hs hs hstop hgoes (.inl rfl)
    rw [home, Nat.and_two_pow_sub_one_eq_mod, hprobe]
    rw [probeSlot_mod] at hstop ⊢
    refine ⟨_, probeSlot_lt (Nat.two_pow_pos k) _ s, of_decide_eq_true hstop, ⟨s, rfl, ?_⟩, rfl⟩
    intro t ht
    rw [← probeSlot_mod]
    exact of_decide_eq_false (hgoes t ht)
  · obtain ⟨i, hi, hempty⟩ := hr.exists_empty hroom
    exact absurd hempty (of_decide_eq_false (hgoes i hi))

/-- The kick-out process places the entry it starts with. The induction is on the fuel, of
which every entry that is kicked out of the old table takes one. -/
theorem kickOut_moves {k fuel : ℕ} (hm : m = 2 ^ k) (hroom : entries.card < m) {key : K} {val : V}
    (hr : Moving hashFunc n m entries r ((key, val) ::ₘ hand))
    (hfuel : tally (· = .live) r.oldFlags n < fuel) :
    ∃ r', kickOut hashFunc n m fuel r key val = .ok r' ∧ Moving hashFunc n m entries r' hand ∧
      ∀ i, r'.oldFlags i = .live → r.oldFlags i = .live := by
  induction fuel generalizing r key val with
  | zero => exact absurd hfuel (Nat.not_lt_zero _)
  | succ fuel ih =>
    obtain ⟨i, hi, hempty, hreaches, hprobe⟩ := hr.finds hm hroom key
    rw [kickOut, hprobe]
    by_cases hkick : i < n ∧ r.oldFlags i = .live
    · simp only [if_pos hkick]
      have htaken := hr.take hkick.1 hkick.2
      rw [Multiset.cons_swap] at htaken
      have hsettled := htaken.settle hi hempty (by simp) hreaches
      have hlose : tally (· = .live) (Function.update r.oldFlags i .deleted) n + 1 =
          tally (· = .live) r.oldFlags n := tally_lose hkick.1 hkick.2 nofun
      obtain ⟨r', hr', hmoved, hmono⟩ := ih hsettled (by simp only [Resizing.placed]; omega)
      refine ⟨r', hr', hmoved, fun j hj => ?_⟩
      have hold := hmono j hj
      by_cases hji : j = i
      · rw [hji]
        exact hkick.2
      · simpa [Resizing.placed, hji] using hold
    · simp only [if_neg hkick]
      exact ⟨_, rfl, hr.settle hi hempty (fun h hlive => hkick ⟨h, hlive⟩) hreaches,
        fun _ hlive => hlive⟩

theorem moveBucket_moves {k j : ℕ} (hm : m = 2 ^ k) (hroom : entries.card < m)
    (hr : Moving hashFunc n m entries r 0) (hj : j < n) :
    ∃ r', moveBucket hashFunc n m r j = .ok r' ∧ Moving hashFunc n m entries r' 0 ∧
      r'.oldFlags j ≠ .live ∧ ∀ i, r'.oldFlags i = .live → r.oldFlags i = .live := by
  unfold moveBucket
  by_cases hlive : r.oldFlags j = .live
  · rw [if_pos hlive]
    have hfuel : tally (· = .live) (Function.update r.oldFlags j .deleted) n < n + 1 :=
      Nat.lt_succ_of_le (tally_le ..)
    obtain ⟨r', hr', hmoved, hmono⟩ := kickOut_moves hm hroom (hr.take hj hlive) hfuel
    refine ⟨r', hr', hmoved, ?_, ?_⟩
    · intro h
      simpa using hmono j h
    · intro i h
      by_cases hij : i = j
      · rwa [hij]
      · simpa [hij] using hmono i h
  · rw [if_neg hlive]
    exact ⟨r, rfl, hr, hlive, fun _ h => h⟩

/-- The loop over the old buckets leaves nothing in those it has passed. -/
theorem moveBuckets_moves {k j : ℕ} (hm : m = 2 ^ k) (hroom : entries.card < m)
    (hr : Moving hashFunc n m entries r 0) (hj : j ≤ n) :
    ∃ r', (List.range j).foldlM (moveBucket hashFunc n m) r = .ok r' ∧
      Moving hashFunc n m entries r' 0 ∧ ∀ i < j, r'.oldFlags i ≠ .live := by
  induction j with
  | zero => exact ⟨r, rfl, hr, fun i hi => absurd hi (Nat.not_lt_zero i)⟩
  | succ j ih =>
    obtain ⟨r₁, hr₁, hmoved₁, hpassed₁⟩ := ih (by omega)
    obtain ⟨r₂, hr₂, hmoved₂, hgone, hmono⟩ := moveBucket_moves hm hroom hmoved₁ hj
    refine ⟨r₂, ?_, hmoved₂, ?_⟩
    · have hlast : (List.range (j + 1)).foldlM (moveBucket hashFunc n m) r =
          (List.range j).foldlM (moveBucket hashFunc n m) r >>= fun r => moveBucket hashFunc n m r j := by
        rw [List.range_succ, List.foldlM_append]
        simp only [List.foldlM_cons, List.foldlM_nil, bind_pure]
      rw [hlast, hr₁]
      exact hr₂
    · intro i hi
      by_cases hij : i = j
      · rwa [hij]
      · exact fun hlive => hpassed₁ i (by omega) (hmono i hlive)

theorem moving_start (hashFunc : K → BitVec 32) (h : KHash K V) (m : ℕ) : Moving hashFunc h.nBuckets m h.entries
    { oldFlags := h.flags, newFlags := fun _ => .empty, keys := h.keys, vals := h.vals } 0 := by
  refine ⟨fun _ _ _ => rfl, fun _ => nofun, fun _ => nofun, fun _ => nofun, ?_⟩
  rw [Multiset.add_zero]
  apply collect_congr
  · intro x
    simp only [Resizing.Holds]
    constructor
    · rintro ⟨-, ⟨hx, hlive⟩ | hnew⟩
      · exact ⟨hx, hlive⟩
      · cases hnew
    · rintro ⟨hx, hlive⟩
      exact ⟨by omega, .inl ⟨hx, hlive⟩⟩
  · exact fun _ _ _ => rfl

theorem Moving.finish (hr : Moving hashFunc n m entries r 0) (hgone : ∀ i < n, r.oldFlags i ≠ .live) :
    collect (fun i => r.newFlags i = .live) (fun i => (r.keys i, r.vals i)) m = entries := by
  rw [← hr.conserved, Multiset.add_zero]
  apply collect_congr
  · intro x
    simp only [Resizing.Holds]
    constructor
    · rintro ⟨hx, hlive⟩
      exact ⟨by omega, .inr hlive⟩
    · rintro ⟨-, ⟨hx, hold⟩ | hlive⟩
      · exact absurd hold (hgone x hx)
      · exact ⟨hr.within x hlive, hlive⟩
  · exact fun _ _ _ => rfl

/-- A table that is rehashed into arrays of the right size holds what it held. -/
theorem rehash_spec {h : KHash K V} (hw : h.WellFormed hashFunc) {k keysLen : ℕ} (hk : 2 ≤ k)
    (hk' : k ≤ 31) (hroom : h.size < 2 ^ k) (hkeys : 2 ^ k ≤ keysLen) :
    ∃ h', rehash hashFunc { h with keysLen := keysLen, valsLen := 2 ^ k } (2 ^ k) = .ok h' ∧
      h'.WellFormed hashFunc ∧ h'.entries = h.entries ∧ h'.nBuckets = 2 ^ k ∧ h'.size = h.size := by
  have hcard : h.entries.card < 2 ^ k := by rwa [card_entries, ← hw.size]
  obtain ⟨r, hloop, hr, hgone⟩ := moveBuckets_moves rfl hcard (moving_start hashFunc h (2 ^ k)) le_rfl
  have hsame := hr.finish hgone
  have hlive : ∀ i, r.newFlags i ≠ .empty ↔ r.newFlags i = .live := by
    intro i
    have hclean := hr.clean i
    cases hflag : r.newFlags i <;> simp_all
  have hsize : h.size = tally (· = .live) r.newFlags (2 ^ k) := by
    rw [hw.size, ← card_entries, ← hsame, card_collect]
    rfl
  have hoccupied : h.size = tally (· ≠ .empty) r.newFlags (2 ^ k) := by
    simp only [hsize, tally, hlive]
  let rehashed : KHash K V := {
    nBuckets := 2 ^ k
    size := h.size
    nOccupied := h.size
    upperBound := hashUpper (2 ^ k)
    flags := r.newFlags
    keys := r.keys
    vals := r.vals
    keysLen := keysLen
    valsLen := 2 ^ k }
  refine ⟨rehashed, ?_, ?_, hsame, rfl, rfl⟩
  · rw [rehash, hloop]
    rfl
  · refine ⟨.inr ⟨k, hk, hk', rfl⟩, hsize, hoccupied, rfl, ?_, ?_, hkeys, rfl⟩
    · apply nodup_keys.mp
      rw [show rehashed.entries = h.entries from hsame]
      exact nodup_keys.mpr hw.distinct
    · exact fun i _ hlive => hr.reaches i hlive

end KHash

end DistillerFS
