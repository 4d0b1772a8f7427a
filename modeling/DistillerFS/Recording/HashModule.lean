import DistillerFS.Foundations.Outcomes
import DistillerFS.Recording.Growth

/-!
# The hash module

`utils.c` over `khash.h`. Whatever is added, looked up and deleted, in any order, the
buckets answer as a finite map does, and no search in them goes on forever.
-/
namespace DistillerFS
open Foundations

namespace KHash
variable {K V : Type} (hashFunc : K → BitVec 32)

def del (h : KHash K V) (x : ℕ) : KHash K V :=
  if x ≠ h.nBuckets ∧ h.flags x = .live then
    { h with flags := Function.update h.flags x .deleted, size := h.size - 1 }
  else h

section Operations
variable [DecidableEq K]

/-- `Hash_SoftAdd`, which has the body of `Hash_Add`. -/
def hashSoftAdd (memory : ResizeMemory) (h : KHash K V) (key : Option K) (value : V) :
    Except Fault (KHash K V × List ℕ) := do
  let placed ← put hashFunc memory h key
  setValue placed.2 placed.1 value

/-- `Hash_Find`; the result is `none` where it returns NULL. -/
def hashFind (h : KHash K V) (key : K) : Except Fault (Option V) := do
  let k ← get hashFunc h key
  return if k ≠ h.nBuckets then some (h.vals k) else none

def hashDelete (h : KHash K V) (key : K) : Except Fault (KHash K V) := do
  let k ← get hashFunc h key
  return del h k

end Operations

section Present
variable {hashFunc} [DecidableEq K] {h : KHash K V} {key : K} {v w : V} {x : ℕ}

/-- `kh_put` comes to the bucket of a key that is in the table. -/
theorem chooseBucket_live (hw : h.WellFormed hashFunc) (hx : x < h.nBuckets)
    (hlive : h.flags x = .live) : chooseBucket hashFunc h (h.keys x) = .ok x := by
  obtain hzero | ⟨k, -, -, hn⟩ := hw.buckets
  · omega
  obtain ⟨s, hs, hslot, hgoes⟩ := (hw.reaches x hx hlive).exists_lt hn
  have hstart : (hashFunc (h.keys x)).toNat % 2 ^ k < 2 ^ k := Nat.mod_lt _ (Nat.two_pow_pos k)
  have hhome : h.flags (home hashFunc h.nBuckets (h.keys x)) ≠ .empty := by
    have hzero : probeSlot h.nBuckets (hashFunc (h.keys x)).toNat 0 =
        home hashFunc h.nBuckets (h.keys x) := by
      rw [home_eq_mod hn, hn]
      rfl
    by_cases hs0 : s = 0
    · rw [← hzero, ← hs0, hslot, hlive]
      exact nofun
    · rw [← hzero]
      exact hgoes 0 (by omega)
  have hends : h.endsAt (h.keys x) (probeSlot h.nBuckets (hashFunc (h.keys x)).toNat s) = true := by
    rw [hslot]
    exact endsAt_eq_true.mpr (.inr ⟨hlive, rfl⟩)
  have hpasses : ∀ t < s, h.endsAt (h.keys x)
      (probeSlot h.nBuckets (hashFunc (h.keys x)).toNat t) = false := by
    intro t ht
    rw [Bool.eq_false_iff]
    intro hends
    rcases endsAt_eq_true.mp hends with hempty | ⟨hlive', hkey⟩
    · exact hgoes t ht hempty
    · have hlt := probeSlot_lt (show 0 < h.nBuckets by omega) (hashFunc (h.keys x)).toNat t
      have hsame := hw.distinct _ hlt x hx hlive' hlive hkey
      rw [hn] at hsame hslot hs
      have heq := probeSlot_injOn _ (show t < 2 ^ k by omega) hs (hsame.trans hslot.symm)
      omega
  rw [chooseBucket, if_neg hhome, home_eq_mod hn]
  simp only [hn] at hs hslot hends hpasses ⊢
  rw [← probeSlot_mod] at hends
  rw [probe_stops hstart _ hs (by omega) hends
    (fun t ht => by rw [probeSlot_mod]; exact hpasses t ht) (.inr rfl)]
  rw [probeSlot_mod, hslot]
  simp only [hlive, reduceCtorEq, false_and, if_false]

theorem hashAdd_present {memory : ResizeMemory} (hw : h.WellFormed hashFunc)
    (hmemory : h.Grows → GrowthSucceeds memory h) (hfound : h.lookup key = some w) :
    ∃ h', hashAdd hashFunc memory h (some key) v = .ok (h', []) ∧ h'.WellFormed hashFunc ∧
      ∀ q, h'.lookup q = if q = key then some v else h.lookup q := by
  obtain ⟨t, hgrow, hw', hsame, -⟩ := grow_spec hw hmemory
  have hlookup := lookup_congr hw hw' hsame
  obtain ⟨x, hx, hlive, rfl, -⟩ := (lookup_eq_some hw').mp ((hlookup key).trans hfound)
  have hput : put hashFunc memory h (some (t.keys x)) = .ok (x, t) := by
    rw [put, hgrow]
    change (chooseBucket hashFunc t (t.keys x) >>= _) = _
    rw [chooseBucket_live hw' hx hlive]
    exact congrArg (fun t => Except.ok (_, t)) (occupy_live hlive)
  refine ⟨_, ?_, hw'.setVals (Function.update t.vals x v), fun q => ?_⟩
  · rw [hashAdd, hput]
    exact setValue_inside (by rwa [hw'.valsLen])
  · rw [lookup_setVal hw' hx hlive, hlookup]

theorem hashAdd_spec {memory : ResizeMemory} (hw : h.WellFormed hashFunc)
    (hmemory : h.Grows → GrowthSucceeds memory h) (hsize : h.size < 2 ^ 31) :
    ∃ h', hashAdd hashFunc memory h (some key) v = .ok (h', []) ∧ h'.WellFormed hashFunc ∧
      ∀ q, h'.lookup q = if q = key then some v else h.lookup q := by
  cases hfound : h.lookup key with
  | none => exact hashAdd_absent hw hmemory hsize hfound
  | some w => exact hashAdd_present hw hmemory hfound

theorem hashFind_eq (hw : h.WellFormed hashFunc) (key : K) :
    hashFind hashFunc h key = .ok (h.lookup key) := by
  rcases get_eq hw key with ⟨i, hi, -, -, hget, hlookup⟩ | ⟨hget, hnone⟩
  · rw [hashFind, hget, hlookup]
    exact congrArg Except.ok (if_pos hi.ne)
  · rw [hashFind, hget, hnone]
    exact congrArg Except.ok (if_neg (fun h => h rfl))

omit [DecidableEq K] in
theorem del_live (hx : x < h.nBuckets) (hlive : h.flags x = .live) : del h x =
    { h with flags := Function.update h.flags x .deleted, size := h.size - 1 } :=
  if_pos ⟨hx.ne, hlive⟩

omit [DecidableEq K] in
/-- A deleted bucket still lets the searches pass. -/
theorem del_wellFormed (hw : h.WellFormed hashFunc) (hx : x < h.nBuckets) (hlive : h.flags x = .live) :
    (del h x).WellFormed hashFunc := by
  have hpassed : ∀ j, h.flags j ≠ .empty → Function.update h.flags x .deleted j ≠ .empty := by
    intro j hj
    by_cases hjx : j = x
    · simp [hjx]
    · rwa [Function.update_of_ne hjx]
  have hother : ∀ i, Function.update h.flags x .deleted i = .live → i ≠ x ∧ h.flags i = .live := by
    intro i hi
    by_cases hix : i = x
    · simp [hix] at hi
    · exact ⟨hix, by rwa [Function.update_of_ne hix] at hi⟩
  rw [del_live hx hlive]
  refine ⟨hw.buckets, ?_, ?_, hw.upperBound, ?_, ?_, hw.keysLen, hw.valsLen⟩
  · have hlose : tally (· = .live) (Function.update h.flags x .deleted) h.nBuckets + 1 =
        tally (· = .live) h.flags h.nBuckets := tally_lose hx hlive (by simp)
    have hsize := hw.size
    change h.size - 1 = tally (· = .live) (Function.update h.flags x .deleted) h.nBuckets
    omega
  · have hkeep : tally (· ≠ .empty) (Function.update h.flags x .deleted) h.nBuckets =
        tally (· ≠ .empty) h.flags h.nBuckets := tally_keep (by simp [hlive])
    exact hw.nOccupied.trans hkeep.symm
  · intro i hi j hj hi' hj' hkeys
    exact hw.distinct i hi j hj (hother i hi').2 (hother j hj').2 hkeys
  · intro i hi hi'
    exact (hw.reaches i hi (hother i hi').2).mono hpassed

/-- The key of a deleted bucket is gone, and every other key is where it was. -/
theorem lookup_del (hw : h.WellFormed hashFunc) (hx : x < h.nBuckets) (hlive : h.flags x = .live)
    (q : K) : (del h x).lookup q = if q = h.keys x then none else h.lookup q := by
  have hw' := del_wellFormed hw hx hlive
  rw [del_live hx hlive] at hw' ⊢
  ext v
  rw [lookup_eq_some hw']
  by_cases hq : q = h.keys x
  · rw [if_pos hq]
    simp only [reduceCtorEq, iff_false]
    rintro ⟨i, hi, hi', hkey, -⟩
    by_cases hix : i = x
    · simp [hix] at hi'
    · rw [Function.update_of_ne hix] at hi'
      exact hix (hw.distinct i hi x hx hi' hlive (hkey.trans hq))
  · rw [if_neg hq, lookup_eq_some hw]
    refine exists_congr fun i => and_congr_right fun _ => ?_
    by_cases hix : i = x
    · subst hix
      simp [Ne.symm hq]
    · simp only [Function.update_of_ne hix]

theorem hashDelete_spec (hw : h.WellFormed hashFunc) (key : K) :
    ∃ h', hashDelete hashFunc h key = .ok h' ∧ h'.WellFormed hashFunc ∧
      ∀ q, h'.lookup q = if q = key then none else h.lookup q := by
  rcases get_eq hw key with ⟨i, hi, hlive, rfl, hget, -⟩ | ⟨hget, hnone⟩
  · refine ⟨del h i, ?_, del_wellFormed hw hi hlive, lookup_del hw hi hlive⟩
    rw [hashDelete, hget]
    rfl
  · refine ⟨h, ?_, hw, fun q => ?_⟩
    · rw [hashDelete, hget]
      exact congrArg Except.ok (if_neg (fun h => h.1 rfl))
    · by_cases hq : q = key
      · rw [if_pos hq, hq, hnone]
      · rw [if_neg hq]

end Present

end KHash

inductive HashCall (K V : Type) where
  | add (key : K) (value : V)
  | softAdd (key : K) (value : V)
  | find (key : K)
  | delete (key : K)
  deriving DecidableEq, Repr

/-- The table between two calls, what the lookups have found so far, and the places past the
end of the values that were written to. -/
structure HashState (K V : Type) where
  table : KHash K V
  found : List (Option V)
  outside : List ℕ

section Calls
variable {K V : Type} [DecidableEq K] (hashFunc : K → BitVec 32)

def HashCall.exec (memory : ResizeMemory) (s : HashState K V) :
    HashCall K V → Except Fault (HashState K V)
  | .add key value => do
    let added ← KHash.hashAdd hashFunc memory s.table (some key) value
    return { s with table := added.1, outside := s.outside ++ added.2 }
  | .softAdd key value => do
    let added ← KHash.hashSoftAdd hashFunc memory s.table (some key) value
    return { s with table := added.1, outside := s.outside ++ added.2 }
  | .find key => do
    let value ← KHash.hashFind hashFunc s.table key
    return { s with found := s.found ++ [value] }
  | .delete key => do
    let table ← KHash.hashDelete hashFunc s.table key
    return { s with table := table }

/-- `Hash_New`, which does not use the size it is given. -/
def HashState.new [Inhabited K] [Inhabited V] : HashState K V := ⟨KHash.init, [], []⟩

/-- What the call is for, on a finite map and the answers so far. -/
def HashCall.meaning (m : Finmap (fun _ : K => V) × List (Option V)) :
    HashCall K V → Finmap (fun _ : K => V) × List (Option V)
  | .add key value => (m.1.insert key value, m.2)
  | .softAdd key value => (m.1.insert key value, m.2)
  | .find key => (m.1, m.2 ++ [m.1.lookup key])
  | .delete key => (m.1.erase key, m.2)

/-- The call may put a key into the table. -/
def HashCall.adds : HashCall K V → Bool
  | .add .. | .softAdd .. => true
  | .find _ | .delete _ => false

/-- The buckets are those of the map, the answers are the same, and nothing was written
outside. -/
structure Implements (m : Finmap (fun _ : K => V) × List (Option V)) (s : HashState K V) : Prop where
  wellFormed : s.table.WellFormed hashFunc
  lookup : ∀ q, s.table.lookup q = m.1.lookup q
  found : s.found = m.2
  inside : s.outside = []

variable {hashFunc} {m : Finmap (fun _ : K => V) × List (Option V)} {s : HashState K V}

theorem Implements.add (hi : Implements hashFunc m s) {memory : ResizeMemory} {key : K} {value : V}
    (hmemory : s.table.Grows → s.table.GrowthSucceeds memory) (hsize : s.table.size < 2 ^ 31) :
    ∃ s', (HashCall.add key value).exec hashFunc memory s = .ok s' ∧
      Implements hashFunc ((HashCall.add key value).meaning m) s' := by
  obtain ⟨h, hadd, hw, hlookup⟩ := @KHash.hashAdd_spec _ _ hashFunc _ _ key value _ hi.wellFormed
    hmemory hsize
  refine ⟨{ s with table := h, outside := s.outside ++ [] }, ?_, hw, ?_, hi.found, ?_⟩
  · rw [HashCall.exec, hadd]
    rfl
  · intro q
    rw [hlookup, hi.lookup]
    by_cases hq : q = key
    · rw [if_pos hq, hq]
      exact (Finmap.lookup_insert m.1).symm
    · rw [if_neg hq]
      exact (Finmap.lookup_insert_of_ne m.1 hq).symm
  · exact (List.append_nil _).trans hi.inside

theorem Implements.delete (hi : Implements hashFunc m s) (memory : ResizeMemory) (key : K) :
    ∃ s', (HashCall.delete key : HashCall K V).exec hashFunc memory s = .ok s' ∧
      Implements hashFunc ((HashCall.delete key).meaning m) s' := by
  obtain ⟨h, hdelete, hw, hlookup⟩ := KHash.hashDelete_spec hi.wellFormed key
  refine ⟨{ s with table := h }, ?_, hw, ?_, hi.found, hi.inside⟩
  · rw [HashCall.exec, hdelete]
    rfl
  · intro q
    rw [hlookup, hi.lookup]
    by_cases hq : q = key
    · rw [if_pos hq, hq]
      exact (Finmap.lookup_erase key m.1).symm
    · rw [if_neg hq]
      exact (Finmap.lookup_erase_ne hq).symm

theorem Implements.find (hi : Implements hashFunc m s) (memory : ResizeMemory) (key : K) :
    ∃ s', (HashCall.find key : HashCall K V).exec hashFunc memory s = .ok s' ∧
      Implements hashFunc ((HashCall.find key).meaning m) s' := by
  refine ⟨{ s with found := s.found ++ [s.table.lookup key] }, ?_, hi.wellFormed, hi.lookup, ?_, hi.inside⟩
  · rw [HashCall.exec, KHash.hashFind_eq hi.wellFormed]
    rfl
  · change s.found ++ [s.table.lookup key] = m.2 ++ [m.1.lookup key]
    rw [hi.found, hi.lookup]

theorem Implements.exec (hi : Implements hashFunc m s) (c : HashCall K V) {memory : ResizeMemory}
    (hmemory : c.adds = true → s.table.Grows → s.table.GrowthSucceeds memory)
    (hsize : c.adds = true → s.table.size < 2 ^ 31) :
    ∃ s', c.exec hashFunc memory s = .ok s' ∧ Implements hashFunc (c.meaning m) s' := by
  cases c with
  | add key value => exact hi.add (hmemory rfl) (hsize rfl)
  | softAdd key value => exact hi.add (hmemory rfl) (hsize rfl)
  | find key => exact hi.find memory key
  | delete key => exact hi.delete memory key

variable [Inhabited K] [Inhabited V]

end Calls

end DistillerFS
