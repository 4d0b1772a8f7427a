import DistillerFS.Recording.AccessTable
import DistillerFS.Recording.Growth

/-!
# `Store_In_Hash` over the khash table

The critical section down to its buckets and its allocations. Where the allocations that it
needs succeed, it does to the buckets what `storeInHash` does to the access table.
-/
namespace DistillerFS

abbrev LogTable := KHash CString LfsCount

instance : Inhabited LfsCount := ⟨{ path := [], count := 0, flags := 0 }⟩

structure Allocations where
  item : Bool
  path : Bool
  table : ResizeMemory
  deriving DecidableEq, Repr

/-- `(khint_t)*s`, where `char` is signed. -/
def khintOfChar (c : Char) : BitVec 32 := (BitVec.ofNat 8 c.toNat).signExtend 32

def acX31HashString : CString → BitVec 32
  | [] => 0
  | c :: s => s.foldl (fun h c => (h <<< 5) - h + khintOfChar c) (khintOfChar c)

variable (hashFunc : CString → BitVec 32)

/-- `Hash_Find`: the bucket of the item, or none where it returns NULL. -/
def hashFindAt (t : LogTable) (key : CString) : Except Fault (Option ℕ) := do
  let k ← KHash.get hashFunc t key
  return if k ≠ t.nBuckets then some k else none

/-- What a call leaves behind. `outside` has the places past the end of the array of the
values where it has written. -/
structure Stored where
  rc : BitVec 32
  table : LogTable
  mutexHeld : Bool
  outside : List ℕ

/-- What `Store_In_Hash` does under the mutex. The result of neither allocation is looked
at: the item is written through, and the copy of the path is the key. -/
def underMutex (alloc : Allocations) (path : CString) (flag : BitVec 32) (s : Stored) :
    Except Fault Stored := do
  match ← hashFindAt hashFunc s.table path with
  | none =>
    if alloc.item = false then .error .nullPointer
    else
      let copy := if alloc.path then some path else none
      let item : LfsCount := { path := copy.getD [], count := 1, flags := flag }
      let added ← KHash.hashAdd hashFunc alloc.table s.table copy item
      return { s with rc := item.count, table := added.1, outside := added.2 }
  | some k =>
    let found := s.table.vals k
    let item := { found with count := found.count + 1, flags := found.flags ||| flag }
    let table := { s.table with vals := Function.update s.table.vals k item }
    return { s with rc := item.count, table := table }

def storeInHashAt (alloc : Allocations) (t : LogTable) (filter : FilterDesc)
    (path : Option CString) (flag : BitVec 32) : Except Fault Stored :=
  let rejected : Stored := { rc := 0, table := t, mutexHeld := false, outside := [] }
  match path with
  | none => .ok rejected
  | some path =>
    if isIncluded path filter.includePath ≠ true then .ok rejected
    else if isExcluded path filter.excludePath = true then .ok rejected
    else do
      let s ← underMutex hashFunc alloc path flag { rejected with mutexHeld := true }
      return { s with mutexHeld := false }

/-- The call needs no allocation that fails, and the table is not full. -/
def AllocationsSuffice (alloc : Allocations) (t : LogTable) (filter : FilterDesc)
    (path : Option CString) : Prop :=
  ∀ p, path = some p → filter.admits p = true → t.lookup p = none →
    alloc.item = true ∧ alloc.path = true ∧ t.size < 2 ^ 31 ∧
      (t.Grows → t.GrowthSucceeds alloc.table)

variable {hashFunc} {t : LogTable} {alloc : Allocations} {filter : FilterDesc} {flag : BitVec 32}

theorem storeInHashAt_rejected {path : Option CString}
    (hr : ∀ p, path = some p → filter.admits p = false) :
    storeInHashAt hashFunc alloc t filter path flag =
      .ok { rc := 0, table := t, mutexHeld := false, outside := [] } := by
  cases path with
  | none => rfl
  | some p =>
    have hp : (isIncluded p filter.includePath && !isExcluded p filter.excludePath) = false := hr p rfl
    unfold storeInHashAt
    by_cases hi : isIncluded p filter.includePath = true
    · have he : isExcluded p filter.excludePath = true := by simpa [hi] using hp
      simp only [hi, he, ne_eq, not_true_eq_false, if_false, if_true]
    · exact if_pos hi

theorem storeInHashAt_admitted {p : CString} (ha : filter.admits p = true) :
    storeInHashAt hashFunc alloc t filter (some p) flag =
      (underMutex hashFunc alloc p flag { rc := 0, table := t, mutexHeld := true, outside := [] }).map
        (fun s => { s with mutexHeld := false }) := by
  have hp : (isIncluded p filter.includePath && !isExcluded p filter.excludePath) = true := ha
  rw [Bool.and_eq_true, Bool.not_eq_true'] at hp
  unfold storeInHashAt
  simp only [hp.1, hp.2, ne_eq, not_true_eq_false, if_false, Bool.false_eq_true]
  rfl

section Find
variable (hw : t.WellFormed hashFunc)
include hw

theorem hashFindAt_found {key : CString} {e : LfsCount} (hfound : t.lookup key = some e) :
    ∃ k < t.nBuckets, t.flags k = .live ∧ t.keys k = key ∧ t.vals k = e ∧
      hashFindAt hashFunc t key = .ok (some k) := by
  rcases KHash.get_eq hw key with ⟨k, hk, hlive, hkey, hget, hlookup⟩ | ⟨-, hnone⟩
  · rw [hfound] at hlookup
    refine ⟨k, hk, hlive, hkey, (Option.some.inj hlookup).symm, ?_⟩
    rw [hashFindAt, hget]
    exact congrArg Except.ok (if_pos hk.ne)
  · rw [hfound] at hnone
    cases hnone

theorem hashFindAt_absent {key : CString} (hnone : t.lookup key = none) :
    hashFindAt hashFunc t key = .ok none := by
  rw [hashFindAt, KHash.get_absent hw hnone]
  exact congrArg Except.ok (if_neg (fun h => h rfl))

end Find

/-- The table has the event as the access table would have it. -/
structure Recorded (hashFunc : CString → BitVec 32) (t : LogTable) (p : CString) (flag : BitVec 32)
    (s : Stored) : Prop where
  rc : s.rc = (bump (t.lookup p) p flag).count
  lookup : ∀ q, s.table.lookup q = if q = p then some (bump (t.lookup p) p flag) else t.lookup q
  unlocked : s.mutexHeld = false
  inside : s.outside = []
  wellFormed : s.table.WellFormed hashFunc

section Admitted
variable {p : CString} (hw : t.WellFormed hashFunc) (ha : filter.admits p = true)
include hw ha

theorem storeInHashAt_found {e : LfsCount} (hfound : t.lookup p = some e) :
    ∃ s, storeInHashAt hashFunc alloc t filter (some p) flag = .ok s ∧ Recorded hashFunc t p flag s := by
  obtain ⟨k, hk, hlive, rfl, rfl, hfind⟩ := hashFindAt_found hw hfound
  rw [storeInHashAt_admitted ha, underMutex, hfind]
  refine ⟨_, rfl, ?_, fun q => ?_, rfl, rfl, hw.setVals _⟩
  · rw [hfound]
    rfl
  · rw [hfound]
    exact KHash.lookup_setVal hw hk hlive _ q

theorem storeInHashAt_absent (hnone : t.lookup p = none) (hitem : alloc.item = true) :
    storeInHashAt hashFunc alloc t filter (some p) flag =
      (KHash.hashAdd hashFunc alloc.table t (if alloc.path then some p else none)
        { path := (if alloc.path then some p else none).getD [], count := 1, flags := flag }).map
        (fun added => { rc := 1, table := added.1, mutexHeld := false, outside := added.2 }) := by
  rw [storeInHashAt_admitted ha, underMutex, hashFindAt_absent hw hnone]
  change Except.map _ (if alloc.item = false then _ else _) = _
  rw [if_neg (by simp [hitem])]
  cases KHash.hashAdd hashFunc alloc.table t (if alloc.path then some p else none)
    { path := (if alloc.path then some p else none).getD [], count := 1, flags := flag } <;> rfl

theorem storeInHashAt_records (hsuffice : AllocationsSuffice alloc t filter (some p)) :
    ∃ s, storeInHashAt hashFunc alloc t filter (some p) flag = .ok s ∧ Recorded hashFunc t p flag s := by
  cases hfound : t.lookup p with
  | some e => exact storeInHashAt_found hw ha hfound
  | none =>
    obtain ⟨hitem, hpath, hsize, hgrowth⟩ := hsuffice p rfl ha hfound
    obtain ⟨t', hadd, hw', hlookup⟩ := @KHash.hashAdd_absent _ _ hashFunc t alloc.table _ p
      { path := p, count := 1, flags := flag } hw hgrowth hsize hfound
    rw [storeInHashAt_absent hw ha hfound hitem, if_pos hpath]
    refine ⟨_, congrArg _ hadd, ?_, ?_, rfl, rfl, hw'⟩
    · rw [hfound]
      rfl
    · rw [hfound]
      exact hlookup

theorem storeInHashAt_noItem (hnone : t.lookup p = none) (hitem : alloc.item = false) :
    storeInHashAt hashFunc alloc t filter (some p) flag = .error .nullPointer := by
  rw [storeInHashAt_admitted ha, underMutex, hashFindAt_absent hw hnone]
  change Except.map _ (if alloc.item = false then _ else _) = _
  rw [if_pos hitem]
  rfl

/-- Without memory for a growth, the call writes past the end of the array of the values, or
through no array at all. -/
theorem storeInHashAt_noGrowth (hnone : t.lookup p = none) (hitem : alloc.item = true)
    (hgrows : t.Grows) (hfails : ¬ t.GrowthSucceeds alloc.table) : ∃ keysLen, t.nBuckets ≤ keysLen ∧
      storeInHashAt hashFunc alloc t filter (some p) flag =
        if t.nBuckets = 0 then .error .nullPointer
        else .ok { rc := 1, table := { t with keysLen := keysLen }, mutexHeld := false,
                   outside := [t.nBuckets] } := by
  obtain ⟨keysLen, hle, hadd⟩ := @KHash.hashAdd_growth_fails _ _ hashFunc t alloc.table _
    { path := (if alloc.path then some p else none).getD [], count := 1, flags := flag } hw hgrows
    hfails (if alloc.path then some p else none)
  refine ⟨keysLen, hle, ?_⟩
  rw [storeInHashAt_absent hw ha hnone hitem, hadd]
  by_cases hzero : t.nBuckets = 0
  · rw [if_pos hzero, if_pos hzero]
    rfl
  · rw [if_neg hzero, if_neg hzero]
    rfl

/-- The key NULL does not survive the hash function. -/
theorem storeInHashAt_noPath (hnone : t.lookup p = none) (hitem : alloc.item = true)
    (hpath : alloc.path = false) (hgrowth : t.Grows → t.GrowthSucceeds alloc.table) :
    storeInHashAt hashFunc alloc t filter (some p) flag = .error .nullPointer := by
  rw [storeInHashAt_absent hw ha hnone hitem, if_neg (by simp [hpath]),
    KHash.hashAdd_null hw hgrowth]
  rfl

/-- A full table returns the count 1 for an event that it does not have. -/
theorem storeInHashAt_full (hnone : t.lookup p = none) (hitem : alloc.item = true)
    (hpath : alloc.path = true) (hsize : 2 ^ 31 ≤ t.size) :
    ∃ s, storeInHashAt hashFunc alloc t filter (some p) flag = .ok s ∧ s.rc = 1 ∧
      s.table.lookup p = none ∧ s.table.WellFormed hashFunc := by
  obtain ⟨x, hx, hlive, hadd⟩ := @KHash.hashAdd_full _ _ hashFunc t alloc.table _ p
    { path := p, count := 1, flags := flag } hw hsize hnone
  rw [storeInHashAt_absent hw ha hnone hitem, if_pos hpath]
  refine ⟨_, congrArg _ hadd, rfl, ?_, hw.setVals _⟩
  rw [KHash.lookup_setVal hw hx hlive, if_neg, hnone]
  exact fun h => KHash.lookup_eq_none.mp hnone x hx hlive h.symm

/-- A call that needs an allocation that fails, or finds the table full, stops the program or
returns the count of an event that it does not have. -/
theorem storeInHashAt_fails (hfails : ¬ AllocationsSuffice alloc t filter (some p)) :
    storeInHashAt hashFunc alloc t filter (some p) flag = .error .nullPointer ∨
    ∃ s, storeInHashAt hashFunc alloc t filter (some p) flag = .ok s ∧ s.rc = 1 ∧
      s.table.lookup p = none ∧ s.table.WellFormed hashFunc := by
  have hnone : t.lookup p = none := by
    by_contra hfound
    apply hfails
    intro q hq _ hnone
    rw [← Option.some.inj hq] at hnone
    exact absurd hnone hfound
  cases hitem : alloc.item with
  | false => exact .inl (storeInHashAt_noItem hw ha hnone hitem)
  | true =>
    by_cases hgrowth : t.Grows → t.GrowthSucceeds alloc.table
    · cases hpath : alloc.path with
      | false => exact .inl (storeInHashAt_noPath hw ha hnone hitem hpath hgrowth)
      | true =>
        have hsize : 2 ^ 31 ≤ t.size := by
          by_contra hsmall
          exact hfails (fun _ _ _ _ => ⟨hitem, hpath, by omega, hgrowth⟩)
        exact .inr (storeInHashAt_full hw ha hnone hitem hpath hsize)
    · obtain ⟨hgrows, hfails⟩ := Classical.not_imp.mp hgrowth
      obtain ⟨keysLen, hle, hstored⟩ :=
        @storeInHashAt_noGrowth _ _ _ _ flag _ hw ha hnone hitem hgrows hfails
      by_cases hzero : t.nBuckets = 0
      · rw [if_pos hzero] at hstored
        exact .inl hstored
      · rw [if_neg hzero] at hstored
        exact .inr ⟨_, hstored, rfl, hnone, hw.setKeysLen hle⟩

end Admitted

theorem storeInHashAt_wellFormed (hw : t.WellFormed hashFunc) {path : Option CString} {s : Stored}
    (hs : storeInHashAt hashFunc alloc t filter path flag = .ok s) : s.table.WellFormed hashFunc := by
  rcases filter.admits_or_rejects path with ⟨p, rfl, ha⟩ | hrejected
  · by_cases hsuffice : AllocationsSuffice alloc t filter (some p)
    · obtain ⟨s', hs', hrecorded⟩ := @storeInHashAt_records _ _ _ _ flag _ hw ha hsuffice
      rw [Except.ok.inj (hs.symm.trans hs')]
      exact hrecorded.wellFormed
    · rcases @storeInHashAt_fails _ _ _ _ flag _ hw ha hsuffice with herror | ⟨s', hs', -, -, hw'⟩
      · rw [herror] at hs
        cases hs
      · rw [Except.ok.inj (hs.symm.trans hs')]
        exact hw'
  · rw [storeInHashAt_rejected hrejected] at hs
    rw [← Except.ok.inj hs]
    exact hw

/-- The calls of a history, each with the memory it finds. -/
def recordAllAt (hashFunc : CString → BitVec 32) (filter : FilterDesc)
    (es : List (Event × Allocations)) : Except Fault LogTable :=
  es.foldlM (fun t e => (storeInHashAt hashFunc e.2 t filter e.1.path e.1.flag).map Stored.table)
    KHash.init

theorem recordAllAt_concat (es : List (Event × Allocations)) (e : Event × Allocations) :
    recordAllAt hashFunc filter (es ++ [e]) = recordAllAt hashFunc filter es >>= fun t =>
      (storeInHashAt hashFunc e.2 t filter e.1.path e.1.flag).map Stored.table := by
  rw [recordAllAt, List.foldlM_append]
  simp only [List.foldlM_cons, List.foldlM_nil, bind_pure]
  rfl

/-- Every table that the program comes to is in order. -/
theorem recordAllAt_wellFormed {es : List (Event × Allocations)}
    (ht : recordAllAt hashFunc filter es = .ok t) : t.WellFormed hashFunc := by
  induction es using List.reverseRecOn generalizing t with
  | nil =>
    rw [← Except.ok.inj ht]
    exact KHash.wellFormed_init hashFunc
  | append_singleton es e ih =>
    rw [recordAllAt_concat] at ht
    cases hbefore : recordAllAt hashFunc filter es with
    | error fault =>
      rw [hbefore] at ht
      cases ht
    | ok before =>
      rw [hbefore] at ht
      change Except.map _ (storeInHashAt hashFunc e.2 before filter e.1.path e.1.flag) = _ at ht
      cases hs : storeInHashAt hashFunc e.2 before filter e.1.path e.1.flag with
      | error fault =>
        rw [hs] at ht
        cases ht
      | ok s =>
        rw [hs] at ht
        rw [← Except.ok.inj ht]
        exact storeInHashAt_wellFormed (ih hbefore) hs

/-- The buckets hold the entries of the access table. -/
structure Represents (hashFunc : CString → BitVec 32) (t : LogTable) (h : Hash) : Prop where
  wellFormed : t.WellFormed hashFunc
  lookup : ∀ q, t.lookup q = h.lookup q

theorem represents_init : Represents hashFunc KHash.init ∅ :=
  ⟨KHash.wellFormed_init hashFunc, fun _ => rfl⟩

/-- One call refines the step of the access table. -/
theorem Represents.storeInHash {h : Hash} (hr : Represents hashFunc t h) {path : Option CString}
    (hsuffice : AllocationsSuffice alloc t filter path) :
    ∃ s, storeInHashAt hashFunc alloc t filter path flag = .ok s ∧
      s.rc = (storeInHash h filter path flag).1 ∧
      Represents hashFunc s.table (storeInHash h filter path flag).2 := by
  rcases filter.admits_or_rejects path with ⟨p, rfl, ha⟩ | hrejected
  · obtain ⟨s, hs, hrecorded⟩ := @storeInHashAt_records _ _ _ _ flag _ hr.wellFormed ha hsuffice
    refine ⟨s, hs, ?_, hrecorded.wellFormed, fun q => ?_⟩
    · rw [hrecorded.rc, hr.lookup, storeInHash_admitted ha]
    · rw [hrecorded.lookup, hr.lookup, hr.lookup, storeInHash_admitted ha]
      by_cases hq : q = p
      · rw [if_pos hq, hq, Finmap.lookup_insert]
      · rw [if_neg hq, Finmap.lookup_insert_of_ne _ hq]
  · rw [storeInHashAt_rejected hrejected, storeInHash_rejected hrejected]
    exact ⟨_, rfl, rfl, hr⟩

theorem Represents.size_eq {h : Hash} (hr : Represents hashFunc t h) : t.size = h.keys.card :=
  KHash.size_eq_card_keys hr.wellFormed hr.lookup

theorem card_keys_record_le (filter : FilterDesc) (h : Hash) (e : Event) :
    (record filter h e).keys.card ≤ h.keys.card + 1 := by
  rcases filter.admits_or_rejects e.path with ⟨p, hp, ha⟩ | hrejected
  · have hkeys : (record filter h e).keys ⊆ insert p h.keys := by
      intro q hq
      rw [record, hp, storeInHash_admitted ha, Finmap.mem_keys, Finmap.mem_insert] at hq
      rwa [Finset.mem_insert, Finmap.mem_keys]
    exact (Finset.card_le_card hkeys).trans (Finset.card_insert_le ..)
  · rw [record, storeInHash_rejected hrejected]
    exact Nat.le_succ _

theorem card_keys_recordAll_le (filter : FilterDesc) (es : List Event) :
    (recordAll filter es).keys.card ≤ es.length := by
  induction es using List.reverseRecOn with
  | nil => rfl
  | append_singleton es e ih =>
    rw [recordAll_concat, List.length_append, List.length_singleton]
    exact (card_keys_record_le ..).trans (Nat.succ_le_succ ih)

def Allocations.ample : Allocations :=
  { item := true, path := true, table := { newFlags := true, newKeys := true, newVals := true } }

/-- Refinement: with ample memory, the buckets of every history of up to 2^31 events hold the
access table of that history. -/
theorem recordAllAt_represents {es : List Event} (hlength : es.length ≤ 2 ^ 31) :
    ∃ t, recordAllAt hashFunc filter (es.map (fun e => (e, .ample))) = .ok t ∧
      Represents hashFunc t (recordAll filter es) := by
  induction es using List.reverseRecOn with
  | nil => exact ⟨_, rfl, represents_init⟩
  | append_singleton es e ih =>
    rw [List.length_append, List.length_singleton] at hlength
    obtain ⟨t, ht, hr⟩ := ih (by omega)
    have hsize : t.size < 2 ^ 31 := by
      have hcard := card_keys_recordAll_le filter es
      rw [hr.size_eq]
      omega
    obtain ⟨s, hs, -, hr'⟩ := @Represents.storeInHash _ _ .ample filter e.flag _ hr e.path
      (fun _ _ _ _ => ⟨rfl, rfl, hsize, fun _ => ⟨rfl, fun _ => ⟨rfl, rfl⟩⟩⟩)
    refine ⟨s.table, ?_, ?_⟩
    · rw [List.map_append, List.map_singleton, recordAllAt_concat, ht]
      change Except.map _ (storeInHashAt hashFunc .ample t filter e.path e.flag) = _
      rw [hs]
      rfl
    · rw [recordAll_concat]
      exact hr'

end DistillerFS
