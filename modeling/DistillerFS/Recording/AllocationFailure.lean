import DistillerFS.Recording.StoreInHash

/-!
# Recording without memory

A call of `Store_In_Hash` for which memory runs out should record its event or change
nothing and return 0. It does so only where it never asks for that memory: neither the item
nor the copy of the path nor the result of `kh_put` is looked at.
-/
namespace DistillerFS

/-- The event is recorded as it is where no allocation fails. -/
def LeavesRecorded (t : LogTable) (filter : FilterDesc) (path : Option CString) (flag : BitVec 32)
    (s : Stored) : Prop :=
  ∃ p, path = some p ∧ filter.admits p = true ∧ s.rc = (bump (t.lookup p) p flag).count ∧
    ∀ q, s.table.lookup q = if q = p then some (bump (t.lookup p) p flag) else t.lookup q

def LeavesAlone (t : LogTable) (s : Stored) : Prop := s.rc = 0 ∧ ∀ q, s.table.lookup q = t.lookup q

/-- The table has the event under its path, with the count that is returned. -/
def HasEvent (path : Option CString) (flag : BitVec 32) (s : Stored) : Prop :=
  ∃ p e, path = some p ∧ s.table.lookup p = some e ∧ e.count = s.rc ∧ e.flags &&& flag = flag

structure Survives (t : LogTable) (filter : FilterDesc) (path : Option CString) (flag : BitVec 32)
    (s : Stored) : Prop where
  outcome : LeavesRecorded t filter path flag s ∨ LeavesAlone t s
  inside : s.outside = []
  unlocked : s.mutexHeld = false
  positive : 0 < s.rc.toInt → HasEvent path flag s

/-- The call comes back, and what it leaves is in order. -/
def SurvivesFailure (hashFunc : CString → BitVec 32) (alloc : Allocations) (t : LogTable)
    (filter : FilterDesc) (path : Option CString) (flag : BitVec 32) : Prop :=
  ∃ s, storeInHashAt hashFunc alloc t filter path flag = .ok s ∧ Survives t filter path flag s

theorem bump_flags (found : Option LfsCount) (p : CString) (flag : BitVec 32) :
    (bump found p flag).flags &&& flag = flag := by
  cases found with
  | none => exact BitVec.and_self
  | some e =>
    ext i hi
    simpa [bump] using Or.inr

variable {hashFunc : CString → BitVec 32} {t : LogTable} {filter : FilterDesc} {p : CString}
  {flag : BitVec 32} {s : Stored}

theorem Recorded.survives (hr : Recorded hashFunc t p flag s) (ha : filter.admits p = true) :
    Survives t filter (some p) flag s where
  outcome := .inl ⟨p, rfl, ha, hr.rc, hr.lookup⟩
  inside := hr.inside
  unlocked := hr.unlocked
  positive := by
    intro _
    refine ⟨p, bump (t.lookup p) p flag, rfl, ?_, hr.rc.symm, bump_flags ..⟩
    rw [hr.lookup, if_pos rfl]

theorem survives_rejected (filter : FilterDesc) (path : Option CString) :
    Survives t filter path flag { rc := 0, table := t, mutexHeld := false, outside := [] } where
  outcome := .inr ⟨rfl, fun _ => rfl⟩
  inside := rfl
  unlocked := rfl
  positive := by simp

theorem not_survives (hrc : s.rc = 1) (hnone : s.table.lookup p = none) :
    ¬ Survives t filter (some p) flag s := by
  intro hs
  obtain ⟨q, e, hq, he, -⟩ := hs.positive (by rw [hrc]; decide)
  rw [← Option.some.inj hq, hnone] at he
  cases he

/-- A call keeps the table and the promise of its result in exactly the cases in which it
does not need memory that it does not get, and the table is not full. -/
theorem survivesFailure_iff (hashFunc : CString → BitVec 32) (alloc : Allocations)
    (t : {t : LogTable // t.WellFormed hashFunc}) (filter : FilterDesc) (path : Option CString)
    (flag : BitVec 32) : SurvivesFailure hashFunc alloc t.val filter path flag ↔
      AllocationsSuffice alloc t.val filter path := by
  obtain ⟨t, hw⟩ := t
  rcases filter.admits_or_rejects path with ⟨p, rfl, ha⟩ | hrejected
  · constructor
    · rintro ⟨s, hs, hsurvives⟩
      by_contra hfails
      rcases @storeInHashAt_fails _ _ _ _ flag _ hw ha hfails with herror | ⟨s', hs', hrc, hnone, -⟩
      · rw [herror] at hs
        cases hs
      · rw [Except.ok.inj (hs.symm.trans hs')] at hsurvives
        exact not_survives hrc hnone hsurvives
    · intro hsuffice
      obtain ⟨s, hs, hrecorded⟩ := @storeInHashAt_records _ _ _ _ flag _ hw ha hsuffice
      exact ⟨s, hs, hrecorded.survives ha⟩
  · constructor
    · intro _ p hp ha
      rw [hrejected p hp] at ha
      cases ha
    · intro _
      exact ⟨_, storeInHashAt_rejected hrejected, survives_rejected filter path⟩

/-- A history of three paths fills the first four buckets as far as they may be filled.
Without memory for eight, the fourth path is counted, and its item is written behind them. -/
theorem survivesFailure_fails : ∃ t,
    recordAllAt acX31HashString { excludePath := [], includePath := [] }
      [(⟨some "/a".toList, 1⟩, .ample), (⟨some "/b".toList, 1⟩, .ample),
        (⟨some "/c".toList, 1⟩, .ample)] = .ok t ∧
    ¬ SurvivesFailure acX31HashString
      { item := true, path := true, table := { newFlags := false, newKeys := false, newVals := false } }
      t { excludePath := [], includePath := [] } (some "/d".toList) 1 := by
  refine ⟨_, rfl, ?_⟩
  rintro ⟨s, hs, hsurvives⟩
  have houtside := (congrArg (fun result => result.toOption.map Stored.outside) hs).trans
    (congrArg some hsurvives.inside)
  exact absurd houtside (by decide +kernel)

end DistillerFS
