import DistillerFS.Foundations.CriticalSections
import DistillerFS.Daemon.Linearized

/-!
# The mutex of the access table

`Store_In_Hash` asks the path filter, takes `prmutex`, finds an item, makes one or changes it
field by field, reads its count and gives the mutex back. With the steps of other threads between
any two of these, no two threads work on the table, the daemon does what it does when the table
is changed at once, and no thread is left waiting.
-/
namespace DistillerFS
open Foundations

/-- What `Store_In_Hash` does between taking the mutex and giving it back. -/
inductive TableStep where
  | find (path : CString)
  | newItem
  | add (path : CString) (flag : BitVec 32)
  | incCount (path : CString)
  | orFlags (path : CString) (flag : BitVec 32)
  | readCount (path : CString)

@[reducible] def TableStep.Result : TableStep → Type
  | .find _ => Bool
  | .readCount _ => BitVec 32
  | _ => Unit

def changeItem (h : Hash) (path : CString) (f : LfsCount → LfsCount) : Hash :=
  match hashFind h path with
  | some item => hashAdd h path (f item)
  | none => h

/-- A step on the table. `malloc`, `strdup` and the growth of the table may change `errno`. -/
def TableStep.Does : (i : TableStep) → Hash → Errno → i.Result → Hash → Errno → Prop
  | .find path, h, l, r, h', l' => r = (hashFind h path).isSome ∧ h' = h ∧ l' = l
  | .newItem, h, _, _, h', _ => h' = h
  | .add path flag, h, _, _, h', _ => h' = hashAdd h path { path := path, count := 1, flags := flag }
  | .incCount path, h, l, _, h', l' =>
    h' = changeItem h path (fun item => { item with count := item.count + 1 }) ∧ l' = l
  | .orFlags path flag, h, l, _, h', l' =>
    h' = changeItem h path (fun item => { item with flags := item.flags ||| flag }) ∧ l' = l
  | .readCount path, h, l, r, h', l' => r = (hashFind h path).elim 0 LfsCount.count ∧ h' = h ∧ l' = l

/-- Steps of a thread, among them those of the mutex. -/
abbrev LockedSteps (α : Type) :=
  Foundations.Program (Fine.Result Action.Result TableStep.Result) α

abbrev tableStep (i : TableStep) : LockedSteps i.Result :=
  @Program.perform (Fine Action TableStep) _ (.inner i)

abbrev pthreadMutexLock : LockedSteps Unit := @Program.perform (Fine Action TableStep) _ .lock

abbrev pthreadMutexUnlock : LockedSteps Unit := @Program.perform (Fine Action TableStep) _ .unlock

/-- The two branches of `Store_In_Hash`. -/
def changeEntry (path : CString) (flag : BitVec 32) : Bool → LockedSteps Unit
  | false => do
    tableStep .newItem
    tableStep (.add path flag)
  | true => do
    tableStep (.incCount path)
    tableStep (.orFlags path flag)

def storeInHashSteps (filter : FilterDesc) (path : CString) (flag : BitVec 32) :
    LockedSteps (BitVec 32) :=
  if isIncluded path filter.includePath = false then return 0
  else if isExcluded path filter.excludePath = true then return 0
  else do
    pthreadMutexLock
    let found ← tableStep (.find path)
    changeEntry path flag found
    let rc ← tableStep (.readCount path)
    pthreadMutexUnlock
    return rc

theorem tableStep_total (i : TableStep) (h : Hash) (l : Errno) : ∃ r h' l', i.Does h l r h' l' := by
  cases i with
  | find path => exact ⟨_, h, l, rfl, rfl, rfl⟩
  | newItem => exact ⟨(), h, l, rfl⟩
  | add path flag => exact ⟨(), _, l, rfl⟩
  | incCount path => exact ⟨(), _, l, rfl, rfl⟩
  | orFlags path flag => exact ⟨(), _, l, rfl, rfl⟩
  | readCount path => exact ⟨_, h, l, rfl, rfl, rfl⟩

/-- Every way through `Store_In_Hash` gives the mutex back that it has taken. -/
theorem storeInHashSteps_oneSection (filter : FilterDesc) (path : CString) (flag : BitVec 32) :
    OneSection (storeInHashSteps filter path flag) := by
  unfold storeInHashSteps
  split_ifs
  · exact .done 0
  · exact .done 0
  · refine .lock (.inner fun found => ?_)
    cases found with
    | false => exact .inner fun _ => .inner fun _ => .inner fun rc => .unlock rc rfl
    | true => exact .inner fun _ => .inner fun _ => .inner fun rc => .unlock rc rfl

theorem storeInHashSteps_admitted {filter : FilterDesc} {path : CString}
    (h : filter.admits path = true) (flag : BitVec 32) : storeInHashSteps filter path flag = (do
      pthreadMutexLock
      let found ← tableStep (.find path)
      changeEntry path flag found
      let rc ← tableStep (.readCount path)
      pthreadMutexUnlock
      return rc) := by
  rw [FilterDesc.admits, Bool.and_eq_true, Bool.not_eq_true'] at h
  rw [storeInHashSteps, if_neg (by rw [h.1]; decide), if_neg (by rw [h.2]; decide)]

theorem storeInHashSteps_rejected {filter : FilterDesc} {path : CString}
    (h : filter.admits path = false) (flag : BitVec 32) :
    storeInHashSteps filter path flag = .done 0 := by
  unfold storeInHashSteps
  split_ifs with hincluded hexcluded
  · rfl
  · rfl
  · rw [Bool.not_eq_false] at hincluded
    simp [FilterDesc.admits, hincluded, hexcluded] at h

section Alone
variable {path : CString} {flag rc : BitVec 32} {h h' : Hash} {l l' : Errno}

theorem changeEntry_alone {found : Bool} (hfound : found = (hashFind h path).isSome)
    (hsteps : Alone TableStep.Does (do
      changeEntry path flag found
      let rc ← tableStep (.readCount path)
      pthreadMutexUnlock
      return rc : LockedSteps (BitVec 32)) h l rc h' l') :
    h' = hashAdd h path (bump (h.lookup path) path flag) ∧
      rc = (bump (h.lookup path) path flag).count := by
  subst hfound
  cases hitem : h.lookup path with
  | none =>
    rw [hashFind, hitem] at hsteps
    cases hsteps with
    | inner hnew hsteps => cases hsteps with
      | inner hadd hsteps => cases hsteps with
        | inner hread hsteps => cases hsteps with
          | unlock hsteps =>
            cases hsteps
            obtain ⟨rfl, rfl, rfl⟩ := hread
            rw [hadd, hnew]
            simp [hashAdd, hashFind, bump]
  | some item =>
    rw [hashFind, hitem] at hsteps
    cases hsteps with
    | inner hinc hsteps => cases hsteps with
      | inner hor hsteps => cases hsteps with
        | inner hread hsteps => cases hsteps with
          | unlock hsteps =>
            cases hsteps
            obtain ⟨rfl, rfl, rfl⟩ := hread
            rw [hor.1, hinc.1]
            simp [changeItem, hashAdd, hashFind, hitem, bump]

/-- The steps one after the other are the function as a whole. -/
theorem storeInHashSteps_alone {filter : FilterDesc}
    (hsteps : Alone TableStep.Does (storeInHashSteps filter path flag) h l rc h' l') :
    storeInHash h filter (some path) flag = (rc, h') := by
  cases hadmits : filter.admits path with
  | false =>
    rw [storeInHashSteps_rejected hadmits] at hsteps
    cases hsteps
    exact storeInHash_rejected (fun p hp => Option.some.inj hp ▸ hadmits) h flag
  | true =>
    rw [storeInHashSteps_admitted hadmits] at hsteps
    cases hsteps with
    | lock hsteps => cases hsteps with
      | inner hfind hsteps =>
        obtain ⟨hfound, rfl, rfl⟩ := hfind
        obtain ⟨rfl, rfl⟩ := changeEntry_alone hfound hsteps
        exact storeInHash_admitted hadmits _ flag

end Alone

section Locking
variable {σ : Type} (K : Kernel σ) (filter : FilterDesc)

def Action.Calls : (a : Action) → σ → a.Result → σ → Prop
  | .sys c, k, r, k' => r = (K.call c k).1 ∧ k' = (K.call c k).2
  | .lib, k, _, k' | .store _ _, k, _, k' | .errno, k, _, k' | .endOfStream _, k, _, k' => k' = k

/-- The handlers with the steps of `Store_In_Hash`. -/
def locking : Sections Action.Result TableStep.Result σ Hash Errno where
  outer a k l r k' l' := a.Leaves filter l r l' ∧ a.Calls K k r k'
  inner := TableStep.Does
  code
    | .store path flag => some (do
      let _ ← storeInHashSteps filter path flag
      return ())
    | .sys _ | .lib | .errno | .endOfStream _ => none

def mountedLocking (cfg : Settings) (kernel : σ) (threads : List (Errno × List Incoming)) :
    Pool (Fine.Result Action.Result TableStep.Result) (Locked σ Hash) Errno (List Reply) :=
  ⟨⟨kernel, ∅, false⟩, (mounted cfg kernel threads).threads.map (locking K cfg.gFilter).expanded⟩

variable {K filter}

theorem locking_oneEach : (locking K filter).OneEach := by
  intro a q hcode
  cases a with
  | store path flag =>
    cases hcode
    exact (storeInHashSteps_oneSection filter path flag).map _
  | sys | lib | errno | endOfStream => cases hcode

/-- The kernel and the table, without the record of what was handed over. -/
def SameState (x : σ × Hash) (t : Shared σ) : Prop := x = (t.kernel, t.table)

/-- With `Store_In_Hash` as one action, the daemon is the one whose table changes at once. -/
theorem coarse_effect {a : Action} {x x' : σ × Hash} {l l' : Errno} {r : a.Result} {t : Shared σ}
    (h : (locking K filter).coarse.effect a x l r x' l') (hsame : SameState x t) :
    ∃ t', (workers K filter).effect a t l r t' l' ∧ SameState x' t' := by
  subst hsame
  cases h with
  | outer hcode hout =>
    obtain ⟨hleaves, hcalls⟩ := hout
    cases a with
    | sys c =>
      obtain ⟨rfl, rfl⟩ := hcalls
      exact ⟨_, ⟨hleaves, rfl, rfl⟩, rfl⟩
    | store path flag => cases hcode
    | lib | errno | endOfStream =>
      cases hcalls
      exact ⟨t, ⟨hleaves, rfl⟩, rfl⟩
  | code hcode hsteps =>
    cases a with
    | sys | lib | errno | endOfStream => cases hcode
    | store path flag =>
      cases hcode
      obtain ⟨rc, h₁, l₁, hsteps, hdone⟩ := hsteps.bind_inv
      cases hdone
      refine ⟨_, ⟨?_, rfl⟩, ?_⟩
      · intro hrejects
        rw [storeInHashSteps_rejected hrejects] at hsteps
        cases hsteps
        rfl
      · rw [SameState, storeInHashSteps_alone hsteps]

variable (K)

theorem locking_outer_total (a : Action) (k : σ) (l : Errno) :
    ∃ r k' l', (locking K filter).outer a k l r k' l' := by
  cases a with
  | sys c => exact ⟨_, _, _, rfl, rfl, rfl⟩
  | lib => exact ⟨(), k, l, trivial, rfl⟩
  | store path flag => exact ⟨(), k, l, fun _ => rfl, rfl⟩
  | errno => exact ⟨l, k, l, ⟨rfl, rfl⟩, rfl⟩
  | endOfStream error => exact ⟨(), k, _, rfl, rfl⟩

theorem mountedLocking_owned (cfg : Settings) (kernel : σ) (threads : List (Errno × List Incoming)) :
    (mountedLocking K cfg kernel threads).Owned := by
  apply Pool.owned_free rfl
  intro x hx
  obtain ⟨t, -, rfl⟩ := List.mem_map.mp hx
  exact Sections.expand_disciplined locking_oneEach t.2

/-- However far the threads have come, the next step of at most one is on the table, this one
holds the mutex, and all of them can go on to their ends and leave the mutex free. -/
theorem locking_completes (cfg : Settings) {kernel : σ} {threads : List (Errno × List Incoming)}
    {labels : List (Label (Fine.Result Action.Result TableStep.Result))}
    {pool : Pool (Fine.Result Action.Result TableStep.Result) (Locked σ Hash) Errno (List Reply)}
    (hrun : Run (locking K cfg.gFilter).fine (mountedLocking K cfg kernel threads) labels pool) :
    pool.Exclusive ∧ ∃ labels' pool' answers, Run (locking K cfg.gFilter).fine pool labels' pool' ∧
      pool'.Finished answers ∧ pool'.shared.held = false := by
  have howned := (mountedLocking_owned K cfg kernel threads).run hrun
  exact ⟨howned.exclusive, howned.completes (locking_outer_total K) tableStep_total⟩

theorem locking_completes_two :
    (mountedLocking denying failuresLogged [] twoThreads).Exclusive ∧ ∃ labels pool answers,
      Run (locking denying failuresLogged.gFilter).fine
        (mountedLocking denying failuresLogged [] twoThreads) labels pool ∧
      pool.Finished answers ∧ pool.shared.held = false :=
  locking_completes denying failuresLogged (.nil (mountedLocking denying failuresLogged [] twoThreads))

/-- The runs of the daemon, with the steps behind the mutex among those of the other threads,
are sessions: every thread has handled its requests as calls of the session, with the same
replies, and the table is that of the session. -/
theorem locking_session (cfg : Settings) {kernel : σ} {threads : List (Errno × List Incoming)}
    {labels : List (Label (Fine.Result Action.Result TableStep.Result))}
    {pool : Pool (Fine.Result Action.Result TableStep.Result) (Locked σ Hash) Errno (List Reply)}
    {answers : List (List Reply)}
    (hrun : Run (locking K cfg.gFilter).fine (mountedLocking K cfg kernel threads) labels pool)
    (hdone : pool.Finished answers) : ∃ S : Session cfg,
      S.threads.map (List.map Call.incoming) = threads.map Prod.snd ∧
      S.threads.map (List.map (fun c => (c.exec cfg).1)) = answers ∧
      S.table = pool.shared.inside := by
  obtain ⟨labels', mirror, hcoarse, hdone', hshared, -⟩ := Sections.atomic locking_oneEach hrun hdone
  have hsame : SameState (kernel, ∅) (mounted cfg kernel threads).shared := rfl
  obtain ⟨t, hworkers, htable⟩ := hcoarse.simulate coarse_effect hsame
  obtain ⟨S, hreqs, hreplies, -, hS⟩ := workers_session cfg K hworkers hdone'
  refine ⟨S, hreqs, hreplies, hS.trans ?_⟩
  rw [hshared] at htable
  exact (Prod.mk.inj htable).2.symm

theorem locking_session_two : ∃ labels pool answers,
    Run (locking denying failuresLogged.gFilter).fine
      (mountedLocking denying failuresLogged [] twoThreads) labels pool ∧ pool.Finished answers ∧
    ∃ S : Session failuresLogged, S.threads.map (List.map Call.incoming) = twoThreads.map Prod.snd ∧
      S.threads.map (List.map (fun c => (c.exec failuresLogged).1)) = answers ∧
      S.table = pool.shared.inside := by
  obtain ⟨labels, pool, answers, hrun, hdone, -⟩ :=
    (mountedLocking_owned denying failuresLogged [] twoThreads).completes
      (locking_outer_total denying) tableStep_total
  exact ⟨labels, pool, answers, hrun, hdone, locking_session denying failuresLogged hrun hdone⟩

end Locking

end DistillerFS
