import DistillerFS.Foundations.Interleaving
import DistillerFS.Recording.Accounting
import DistillerFS.Daemon.HandlerSpec

/-!
# Whole runs of the daemon

A session is any number of FUSE threads, each a sequence of handler calls with
arbitrary arguments and arbitrary answers to their system calls. The critical
sections of the threads interleave freely.
-/
namespace DistillerFS
open Foundations

/-- The settings that are fixed before the file system is mounted. -/
structure Settings where
  opFlags : OpFlags
  gFilter : FilterDesc

def Daemon.idle {σ : Type} (kernel : σ) (errno : Errno) : Daemon σ where
  kernel := kernel
  errno := errno
  table := ∅
  libCalls := 0
  issued := []
  handed := []

section Sequential
variable {σ : Type} (K : Kernel σ)

def runRequests (s : Daemon σ) (reqs : List (Env × Request)) : Daemon σ :=
  reqs.foldl (fun s r => (dispatch K r.2 r.1 s).2) s

theorem runRequests_concat (s : Daemon σ) (reqs : List (Env × Request)) (r : Env × Request) :
    runRequests K s (reqs ++ [r]) = (dispatch K r.2 r.1 (runRequests K s reqs)).2 := by
  simp [runRequests]

/-- The table of a sequential run is the fold of the events handed over so far. -/
theorem runRequests_table (filter : FilterDesc) (k : σ) (errno : Errno)
    (reqs : List (Env × Request)) (hf : ∀ r ∈ reqs, r.1.gFilter = filter) :
    (runRequests K (Daemon.idle k errno) reqs).table =
      recordAll filter (runRequests K (Daemon.idle k errno) reqs).handed := by
  induction reqs using List.reverseRecOn with
  | nil => rfl
  | append_singleton reqs r ih =>
    obtain ⟨new, hnew, htable⟩ :=
      dispatch_recording K r.2 r.1 (runRequests K (Daemon.idle k errno) reqs)
    rw [runRequests_concat, htable, hnew, hf r (by simp),
      ih (fun r hr => hf r (List.mem_append_left _ hr)), recordAll, recordAll, List.foldl_append]

end Sequential

/-- One handler call: its request, its caller, the answers of the kernel, and what
the library leaves in `errno`. -/
structure Call where
  req : Request
  uid : ℕ
  gid : ℕ
  answers : Answers
  errno : Errno
  libErrno : ℕ → Errno → Errno

def Call.env (cfg : Settings) (c : Call) : Env where
  opFlags := cfg.opFlags
  gFilter := cfg.gFilter
  uid := c.uid
  gid := c.gid
  libErrno := c.libErrno

def Call.exec (cfg : Settings) (c : Call) : Reply × Daemon (List SysCall) :=
  dispatch (oracleKernel c.answers) c.req (c.env cfg) (Daemon.idle [] c.errno)

def Call.branch (cfg : Settings) (c : Call) : Outcome := (c.exec cfg).1.branch

def Call.events (cfg : Settings) (c : Call) : List Event := (c.exec cfg).2.handed

theorem Request.mem_events {req : Request} {e : Event} :
    e ∈ req.events ↔ ∃ n ∈ req.names, e = ⟨some n, flag req.op⟩ := by
  cases req <;> simp [Request.events, Request.names, Request.op, eq_comm, or_comm]

theorem Request.events_perm (req : Request) :
    req.events.Perm (req.names.map (fun n => ⟨some n, flag req.op⟩)) := by
  cases req with
  | symlink text newName => exact List.Perm.swap _ _ []
  | _ => exact List.Perm.refl _

/-- A call that consults `should_log` hands over its names when the flags have the
bit of the branch it takes; release and fsync always do. -/
theorem Call.events_eq (cfg : Settings) (c : Call) :
    c.events cfg = if consultsShouldLog c.req.op = true →
      shouldLog cfg.opFlags c.req.op (c.branch cfg).bit = true then c.req.events else [] := by
  cases h : consultsShouldLog c.req.op with
  | true =>
    simp only [forall_const]
    exact dispatch_gated (oracleKernel c.answers) h (c.env cfg) (Daemon.idle [] c.errno)
  | false =>
    simp only [Bool.false_eq_true, false_implies, if_true]
    exact (dispatch_ungated (oracleKernel c.answers) h (c.env cfg) (Daemon.idle [] c.errno)).1

theorem Call.mem_events {cfg : Settings} {c : Call} {e : Event} :
    e ∈ c.events cfg ↔ (consultsShouldLog c.req.op = true →
      shouldLog cfg.opFlags c.req.op (c.branch cfg).bit = true) ∧
        ∃ n ∈ c.req.names, e = ⟨some n, flag c.req.op⟩ := by
  rw [Call.events_eq, ← Request.mem_events]
  split_ifs with h
  · exact ⟨fun he => ⟨h, he⟩, And.right⟩
  · exact ⟨fun he => absurd he List.not_mem_nil, fun hh => absurd hh.1 h⟩

/-- A name is handed over under the flag of the call's own operation. -/
theorem Call.mem_events_name {cfg : Settings} {c : Call} {op : FuseOps} {p : CString} :
    (⟨some p, flag op⟩ : Event) ∈ c.events cfg ↔ c.req.op = op ∧ p ∈ c.req.names ∧
      (consultsShouldLog c.req.op = true →
        shouldLog cfg.opFlags c.req.op (c.branch cfg).bit = true) := by
  rw [Call.mem_events]
  constructor
  · rintro ⟨hgate, n, hn, heq⟩
    injection heq with hpath hflag
    cases hpath
    exact ⟨(flag_injective hflag).symm, hn, hgate⟩
  · rintro ⟨rfl, hn, hgate⟩
    exact ⟨hgate, p, hn, rfl⟩

structure Session (cfg : Settings) where
  threads : List (List Call)
  schedule : List Event
  interleaved : Interleaving (threads.map (fun t => t.flatMap (Call.events cfg))) schedule

namespace Session
variable {cfg : Settings} (S : Session cfg)

def calls : List Call := S.threads.flatten

/-- The access table when the file system is unmounted. -/
def table : Hash := recordAll cfg.gFilter S.schedule

theorem mem_schedule {e : Event} : e ∈ S.schedule ↔ ∃ c ∈ S.calls, e ∈ c.events cfg := by
  rw [S.interleaved.mem_iff]
  simp only [calls, List.mem_map, List.mem_flatten]
  constructor
  · rintro ⟨_, ⟨t, ht, rfl⟩, he⟩
    obtain ⟨c, hc, he⟩ := List.mem_flatMap.mp he
    exact ⟨c, ⟨t, ht, hc⟩, he⟩
  · rintro ⟨c, ⟨t, ht, hc⟩, he⟩
    exact ⟨_, ⟨t, ht, rfl⟩, List.mem_flatMap.mpr ⟨c, hc, he⟩⟩

/-- Every key of the table was handed over by some call of the session. -/
theorem mem_table {p : CString} :
    p ∈ S.table ↔ cfg.gFilter.admits p = true ∧
      ∃ c ∈ S.calls, p ∈ c.req.names ∧ (consultsShouldLog c.req.op = true →
        shouldLog cfg.opFlags c.req.op (c.branch cfg).bit = true) := by
  rw [table, mem_recordAll]
  constructor
  · rintro ⟨e, he, hp, ha⟩
    obtain ⟨c, hc, he⟩ := S.mem_schedule.mp he
    obtain ⟨hgate, n, hn, rfl⟩ := Call.mem_events.mp he
    cases hp
    exact ⟨ha, c, hc, hn, hgate⟩
  · rintro ⟨ha, c, hc, hn, hgate⟩
    exact ⟨_, S.mem_schedule.mpr ⟨c, hc, Call.mem_events.mpr ⟨hgate, p, hn, rfl⟩⟩, rfl, ha⟩

/-- The bit of an operation is set in an entry exactly when a call of this operation
handed the path over. -/
theorem table_flag_iff {p : CString} {v : LfsCount} (h : S.table.lookup p = some v) (op : FuseOps) :
    v.flags.getLsbD op.index.val = true ↔ cfg.gFilter.admits p = true ∧
      ∃ c ∈ S.calls, c.req.op = op ∧ p ∈ c.req.names ∧ (consultsShouldLog op = true →
        shouldLog cfg.opFlags op (c.branch cfg).bit = true) := by
  rw [recordAll_flag_iff h]
  constructor
  · rintro ⟨e, he, hp, ha, hbit⟩
    obtain ⟨c, hc, he⟩ := S.mem_schedule.mp he
    obtain ⟨hgate, n, hn, rfl⟩ := Call.mem_events.mp he
    cases hp
    rw [flag_getLsbD, decide_eq_true_eq] at hbit
    have hop : c.req.op = op := (FuseOps.index_injective hbit).symm
    exact ⟨ha, c, hc, hop, hn, hop ▸ hgate⟩
  · rintro ⟨ha, c, hc, rfl, hn, hgate⟩
    refine ⟨_, S.mem_schedule.mpr ⟨c, hc, Call.mem_events.mpr ⟨hgate, p, hn, rfl⟩⟩, rfl, ha, ?_⟩
    rw [flag_getLsbD, decide_eq_true_eq]

end Session

end DistillerFS
