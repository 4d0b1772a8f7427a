import DistillerFS.Daemon.Handlers

/-!
# What a handler hands to the access table

Every handler body leaves the table equal to the fold of the events it handed
over. The handlers that test `op_flags` hand over all their names or none,
according to the branch of their reply.
-/
namespace DistillerFS

variable {σ α β : Type} (K : Kernel σ)

section Primitives
variable (env : Env) (s : Daemon σ)

@[simp] theorem sys_result (c : SysCall) : (sys K c env s).1 = (K.call c s.kernel).1 := rfl
@[simp] theorem sys_kernel (c : SysCall) : (sys K c env s).2.kernel = (K.call c s.kernel).2 := rfl
@[simp] theorem sys_handed (c : SysCall) : (sys K c env s).2.handed = s.handed := rfl
@[simp] theorem sys_table (c : SysCall) : (sys K c env s).2.table = s.table := rfl
@[simp] theorem sys_issued (c : SysCall) : (sys K c env s).2.issued = s.issued ++ [c] := rfl
@[simp] theorem sys_errno (c : SysCall) :
    (sys K c env s).2.errno = errnoAfter (K.call c s.kernel).1 s.errno := rfl

@[simp] theorem libCall_kernel : (libCall env s).2.kernel = s.kernel := rfl
@[simp] theorem libCall_handed : (libCall env s).2.handed = s.handed := rfl
@[simp] theorem libCall_table : (libCall env s).2.table = s.table := rfl
@[simp] theorem libCall_issued : (libCall env s).2.issued = s.issued := rfl
@[simp] theorem libCall_errno :
    (libCall env s).2.errno = env.libErrno s.libCalls s.errno := rfl

@[simp] theorem negErrno_result : (negErrno env s).1 = -((s.errno : ℕ) : ℤ) := rfl
@[simp] theorem negErrno_state : (negErrno env s).2 = s := rfl
@[simp] theorem returnErrno_result :
    (returnErrno env s).1 = ⟨-((s.errno : ℕ) : ℤ), .nothing⟩ := rfl
@[simp] theorem returnErrno_state : (returnErrno env s).2 = s := rfl

@[simp] theorem relativePath_result (p : CString) :
    (relativePath p env s).1 = getRelativePath p := rfl
@[simp] theorem relativePath_state (p : CString) :
    (relativePath p env s).2 = (libCall env s).2 := rfl

@[simp] theorem endOfStream_kernel (e : Option Errno) : (endOfStream e env s).2.kernel = s.kernel := rfl
@[simp] theorem endOfStream_handed (e : Option Errno) : (endOfStream e env s).2.handed = s.handed := rfl
@[simp] theorem endOfStream_table (e : Option Errno) : (endOfStream e env s).2.table = s.table := rfl
@[simp] theorem endOfStream_issued (e : Option Errno) : (endOfStream e env s).2.issued = s.issued := rfl

@[simp] theorem chownToCaller_state (p : CString) :
    (chownToCaller K p env s).2 = (sys K (.lchown p (some env.uid) (some env.gid)) env s).2 := rfl

@[simp] theorem store_kernel (p : CString) (f : BitVec 32) : (store p f env s).2.kernel = s.kernel := rfl
@[simp] theorem store_handed (p : CString) (f : BitVec 32) :
    (store p f env s).2.handed = s.handed ++ [⟨some p, f⟩] := rfl
@[simp] theorem store_table (p : CString) (f : BitVec 32) :
    (store p f env s).2.table = record env.gFilter s.table ⟨some p, f⟩ := rfl
@[simp] theorem store_issued (p : CString) (f : BitVec 32) : (store p f env s).2.issued = s.issued := rfl

theorem ifLogged_true {op : FuseOps} {state : BitVec 32} (h : shouldLog env.opFlags op state = true)
    (body : HandlerM σ Unit) : ifLogged op state body env s = body env s := by
  simp [ifLogged, h]

theorem ifLogged_false {op : FuseOps} {state : BitVec 32} (h : shouldLog env.opFlags op state = false)
    (body : HandlerM σ Unit) : ifLogged op state body env s = ((), s) := by
  simp [ifLogged, h]

end Primitives

/-- The body is a writer of events: the table follows the events it hands over. -/
def Recording (m : HandlerM σ α) : Prop := ∀ env s, ∃ new,
  (m env s).2.handed = s.handed ++ new ∧ (m env s).2.table = new.foldl (record env.gFilter) s.table

theorem Recording.silent {m : HandlerM σ α} (hh : ∀ env s, (m env s).2.handed = s.handed)
    (ht : ∀ env s, (m env s).2.table = s.table) : Recording m := by
  intro env s
  exact ⟨[], by simp [hh], ht env s⟩

theorem Recording.pure (a : α) : Recording (pure a : HandlerM σ α) :=
  .silent (fun _ _ => rfl) (fun _ _ => rfl)

theorem Recording.bind {m : HandlerM σ α} {f : α → HandlerM σ β} (hm : Recording m)
    (hf : ∀ a, Recording (f a)) : Recording (m >>= f) := by
  intro env s
  obtain ⟨es, hes, htes⟩ := hm env s
  obtain ⟨fs, hfs, htfs⟩ := hf (m env s).1 env (m env s).2
  refine ⟨es ++ fs, ?_, ?_⟩
  · rw [HandlerM.bind_apply, hfs, hes, List.append_assoc]
  · rw [HandlerM.bind_apply, htfs, htes, List.foldl_append]

theorem Recording.sys (c : SysCall) : Recording (sys K c) := .silent (fun _ _ => rfl) (fun _ _ => rfl)

theorem Recording.libCall : Recording (libCall : HandlerM σ Unit) :=
  .silent (fun _ _ => rfl) (fun _ _ => rfl)

theorem Recording.negErrno : Recording (negErrno : HandlerM σ ℤ) :=
  .silent (fun _ _ => rfl) (fun _ _ => rfl)

theorem Recording.returnErrno : Recording (returnErrno : HandlerM σ Reply) :=
  .silent (fun _ _ => rfl) (fun _ _ => rfl)

theorem Recording.relativePath (p : CString) : Recording (relativePath p : HandlerM σ CString) :=
  .silent (fun _ _ => rfl) (fun _ _ => rfl)

theorem Recording.endOfStream (e : Option Errno) : Recording (endOfStream e : HandlerM σ Unit) :=
  .silent (fun _ _ => rfl) (fun _ _ => rfl)

theorem Recording.chownToCaller (p : CString) : Recording (chownToCaller K p) :=
  .silent (fun _ _ => rfl) (fun _ _ => rfl)

theorem Recording.store (p : CString) (f : BitVec 32) : Recording (store p f : HandlerM σ Unit) :=
  fun _ _ => ⟨[⟨some p, f⟩], rfl, rfl⟩

theorem Recording.ifLogged (op : FuseOps) (state : BitVec 32) {body : HandlerM σ Unit}
    (hb : Recording body) : Recording (ifLogged op state body) := by
  intro env s
  cases h : shouldLog env.opFlags op state with
  | true =>
    rw [ifLogged_true env s h]
    exact hb env s
  | false =>
    rw [ifLogged_false env s h]
    exact ⟨[], by simp, rfl⟩


inductive Outcome where
  | success
  | failure
  deriving DecidableEq, Repr

def Outcome.bit : Outcome → BitVec 32
  | .success => logSuccess
  | .failure => logUnsuccess

/-- The branch that the handler took: negative return values are error codes. -/
def Reply.branch (r : Reply) : Outcome := if r.rc < 0 then .failure else .success

theorem Reply.branch_ok {r : Reply} (h : 0 ≤ r.rc) : r.branch = .success := by
  simp [branch, h]

@[simp] theorem Reply.branch_errno (e : Errno) (out : Output) :
    Reply.branch ⟨-((e : ℕ) : ℤ), out⟩ = .failure := by
  simp [branch]

@[simp] theorem Reply.branch_natCast (n : ℕ) (out : Output) :
    Reply.branch ⟨(n : ℤ), out⟩ = .success := Reply.branch_ok (Int.natCast_nonneg n)

/-- The body hands over exactly `evs` when `op_flags[op]` has the bit of its
branch, and nothing otherwise. -/
def GatedBy (op : FuseOps) (evs : List Event) (m : HandlerM σ Reply) : Prop :=
  ∀ env s, (m env s).2.handed =
    s.handed ++ if shouldLog env.opFlags op (m env s).1.branch.bit then evs else []

theorem ifLogged_store_handed (op : FuseOps) (state : BitVec 32) (p : CString) (f : BitVec 32)
    (env : Env) (s : Daemon σ) :
    (ifLogged op state (store p f) env s).2.handed =
      s.handed ++ if shouldLog env.opFlags op state then [⟨some p, f⟩] else [] := by
  cases h : shouldLog env.opFlags op state with
  | true => simp [ifLogged_true env s h]
  | false => simp [ifLogged_false env s h]

theorem ifLogged_store₂_handed (op : FuseOps) (state : BitVec 32) (p q : CString) (f : BitVec 32)
    (env : Env) (s : Daemon σ) :
    (ifLogged op state (do store p f; store q f) env s).2.handed =
      s.handed ++ if shouldLog env.opFlags op state then [⟨some p, f⟩, ⟨some q, f⟩] else [] := by
  cases h : shouldLog env.opFlags op state with
  | true => simp [ifLogged_true env s h]
  | false => simp [ifLogged_false env s h]

theorem pathHandler_gated (op : FuseOps) (f : BitVec 32) (p : CString) (call : CString → SysCall)
    (done : (path : CString) → (call path).Out → Reply) (hdone : ∀ path out, 0 ≤ (done path out).rc) :
    GatedBy op [⟨some p, f⟩] (pathHandler K op f p call done) := by
  intro env s
  cases h : (K.call (call (getRelativePath p)) s.kernel).1 with
  | error e => simp [pathHandler, h, ifLogged_store_handed, Outcome.bit]
  | ok out => simp [pathHandler, h, ifLogged_store_handed, Outcome.bit, Reply.branch_ok (hdone _ _)]

theorem directHandler_gated (op : FuseOps) (f : BitVec 32) (p : CString) (call : SysCall)
    (done : call.Out → Reply) (hdone : ∀ out, 0 ≤ (done out).rc) :
    GatedBy op [⟨some p, f⟩] (directHandler K op f p call done) := by
  intro env s
  cases h : (K.call call s.kernel).1 with
  | error e => simp [directHandler, h, ifLogged_store_handed, Outcome.bit]
  | ok out => simp [directHandler, h, ifLogged_store_handed, Outcome.bit, Reply.branch_ok (hdone _)]

theorem loggedFSReaddir_gated (p : CString)
    (filler : List (CString × StatBuf) → CString × StatBuf → Bool) :
    GatedBy .opReaddir [⟨some p, flag .opReaddir⟩] (loggedFSReaddir K p filler) := by
  intro env s
  cases h : (K.call (.opendir (getRelativePath p)) s.kernel).1 with
  | error e => simp [loggedFSReaddir, h, ifLogged_store_handed, Outcome.bit]
  | ok dir => simp [loggedFSReaddir, h, ifLogged_store_handed, Outcome.bit, Reply.branch]

@[simp] theorem createNode_handed (p : CString) (mode rdev : ℕ) (env : Env) (s : Daemon σ) :
    (createNode K p mode rdev env s).2.handed = s.handed := by
  unfold createNode
  split_ifs
  · cases h : (K.call (.open p (oCreat ||| oExcl ||| oWronly) mode) s.kernel).1 <;> simp [h]
  · simp
  · simp

@[simp] theorem createNode_table (p : CString) (mode rdev : ℕ) (env : Env) (s : Daemon σ) :
    (createNode K p mode rdev env s).2.table = s.table := by
  unfold createNode
  split_ifs
  · cases h : (K.call (.open p (oCreat ||| oExcl ||| oWronly) mode) s.kernel).1 <;> simp [h]
  · simp
  · simp

theorem loggedFSMknod_gated (p : CString) (mode rdev : ℕ) :
    GatedBy .opMknod [⟨some p, flag .opMknod⟩] (loggedFSMknod K p mode rdev) := by
  intro env s
  cases h : (createNode K (getRelativePath p) mode rdev env (libCall env s).2).1 with
  | error e => simp [loggedFSMknod, h, ifLogged_store_handed, Outcome.bit]
  | ok out => simp [loggedFSMknod, h, ifLogged_store_handed, Outcome.bit, Reply.branch]

theorem loggedFSMkdir_gated (p : CString) (mode : ℕ) :
    GatedBy .opMkdir [⟨some p, flag .opMkdir⟩] (loggedFSMkdir K p mode) := by
  intro env s
  cases h : (K.call (.mkdir (getRelativePath p) mode) s.kernel).1 with
  | error e => simp [loggedFSMkdir, h, ifLogged_store_handed, Outcome.bit]
  | ok out => simp [loggedFSMkdir, h, ifLogged_store_handed, Outcome.bit, Reply.branch]

theorem loggedFSSymlink_gated (text newName : CString) :
    GatedBy .opSymlink [⟨some newName, flag .opSymlink⟩, ⟨some text, flag .opSymlink⟩]
      (loggedFSSymlink K text newName) := by
  intro env s
  cases h : (K.call (.symlink text (getRelativePath newName)) s.kernel).1 with
  | error e => simp [loggedFSSymlink, h, ifLogged_store₂_handed, Outcome.bit]
  | ok out => simp [loggedFSSymlink, h, ifLogged_store₂_handed, Outcome.bit, Reply.branch]

theorem loggedFSRename_gated (p q : CString) :
    GatedBy .opRename [⟨some p, flag .opRename⟩, ⟨some q, flag .opRename⟩] (loggedFSRename K p q) := by
  intro env s
  cases h : (K.call (.rename (getRelativePath p) (getRelativePath q)) s.kernel).1 with
  | error e => simp [loggedFSRename, h, ifLogged_store₂_handed, Outcome.bit]
  | ok out => simp [loggedFSRename, h, ifLogged_store₂_handed, Outcome.bit, Reply.branch]

theorem loggedFSLink_gated (p q : CString) :
    GatedBy .opLink [⟨some p, flag .opLink⟩, ⟨some q, flag .opLink⟩] (loggedFSLink K p q) := by
  intro env s
  cases h : (K.call (.link (getRelativePath p) (getRelativePath q)) s.kernel).1 with
  | error e => simp [loggedFSLink, h, ifLogged_store₂_handed, Outcome.bit]
  | ok out => simp [loggedFSLink, h, ifLogged_store₂_handed, Outcome.bit, Reply.branch]

theorem loggedFSWrite_gated (p buf : CString) (offset : ℕ) :
    GatedBy .opWrite [⟨some p, flag .opWrite⟩] (loggedFSWrite K p buf offset) := by
  intro env s
  cases h : (K.call (.open (getRelativePath p) oWronly 0) s.kernel).1 with
  | error e => simp [loggedFSWrite, h, ifLogged_store_handed, Outcome.bit]
  | ok fd =>
    cases hw : (K.call (.pwrite fd buf offset)
        (K.call (.open (getRelativePath p) oWronly 0) s.kernel).2).1 with
    | error e => simp [loggedFSWrite, h, hw, ifLogged_store_handed, Outcome.bit]
    | ok n => simp [loggedFSWrite, h, hw, ifLogged_store_handed, Outcome.bit]

/-- The handlers of `release` and `fsync` store their path without a test. -/
theorem loggedFSRelease_handed (p : CString) (fh : ℕ) (env : Env) (s : Daemon σ) :
    (loggedFSRelease K p fh env s).2.handed = s.handed ++ [⟨some p, flag .opRelease⟩] ∧
      (loggedFSRelease K p fh env s).1 = .ok := by
  simp [loggedFSRelease]

theorem loggedFSFsync_handed (p : CString) (env : Env) (s : Daemon σ) :
    (loggedFSFsync p env s).2.handed = s.handed ++ [⟨some p, flag .opFsync⟩] ∧
      (loggedFSFsync p env s).1 = .ok := by
  simp [loggedFSFsync]

def consultsShouldLog (op : FuseOps) : Bool := op != .opRelease && op != .opFsync

/-- The events of a request in the order the handler stores them: a symbolic link
stores its new name before its text. -/
def Request.events (req : Request) : List Event :=
  match req with
  | .symlink text newName => [⟨some newName, flag .opSymlink⟩, ⟨some text, flag .opSymlink⟩]
  | req => req.names.map (fun n => ⟨some n, flag req.op⟩)

theorem dispatch_gated {req : Request} (h : consultsShouldLog req.op = true) :
    GatedBy req.op req.events (dispatch K req) := by
  cases req with
  | readdir p filler => exact loggedFSReaddir_gated K p filler
  | mknod p mode rdev => exact loggedFSMknod_gated K p mode rdev
  | mkdir p mode => exact loggedFSMkdir_gated K p mode
  | symlink text newName => exact loggedFSSymlink_gated K text newName
  | rename p q => exact loggedFSRename_gated K p q
  | link p q => exact loggedFSLink_gated K p q
  | write p buf offset fh => exact loggedFSWrite_gated K p buf offset
  | release p fh => simp [consultsShouldLog, Request.op] at h
  | fsync p d fh => simp [consultsShouldLog, Request.op] at h
  | read | setxattr | getxattr | listxattr | removexattr =>
    exact directHandler_gated K _ _ _ _ _ (by simp)
  | _ => exact pathHandler_gated K _ _ _ _ _ (by simp)

theorem dispatch_ungated {req : Request} (h : consultsShouldLog req.op = false) (env : Env)
    (s : Daemon σ) : (dispatch K req env s).2.handed = s.handed ++ req.events ∧
      (dispatch K req env s).1 = .ok := by
  cases req with
  | release p fh => exact loggedFSRelease_handed K p fh env s
  | fsync p d fh => exact loggedFSFsync_handed p env s
  | _ => simp [consultsShouldLog, Request.op] at h


theorem createNode_recording (p : CString) (mode rdev : ℕ) : Recording (createNode K p mode rdev) :=
  .silent (fun env s => createNode_handed K p mode rdev env s)
    (fun env s => createNode_table K p mode rdev env s)

theorem pathHandler_recording (op : FuseOps) (f : BitVec 32) (p : CString) (call : CString → SysCall)
    (done : (path : CString) → (call path).Out → Reply) :
    Recording (pathHandler K op f p call done) := by
  refine .bind (.relativePath p) fun path => .bind (.sys K _) fun res => .bind .libCall fun _ => ?_
  cases res with
  | error e => exact .bind (.ifLogged _ _ (.store p f)) fun _ => .returnErrno
  | ok out => exact .bind (.ifLogged _ _ (.store p f)) fun _ => .pure _

theorem directHandler_recording (op : FuseOps) (f : BitVec 32) (p : CString) (call : SysCall)
    (done : call.Out → Reply) : Recording (directHandler K op f p call done) := by
  refine .bind (.sys K _) fun res => ?_
  cases res with
  | error e => exact .bind (.ifLogged _ _ (.store p f)) fun _ => .returnErrno
  | ok out => exact .bind (.ifLogged _ _ (.store p f)) fun _ => .pure _

theorem loggedFSReaddir_recording (p : CString)
    (filler : List (CString × StatBuf) → CString × StatBuf → Bool) :
    Recording (loggedFSReaddir K p filler) := by
  refine .bind (.relativePath p) fun path => .bind (.sys K _) fun dp => ?_
  cases dp with
  | error e =>
    exact .bind .negErrno fun _ => .bind .libCall fun _ =>
      .bind (.ifLogged _ _ (.store p _)) fun _ => .pure _
  | ok dir =>
    exact .bind (.endOfStream _) fun _ => .bind (.sys K _) fun _ => .bind .libCall fun _ =>
      .bind (.ifLogged _ _ (.store p _)) fun _ => .pure _

theorem loggedFSMknod_recording (p : CString) (mode rdev : ℕ) :
    Recording (loggedFSMknod K p mode rdev) := by
  refine .bind (.relativePath p) fun path => .bind (createNode_recording K _ _ _) fun res => ?_
  cases res with
  | error e =>
    exact .bind .libCall fun _ => .bind (.ifLogged _ _ (.store p _)) fun _ => .returnErrno
  | ok _ =>
    exact .bind (.chownToCaller K _) fun _ => .bind .libCall fun _ =>
      .bind (.ifLogged _ _ (.store p _)) fun _ => .pure _

theorem loggedFSMkdir_recording (p : CString) (mode : ℕ) : Recording (loggedFSMkdir K p mode) := by
  refine .bind (.relativePath p) fun path => .bind (.sys K _) fun res => ?_
  cases res with
  | error e =>
    exact .bind .libCall fun _ => .bind (.ifLogged _ _ (.store p _)) fun _ => .returnErrno
  | ok _ =>
    exact .bind (.chownToCaller K _) fun _ => .bind .libCall fun _ =>
      .bind (.ifLogged _ _ (.store p _)) fun _ => .pure _

theorem Recording.store₂ (p q : CString) (f : BitVec 32) :
    Recording (do DistillerFS.store p f; DistillerFS.store q f : HandlerM σ Unit) :=
  .bind (.store p f) fun _ => .store q f

theorem loggedFSSymlink_recording (text newName : CString) :
    Recording (loggedFSSymlink K text newName) := by
  refine .bind (.relativePath newName) fun path => .bind (.sys K _) fun res => ?_
  cases res with
  | error e =>
    exact .bind .libCall fun _ => .bind (.ifLogged _ _ (.store₂ _ _ _)) fun _ => .returnErrno
  | ok _ =>
    exact .bind (.chownToCaller K _) fun _ => .bind (.ifLogged _ _ (.store₂ _ _ _)) fun _ =>
      .bind .libCall fun _ => .pure _

theorem loggedFSRename_recording (p q : CString) : Recording (loggedFSRename K p q) := by
  refine .bind (.relativePath p) fun _ => .bind (.relativePath q) fun _ =>
    .bind (.sys K _) fun res => .bind .libCall fun _ => .bind .libCall fun _ => ?_
  cases res with
  | error e => exact .bind (.ifLogged _ _ (.store₂ _ _ _)) fun _ => .returnErrno
  | ok _ => exact .bind (.ifLogged _ _ (.store₂ _ _ _)) fun _ => .pure _

theorem loggedFSLink_recording (p q : CString) : Recording (loggedFSLink K p q) := by
  refine .bind (.relativePath p) fun _ => .bind (.relativePath q) fun _ =>
    .bind (.sys K _) fun res => .bind .libCall fun _ => ?_
  cases res with
  | error e =>
    exact .bind .libCall fun _ => .bind (.ifLogged _ _ (.store₂ _ _ _)) fun _ => .returnErrno
  | ok _ =>
    exact .bind (.chownToCaller K _) fun _ => .bind (.ifLogged _ _ (.store₂ _ _ _)) fun _ =>
      .bind .libCall fun _ => .pure _

theorem loggedFSWrite_recording (p buf : CString) (offset : ℕ) :
    Recording (loggedFSWrite K p buf offset) := by
  refine .bind (.relativePath p) fun path => .bind (.sys K _) fun fd => ?_
  cases fd with
  | error e => exact .bind (.ifLogged _ _ (.store p _)) fun _ => .returnErrno
  | ok fd =>
    refine .bind (.sys K _) fun res => ?_
    cases res with
    | error e =>
      exact .bind .negErrno fun _ => .bind (.ifLogged _ _ (.store p _)) fun _ =>
        .bind (.sys K _) fun _ => .bind .libCall fun _ => .pure _
    | ok n =>
      exact .bind (.ifLogged _ _ (.store p _)) fun _ =>
        .bind (.sys K _) fun _ => .bind .libCall fun _ => .pure _

theorem dispatch_recording (req : Request) : Recording (dispatch K req) := by
  cases req with
  | readdir p filler => exact loggedFSReaddir_recording K p filler
  | mknod p mode rdev => exact loggedFSMknod_recording K p mode rdev
  | mkdir p mode => exact loggedFSMkdir_recording K p mode
  | symlink text newName => exact loggedFSSymlink_recording K text newName
  | rename p q => exact loggedFSRename_recording K p q
  | link p q => exact loggedFSLink_recording K p q
  | write p buf offset fh => exact loggedFSWrite_recording K p buf offset
  | release p fh => exact .bind (.store p _) fun _ => .bind (.sys K _) fun _ => .pure _
  | fsync p d fh => exact .bind (.store p _) fun _ => .pure _
  | read | setxattr | getxattr | listxattr | removexattr => exact directHandler_recording K _ _ _ _ _
  | _ => exact pathHandler_recording K _ _ _ _ _

end DistillerFS
