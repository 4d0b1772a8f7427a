import DistillerFS.Daemon.Session
import DistillerFS.Daemon.Branches

/-!
# Transparency of logging

Logging changes neither the calls a handler issues nor the reply of a call that
succeeds. The error of a call that fails survives only where `errno` is saved
before the library is entered.
-/
namespace DistillerFS

variable {σ : Type} (K : Kernel σ)

/-- Two runs of one request, under any two configurations and tables and with any
values left in `errno` by the library. -/
def Transparent (uid gid : ℕ) (k : σ) (req : Request) : Prop :=
  ∀ (env₁ env₂ : Env) (s₁ s₂ : Daemon σ), (env₁.uid, env₁.gid) = (uid, gid) →
    (env₂.uid, env₂.gid) = (uid, gid) → s₁.kernel = k → s₂.kernel = k →
    (∃ calls, (dispatch K req env₁ s₁).2.issued = s₁.issued ++ calls ∧
      (dispatch K req env₂ s₂).2.issued = s₂.issued ++ calls) ∧
    (dispatch K req env₁ s₁).2.kernel = (dispatch K req env₂ s₂).2.kernel ∧
    (dispatch K req env₁ s₁).1 = (dispatch K req env₂ s₂).1 ∧
    ∀ e, (passthrough K uid gid k req).error = some e →
      (dispatch K req env₁ s₁).1.rc = -((e : ℕ) : ℤ)

/-- The failures whose error is saved before anything else is called: `opendir` in
`loggedFS_readdir`, and `pwrite` in `loggedFS_write`. -/
def SavesErrno (k : σ) : Request → Prop
  | .readdir p _ => ∃ e, (K.call (.opendir (getRelativePath p)) k).1 = .error e
  | .write p _ _ _ => ∃ fd, (K.call (.open (getRelativePath p) oWronly 0) k).1 = .ok fd
  | _ => False

def ErrnoKept (uid gid : ℕ) (k : σ) (req : Request) : Prop :=
  (passthrough K uid gid k req).error = none ∨ SavesErrno K k req

theorem replyOf_error {α : Type} (done : α → Reply) {r : Except Errno α} {e : Errno}
    (h : errorOf r = some e) : replyOf done r = ⟨-((e : ℕ) : ℤ), .nothing⟩ := by
  cases r with
  | error e' => cases h; rfl
  | ok a => cases h

def AnswersOk (m : HandlerM σ Reply) (env : Env) (s : Daemon σ) (p : Passthrough σ) : Prop :=
  p.error = none → (m env s).1 = p.reply

theorem pathHandler_answers (op : FuseOps) (f : BitVec 32) (p : CString) (call : CString → SysCall)
    (done : (path : CString) → (call path).Out → Reply) (env : Env) (s : Daemon σ) :
    AnswersOk (pathHandler K op f p call done) env s
      (.single K s.kernel (call (getRelativePath p)) (done _)) := by
  cases h : (K.call (call (getRelativePath p)) s.kernel).1 <;>
    simp [AnswersOk, pathHandler, Passthrough.single, h, errorOf, replyOf]

theorem directHandler_answers (op : FuseOps) (f : BitVec 32) (p : CString) (call : SysCall)
    (done : call.Out → Reply) (env : Env) (s : Daemon σ) :
    AnswersOk (directHandler K op f p call done) env s (.single K s.kernel call done) := by
  cases h : (K.call call s.kernel).1 <;>
    simp [AnswersOk, directHandler, Passthrough.single, h, errorOf, replyOf]

theorem loggedFSReaddir_answers (p : CString)
    (filler : List (CString × StatBuf) → CString × StatBuf → Bool) (env : Env) (s : Daemon σ) :
    AnswersOk (loggedFSReaddir K p filler) env s (.readdir K s.kernel (getRelativePath p) filler) := by
  cases h : (K.call (.opendir (getRelativePath p)) s.kernel).1 with
  | error e => simp [AnswersOk, Passthrough.readdir, h]
  | ok dir =>
    intro herr
    simp only [Passthrough.readdir, h] at herr
    simp [loggedFSReaddir, Passthrough.readdir, h, herr]

theorem loggedFSMknod_answers (p : CString) (mode rdev : ℕ) (env : Env) (s : Daemon σ) :
    AnswersOk (loggedFSMknod K p mode rdev) env s
      (.mknod K s.kernel (getRelativePath p) mode rdev env.uid env.gid) := by
  unfold AnswersOk loggedFSMknod createNode Passthrough.mknod
  split_ifs with hreg hfifo
  · cases ho : (K.call (.open (getRelativePath p) (oCreat ||| oExcl ||| oWronly) mode) s.kernel).1 with
    | error e => simp [ho, Passthrough.single, errorOf]
    | ok fd =>
      cases hc : (K.call (.close fd) (K.call (.open (getRelativePath p)
          (oCreat ||| oExcl ||| oWronly) mode) s.kernel).2).1 <;>
        simp [ho, hc, Passthrough.create, Passthrough.single, Passthrough.andThen, errorOf, replyOf]
  · cases h : (K.call (.mkfifo (getRelativePath p) mode) s.kernel).1 <;>
      simp [h, Passthrough.create, Passthrough.single, Passthrough.andThen, errorOf, replyOf]
  · cases h : (K.call (.mknod (getRelativePath p) mode rdev) s.kernel).1 <;>
      simp [h, Passthrough.create, Passthrough.single, Passthrough.andThen, errorOf, replyOf]

theorem loggedFSMkdir_answers (p : CString) (mode : ℕ) (env : Env) (s : Daemon σ) :
    AnswersOk (loggedFSMkdir K p mode) env s
      (.create K s.kernel (.mkdir (getRelativePath p) mode) (getRelativePath p) env.uid env.gid) := by
  cases h : (K.call (.mkdir (getRelativePath p) mode) s.kernel).1 <;>
    simp [AnswersOk, loggedFSMkdir, h, Passthrough.create, Passthrough.single, Passthrough.andThen,
      errorOf, replyOf]

theorem loggedFSSymlink_answers (text p : CString) (env : Env) (s : Daemon σ) :
    AnswersOk (loggedFSSymlink K text p) env s
      (.create K s.kernel (.symlink text (getRelativePath p)) (getRelativePath p) env.uid env.gid) := by
  cases h : (K.call (.symlink text (getRelativePath p)) s.kernel).1 <;>
    simp [AnswersOk, loggedFSSymlink, h, Passthrough.create, Passthrough.single, Passthrough.andThen,
      errorOf, replyOf]

theorem loggedFSRename_answers (p q : CString) (env : Env) (s : Daemon σ) :
    AnswersOk (loggedFSRename K p q) env s
      (.single K s.kernel (.rename (getRelativePath p) (getRelativePath q)) (fun _ => .ok)) := by
  cases h : (K.call (.rename (getRelativePath p) (getRelativePath q)) s.kernel).1 <;>
    simp [AnswersOk, loggedFSRename, h, Passthrough.single, errorOf, replyOf]

theorem loggedFSLink_answers (p q : CString) (env : Env) (s : Daemon σ) :
    AnswersOk (loggedFSLink K p q) env s
      (.create K s.kernel (.link (getRelativePath p) (getRelativePath q)) (getRelativePath q)
        env.uid env.gid) := by
  cases h : (K.call (.link (getRelativePath p) (getRelativePath q)) s.kernel).1 <;>
    simp [AnswersOk, loggedFSLink, h, Passthrough.create, Passthrough.single, Passthrough.andThen,
      errorOf, replyOf]

theorem loggedFSWrite_answers (p buf : CString) (offset : ℕ) (env : Env) (s : Daemon σ) :
    AnswersOk (loggedFSWrite K p buf offset) env s
      (.write K s.kernel (getRelativePath p) buf offset) := by
  cases h : (K.call (.open (getRelativePath p) oWronly 0) s.kernel).1 with
  | error e => simp [AnswersOk, Passthrough.write, Passthrough.single, h, errorOf]
  | ok fd =>
    cases hw : (K.call (.pwrite fd buf offset)
        (K.call (.open (getRelativePath p) oWronly 0) s.kernel).2).1 <;>
      simp [AnswersOk, loggedFSWrite, Passthrough.write, h, hw, errorOf, replyOf]

/-- An operation that succeeds is answered the same way under every configuration. -/
theorem dispatch_answers (req : Request) (env : Env) (s : Daemon σ) :
    AnswersOk (dispatch K req) env s (passthrough K env.uid env.gid s.kernel req) := by
  cases req with
  | readdir p filler => exact loggedFSReaddir_answers K p filler env s
  | mknod p mode rdev => exact loggedFSMknod_answers K p mode rdev env s
  | mkdir p mode => exact loggedFSMkdir_answers K p mode env s
  | symlink text p => exact loggedFSSymlink_answers K text p env s
  | rename p q => exact loggedFSRename_answers K p q env s
  | link p q => exact loggedFSLink_answers K p q env s
  | write p buf offset fh => exact loggedFSWrite_answers K p buf offset env s
  | release p fh =>
    intro h
    cases hc : (K.call (.close fh) s.kernel).1 with
    | error e => simp [passthrough, Passthrough.single, hc, errorOf] at h
    | ok u => simp [dispatch, loggedFSRelease, passthrough, Passthrough.single, hc, replyOf]
  | fsync p d fh => exact fun _ => rfl
  | read | setxattr | getxattr | listxattr | removexattr => exact directHandler_answers K _ _ _ _ _ env s
  | _ => exact pathHandler_answers K _ _ _ _ _ env s

/-- Where `errno` is saved first, the error of the failing call is returned as it is. -/
theorem dispatch_saved {req : Request} {env : Env} {s : Daemon σ} (h : SavesErrno K s.kernel req) :
    (dispatch K req env s).1 = (passthrough K env.uid env.gid s.kernel req).reply := by
  cases req with
  | readdir p filler =>
    obtain ⟨e, he⟩ := h
    simp [dispatch, loggedFSReaddir, passthrough, Passthrough.readdir, he]
  | write p buf offset fh =>
    obtain ⟨fd, hfd⟩ := h
    cases hw : (K.call (.pwrite fd buf offset)
        (K.call (.open (getRelativePath p) oWronly 0) s.kernel).2).1 <;>
      simp [dispatch, loggedFSWrite, passthrough, Passthrough.write, hfd, hw, replyOf]
  | _ => exact absurd h id

theorem Passthrough.single_reply_error {k : σ} {c : SysCall} {done : c.Out → Reply} {e : Errno}
    (h : (Passthrough.single K k c done).error = some e) :
    (Passthrough.single K k c done).reply.rc = -((e : ℕ) : ℤ) := by
  simp only [Passthrough.single] at h ⊢
  rw [replyOf_error done h]

theorem Passthrough.create_reply_error {k : σ} {c : SysCall} {path : CString} {uid gid : ℕ}
    {e : Errno} (h : (Passthrough.create K k c path uid gid).error = some e) :
    (Passthrough.create K k c path uid gid).reply.rc = -((e : ℕ) : ℤ) := by
  have he : (Passthrough.single K k c (fun _ => .ok)).error = some e := by
    rwa [Passthrough.create_error] at h
  simpa [Passthrough.create, Passthrough.andThen, he] using Passthrough.single_reply_error K he

theorem passthrough_reply_error {uid gid : ℕ} {k : σ} {req : Request} {e : Errno}
    (h : (passthrough K uid gid k req).error = some e) :
    (passthrough K uid gid k req).reply.rc = -((e : ℕ) : ℤ) := by
  cases req with
  | readdir p filler =>
    simp only [passthrough, Passthrough.readdir] at h ⊢
    split at h
    · cases h
      rfl
    · simp only at h ⊢
      simp [h]
  | mknod p mode rdev =>
    simp only [passthrough, Passthrough.mknod] at h ⊢
    split_ifs at h ⊢
    · split at h
      · exact Passthrough.single_reply_error K h
      · exact Passthrough.create_reply_error K h
    · exact Passthrough.create_reply_error K h
    · exact Passthrough.create_reply_error K h
  | write p buf offset fh =>
    simp only [passthrough, Passthrough.write] at h ⊢
    split at h
    · exact Passthrough.single_reply_error K h
    · simp only at h ⊢
      rw [replyOf_error _ h]
  | mkdir | symlink | link => exact Passthrough.create_reply_error K h
  | fsync => cases h
  | _ => exact Passthrough.single_reply_error K h

/-- A configuration that logs every failure, on a library that overwrites `errno`. -/
def hostile (uid gid : ℕ) (left : Errno) : Env where
  opFlags := fun _ => logSuccess ||| logUnsuccess
  gFilter := ⟨[], []⟩
  uid := uid
  gid := gid
  libErrno := fun _ _ => left

theorem hostile_shouldLog (uid gid : ℕ) (left : Errno) (op : FuseOps) :
    shouldLog (hostile uid gid left).opFlags op logUnsuccess = true := by
  change (((logSuccess ||| logUnsuccess) &&& logUnsuccess) != 0) = true
  decide

@[simp] theorem hostile_libCall (uid gid : ℕ) (left : Errno) (s : Daemon σ) :
    (libCall (hostile uid gid left) s).2.errno = left := rfl

@[simp] theorem hostile_log (uid gid : ℕ) (left : Errno) (op : FuseOps) (p : CString)
    (f : BitVec 32) (s : Daemon σ) :
    (ifLogged op logUnsuccess (store p f) (hostile uid gid left) s).2.errno = left := by
  rw [ifLogged_true _ _ (hostile_shouldLog uid gid left op)]
  rfl

@[simp] theorem hostile_log₂ (uid gid : ℕ) (left : Errno) (op : FuseOps) (p q : CString)
    (f : BitVec 32) (s : Daemon σ) :
    (ifLogged op logUnsuccess (do store p f; store q f) (hostile uid gid left) s).2.errno = left := by
  rw [ifLogged_true _ _ (hostile_shouldLog uid gid left op)]
  rfl

/-- The error `e` of the operation is lost when the library leaves another value. -/
def Clobbered (m : HandlerM σ Reply) (uid gid : ℕ) (s : Daemon σ) (p : Passthrough σ) : Prop :=
  ∀ e, p.error = some e → (m (hostile uid gid (e + 1)) s).1.rc ≠ -((e : ℕ) : ℤ)

theorem pathHandler_clobbered (op : FuseOps) (f : BitVec 32) (p : CString) (call : CString → SysCall)
    (done : (path : CString) → (call path).Out → Reply) (uid gid : ℕ) (s : Daemon σ) :
    Clobbered (pathHandler K op f p call done) uid gid s
      (.single K s.kernel (call (getRelativePath p)) (done _)) := by
  intro e he
  cases h : (K.call (call (getRelativePath p)) s.kernel).1 with
  | error e' => simp [pathHandler, h]
  | ok out => simp [Passthrough.single, h, errorOf] at he

theorem directHandler_clobbered (op : FuseOps) (f : BitVec 32) (p : CString) (call : SysCall)
    (done : call.Out → Reply) (uid gid : ℕ) (s : Daemon σ) :
    Clobbered (directHandler K op f p call done) uid gid s (.single K s.kernel call done) := by
  intro e he
  cases h : (K.call call s.kernel).1 with
  | error e' => simp [directHandler, h]
  | ok out => simp [Passthrough.single, h, errorOf] at he

theorem loggedFSMknod_clobbered (p : CString) (mode rdev uid gid : ℕ) (s : Daemon σ) :
    Clobbered (loggedFSMknod K p mode rdev) uid gid s
      (.mknod K s.kernel (getRelativePath p) mode rdev uid gid) := by
  intro e he
  have hcreate := createNode_error K (getRelativePath p) mode rdev (hostile uid gid (e + 1))
    (libCall (hostile uid gid (e + 1)) s).2 uid gid
  rw [libCall_kernel, he] at hcreate
  cases h : (createNode K (getRelativePath p) mode rdev (hostile uid gid (e + 1))
      (libCall (hostile uid gid (e + 1)) s).2).1 with
  | error e' => simp [loggedFSMknod, h]
  | ok out => simp [h, errorOf] at hcreate

theorem loggedFSMkdir_clobbered (p : CString) (mode uid gid : ℕ) (s : Daemon σ) :
    Clobbered (loggedFSMkdir K p mode) uid gid s
      (.create K s.kernel (.mkdir (getRelativePath p) mode) (getRelativePath p) uid gid) := by
  intro e he
  rw [Passthrough.create_error] at he
  cases h : (K.call (.mkdir (getRelativePath p) mode) s.kernel).1 with
  | error e' => simp [loggedFSMkdir, h]
  | ok out => simp [h, errorOf] at he

theorem loggedFSSymlink_clobbered (text p : CString) (uid gid : ℕ) (s : Daemon σ) :
    Clobbered (loggedFSSymlink K text p) uid gid s
      (.create K s.kernel (.symlink text (getRelativePath p)) (getRelativePath p) uid gid) := by
  intro e he
  rw [Passthrough.create_error] at he
  cases h : (K.call (.symlink text (getRelativePath p)) s.kernel).1 with
  | error e' => simp [loggedFSSymlink, h]
  | ok out => simp [h, errorOf] at he

theorem loggedFSRename_clobbered (p q : CString) (uid gid : ℕ) (s : Daemon σ) :
    Clobbered (loggedFSRename K p q) uid gid s
      (.single K s.kernel (.rename (getRelativePath p) (getRelativePath q)) (fun _ => .ok)) := by
  intro e he
  cases h : (K.call (.rename (getRelativePath p) (getRelativePath q)) s.kernel).1 with
  | error e' => simp [loggedFSRename, h]
  | ok out => simp [Passthrough.single, h, errorOf] at he

theorem loggedFSLink_clobbered (p q : CString) (uid gid : ℕ) (s : Daemon σ) :
    Clobbered (loggedFSLink K p q) uid gid s
      (.create K s.kernel (.link (getRelativePath p) (getRelativePath q)) (getRelativePath q)
        uid gid) := by
  intro e he
  rw [Passthrough.create_error] at he
  cases h : (K.call (.link (getRelativePath p) (getRelativePath q)) s.kernel).1 with
  | error e' => simp [loggedFSLink, h]
  | ok out => simp [h, errorOf] at he

/-- Past `opendir`, the reply is 0 even when the stream ended in an error. -/
theorem loggedFSReaddir_clobbered {p : CString}
    {filler : List (CString × StatBuf) → CString × StatBuf → Bool} {s : Daemon σ}
    (hopen : ∀ e, (K.call (.opendir (getRelativePath p)) s.kernel).1 ≠ .error e) (uid gid : ℕ) :
    Clobbered (loggedFSReaddir K p filler) uid gid s
      (.readdir K s.kernel (getRelativePath p) filler) := by
  intro e _
  cases h : (K.call (.opendir (getRelativePath p)) s.kernel).1 with
  | error e' => exact absurd h (hopen e')
  | ok dir =>
    have hpos : 0 < (e : ℕ) := e.pos
    simp [loggedFSReaddir, h]

/-- The branch in which the file cannot be opened again reads `errno` last. -/
theorem loggedFSWrite_clobbered {p : CString} {s : Daemon σ}
    (hopen : ∀ fd, (K.call (.open (getRelativePath p) oWronly 0) s.kernel).1 ≠ .ok fd)
    (buf : CString) (offset uid gid : ℕ) :
    Clobbered (loggedFSWrite K p buf offset) uid gid s
      (.write K s.kernel (getRelativePath p) buf offset) := by
  intro e _
  cases h : (K.call (.open (getRelativePath p) oWronly 0) s.kernel).1 with
  | error e' => simp [loggedFSWrite, h]
  | ok fd => exact absurd h (hopen fd)

theorem dispatch_clobbered {req : Request} {s : Daemon σ} (h : ¬ SavesErrno K s.kernel req)
    (uid gid : ℕ) : Clobbered (dispatch K req) uid gid s (passthrough K uid gid s.kernel req) := by
  cases req with
  | readdir p filler =>
    exact loggedFSReaddir_clobbered K (fun e he => h ⟨e, he⟩) uid gid
  | mknod p mode rdev => exact loggedFSMknod_clobbered K p mode rdev uid gid s
  | mkdir p mode => exact loggedFSMkdir_clobbered K p mode uid gid s
  | symlink text p => exact loggedFSSymlink_clobbered K text p uid gid s
  | rename p q => exact loggedFSRename_clobbered K p q uid gid s
  | link p q => exact loggedFSLink_clobbered K p q uid gid s
  | write p buf offset fh =>
    exact loggedFSWrite_clobbered K (fun fd hfd => h ⟨fd, hfd⟩) buf offset uid gid
  | release p fh =>
    intro e _
    have hpos : 0 < (e : ℕ) := e.pos
    simp [dispatch, loggedFSRelease]
  | fsync p d fh => exact fun e he => by cases he
  | read | setxattr | getxattr | listxattr | removexattr =>
    exact directHandler_clobbered K _ _ _ _ _ uid gid s
  | _ => exact pathHandler_clobbered K _ _ _ _ _ uid gid s

/-- The branch of a call does not depend on the settings. -/
theorem Call.branch_settings (cfg cfg' : Settings) (c : Call) : c.branch cfg = c.branch cfg' :=
  dispatch_branch (oracleKernel c.answers) c.req _ _ rfl

/-- A request is handled transparently exactly when its operation succeeds or its
error is saved in time. -/
theorem transparent_iff (uid gid : ℕ) (k : σ) (req : Request) :
    Transparent K uid gid k req ↔ ErrnoKept K uid gid k req := by
  constructor
  · intro h
    by_contra hkept
    simp only [ErrnoKept, not_or] at hkept
    obtain ⟨herr, hsave⟩ := hkept
    obtain ⟨e, he⟩ := Option.ne_none_iff_exists'.mp herr
    have hrun := h (hostile uid gid (e + 1)) (hostile uid gid (e + 1)) (Daemon.idle k default)
      (Daemon.idle k default) rfl rfl rfl rfl
    exact dispatch_clobbered K hsave uid gid e he (hrun.2.2.2 e he)
  · intro hkept env₁ env₂ s₁ s₂ hc₁ hc₂ hk₁ hk₂
    cases hc₁
    obtain ⟨hu, hg⟩ := Prod.mk.inj hc₂
    subst hk₁
    obtain ⟨hi₁, hkern₁⟩ := dispatch_issues K req env₁ s₁
    obtain ⟨hi₂, hkern₂⟩ := dispatch_issues K req env₂ s₂
    rw [hk₂, hu, hg] at hi₂ hkern₂
    -- both replies are the reply of the bare operation
    have hreply₁ : (dispatch K req env₁ s₁).1 =
        (passthrough K env₁.uid env₁.gid s₁.kernel req).reply := by
      rcases hkept with hok | hsave
      · exact dispatch_answers K req env₁ s₁ hok
      · exact dispatch_saved K hsave
    have hreply₂ : (dispatch K req env₂ s₂).1 =
        (passthrough K env₁.uid env₁.gid s₁.kernel req).reply := by
      rw [← hk₂, ← hu, ← hg]
      rw [← hk₂, ← hu, ← hg] at hkept
      rcases hkept with hok | hsave
      · exact dispatch_answers K req env₂ s₂ hok
      · exact dispatch_saved K hsave
    refine ⟨⟨_, hi₁, hi₂⟩, hkern₁.trans hkern₂.symm, hreply₁.trans hreply₂.symm, ?_⟩
    intro e he
    rw [hreply₁]
    exact passthrough_reply_error K he

/-- A failing `lstat` under a library that leaves another value in `errno`. -/
theorem transparent_getattr_clobbered :
    ¬ Transparent (oracleKernel (fun _ _ => .error enoent)) 0 0 [] (.getattr "/a".toList) := by
  intro h
  have hrun := h (hostile 0 0 enomem) (hostile 0 0 enomem) (Daemon.idle [] default)
    (Daemon.idle [] default) rfl rfl rfl rfl
  exact absurd (hrun.2.2.2 enoent rfl) (by decide)

end DistillerFS
