import DistillerFS.Daemon.Passthrough

/-!
# The branches of the handlers

A handler logs a success or a failure. It takes the branch of the outcome of its system calls,
except where it does not look at a result: that of `close` in a release, and the error at which
a directory stream ends.
-/
namespace DistillerFS

variable {σ : Type} (K : Kernel σ)

/-- The outcome of the system calls. -/
def Passthrough.outcome (p : Passthrough σ) : Outcome :=
  if p.error = none then .success else .failure

/-- A call fails, and the handler goes on as if it had succeeded. -/
def Unnoticed (k : σ) : Request → Prop
  | .release _ fh => ∃ e, (K.call (.close fh) k).1 = .error e
  | .readdir p filler => ∃ dir, (K.call (.opendir (getRelativePath p)) k).1 = .ok dir ∧
      (fillLoop filler [] dir.entries).2 = false ∧ dir.error ≠ none
  | _ => False

theorem Passthrough.outcome_error {p : Passthrough σ} {e : Errno} (h : p.error = some e) :
    p.outcome = .failure := by
  rw [outcome, h]
  rfl

theorem Passthrough.outcome_congr {p p' : Passthrough σ} (h : p.error = p'.error) :
    p.outcome = p'.outcome := by
  rw [outcome, outcome, h]

theorem Passthrough.create_error (k : σ) (c : SysCall) (path : CString) (uid gid : ℕ) :
    (Passthrough.create K k c path uid gid).error = errorOf (K.call c k).1 := by
  cases h : (K.call c k).1 <;>
    simp [Passthrough.create, Passthrough.andThen, Passthrough.single, h, errorOf]

theorem createNode_error (p : CString) (mode rdev : ℕ) (env : Env) (s : Daemon σ) (uid gid : ℕ) :
    errorOf (createNode K p mode rdev env s).1 =
      (Passthrough.mknod K s.kernel p mode rdev uid gid).error := by
  unfold createNode Passthrough.mknod
  split_ifs
  · cases h : (K.call (.open p (oCreat ||| oExcl ||| oWronly) mode) s.kernel).1 with
    | error e => simp [h, errorOf, Passthrough.single]
    | ok fd => simp [h, Passthrough.create_error]
  · simp [Passthrough.create_error]
  · simp [Passthrough.create_error]

/-- The body takes the branch of the outcome of its calls. -/
def Branches (m : HandlerM σ Reply) (env : Env) (s : Daemon σ) (p : Passthrough σ) : Prop :=
  (m env s).1.branch = p.outcome

section Bodies
variable (env : Env) (s : Daemon σ)

theorem pathHandler_branches (op : FuseOps) (f : BitVec 32) (p : CString) (call : CString → SysCall)
    (done : (path : CString) → (call path).Out → Reply) (hdone : ∀ path out, 0 ≤ (done path out).rc) :
    Branches (pathHandler K op f p call done) env s
      (.single K s.kernel (call (getRelativePath p)) (done _)) := by
  cases h : (K.call (call (getRelativePath p)) s.kernel).1 with
  | error e => simp [Branches, pathHandler, Passthrough.outcome, Passthrough.single, h, errorOf]
  | ok out =>
    simp [Branches, pathHandler, Passthrough.outcome, Passthrough.single, h, errorOf,
      Reply.branch_ok (hdone _ _)]

theorem directHandler_branches (op : FuseOps) (f : BitVec 32) (p : CString) (call : SysCall)
    (done : call.Out → Reply) (hdone : ∀ out, 0 ≤ (done out).rc) :
    Branches (directHandler K op f p call done) env s (.single K s.kernel call done) := by
  cases h : (K.call call s.kernel).1 with
  | error e => simp [Branches, directHandler, Passthrough.outcome, Passthrough.single, h, errorOf]
  | ok out =>
    simp [Branches, directHandler, Passthrough.outcome, Passthrough.single, h, errorOf,
      Reply.branch_ok (hdone _)]

theorem loggedFSReaddir_branches {p : CString}
    {filler : List (CString × StatBuf) → CString × StatBuf → Bool}
    (h : ¬ Unnoticed K s.kernel (.readdir p filler)) :
    Branches (loggedFSReaddir K p filler) env s
      (.readdir K s.kernel (getRelativePath p) filler) := by
  cases hdir : (K.call (.opendir (getRelativePath p)) s.kernel).1 with
  | error e => simp [Branches, loggedFSReaddir, Passthrough.outcome, Passthrough.readdir, hdir]
  | ok dir =>
    have hend : (if (fillLoop filler [] dir.entries).2 then none else dir.error) = none := by
      by_contra hne
      cases hfull : (fillLoop filler [] dir.entries).2 with
      | true => exact hne (if_pos hfull)
      | false => exact h ⟨dir, hdir, hfull, by simpa [hfull] using hne⟩
    simp [Branches, loggedFSReaddir, Passthrough.outcome, Passthrough.readdir, hdir, hend, Reply.branch]

theorem loggedFSMknod_branches (p : CString) (mode rdev : ℕ) :
    Branches (loggedFSMknod K p mode rdev) env s
      (.mknod K s.kernel (getRelativePath p) mode rdev env.uid env.gid) := by
  have hcreate := createNode_error K (getRelativePath p) mode rdev env (libCall env s).2 env.uid env.gid
  rw [libCall_kernel] at hcreate
  unfold Branches Passthrough.outcome
  rw [← hcreate]
  cases h : (createNode K (getRelativePath p) mode rdev env (libCall env s).2).1 with
  | error e => simp [loggedFSMknod, h, errorOf]
  | ok out => simp [loggedFSMknod, h, errorOf, Reply.branch]

theorem loggedFSMkdir_branches (p : CString) (mode : ℕ) :
    Branches (loggedFSMkdir K p mode) env s
      (.create K s.kernel (.mkdir (getRelativePath p) mode) (getRelativePath p) env.uid env.gid) := by
  unfold Branches Passthrough.outcome
  rw [Passthrough.create_error]
  cases h : (K.call (.mkdir (getRelativePath p) mode) s.kernel).1 <;>
    simp [loggedFSMkdir, h, errorOf, Reply.branch]

theorem loggedFSSymlink_branches (text p : CString) :
    Branches (loggedFSSymlink K text p) env s
      (.create K s.kernel (.symlink text (getRelativePath p)) (getRelativePath p) env.uid env.gid) := by
  unfold Branches Passthrough.outcome
  rw [Passthrough.create_error]
  cases h : (K.call (.symlink text (getRelativePath p)) s.kernel).1 <;>
    simp [loggedFSSymlink, h, errorOf, Reply.branch]

theorem loggedFSRename_branches (p q : CString) :
    Branches (loggedFSRename K p q) env s
      (.single K s.kernel (.rename (getRelativePath p) (getRelativePath q)) (fun _ => .ok)) := by
  cases h : (K.call (.rename (getRelativePath p) (getRelativePath q)) s.kernel).1 <;>
    simp [Branches, loggedFSRename, Passthrough.outcome, Passthrough.single, h, errorOf, Reply.branch]

theorem loggedFSLink_branches (p q : CString) :
    Branches (loggedFSLink K p q) env s
      (.create K s.kernel (.link (getRelativePath p) (getRelativePath q)) (getRelativePath q)
        env.uid env.gid) := by
  unfold Branches Passthrough.outcome
  rw [Passthrough.create_error]
  cases h : (K.call (.link (getRelativePath p) (getRelativePath q)) s.kernel).1 <;>
    simp [loggedFSLink, h, errorOf, Reply.branch]

theorem loggedFSWrite_branches (p buf : CString) (offset : ℕ) :
    Branches (loggedFSWrite K p buf offset) env s
      (.write K s.kernel (getRelativePath p) buf offset) := by
  cases h : (K.call (.open (getRelativePath p) oWronly 0) s.kernel).1 with
  | error e =>
    simp [Branches, loggedFSWrite, Passthrough.outcome, Passthrough.write, Passthrough.single, h, errorOf]
  | ok fd =>
    cases hw : (K.call (.pwrite fd buf offset)
        (K.call (.open (getRelativePath p) oWronly 0) s.kernel).2).1 <;>
      simp [Branches, loggedFSWrite, Passthrough.outcome, Passthrough.write, h, hw, errorOf]

end Bodies

theorem dispatch_branches {req : Request} {s : Daemon σ} (h : ¬ Unnoticed K s.kernel req) (env : Env) :
    Branches (dispatch K req) env s (passthrough K env.uid env.gid s.kernel req) := by
  cases req with
  | readdir p filler => exact loggedFSReaddir_branches K env s h
  | mknod p mode rdev => exact loggedFSMknod_branches K env s p mode rdev
  | mkdir p mode => exact loggedFSMkdir_branches K env s p mode
  | symlink text p => exact loggedFSSymlink_branches K env s text p
  | rename p q => exact loggedFSRename_branches K env s p q
  | link p q => exact loggedFSLink_branches K env s p q
  | write p buf offset fh => exact loggedFSWrite_branches K env s p buf offset
  | release p fh =>
    cases hclose : (K.call (.close fh) s.kernel).1 with
    | error e => exact absurd ⟨e, hclose⟩ h
    | ok out => simp [Branches, dispatch, loggedFSRelease, passthrough, Passthrough.outcome,
        Passthrough.single, hclose, errorOf, Reply.branch]
  | fsync p d fh => rfl
  | read | setxattr | getxattr | listxattr | removexattr =>
    exact directHandler_branches K env s _ _ _ _ _ (by simp)
  | _ => exact pathHandler_branches K env s _ _ _ _ _ (by simp)

/-- What goes unnoticed is a failure behind the branch of a success. -/
theorem dispatch_unnoticed {req : Request} {s : Daemon σ} (h : Unnoticed K s.kernel req) (env : Env) :
    (dispatch K req env s).1.branch = .success ∧
      (passthrough K env.uid env.gid s.kernel req).outcome = .failure := by
  cases req with
  | release p fh =>
    obtain ⟨e, he⟩ := h
    refine ⟨rfl, Passthrough.outcome_error (e := e) ?_⟩
    simp [passthrough, Passthrough.single, he, errorOf]
  | readdir p filler =>
    obtain ⟨dir, hdir, hfull, hend⟩ := h
    obtain ⟨e, he⟩ := Option.ne_none_iff_exists'.mp hend
    constructor
    · simp [dispatch, loggedFSReaddir, hdir, Reply.branch]
    · apply Passthrough.outcome_error (e := e)
      simp [passthrough, Passthrough.readdir, hdir, hfull, he]
  | _ => exact h.elim

/-- The caller does not matter for the outcome. -/
theorem passthrough_outcome_caller (uid gid uid' gid' : ℕ) (k : σ) (req : Request) :
    (passthrough K uid gid k req).outcome = (passthrough K uid' gid' k req).outcome := by
  cases req with
  | mknod p mode rdev =>
    apply Passthrough.outcome_congr
    simp only [passthrough, Passthrough.mknod]
    split_ifs
    · cases (K.call (.open (getRelativePath p) (oCreat ||| oExcl ||| oWronly) mode) k).1 with
      | error e => rfl
      | ok fd => simp only [Passthrough.create_error]
    · simp only [Passthrough.create_error]
    · simp only [Passthrough.create_error]
  | mkdir | symlink | link =>
    apply Passthrough.outcome_congr
    simp only [passthrough, Passthrough.create_error]
  | _ => rfl

/-- Which branch the handler takes depends on the kernel alone. -/
theorem dispatch_branch (req : Request) (env₁ env₂ : Env) {s₁ s₂ : Daemon σ}
    (hk : s₁.kernel = s₂.kernel) :
    (dispatch K req env₁ s₁).1.branch = (dispatch K req env₂ s₂).1.branch := by
  by_cases h : Unnoticed K s₁.kernel req
  · rw [(dispatch_unnoticed K h env₁).1, (dispatch_unnoticed K (hk ▸ h) env₂).1]
  · rw [dispatch_branches K h env₁, dispatch_branches K (hk ▸ h) env₂, hk]
    exact passthrough_outcome_caller K _ _ _ _ _ req

end DistillerFS
