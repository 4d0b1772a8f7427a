import DistillerFS.Daemon.HandlerSpec

/-!
# The operations without logging

What each request does to the file system and answers to its caller when nothing
is recorded: the calls, the kernel they lead to, and the error of the call the
operation stands for. Every handler issues exactly these calls.
-/
namespace DistillerFS

variable {σ : Type} (K : Kernel σ)

structure Passthrough (σ : Type) where
  reply : Reply
  error : Option Errno
  calls : List SysCall
  kernel : σ

def errorOf {α : Type} : Except Errno α → Option Errno
  | .error e => some e
  | .ok _ => none

def replyOf {α : Type} (done : α → Reply) : Except Errno α → Reply
  | .error e => ⟨-((e : ℕ) : ℤ), .nothing⟩
  | .ok out => done out

def Passthrough.single (k : σ) (c : SysCall) (done : c.Out → Reply) : Passthrough σ where
  reply := replyOf done (K.call c k).1
  error := errorOf (K.call c k).1
  calls := [c]
  kernel := (K.call c k).2

/-- More calls after a step that went well; their results are not looked at. -/
def Passthrough.andThen (p : Passthrough σ) (next : List SysCall) : Passthrough σ :=
  match p.error with
  | some _ => p
  | none => { p with calls := p.calls ++ next, kernel := next.foldl (fun k c => (K.call c k).2) p.kernel }

/-- One call, and the ownership fix behind it. -/
def Passthrough.create (k : σ) (c : SysCall) (path : CString) (uid gid : ℕ) : Passthrough σ :=
  (Passthrough.single K k c (fun _ => .ok)).andThen K [.lchown path (some uid) (some gid)]

def Passthrough.mknod (k : σ) (path : CString) (mode rdev uid gid : ℕ) : Passthrough σ :=
  if sIsreg mode then
    match (K.call (.open path (oCreat ||| oExcl ||| oWronly) mode) k).1 with
    | .error _ => .single K k (.open path (oCreat ||| oExcl ||| oWronly) mode) (fun _ => .ok)
    | .ok fd =>
      let opened := (K.call (.open path (oCreat ||| oExcl ||| oWronly) mode) k).2
      let closed := Passthrough.create K opened (.close fd) path uid gid
      { closed with calls := .open path (oCreat ||| oExcl ||| oWronly) mode :: closed.calls }
  else if sIsfifo mode then .create K k (.mkfifo path mode) path uid gid
  else .create K k (.mknod path mode rdev) path uid gid

def Passthrough.readdir (k : σ) (path : CString)
    (filler : List (CString × StatBuf) → CString × StatBuf → Bool) : Passthrough σ :=
  match (K.call (.opendir path) k).1 with
  | .error e => { reply := ⟨-((e : ℕ) : ℤ), .nothing⟩, error := some e, calls := [.opendir path],
                  kernel := (K.call (.opendir path) k).2 }
  | .ok dir =>
    let filled := fillLoop filler [] dir.entries
    let error := if filled.2 then none else dir.error
    { reply := match error with
        | some e => ⟨-((e : ℕ) : ℤ), .nothing⟩
        | none => ⟨0, .entries filled.1⟩
      error := error
      calls := [.opendir path, .closedir dir.dp]
      kernel := (K.call (.closedir dir.dp) (K.call (.opendir path) k).2).2 }

def Passthrough.write (k : σ) (path buf : CString) (offset : ℕ) : Passthrough σ :=
  match (K.call (.open path oWronly 0) k).1 with
  | .error _ => .single K k (.open path oWronly 0) (fun _ => .ok)
  | .ok fd =>
    let opened := (K.call (.open path oWronly 0) k).2
    let written := (K.call (.pwrite fd buf offset) opened)
    { reply := replyOf (fun n => ⟨(n : ℕ), .nothing⟩) written.1
      error := errorOf written.1
      calls := [.open path oWronly 0, .pwrite fd buf offset, .close fd]
      kernel := (K.call (.close fd) written.2).2 }

/-- The file-system operation behind each request, for the caller `uid`, `gid`. -/
def passthrough (uid gid : ℕ) (k : σ) : Request → Passthrough σ
  | .getattr p => .single K k (.lstat (getRelativePath p)) (fun stbuf => ⟨0, .stat stbuf⟩)
  | .access p mask => .single K k (.access (getRelativePath p) mask) (fun _ => .ok)
  | .readlink p size => .single K k
      (.readlink (getRelativePath p) ((size + (2 ^ 64 - 1)) % 2 ^ 64)) (fun buf => ⟨0, .bytes buf⟩)
  | .readdir p filler => .readdir K k (getRelativePath p) filler
  | .mknod p mode rdev => .mknod K k (getRelativePath p) mode rdev uid gid
  | .mkdir p mode => .create K k (.mkdir (getRelativePath p) mode) (getRelativePath p) uid gid
  | .symlink text p => .create K k (.symlink text (getRelativePath p)) (getRelativePath p) uid gid
  | .unlink p => .single K k (.unlink (getRelativePath p)) (fun _ => .ok)
  | .rmdir p => .single K k (.rmdir (getRelativePath p)) (fun _ => .ok)
  | .rename p q => .single K k (.rename (getRelativePath p) (getRelativePath q)) (fun _ => .ok)
  | .link p q => .create K k (.link (getRelativePath p) (getRelativePath q)) (getRelativePath q)
      uid gid
  | .chmod p mode => .single K k (.chmod (getRelativePath p) mode) (fun _ => .ok)
  | .chown p u g => .single K k (.lchown (getRelativePath p) u g) (fun _ => .ok)
  | .truncate p size => .single K k (.truncate (getRelativePath p) size) (fun _ => .ok)
  | .utime p buf => .single K k (.utime (getRelativePath p) buf) (fun _ => .ok)
  | .utimens p ts => .single K k (.utimensat (getRelativePath p) ts) (fun _ => .ok)
  | .open p flags => .single K k (.open (getRelativePath p) flags 0) (fun fd => ⟨0, .handle fd⟩)
  | .read _ size offset fh => .single K k (.pread fh size offset)
      (fun buf => ⟨buf.length, .bytes buf⟩)
  | .write p buf offset _ => .write K k (getRelativePath p) buf offset
  | .statfs p => .single K k (.statvfs (getRelativePath p)) (fun stbuf => ⟨0, .stat stbuf⟩)
  | .release _ fh => .single K k (.close fh) (fun _ => .ok)
  | .fsync _ _ _ => { reply := .ok, error := none, calls := [], kernel := k }
  | .setxattr p name value flags => .single K k (.lsetxattr p name value flags) (fun _ => .ok)
  | .getxattr p name size => .single K k (.lgetxattr p name size)
      (fun res => ⟨res.len, .bytes res.data⟩)
  | .listxattr p size => .single K k (.llistxattr p size) (fun res => ⟨res.len, .bytes res.data⟩)
  | .removexattr p name => .single K k (.lremovexattr p name) (fun _ => .ok)

def afterCalls (k : σ) (calls : List SysCall) : σ := calls.foldl (fun k c => (K.call c k).2) k

theorem afterCalls_append (k : σ) (calls calls' : List SysCall) :
    afterCalls K k (calls ++ calls') = afterCalls K (afterCalls K k calls) calls' :=
  List.foldl_append

/-- The kernel of an operation is the one its calls lead to. -/
def Passthrough.FollowsCalls (k : σ) (p : Passthrough σ) : Prop := p.kernel = afterCalls K k p.calls

theorem Passthrough.create_follows (k : σ) (c : SysCall) (path : CString) (uid gid : ℕ) :
    (Passthrough.create K k c path uid gid).FollowsCalls K k := by
  unfold Passthrough.create Passthrough.andThen
  cases h : (Passthrough.single K k c (fun _ => .ok)).error <;> rfl

theorem Passthrough.mknod_follows (k : σ) (path : CString) (mode rdev uid gid : ℕ) :
    (Passthrough.mknod K k path mode rdev uid gid).FollowsCalls K k := by
  unfold Passthrough.mknod
  by_cases hreg : sIsreg mode = true
  · rw [if_pos hreg]
    cases (K.call (.open path (oCreat ||| oExcl ||| oWronly) mode) k).1 with
    | error e => rfl
    | ok fd => exact Passthrough.create_follows K _ (.close fd) path uid gid
  · rw [if_neg hreg]
    split_ifs <;> exact Passthrough.create_follows K k _ path uid gid

theorem passthrough_follows (uid gid : ℕ) (k : σ) (req : Request) :
    (passthrough K uid gid k req).FollowsCalls K k := by
  cases req with
  | readdir p filler =>
    simp only [passthrough, Passthrough.readdir]
    cases (K.call (.opendir (getRelativePath p)) k).1 <;> rfl
  | write p buf offset fh =>
    simp only [passthrough, Passthrough.write]
    cases (K.call (.open (getRelativePath p) oWronly 0) k).1 <;> rfl
  | mknod p mode rdev => exact Passthrough.mknod_follows K k _ mode rdev uid gid
  | mkdir | symlink | link => exact Passthrough.create_follows K k _ _ uid gid
  | _ => rfl

/-- The body makes the calls of `p` and leaves its kernel, whatever is recorded. -/
def Issues (m : HandlerM σ Reply) (env : Env) (s : Daemon σ) (p : Passthrough σ) : Prop :=
  (m env s).2.issued = s.issued ++ p.calls ∧ (m env s).2.kernel = p.kernel

section Logging
variable (op : FuseOps) (state f : BitVec 32) (p q : CString) (env : Env) (s : Daemon σ)

@[simp] theorem ifLogged_store_kernel :
    (ifLogged op state (store p f) env s).2.kernel = s.kernel := by
  unfold ifLogged
  split_ifs <;> simp

@[simp] theorem ifLogged_store_issued :
    (ifLogged op state (store p f) env s).2.issued = s.issued := by
  unfold ifLogged
  split_ifs <;> simp

@[simp] theorem ifLogged_store₂_kernel :
    (ifLogged op state (do store p f; store q f) env s).2.kernel = s.kernel := by
  unfold ifLogged
  split_ifs <;> simp

@[simp] theorem ifLogged_store₂_issued :
    (ifLogged op state (do store p f; store q f) env s).2.issued = s.issued := by
  unfold ifLogged
  split_ifs <;> simp

end Logging

theorem pathHandler_issues (op : FuseOps) (f : BitVec 32) (p : CString) (call : CString → SysCall)
    (done : (path : CString) → (call path).Out → Reply) (env : Env) (s : Daemon σ) :
    Issues (pathHandler K op f p call done) env s
      (.single K s.kernel (call (getRelativePath p)) (done _)) := by
  cases h : (K.call (call (getRelativePath p)) s.kernel).1 <;>
    simp [Issues, pathHandler, Passthrough.single, h]

theorem directHandler_issues (op : FuseOps) (f : BitVec 32) (p : CString) (call : SysCall)
    (done : call.Out → Reply) (env : Env) (s : Daemon σ) :
    Issues (directHandler K op f p call done) env s (.single K s.kernel call done) := by
  cases h : (K.call call s.kernel).1 <;> simp [Issues, directHandler, Passthrough.single, h]

theorem loggedFSReaddir_issues (p : CString)
    (filler : List (CString × StatBuf) → CString × StatBuf → Bool) (env : Env) (s : Daemon σ) :
    Issues (loggedFSReaddir K p filler) env s
      (.readdir K s.kernel (getRelativePath p) filler) := by
  cases h : (K.call (.opendir (getRelativePath p)) s.kernel).1 <;>
    simp [Issues, loggedFSReaddir, Passthrough.readdir, h]

theorem loggedFSMknod_issues (p : CString) (mode rdev : ℕ) (env : Env) (s : Daemon σ) :
    Issues (loggedFSMknod K p mode rdev) env s
      (.mknod K s.kernel (getRelativePath p) mode rdev env.uid env.gid) := by
  unfold Issues loggedFSMknod createNode Passthrough.mknod
  split_ifs with hreg hfifo
  · cases ho : (K.call (.open (getRelativePath p) (oCreat ||| oExcl ||| oWronly) mode) s.kernel).1 with
    | error e => simp [ho, Passthrough.single]
    | ok fd =>
      cases hc : (K.call (.close fd) (K.call (.open (getRelativePath p)
          (oCreat ||| oExcl ||| oWronly) mode) s.kernel).2).1 <;>
        simp [ho, hc, Passthrough.create, Passthrough.single, Passthrough.andThen, errorOf]
  · cases h : (K.call (.mkfifo (getRelativePath p) mode) s.kernel).1 <;>
      simp [h, Passthrough.create, Passthrough.single, Passthrough.andThen, errorOf]
  · cases h : (K.call (.mknod (getRelativePath p) mode rdev) s.kernel).1 <;>
      simp [h, Passthrough.create, Passthrough.single, Passthrough.andThen, errorOf]

theorem loggedFSMkdir_issues (p : CString) (mode : ℕ) (env : Env) (s : Daemon σ) :
    Issues (loggedFSMkdir K p mode) env s
      (.create K s.kernel (.mkdir (getRelativePath p) mode) (getRelativePath p) env.uid env.gid) := by
  cases h : (K.call (.mkdir (getRelativePath p) mode) s.kernel).1 <;>
    simp [Issues, loggedFSMkdir, h, Passthrough.create, Passthrough.single, Passthrough.andThen, errorOf]

theorem loggedFSSymlink_issues (text p : CString) (env : Env) (s : Daemon σ) :
    Issues (loggedFSSymlink K text p) env s
      (.create K s.kernel (.symlink text (getRelativePath p)) (getRelativePath p) env.uid env.gid) := by
  cases h : (K.call (.symlink text (getRelativePath p)) s.kernel).1 <;>
    simp [Issues, loggedFSSymlink, h, Passthrough.create, Passthrough.single, Passthrough.andThen, errorOf]

theorem loggedFSRename_issues (p q : CString) (env : Env) (s : Daemon σ) :
    Issues (loggedFSRename K p q) env s
      (.single K s.kernel (.rename (getRelativePath p) (getRelativePath q)) (fun _ => .ok)) := by
  cases h : (K.call (.rename (getRelativePath p) (getRelativePath q)) s.kernel).1 <;>
    simp [Issues, loggedFSRename, h, Passthrough.single]

theorem loggedFSLink_issues (p q : CString) (env : Env) (s : Daemon σ) :
    Issues (loggedFSLink K p q) env s
      (.create K s.kernel (.link (getRelativePath p) (getRelativePath q)) (getRelativePath q)
        env.uid env.gid) := by
  cases h : (K.call (.link (getRelativePath p) (getRelativePath q)) s.kernel).1 <;>
    simp [Issues, loggedFSLink, h, Passthrough.create, Passthrough.single, Passthrough.andThen, errorOf]

theorem loggedFSWrite_issues (p buf : CString) (offset : ℕ) (env : Env) (s : Daemon σ) :
    Issues (loggedFSWrite K p buf offset) env s
      (.write K s.kernel (getRelativePath p) buf offset) := by
  cases h : (K.call (.open (getRelativePath p) oWronly 0) s.kernel).1 with
  | error e => simp [Issues, loggedFSWrite, Passthrough.write, Passthrough.single, h]
  | ok fd =>
    cases hw : (K.call (.pwrite fd buf offset)
        (K.call (.open (getRelativePath p) oWronly 0) s.kernel).2).1 <;>
      simp [Issues, loggedFSWrite, Passthrough.write, h, hw]

/-- The handle that `open` hands out is the descriptor of its call. -/
theorem loggedFSOpen_out (p : CString) (flags : ℕ) (env : Env) (s : Daemon σ) :
    (loggedFSOpen K p flags env s).1.out =
      (replyOf (fun fd => ⟨0, .handle fd⟩)
        (K.call (.open (getRelativePath p) flags 0) s.kernel).1).out := by
  cases h : (K.call (.open (getRelativePath p) flags 0) s.kernel).1 <;>
    simp [loggedFSOpen, pathHandler, h, replyOf]

/-- Every handler issues the calls of the operation it stands for, and no others. -/
theorem dispatch_issues (req : Request) (env : Env) (s : Daemon σ) :
    Issues (dispatch K req) env s (passthrough K env.uid env.gid s.kernel req) := by
  cases req with
  | readdir p filler => exact loggedFSReaddir_issues K p filler env s
  | mknod p mode rdev => exact loggedFSMknod_issues K p mode rdev env s
  | mkdir p mode => exact loggedFSMkdir_issues K p mode env s
  | symlink text p => exact loggedFSSymlink_issues K text p env s
  | rename p q => exact loggedFSRename_issues K p q env s
  | link p q => exact loggedFSLink_issues K p q env s
  | write p buf offset fh => exact loggedFSWrite_issues K p buf offset env s
  | release p fh => exact ⟨rfl, rfl⟩
  | fsync p d fh => exact ⟨(List.append_nil _).symm, rfl⟩
  | read | setxattr | getxattr | listxattr | removexattr => exact directHandler_issues K _ _ _ _ _ env s
  | _ => exact pathHandler_issues K _ _ _ _ _ env s

/-- What every system call keeps, every handler keeps. -/
theorem dispatch_kernel_invariant {P : σ → Prop} (hcall : ∀ c k, P k → P (K.call c k).2)
    (req : Request) (env : Env) (s : Daemon σ) (h : P s.kernel) :
    P (dispatch K req env s).2.kernel := by
  rw [(dispatch_issues K req env s).2, passthrough_follows K env.uid env.gid s.kernel req]
  generalize (passthrough K env.uid env.gid s.kernel req).calls = calls
  induction calls using List.reverseRecOn with
  | nil => exact h
  | append_singleton calls c ih =>
    rw [afterCalls_append]
    exact hcall c _ ih

end DistillerFS
