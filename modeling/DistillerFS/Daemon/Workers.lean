import DistillerFS.Foundations.Threads
import DistillerFS.Daemon.Session

/-!
# The worker threads

libfuse runs the handlers in threads of one process. They share the kernel and the access
table; `errno` is each thread's own. System calls and the body of `Store_In_Hash` behind its
mutex are the steps that can meet, so the handlers are taken apart at these places.
-/
namespace DistillerFS
open Foundations

/-- What a handler does in one step. -/
inductive Action where
  | sys (c : SysCall)
  | lib
  | store (path : CString) (flag : BitVec 32)
  | errno
  | endOfStream (error : Option Errno)

@[reducible] def Action.Result : Action → Type
  | .sys c => Except Errno c.Out
  | .errno => Errno
  | _ => Unit

/-- The code of a handler as the steps it takes. -/
abbrev Steps (α : Type) := Foundations.Program Action.Result α

namespace Steps

abbrev sys (c : SysCall) : Steps (Except Errno c.Out) := Program.perform (Action.sys c)

abbrev lib : Steps Unit := Program.perform Action.lib

abbrev store (path : CString) (flag : BitVec 32) : Steps Unit :=
  Program.perform (Action.store path flag)

def relativePath (orig_path : CString) : Steps CString := do
  lib
  return getRelativePath orig_path

def returnErrno : Steps Reply := do
  let e ← Program.perform Action.errno
  return ⟨-((e : ℕ) : ℤ), .nothing⟩

section Handlers
variable (opFlags : OpFlags) (uid gid : ℕ)

def ifLogged (fuse_op : FuseOps) (state : BitVec 32) (body : Steps Unit) : Steps Unit :=
  if shouldLog opFlags fuse_op state then body else return ()

def pathHandler (op : FuseOps) (flag : BitVec 32) (orig_path : CString)
    (call : CString → SysCall) (done : (path : CString) → (call path).Out → Reply) :
    Steps Reply := do
  let path ← relativePath orig_path
  let res ← sys (call path)
  lib
  match res with
  | .error _ =>
    ifLogged opFlags op logUnsuccess (store orig_path flag)
    returnErrno
  | .ok out =>
    ifLogged opFlags op logSuccess (store orig_path flag)
    return done path out

def directHandler (op : FuseOps) (flag : BitVec 32) (orig_path : CString)
    (call : SysCall) (done : call.Out → Reply) : Steps Reply := do
  let res ← sys call
  match res with
  | .error _ =>
    ifLogged opFlags op logUnsuccess (store orig_path flag)
    returnErrno
  | .ok out =>
    ifLogged opFlags op logSuccess (store orig_path flag)
    return done out

def loggedFSReaddir (orig_path : CString)
    (filler : List (CString × StatBuf) → CString × StatBuf → Bool) : Steps Reply := do
  let path ← relativePath orig_path
  let dp ← sys (.opendir path)
  match dp with
  | .error _ =>
    let res ← returnErrno
    lib
    ifLogged opFlags .opReaddir logUnsuccess (store orig_path (flag .opReaddir))
    return res
  | .ok dir =>
    let filled := fillLoop filler [] dir.entries
    Program.perform (Action.endOfStream (if filled.2 then none else dir.error))
    let _ ← sys (.closedir dir.dp)
    lib
    ifLogged opFlags .opReaddir logSuccess (store orig_path (flag .opReaddir))
    return ⟨0, .entries filled.1⟩

def createNode (path : CString) (mode rdev : ℕ) : Steps (Except Errno Unit) :=
  if sIsreg mode then do
    let res ← sys (.open path (oCreat ||| oExcl ||| oWronly) mode)
    match res with
    | .error e => return .error e
    | .ok fd => sys (.close fd)
  else if sIsfifo mode then sys (.mkfifo path mode)
  else sys (.mknod path mode rdev)

def chownToCaller (path : CString) : Steps Unit := do
  let _ ← sys (.lchown path (some uid) (some gid))
  return ()

def loggedFSMknod (orig_path : CString) (mode rdev : ℕ) : Steps Reply := do
  let path ← relativePath orig_path
  let res ← createNode path mode rdev
  match res with
  | .error _ =>
    lib
    ifLogged opFlags .opMknod logUnsuccess (store orig_path (flag .opMknod))
    returnErrno
  | .ok _ =>
    chownToCaller uid gid path
    lib
    ifLogged opFlags .opMknod logSuccess (store orig_path (flag .opMknod))
    return .ok

def loggedFSMkdir (orig_path : CString) (mode : ℕ) : Steps Reply := do
  let path ← relativePath orig_path
  let res ← sys (.mkdir path mode)
  match res with
  | .error _ =>
    lib
    ifLogged opFlags .opMkdir logUnsuccess (store orig_path (flag .opMkdir))
    returnErrno
  | .ok _ =>
    chownToCaller uid gid path
    lib
    ifLogged opFlags .opMkdir logSuccess (store orig_path (flag .opMkdir))
    return .ok

def loggedFSSymlink (orig_from orig_to : CString) : Steps Reply := do
  let relTo ← relativePath orig_to
  let res ← sys (.symlink orig_from relTo)
  match res with
  | .error _ =>
    lib
    ifLogged opFlags .opSymlink logUnsuccess (do
      store orig_to (flag .opSymlink)
      store orig_from (flag .opSymlink))
    returnErrno
  | .ok _ =>
    chownToCaller uid gid relTo
    ifLogged opFlags .opSymlink logSuccess (do
      store orig_to (flag .opSymlink)
      store orig_from (flag .opSymlink))
    lib
    return .ok

def loggedFSRename (orig_from orig_to : CString) : Steps Reply := do
  let relFrom ← relativePath orig_from
  let relTo ← relativePath orig_to
  let res ← sys (.rename relFrom relTo)
  lib
  lib
  match res with
  | .error _ =>
    ifLogged opFlags .opRename logUnsuccess (do
      store orig_from (flag .opRename)
      store orig_to (flag .opRename))
    returnErrno
  | .ok _ =>
    ifLogged opFlags .opRename logSuccess (do
      store orig_from (flag .opRename)
      store orig_to (flag .opRename))
    return .ok

def loggedFSLink (orig_from orig_to : CString) : Steps Reply := do
  let relFrom ← relativePath orig_from
  let relTo ← relativePath orig_to
  let res ← sys (.link relFrom relTo)
  lib
  match res with
  | .error _ =>
    lib
    ifLogged opFlags .opLink logUnsuccess (do
      store orig_from (flag .opLink)
      store orig_to (flag .opLink))
    returnErrno
  | .ok _ =>
    chownToCaller uid gid relTo
    ifLogged opFlags .opLink logSuccess (do
      store orig_from (flag .opLink)
      store orig_to (flag .opLink))
    lib
    return .ok

def loggedFSWrite (orig_path buf : CString) (offset : ℕ) : Steps Reply := do
  let path ← relativePath orig_path
  let fd ← sys (.open path oWronly 0)
  match fd with
  | .error _ =>
    ifLogged opFlags .opWrite logUnsuccess (store orig_path (flag .opWrite))
    returnErrno
  | .ok fd =>
    let res ← sys (.pwrite fd buf offset)
    match res with
    | .error _ =>
      let res ← returnErrno
      ifLogged opFlags .opWrite logUnsuccess (store orig_path (flag .opWrite))
      let _ ← sys (.close fd)
      lib
      return res
    | .ok n =>
      ifLogged opFlags .opWrite logSuccess (store orig_path (flag .opWrite))
      let _ ← sys (.close fd)
      lib
      return ⟨n, .nothing⟩

def loggedFSRelease (orig_path : CString) (fh : ℕ) : Steps Reply := do
  store orig_path (flag .opRelease)
  let _ ← sys (.close fh)
  return .ok

def loggedFSFsync (orig_path : CString) : Steps Reply := do
  store orig_path (flag .opFsync)
  return .ok

def dispatch : Request → Steps Reply
  | .getattr orig_path => pathHandler opFlags .opGetattr (flag .opGetattr) orig_path
      (fun path => .lstat path) (fun _ stbuf => ⟨0, .stat stbuf⟩)
  | .access orig_path mask => pathHandler opFlags .opAccess (flag .opAccess) orig_path
      (fun path => .access path mask) (fun _ _ => .ok)
  | .readlink orig_path size => pathHandler opFlags .opReadlink (flag .opReadlink) orig_path
      (fun path => .readlink path ((size + (2 ^ 64 - 1)) % 2 ^ 64)) (fun _ buf => ⟨0, .bytes buf⟩)
  | .readdir orig_path filler => loggedFSReaddir opFlags orig_path filler
  | .mknod orig_path mode rdev => loggedFSMknod opFlags uid gid orig_path mode rdev
  | .mkdir orig_path mode => loggedFSMkdir opFlags uid gid orig_path mode
  | .symlink orig_from orig_to => loggedFSSymlink opFlags uid gid orig_from orig_to
  | .unlink orig_path => pathHandler opFlags .opUnlink (flag .opUnlink) orig_path
      (fun path => .unlink path) (fun _ _ => .ok)
  | .rmdir orig_path => pathHandler opFlags .opRmdir (flag .opRmdir) orig_path
      (fun path => .rmdir path) (fun _ _ => .ok)
  | .rename orig_from orig_to => loggedFSRename opFlags orig_from orig_to
  | .link orig_from orig_to => loggedFSLink opFlags uid gid orig_from orig_to
  | .chmod orig_path mode => pathHandler opFlags .opChmod (flag .opChmod) orig_path
      (fun path => .chmod path mode) (fun _ _ => .ok)
  | .chown orig_path newUid newGid => pathHandler opFlags .opChown (flag .opChown) orig_path
      (fun path => .lchown path newUid newGid) (fun _ _ => .ok)
  | .truncate orig_path size => pathHandler opFlags .opTruncate (flag .opTruncate) orig_path
      (fun path => .truncate path size) (fun _ _ => .ok)
  | .utime orig_path buf => pathHandler opFlags .opUtime (flag .opUtime) orig_path
      (fun path => .utime path buf) (fun _ _ => .ok)
  | .utimens orig_path ts => pathHandler opFlags .opUtimens (flag .opUtimens) orig_path
      (fun path => .utimensat path ts) (fun _ _ => .ok)
  | .open orig_path flags => pathHandler opFlags .opOpen (flag .opOpen) orig_path
      (fun path => .open path flags 0) (fun _ fd => ⟨0, .handle fd⟩)
  | .read orig_path size offset fh => directHandler opFlags .opRead (flag .opRead) orig_path
      (.pread fh size offset) (fun buf => ⟨buf.length, .bytes buf⟩)
  | .write orig_path buf offset _ => loggedFSWrite opFlags orig_path buf offset
  | .statfs orig_path => pathHandler opFlags .opStatfs (flag .opStatfs) orig_path
      (fun path => .statvfs path) (fun _ stbuf => ⟨0, .stat stbuf⟩)
  | .release orig_path fh => loggedFSRelease orig_path fh
  | .fsync orig_path _ _ => loggedFSFsync orig_path
  | .setxattr orig_path name value flags => directHandler opFlags .opSetxattr (flag .opSetxattr)
      orig_path (.lsetxattr orig_path name value flags) (fun _ => .ok)
  | .getxattr orig_path name size => directHandler opFlags .opGetxattr (flag .opGetxattr)
      orig_path (.lgetxattr orig_path name size) (fun res => ⟨res.len, .bytes res.data⟩)
  | .listxattr orig_path size => directHandler opFlags .opListxattr (flag .opListxattr)
      orig_path (.llistxattr orig_path size) (fun res => ⟨res.len, .bytes res.data⟩)
  | .removexattr orig_path name => directHandler opFlags .opRemovexattr (flag .opRemovexattr)
      orig_path (.lremovexattr orig_path name) (fun _ => .ok)

end Handlers

end Steps

section Alone
variable {σ α β : Type} (K : Kernel σ)

@[simp] def execAction : (a : Action) → HandlerM σ a.Result
  | .sys c => sys K c
  | .lib => libCall
  | .store path flag => store path flag
  | .errno => fun _ s => (s.errno, s)
  | .endOfStream error => endOfStream error

def exec : Steps α → HandlerM σ α
  | .done a => pure a
  | .act a next => execAction K a >>= fun r => exec (next r)

@[simp] theorem exec_done (a : α) (env : Env) (s : Daemon σ) :
    exec K (.done a : Steps α) env s = (a, s) := rfl

@[simp] theorem exec_act (a : Action) (next : a.Result → Steps α) (env : Env) (s : Daemon σ) :
    exec K (.act a next) env s =
      exec K (next (execAction K a env s).1) env (execAction K a env s).2 := rfl

@[simp] theorem exec_sys (c : SysCall) (env : Env) (s : Daemon σ) :
    exec K (Steps.sys c) env s = sys K c env s := rfl

@[simp] theorem exec_store (path : CString) (flag : BitVec 32) (env : Env) (s : Daemon σ) :
    exec K (Steps.store path flag) env s = store path flag env s := rfl

@[simp] theorem exec_bind (p : Steps α) (f : α → Steps β) (env : Env) (s : Daemon σ) :
    exec K (p >>= f) env s = exec K (f (exec K p env s).1) env (exec K p env s).2 := by
  induction p generalizing s with
  | done a => rfl
  | act a next ih =>
    rw [Program.act_bind, exec_act, exec_act]
    exact ih _ _

@[simp] theorem exec_relativePath (path : CString) (env : Env) (s : Daemon σ) :
    exec K (Steps.relativePath path) env s = relativePath path env s := rfl

@[simp] theorem exec_returnErrno (env : Env) (s : Daemon σ) :
    exec K Steps.returnErrno env s = returnErrno env s := rfl

@[simp] theorem exec_chownToCaller (path : CString) (env : Env) (s : Daemon σ) :
    exec K (Steps.chownToCaller env.uid env.gid path) env s = chownToCaller K path env s := rfl

@[simp] theorem exec_ifLogged (op : FuseOps) (state : BitVec 32) (body : Steps Unit) (env : Env)
    (s : Daemon σ) : exec K (Steps.ifLogged env.opFlags op state body) env s =
      if shouldLog env.opFlags op state then exec K body env s else ((), s) := by
  unfold Steps.ifLogged
  split_ifs <;> rfl

theorem exec_pathHandler (op : FuseOps) (f : BitVec 32) (p : CString) (call : CString → SysCall)
    (done : (path : CString) → (call path).Out → Reply) (env : Env) (s : Daemon σ) :
    exec K (Steps.pathHandler env.opFlags op f p call done) env s =
      pathHandler K op f p call done env s := by
  cases h : (K.call (call (getRelativePath p)) s.kernel).1 <;>
    simp [Steps.pathHandler, pathHandler, ifLogged, free, h]

theorem exec_directHandler (op : FuseOps) (f : BitVec 32) (p : CString) (call : SysCall)
    (done : call.Out → Reply) (env : Env) (s : Daemon σ) :
    exec K (Steps.directHandler env.opFlags op f p call done) env s =
      directHandler K op f p call done env s := by
  cases h : (K.call call s.kernel).1 <;> simp [Steps.directHandler, directHandler, ifLogged, h]

theorem exec_loggedFSReaddir (p : CString)
    (filler : List (CString × StatBuf) → CString × StatBuf → Bool) (env : Env) (s : Daemon σ) :
    exec K (Steps.loggedFSReaddir env.opFlags p filler) env s = loggedFSReaddir K p filler env s := by
  cases h : (K.call (.opendir (getRelativePath p)) s.kernel).1 <;>
    simp [Steps.loggedFSReaddir, loggedFSReaddir, ifLogged, free, h]

theorem exec_createNode (p : CString) (mode rdev : ℕ) (env : Env) (s : Daemon σ) :
    exec K (Steps.createNode p mode rdev) env s = createNode K p mode rdev env s := by
  unfold Steps.createNode createNode
  split_ifs
  · cases h : (K.call (.open p (oCreat ||| oExcl ||| oWronly) mode) s.kernel).1 with
    | error e => simp [h]
    | ok fd =>
      simp only [Program.perform_bind, exec_act, execAction, HandlerM.bind_apply, sys_result, h]
      rfl
  · rfl
  · rfl

theorem exec_loggedFSMknod (p : CString) (mode rdev : ℕ) (env : Env) (s : Daemon σ) :
    exec K (Steps.loggedFSMknod env.opFlags env.uid env.gid p mode rdev) env s =
      loggedFSMknod K p mode rdev env s := by
  cases h : (createNode K (getRelativePath p) mode rdev env (libCall env s).2).1 <;>
    simp [Steps.loggedFSMknod, loggedFSMknod, ifLogged, free, exec_createNode, h]

theorem exec_loggedFSMkdir (p : CString) (mode : ℕ) (env : Env) (s : Daemon σ) :
    exec K (Steps.loggedFSMkdir env.opFlags env.uid env.gid p mode) env s =
      loggedFSMkdir K p mode env s := by
  cases h : (K.call (.mkdir (getRelativePath p) mode) s.kernel).1 <;>
    simp [Steps.loggedFSMkdir, loggedFSMkdir, ifLogged, free, h]

theorem exec_loggedFSSymlink (text p : CString) (env : Env) (s : Daemon σ) :
    exec K (Steps.loggedFSSymlink env.opFlags env.uid env.gid text p) env s =
      loggedFSSymlink K text p env s := by
  cases h : (K.call (.symlink text (getRelativePath p)) s.kernel).1 <;>
    simp [Steps.loggedFSSymlink, loggedFSSymlink, ifLogged, free, h]

theorem exec_loggedFSRename (p q : CString) (env : Env) (s : Daemon σ) :
    exec K (Steps.loggedFSRename env.opFlags p q) env s = loggedFSRename K p q env s := by
  cases h : (K.call (.rename (getRelativePath p) (getRelativePath q)) s.kernel).1 <;>
    simp [Steps.loggedFSRename, loggedFSRename, ifLogged, free, h]

theorem exec_loggedFSLink (p q : CString) (env : Env) (s : Daemon σ) :
    exec K (Steps.loggedFSLink env.opFlags env.uid env.gid p q) env s =
      loggedFSLink K p q env s := by
  cases h : (K.call (.link (getRelativePath p) (getRelativePath q)) s.kernel).1 <;>
    simp [Steps.loggedFSLink, loggedFSLink, ifLogged, free, h]

theorem exec_loggedFSWrite (p buf : CString) (offset : ℕ) (env : Env) (s : Daemon σ) :
    exec K (Steps.loggedFSWrite env.opFlags p buf offset) env s =
      loggedFSWrite K p buf offset env s := by
  cases h : (K.call (.open (getRelativePath p) oWronly 0) s.kernel).1 with
  | error e => simp [Steps.loggedFSWrite, loggedFSWrite, ifLogged, free, h]
  | ok fd =>
    cases hw : (K.call (.pwrite fd buf offset)
        (K.call (.open (getRelativePath p) oWronly 0) s.kernel).2).1 <;>
      simp [Steps.loggedFSWrite, loggedFSWrite, ifLogged, free, h, hw]

/-- A thread alone runs the handlers as they are written. -/
theorem exec_dispatch (req : Request) (env : Env) (s : Daemon σ) :
    exec K (Steps.dispatch env.opFlags env.uid env.gid req) env s = dispatch K req env s := by
  cases req with
  | readdir p filler => exact exec_loggedFSReaddir K p filler env s
  | mknod p mode rdev => exact exec_loggedFSMknod K p mode rdev env s
  | mkdir p mode => exact exec_loggedFSMkdir K p mode env s
  | symlink text p => exact exec_loggedFSSymlink K text p env s
  | rename p q => exact exec_loggedFSRename K p q env s
  | link p q => exact exec_loggedFSLink K p q env s
  | write p buf offset fh => exact exec_loggedFSWrite K p buf offset env s
  | release p fh => rfl
  | fsync p d fh => rfl
  | read | setxattr | getxattr | listxattr | removexattr => exact exec_directHandler K _ _ _ _ _ env s
  | _ => exact exec_pathHandler K _ _ _ _ _ env s

end Alone

structure Shared (σ : Type) where
  kernel : σ
  table : Hash
  handed : List Event

/-- What a step may leave in the `errno` of its thread. The library may leave anything there. -/
def Action.Leaves (filter : FilterDesc) : (a : Action) → Errno → a.Result → Errno → Prop
  | .sys _, old, r, new => new = errnoAfter r old
  | .lib, _, _, _ => True
  | .store path _, old, _, new => filter.admits path = false → new = old
  | .errno, old, r, new => r = old ∧ new = old
  | .endOfStream error, old, _, new => new = error.getD old

section Pools
variable {σ α : Type} (K : Kernel σ) (filter : FilterDesc)

def Action.Changes : (a : Action) → Shared σ → a.Result → Shared σ → Prop
  | .sys c, s, r, s' => r = (K.call c s.kernel).1 ∧ s' = { s with kernel := (K.call c s.kernel).2 }
  | .store path flag, s, _, s' =>
    s' = { s with table := (storeInHash s.table filter (some path) flag).2
                  handed := s.handed ++ [⟨some path, flag⟩] }
  | .lib, s, _, s' | .errno, s, _, s' | .endOfStream _, s, _, s' => s' = s

def workers : Machine Action.Result (Shared σ) Errno where
  effect a s l r s' l' := a.Leaves filter l r l' ∧ a.Changes K filter s r s'

theorem workers_total : (workers K filter).Total := by
  intro a s l
  cases a with
  | sys c => exact ⟨_, _, _, rfl, rfl, rfl⟩
  | lib => exact ⟨(), s, l, trivial, rfl⟩
  | store path flag => exact ⟨(), _, l, fun _ => rfl, rfl⟩
  | errno => exact ⟨l, s, l, ⟨rfl, rfl⟩, rfl⟩
  | endOfStream error => exact ⟨(), s, _, rfl, rfl⟩

structure Incoming where
  req : Request
  uid : ℕ
  gid : ℕ

def serve (opFlags : OpFlags) : List Incoming → Steps (List Reply)
  | [] => return []
  | i :: rest => do
    let reply ← Steps.dispatch opFlags i.uid i.gid i.req
    let replies ← serve opFlags rest
    return reply :: replies

def mounted (cfg : Settings) (kernel : σ) (threads : List (Errno × List Incoming)) :
    Pool Action.Result (Shared σ) Errno (List Reply) :=
  ⟨⟨kernel, ∅, []⟩, threads.map (fun t => (t.1, serve cfg.opFlags t.2))⟩

/-- Two threads, one that looks a file up and one that makes a directory. -/
def twoThreads : List (Errno × List Incoming) :=
  [(enoent, [⟨.getattr "/a".toList, 0, 0⟩]), (eio, [⟨.mkdir "/b".toList 0o755, 1, 1⟩])]

/-- A kernel that denies everything, under settings that log this. -/
def denying : Kernel (List SysCall) := oracleKernel (fun _ _ => .error eacces)

def failuresLogged : Settings := ⟨fun _ => logUnsuccess, ⟨[], []⟩⟩

def Daemon.shared (s : Daemon σ) : Shared σ := ⟨s.kernel, s.table, s.handed⟩

theorem execAction_effect (a : Action) (env : Env) (s : Daemon σ) (hfilter : env.gFilter = filter) :
    (workers K filter).effect a s.shared s.errno (execAction K a env s).1
      (execAction K a env s).2.shared (execAction K a env s).2.errno := by
  subst hfilter
  cases a with
  | sys c => exact ⟨rfl, rfl, rfl⟩
  | lib => exact ⟨trivial, rfl⟩
  | store path flag =>
    refine ⟨fun h => ?_, rfl⟩
    simp [store, h]
  | errno => exact ⟨⟨rfl, rfl⟩, rfl⟩
  | endOfStream error => exact ⟨rfl, rfl⟩

/-- A thread that is not disturbed is a run of the pool. -/
theorem exec_runs (p : Steps α) (env : Env) (s : Daemon σ) (hfilter : env.gFilter = filter)
    (before after : List (Errno × Steps α)) : ∃ labels,
      Run (workers K filter) ⟨s.shared, before ++ (s.errno, p) :: after⟩ labels
        ⟨(exec K p env s).2.shared,
          before ++ ((exec K p env s).2.errno, .done (exec K p env s).1) :: after⟩ := by
  induction p generalizing s with
  | done a => exact ⟨[], .nil _⟩
  | act a next ih =>
    obtain ⟨labels, hrun⟩ := ih _ (execAction K a env s).2
    exact ⟨_, .cons (.act (execAction_effect K filter a env s hfilter)) hrun⟩

/-- A handler that the other threads do not disturb. -/
theorem dispatch_runs (req : Request) (env : Env) (s : Daemon σ) (hfilter : env.gFilter = filter)
    (before after : List (Errno × Steps Reply)) : ∃ labels, Run (workers K filter)
      ⟨s.shared, before ++ (s.errno, Steps.dispatch env.opFlags env.uid env.gid req) :: after⟩ labels
      ⟨(dispatch K req env s).2.shared,
        before ++ ((dispatch K req env s).2.errno, .done (dispatch K req env s).1) :: after⟩ := by
  rw [← exec_dispatch]
  exact exec_runs K filter _ env s hfilter before after

end Pools

end DistillerFS
