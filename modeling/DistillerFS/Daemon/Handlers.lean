import DistillerFS.Daemon.SystemCalls
import Mathlib.Data.Nat.Bitwise

/-!
# The operation handlers

The `loggedFS_*` callbacks, statement by statement. Most of them share one of two
shapes: one call on the translated path, or one call that takes no path of its
own. The others keep their own bodies.
-/
namespace DistillerFS

variable {σ : Type} (K : Kernel σ)

inductive Output where
  | nothing
  | stat (buf : StatBuf)
  | bytes (buf : CString)
  | entries (buf : List (CString × StatBuf))
  | handle (fh : ℕ)
  deriving DecidableEq, Repr

structure Reply where
  rc : ℤ
  out : Output
  deriving DecidableEq, Repr

abbrev Reply.ok : Reply := ⟨0, .nothing⟩

def returnErrno : HandlerM σ Reply := do
  let res ← negErrno
  return ⟨res, .nothing⟩

abbrev free : HandlerM σ Unit := libCall

/-- The shape of the handlers that translate one path, make one call with it, free
it, log the outcome and return. -/
def pathHandler (op : FuseOps) (flag : BitVec 32) (orig_path : CString)
    (call : CString → SysCall) (done : (path : CString) → (call path).Out → Reply) :
    HandlerM σ Reply := do
  let path ← relativePath orig_path
  let res ← sys K (call path)
  free
  match res with
  | .error _ =>
    ifLogged op logUnsuccess (store orig_path flag)
    returnErrno
  | .ok out =>
    ifLogged op logSuccess (store orig_path flag)
    return done path out

def directHandler (op : FuseOps) (flag : BitVec 32) (orig_path : CString)
    (call : SysCall) (done : call.Out → Reply) : HandlerM σ Reply := do
  let res ← sys K call
  match res with
  | .error _ =>
    ifLogged op logUnsuccess (store orig_path flag)
    returnErrno
  | .ok out =>
    ifLogged op logSuccess (store orig_path flag)
    return done out

def loggedFSGetattr (orig_path : CString) : HandlerM σ Reply :=
  pathHandler K .opGetattr (flag .opGetattr) orig_path (fun path => .lstat path)
    (fun _ stbuf => ⟨0, .stat stbuf⟩)

def loggedFSAccess (orig_path : CString) (mask : ℕ) : HandlerM σ Reply :=
  pathHandler K .opAccess (flag .opAccess) orig_path (fun path => .access path mask)
    (fun _ _ => .ok)

/-- `size - 1` is computed in `size_t`. -/
def loggedFSReadlink (orig_path : CString) (size : ℕ) : HandlerM σ Reply :=
  pathHandler K .opReadlink (flag .opReadlink) orig_path
    (fun path => .readlink path ((size + (2 ^ 64 - 1)) % 2 ^ 64)) (fun _ buf => ⟨0, .bytes buf⟩)

/-- The `readdir` loop: what was filled before the stream or the buffer ended, and
whether the filler stopped it. -/
def fillLoop (filler : List (CString × StatBuf) → CString × StatBuf → Bool) :
    List (CString × StatBuf) → List Dirent → List (CString × StatBuf) × Bool
  | buf, [] => (buf, false)
  | buf, de :: rest =>
    let entry := (de.dName, [de.dIno, de.dType <<< 12])
    if filler buf entry then (buf, true) else fillLoop filler (buf ++ [entry]) rest

/-- A NULL from `readdir` sets `errno` only when it stands for an error. -/
def endOfStream (error : Option Errno) : HandlerM σ Unit := fun _ s =>
  ((), { s with errno := error.getD s.errno })

def loggedFSReaddir (orig_path : CString)
    (filler : List (CString × StatBuf) → CString × StatBuf → Bool) : HandlerM σ Reply := do
  let path ← relativePath orig_path
  let dp ← sys K (.opendir path)
  match dp with
  | .error _ =>
    let res ← negErrno
    free
    ifLogged .opReaddir logUnsuccess (store orig_path (flag .opReaddir))
    return ⟨res, .nothing⟩
  | .ok dir =>
    let filled := fillLoop filler [] dir.entries
    endOfStream (if filled.2 then none else dir.error)
    let _ ← sys K (.closedir dir.dp)
    free
    ifLogged .opReaddir logSuccess (store orig_path (flag .opReaddir))
    return ⟨0, .entries filled.1⟩

def sIsreg (mode : ℕ) : Bool := mode &&& 0o170000 == 0o100000
def sIsfifo (mode : ℕ) : Bool := mode &&& 0o170000 == 0o010000

/-- The three ways `loggedFS_mknod` creates a node; the result of `close` replaces
the result of `open`. -/
def createNode (path : CString) (mode rdev : ℕ) : HandlerM σ (Except Errno Unit) :=
  if sIsreg mode then do
    let res ← sys K (.open path (oCreat ||| oExcl ||| oWronly) mode)
    match res with
    | .error e => return .error e
    | .ok fd => sys K (.close fd)
  else if sIsfifo mode then sys K (.mkfifo path mode)
  else sys K (.mknod path mode rdev)

/-- `lchown(path, fuse_get_context()->uid, fuse_get_context()->gid)`, result ignored. -/
def chownToCaller (path : CString) : HandlerM σ Unit := fun env s =>
  ((), (sys K (.lchown path (some env.uid) (some env.gid)) env s).2)

def loggedFSMknod (orig_path : CString) (mode rdev : ℕ) : HandlerM σ Reply := do
  let path ← relativePath orig_path
  let res ← createNode K path mode rdev
  match res with
  | .error _ =>
    free
    ifLogged .opMknod logUnsuccess (store orig_path (flag .opMknod))
    returnErrno
  | .ok _ =>
    chownToCaller K path
    free
    ifLogged .opMknod logSuccess (store orig_path (flag .opMknod))
    return .ok

def loggedFSMkdir (orig_path : CString) (mode : ℕ) : HandlerM σ Reply := do
  let path ← relativePath orig_path
  let res ← sys K (.mkdir path mode)
  match res with
  | .error _ =>
    free
    ifLogged .opMkdir logUnsuccess (store orig_path (flag .opMkdir))
    returnErrno
  | .ok _ =>
    chownToCaller K path
    free
    ifLogged .opMkdir logSuccess (store orig_path (flag .opMkdir))
    return .ok

def loggedFSUnlink (orig_path : CString) : HandlerM σ Reply :=
  pathHandler K .opUnlink (flag .opUnlink) orig_path (fun path => .unlink path) (fun _ _ => .ok)

def loggedFSRmdir (orig_path : CString) : HandlerM σ Reply :=
  pathHandler K .opRmdir (flag .opRmdir) orig_path (fun path => .rmdir path) (fun _ _ => .ok)

/-- Both names are stored, the new name first. `orig_from` is the text of the link. -/
def loggedFSSymlink (orig_from orig_to : CString) : HandlerM σ Reply := do
  let relTo ← relativePath orig_to
  let res ← sys K (.symlink orig_from relTo)
  match res with
  | .error _ =>
    free
    ifLogged .opSymlink logUnsuccess (do
      store orig_to (flag .opSymlink)
      store orig_from (flag .opSymlink))
    returnErrno
  | .ok _ =>
    chownToCaller K relTo
    ifLogged .opSymlink logSuccess (do
      store orig_to (flag .opSymlink)
      store orig_from (flag .opSymlink))
    free
    return .ok

def loggedFSRename (orig_from orig_to : CString) : HandlerM σ Reply := do
  let relFrom ← relativePath orig_from
  let relTo ← relativePath orig_to
  let res ← sys K (.rename relFrom relTo)
  free
  free
  match res with
  | .error _ =>
    ifLogged .opRename logUnsuccess (do
      store orig_from (flag .opRename)
      store orig_to (flag .opRename))
    returnErrno
  | .ok _ =>
    ifLogged .opRename logSuccess (do
      store orig_from (flag .opRename)
      store orig_to (flag .opRename))
    return .ok

def loggedFSLink (orig_from orig_to : CString) : HandlerM σ Reply := do
  let relFrom ← relativePath orig_from
  let relTo ← relativePath orig_to
  let res ← sys K (.link relFrom relTo)
  free
  match res with
  | .error _ =>
    free
    ifLogged .opLink logUnsuccess (do
      store orig_from (flag .opLink)
      store orig_to (flag .opLink))
    returnErrno
  | .ok _ =>
    chownToCaller K relTo
    ifLogged .opLink logSuccess (do
      store orig_from (flag .opLink)
      store orig_to (flag .opLink))
    free
    return .ok

def loggedFSChmod (orig_path : CString) (mode : ℕ) : HandlerM σ Reply :=
  pathHandler K .opChmod (flag .opChmod) orig_path (fun path => .chmod path mode) (fun _ _ => .ok)

def loggedFSChown (orig_path : CString) (uid gid : Option ℕ) : HandlerM σ Reply :=
  pathHandler K .opChown (flag .opChown) orig_path (fun path => .lchown path uid gid)
    (fun _ _ => .ok)

def loggedFSTruncate (orig_path : CString) (size : ℕ) : HandlerM σ Reply :=
  pathHandler K .opTruncate (flag .opTruncate) orig_path (fun path => .truncate path size)
    (fun _ _ => .ok)

def loggedFSUtime (orig_path : CString) (buf : List ℕ) : HandlerM σ Reply :=
  pathHandler K .opUtime (flag .opUtime) orig_path (fun path => .utime path buf) (fun _ _ => .ok)

def loggedFSUtimens (orig_path : CString) (ts : List ℕ) : HandlerM σ Reply :=
  pathHandler K .opUtimens (flag .opUtimens) orig_path (fun path => .utimensat path ts)
    (fun _ _ => .ok)

def loggedFSOpen (orig_path : CString) (flags : ℕ) : HandlerM σ Reply :=
  pathHandler K .opOpen (flag .opOpen) orig_path (fun path => .open path flags 0)
    (fun _ fd => ⟨0, .handle fd⟩)

def loggedFSRead (orig_path : CString) (size offset fh : ℕ) : HandlerM σ Reply :=
  directHandler K .opRead (flag .opRead) orig_path (.pread fh size offset)
    (fun buf => ⟨buf.length, .bytes buf⟩)

/-- The handle in `fi` is not used: the file is opened again by its path. -/
def loggedFSWrite (orig_path buf : CString) (offset : ℕ) : HandlerM σ Reply := do
  let path ← relativePath orig_path
  let fd ← sys K (.open path oWronly 0)
  match fd with
  | .error _ =>
    ifLogged .opWrite logUnsuccess (store orig_path (flag .opWrite))
    returnErrno
  | .ok fd =>
    let res ← sys K (.pwrite fd buf offset)
    match res with
    | .error _ =>
      let res ← negErrno
      ifLogged .opWrite logUnsuccess (store orig_path (flag .opWrite))
      let _ ← sys K (.close fd)
      free
      return ⟨res, .nothing⟩
    | .ok n =>
      ifLogged .opWrite logSuccess (store orig_path (flag .opWrite))
      let _ ← sys K (.close fd)
      free
      return ⟨n, .nothing⟩

def loggedFSStatfs (orig_path : CString) : HandlerM σ Reply :=
  pathHandler K .opStatfs (flag .opStatfs) orig_path (fun path => .statvfs path)
    (fun _ stbuf => ⟨0, .stat stbuf⟩)

/-- No test of `op_flags`, and the result of `close` is not looked at. -/
def loggedFSRelease (orig_path : CString) (fh : ℕ) : HandlerM σ Reply := do
  store orig_path (flag .opRelease)
  let _ ← sys K (.close fh)
  return .ok

/-- No test of `op_flags`, and no system call. -/
def loggedFSFsync (orig_path : CString) : HandlerM σ Reply := do
  store orig_path (flag .opFsync)
  return .ok

def loggedFSSetxattr (orig_path name value : CString) (flags : ℕ) : HandlerM σ Reply :=
  directHandler K .opSetxattr (flag .opSetxattr) orig_path (.lsetxattr orig_path name value flags)
    (fun _ => .ok)

def loggedFSGetxattr (orig_path name : CString) (size : ℕ) : HandlerM σ Reply :=
  directHandler K .opGetxattr (flag .opGetxattr) orig_path (.lgetxattr orig_path name size)
    (fun res => ⟨res.len, .bytes res.data⟩)

def loggedFSListxattr (orig_path : CString) (size : ℕ) : HandlerM σ Reply :=
  directHandler K .opListxattr (flag .opListxattr) orig_path (.llistxattr orig_path size)
    (fun res => ⟨res.len, .bytes res.data⟩)

def loggedFSRemovexattr (orig_path name : CString) : HandlerM σ Reply :=
  directHandler K .opRemovexattr (flag .opRemovexattr) orig_path (.lremovexattr orig_path name)
    (fun _ => .ok)

/-- A request of the kernel, with the arguments libfuse passes to the callback. -/
inductive Request where
  | getattr (orig_path : CString)
  | access (orig_path : CString) (mask : ℕ)
  | readlink (orig_path : CString) (size : ℕ)
  | readdir (orig_path : CString) (filler : List (CString × StatBuf) → CString × StatBuf → Bool)
  | mknod (orig_path : CString) (mode rdev : ℕ)
  | mkdir (orig_path : CString) (mode : ℕ)
  | symlink (orig_from orig_to : CString)
  | unlink (orig_path : CString)
  | rmdir (orig_path : CString)
  | rename (orig_from orig_to : CString)
  | link (orig_from orig_to : CString)
  | chmod (orig_path : CString) (mode : ℕ)
  | chown (orig_path : CString) (uid gid : Option ℕ)
  | truncate (orig_path : CString) (size : ℕ)
  | utime (orig_path : CString) (buf : List ℕ)
  | utimens (orig_path : CString) (ts : List ℕ)
  | open (orig_path : CString) (flags : ℕ)
  | read (orig_path : CString) (size offset fh : ℕ)
  | write (orig_path buf : CString) (offset fh : ℕ)
  | statfs (orig_path : CString)
  | release (orig_path : CString) (fh : ℕ)
  | fsync (orig_path : CString) (isdatasync fh : ℕ)
  | setxattr (orig_path name value : CString) (flags : ℕ)
  | getxattr (orig_path name : CString) (size : ℕ)
  | listxattr (orig_path : CString) (size : ℕ)
  | removexattr (orig_path name : CString)

/-- The table of callbacks that `init_fuse_oper` fills in. -/
def dispatch : Request → HandlerM σ Reply
  | .getattr orig_path => loggedFSGetattr K orig_path
  | .access orig_path mask => loggedFSAccess K orig_path mask
  | .readlink orig_path size => loggedFSReadlink K orig_path size
  | .readdir orig_path filler => loggedFSReaddir K orig_path filler
  | .mknod orig_path mode rdev => loggedFSMknod K orig_path mode rdev
  | .mkdir orig_path mode => loggedFSMkdir K orig_path mode
  | .symlink orig_from orig_to => loggedFSSymlink K orig_from orig_to
  | .unlink orig_path => loggedFSUnlink K orig_path
  | .rmdir orig_path => loggedFSRmdir K orig_path
  | .rename orig_from orig_to => loggedFSRename K orig_from orig_to
  | .link orig_from orig_to => loggedFSLink K orig_from orig_to
  | .chmod orig_path mode => loggedFSChmod K orig_path mode
  | .chown orig_path uid gid => loggedFSChown K orig_path uid gid
  | .truncate orig_path size => loggedFSTruncate K orig_path size
  | .utime orig_path buf => loggedFSUtime K orig_path buf
  | .utimens orig_path ts => loggedFSUtimens K orig_path ts
  | .open orig_path flags => loggedFSOpen K orig_path flags
  | .read orig_path size offset fh => loggedFSRead K orig_path size offset fh
  | .write orig_path buf offset _ => loggedFSWrite K orig_path buf offset
  | .statfs orig_path => loggedFSStatfs K orig_path
  | .release orig_path fh => loggedFSRelease K orig_path fh
  | .fsync orig_path _ _ => loggedFSFsync orig_path
  | .setxattr orig_path name value flags => loggedFSSetxattr K orig_path name value flags
  | .getxattr orig_path name size => loggedFSGetxattr K orig_path name size
  | .listxattr orig_path size => loggedFSListxattr K orig_path size
  | .removexattr orig_path name => loggedFSRemovexattr K orig_path name

def Request.op : Request → FuseOps
  | .getattr _ => .opGetattr
  | .access _ _ => .opAccess
  | .readlink _ _ => .opReadlink
  | .readdir _ _ => .opReaddir
  | .mknod _ _ _ => .opMknod
  | .mkdir _ _ => .opMkdir
  | .symlink _ _ => .opSymlink
  | .unlink _ => .opUnlink
  | .rmdir _ => .opRmdir
  | .rename _ _ => .opRename
  | .link _ _ => .opLink
  | .chmod _ _ => .opChmod
  | .chown _ _ _ => .opChown
  | .truncate _ _ => .opTruncate
  | .utime _ _ => .opUtime
  | .utimens _ _ => .opUtimens
  | .open _ _ => .opOpen
  | .read _ _ _ _ => .opRead
  | .write _ _ _ _ => .opWrite
  | .statfs _ => .opStatfs
  | .release _ _ => .opRelease
  | .fsync _ _ _ => .opFsync
  | .setxattr _ _ _ _ => .opSetxattr
  | .getxattr _ _ _ => .opGetxattr
  | .listxattr _ _ => .opListxattr
  | .removexattr _ _ => .opRemovexattr

/-- The name arguments of a request: its path, or the two names of rename, link and symlink. -/
def Request.names : Request → List CString
  | .symlink orig_from orig_to => [orig_from, orig_to]
  | .rename orig_from orig_to => [orig_from, orig_to]
  | .link orig_from orig_to => [orig_from, orig_to]
  | .getattr p | .access p _ | .readlink p _ | .readdir p _ | .mknod p _ _ | .mkdir p _
  | .unlink p | .rmdir p | .chmod p _ | .chown p _ _ | .truncate p _ | .utime p _
  | .utimens p _ | .open p _ | .read p _ _ _ | .write p _ _ _ | .statfs p | .release p _
  | .fsync p _ _ | .setxattr p _ _ _ | .getxattr p _ _ | .listxattr p _ | .removexattr p _ => [p]

/-- The path operands: the text of a symbolic link is not one. -/
def Request.operands : Request → List CString
  | .symlink _ orig_to => [orig_to]
  | req => req.names

end DistillerFS
