import DistillerFS.Recording.AccessTable
import Mathlib.Data.PNat.Basic

/-!
# The daemon's view of the system

A handler issues system calls, calls into the C library and reads `errno`. The
kernel is a parameter: any function from calls and kernel states to answers.
-/
namespace DistillerFS

/-- An error number. No function sets `errno` to zero. -/
abbrev Errno := ℕ+

abbrev eperm : Errno := Nat.toPNat' 1
abbrev enoent : Errno := Nat.toPNat' 2
abbrev eio : Errno := Nat.toPNat' 5
abbrev enxio : Errno := Nat.toPNat' 6
abbrev ebadf : Errno := Nat.toPNat' 9
abbrev enomem : Errno := Nat.toPNat' 12
abbrev eacces : Errno := Nat.toPNat' 13
abbrev ebusy : Errno := Nat.toPNat' 16
abbrev eexist : Errno := Nat.toPNat' 17
abbrev enotdir : Errno := Nat.toPNat' 20
abbrev eisdir : Errno := Nat.toPNat' 21
abbrev einval : Errno := Nat.toPNat' 22
abbrev enotempty : Errno := Nat.toPNat' 39
abbrev eloop : Errno := Nat.toPNat' 40
abbrev enotsup : Errno := Nat.toPNat' 95

/-- The words of a `struct stat` or `struct statvfs`; no handler reads them. -/
abbrev StatBuf := List ℕ

structure Dirent where
  dIno : ℕ
  dType : ℕ
  dName : CString
  deriving DecidableEq, Repr

/-- An open directory stream: its descriptor, the entries that successive calls of
`readdir` deliver before NULL, and the error behind that NULL, if there is one. -/
structure DirStream where
  dp : ℕ
  entries : List Dirent
  error : Option Errno

structure Transfer where
  len : ℕ
  data : CString
  deriving DecidableEq, Repr

abbrev oWronly : ℕ := 1
abbrev oCreat : ℕ := 0o100
abbrev oExcl : ℕ := 0o200

/-- An owner or group that is to stay as it is, (uid_t) -1, is `none`. -/
inductive SysCall where
  | lstat (path : CString)
  | access (path : CString) (mask : ℕ)
  | readlink (path : CString) (size : ℕ)
  | opendir (path : CString)
  | closedir (dp : ℕ)
  | open (path : CString) (flags mode : ℕ)
  | close (fd : ℕ)
  | mkfifo (path : CString) (mode : ℕ)
  | mknod (path : CString) (mode rdev : ℕ)
  | lchown (path : CString) (uid gid : Option ℕ)
  | mkdir (path : CString) (mode : ℕ)
  | unlink (path : CString)
  | rmdir (path : CString)
  | symlink (text path : CString)
  | rename (old new : CString)
  | link (old new : CString)
  | chmod (path : CString) (mode : ℕ)
  | truncate (path : CString) (size : ℕ)
  | utime (path : CString) (times : List ℕ)
  | utimensat (path : CString) (ts : List ℕ)
  | pread (fd size offset : ℕ)
  | pwrite (fd : ℕ) (buf : CString) (offset : ℕ)
  | statvfs (path : CString)
  | lsetxattr (path name value : CString) (flags : ℕ)
  | lgetxattr (path name : CString) (size : ℕ)
  | llistxattr (path : CString) (size : ℕ)
  | lremovexattr (path name : CString)
  deriving DecidableEq, Repr

@[reducible] def SysCall.Out : SysCall → Type
  | .lstat _ | .statvfs _ => StatBuf
  | .readlink _ _ => CString
  | .opendir _ => DirStream
  | .open _ _ _ => ℕ
  | .pread _ _ _ => CString
  | .pwrite _ _ _ => ℕ
  | .lgetxattr _ _ _ | .llistxattr _ _ => Transfer
  | _ => Unit

structure Kernel (σ : Type) where
  call : (c : SysCall) → σ → Except Errno c.Out × σ

/-- Any answers at all: each may depend on the call and on the calls before it. -/
abbrev Answers := List SysCall → (c : SysCall) → Except Errno c.Out

def oracleKernel (answers : Answers) : Kernel (List SysCall) where
  call c issued := (answers issued c, issued ++ [c])

/-- The globals of the daemon, the caller reported by `fuse_get_context`, and what
the n-th library call of the run leaves in `errno`. -/
structure Env where
  opFlags : OpFlags
  gFilter : FilterDesc
  uid : ℕ
  gid : ℕ
  libErrno : ℕ → Errno → Errno

/-- `issued` and `handed` are the system calls issued and the events handed to
`Store_In_Hash` so far. -/
structure Daemon (σ : Type) where
  kernel : σ
  errno : Errno
  table : Hash
  libCalls : ℕ
  issued : List SysCall
  handed : List Event

def HandlerM (σ α : Type) := Env → Daemon σ → α × Daemon σ

variable {σ α β : Type}

instance : Monad (HandlerM σ) where
  pure a := fun _ s => (a, s)
  bind m f := fun env s => f (m env s).1 env (m env s).2

@[simp] theorem HandlerM.pure_apply (a : α) (env : Env) (s : Daemon σ) :
    (pure a : HandlerM σ α) env s = (a, s) := rfl

@[simp] theorem HandlerM.bind_apply (m : HandlerM σ α) (f : α → HandlerM σ β) (env : Env)
    (s : Daemon σ) : (m >>= f) env s = f (m env s).1 env (m env s).2 := rfl

def errnoAfter {γ : Type} (r : Except Errno γ) (old : Errno) : Errno :=
  match r with
  | .error e => e
  | .ok _ => old

@[simp] theorem errnoAfter_error {γ : Type} (e old : Errno) :
    errnoAfter (.error e : Except Errno γ) old = e := rfl

@[simp] theorem errnoAfter_ok {γ : Type} (a : γ) (old : Errno) :
    errnoAfter (.ok a : Except Errno γ) old = old := rfl

def sys (K : Kernel σ) (c : SysCall) : HandlerM σ (Except Errno c.Out) := fun _ s =>
  ((K.call c s.kernel).1,
    { s with kernel := (K.call c s.kernel).2
             errno := errnoAfter (K.call c s.kernel).1 s.errno
             issued := s.issued ++ [c] })

/-- A library call that succeeds and may leave any value in `errno`. -/
def libCall : HandlerM σ Unit := fun env s =>
  ((), { s with errno := env.libErrno s.libCalls s.errno, libCalls := s.libCalls + 1 })

def negErrno : HandlerM σ ℤ := fun _ s => (-((s.errno : ℕ) : ℤ), s)

/-- `Store_In_Hash(h, g_filter, path, flag)`. The library is entered only behind
the path filter. -/
def store (path : CString) (flag : BitVec 32) : HandlerM σ Unit := fun env s =>
  ((), { s with
    table := (storeInHash s.table env.gFilter (some path) flag).2
    handed := s.handed ++ [⟨some path, flag⟩]
    errno := if env.gFilter.admits path then env.libErrno s.libCalls s.errno else s.errno
    libCalls := if env.gFilter.admits path then s.libCalls + 1 else s.libCalls })

/-- `if (should_log(fuse_op, state) == 1) body` -/
def ifLogged (fuse_op : FuseOps) (state : BitVec 32) (body : HandlerM σ Unit) : HandlerM σ Unit :=
  fun env s => if shouldLog env.opFlags fuse_op state then body env s else ((), s)

def getRelativePath (path : CString) : CString :=
  match path with
  | '/' :: rest => if path.length = 1 then ['.'] else rest
  | _ => path

/-- `getRelativePath` with the `strdup` it ends in. -/
def relativePath (orig_path : CString) : HandlerM σ CString := do
  libCall
  return getRelativePath orig_path

end DistillerFS
