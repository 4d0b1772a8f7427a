import DistillerFS.Daemon.SystemCalls
import DistillerFS.Foundations.PathNames
import DistillerFS.Foundations.Slots

/-!
# The file system below the daemon

Names, inodes, permission bits and descriptors, as far as the handlers use them. An
inode is known by its number, numbers are never used twice, and a file whose last name
is gone keeps its number.
-/
namespace DistillerFS
open Foundations

structure Cred where
  privileged : Bool
  uid : ℕ
  gid : ℕ
  groups : List ℕ
  deriving DecidableEq, Repr

abbrev Ino := ℕ

inductive Body where
  | regular (data : CString)
  | directory (entries : List (CString × Ino))
  | symlink (text : CString)
  | special (rdev : ℕ)
  deriving DecidableEq, Repr

structure Inode where
  body : Body
  mode : ℕ
  uid : ℕ
  gid : ℕ
  deriving DecidableEq, Repr

structure OpenFile where
  ino : Ino
  readable : Bool
  writable : Bool
  append : Bool
  deriving DecidableEq, Repr

/-- The inode with number `i` is the i-th of the list, and the root is the first. -/
structure FileSystem where
  inodes : List Inode
  fds : Slots OpenFile
  deriving DecidableEq, Repr

/-- Permission bits wanted of an inode. -/
abbrev xOk : ℕ := 1
abbrev wOk : ℕ := 2
abbrev rOk : ℕ := 4

abbrev oAccmode : ℕ := 3
abbrev oTrunc : ℕ := 0o1000
abbrev oAppend : ℕ := 0o2000

section Credentials

def Cred.inGroup (cred : Cred) (gid : ℕ) : Bool := cred.gid == gid || cred.groups.contains gid

/-- The permission bits of the class the process belongs to. -/
def Cred.may (cred : Cred) (x : Inode) (want : ℕ) : Bool :=
  let bits :=
    if cred.uid = x.uid then x.mode >>> 6
    else if cred.inGroup x.gid then x.mode >>> 3
    else x.mode
  cred.privileged || bits &&& want == want

def Cred.owns (cred : Cred) (x : Inode) : Bool := cred.privileged || cred.uid == x.uid

/-- Only a privileged process gives a file away; its owner may change the group to one
of its own. -/
def Cred.mayChown (cred : Cred) (x : Inode) (uid gid : ℕ) : Bool :=
  cred.privileged || (cred.uid == x.uid && uid == x.uid && (gid == x.gid || cred.inGroup gid))

/-- An id that is -1 is to stay, and a call that changes neither needs no right. -/
def Cred.mayLchown (cred : Cred) (x : Inode) (uid gid : Option ℕ) : Bool :=
  uid.isNone && gid.isNone || cred.mayChown x (uid.getD x.uid) (gid.getD x.gid)

end Credentials

namespace Inode

def isDir (x : Inode) : Bool :=
  match x.body with
  | .directory _ => true
  | _ => false

def entries (x : Inode) : List (CString × Ino) :=
  match x.body with
  | .directory entries => entries
  | _ => []

/-- Some process may execute it, or search it. -/
def executable (x : Inode) : Bool := x.isDir || x.mode &&& 0o111 != 0

def data (x : Inode) : Option CString :=
  match x.body with
  | .regular data => some data
  | _ => none

def bind (n : CString) (i : Ino) (x : Inode) : Inode :=
  { x with body :=
      match x.body with
      | .directory entries => .directory ((n, i) :: entries)
      | body => body }

def unbind (n : CString) (x : Inode) : Inode :=
  { x with body :=
      match x.body with
      | .directory entries => .directory (entries.filter (fun e => e.1 ≠ n))
      | body => body }

end Inode

/-- `check` of a precondition of a call. -/
def check (b : Bool) (e : Errno) : Except Errno Unit := if b then .ok () else .error e

namespace FileSystem

def inode (fs : FileSystem) (i : Ino) : Option Inode := fs.inodes[i]?

def contents (fs : FileSystem) (i : Ino) : Option CString := (fs.inode i).bind Inode.data

def modify (fs : FileSystem) (i : Ino) (f : Inode → Inode) : FileSystem :=
  { fs with inodes := fs.inodes.modify i f }

def getInode (fs : FileSystem) (i : Ino) : Except Errno Inode :=
  match fs.inode i with
  | some x => .ok x
  | none => .error enoent

def push (fs : FileSystem) (x : Inode) : FileSystem := { fs with inodes := fs.inodes ++ [x] }

section Paths
variable (cred : Cred) (fs : FileSystem)

def searchable (d : Ino) : Except Errno Inode := do
  let x ← fs.getInode d
  check x.isDir enotdir
  check (cred.may x xOk) eacces
  return x

/-- The kernel resolves links before it calls the daemon, so no path leads through one;
nor does a path hold "..". -/
def walk : Ino → List CString → Except Errno Ino
  | d, [] => .ok d
  | d, n :: rest => do
    let x ← fs.searchable cred d
    match x.entries.lookup n with
    | some i => walk i rest
    | none => .error enoent

def pathNames (path : CString) : List CString := (names '/' path).filter (· ≠ ['.'])

def resolve (path : CString) : Except Errno Ino := do
  check (path ≠ []) enoent
  fs.walk cred 0 (pathNames path)

/-- The directory of a path and its last name; the root has no last name. -/
def locate (path : CString) (rootError : Errno) : Except Errno (Ino × Inode × CString) := do
  check (path ≠ []) enoent
  match (pathNames path).getLast? with
  | none => .error rootError
  | some n =>
    let d ← fs.walk cred 0 (pathNames path).dropLast
    let x ← fs.searchable cred d
    return (d, x, n)

/-- Only the owner of the entry or of the directory removes an entry of a sticky directory. -/
def mayRemove (d x : Inode) : Bool :=
  !d.mode.testBit 9 || cred.owns d || cred.owns x

end Paths

section Calls
variable (cred : Cred) (fs : FileSystem)

/-- The inode of a new node; `main` sets the umask to zero. A directory with the setgid bit
hands its group on, and the bit itself to directories. -/
def newInode (cred : Cred) (dir : Inode) (body : Body) (mode : ℕ) : Inode :=
  let x : Inode := { body := body, mode := mode &&& 0o7777, uid := cred.uid, gid := cred.gid }
  if dir.mode.testBit 10 then
    { x with mode := if x.isDir then x.mode ||| 0o2000 else x.mode, gid := dir.gid }
  else x

def create (path : CString) (body : Body) (mode : ℕ) : Except Errno (Unit × FileSystem) := do
  let (d, dir, n) ← fs.locate cred path eexist
  check (dir.entries.lookup n).isNone eexist
  check (cred.may dir wOk) eacces
  return ((), (fs.modify d (.bind n fs.inodes.length)).push (newInode cred dir body mode))

/-- The type bits of `mknod` decide what is made; devices need a privilege. -/
def mknod (path : CString) (mode rdev : ℕ) : Except Errno (Unit × FileSystem) :=
  match mode &&& 0o170000 with
  | 0 | 0o100000 => fs.create cred path (.regular []) mode
  | 0o010000 | 0o140000 => fs.create cred path (.special 0) mode
  | 0o020000 | 0o060000 => do
    check cred.privileged eperm
    fs.create cred path (.special rdev) mode
  | 0o040000 => .error eperm
  | _ => .error einval

/-- Of the mode only the permission bits and the sticky bit count. -/
def mkdir (path : CString) (mode : ℕ) : Except Errno (Unit × FileSystem) :=
  fs.create cred path (.directory []) (mode &&& 0o1777)

def link (old new : CString) : Except Errno (Unit × FileSystem) := do
  let i ← fs.resolve cred old
  let x ← fs.getInode i
  check (!x.isDir) eperm
  let (d, dir, n) ← fs.locate cred new eexist
  check (dir.entries.lookup n).isNone eexist
  check (cred.may dir wOk) eacces
  return ((), fs.modify d (.bind n i))

def existing (path : CString) (rootError : Errno) :
    Except Errno (Ino × Inode × CString × Ino × Inode) := do
  let (d, dir, n) ← fs.locate cred path rootError
  match dir.entries.lookup n with
  | none => .error enoent
  | some i =>
    let x ← fs.getInode i
    return (d, dir, n, i, x)

def unlink (path : CString) : Except Errno (Unit × FileSystem) := do
  let (d, dir, n, _, x) ← fs.existing cred path eisdir
  check (!x.isDir) eisdir
  check (cred.may dir wOk) eacces
  check (mayRemove cred dir x) eperm
  return ((), fs.modify d (.unbind n))

/-- The root is named by "." or by slashes. -/
def rmdir (path : CString) : Except Errno (Unit × FileSystem) := do
  let rootError := if path.head? = some '/' then ebusy else einval
  let (d, dir, n, _, x) ← fs.existing cred path rootError
  check x.isDir enotdir
  check x.entries.isEmpty enotempty
  check (cred.may dir wOk) eacces
  check (mayRemove cred dir x) eperm
  return ((), fs.modify d (.unbind n))

def mayReplace (dir x y : Inode) : Except Errno Unit := do
  check (x.isDir || !y.isDir) eisdir
  check (!x.isDir || y.isDir) enotdir
  check y.entries.isEmpty enotempty
  check (mayRemove cred dir y) eperm

def rename (old new : CString) : Except Errno (Unit × FileSystem) := do
  let (d, dir, n, i, x) ← fs.existing cred old ebusy
  let (d', dir', n') ← fs.locate cred new ebusy
  check (!(x.isDir && (pathNames old).isPrefixOf (pathNames new).dropLast)) einval
  check (cred.may dir wOk && cred.may dir' wOk) eacces
  check (mayRemove cred dir x) eperm
  let moved := ((fs.modify d (.unbind n)).modify d' (.unbind n')).modify d' (.bind n' i)
  match dir'.entries.lookup n' with
  | none => return ((), moved)
  | some j =>
    -- two names of one inode: nothing is done
    if i = j then return ((), fs)
    else do
      let y ← fs.getInode j
      mayReplace cred dir' x y
      return ((), moved)

def chmod (path : CString) (mode : ℕ) : Except Errno (Unit × FileSystem) := do
  let i ← fs.resolve cred path
  let x ← fs.getInode i
  check (cred.owns x) eperm
  return ((), fs.modify i (fun x => { x with mode := mode &&& 0o7777 }))

def lchown (path : CString) (uid gid : Option ℕ) : Except Errno (Unit × FileSystem) := do
  let i ← fs.resolve cred path
  let x ← fs.getInode i
  check (cred.mayLchown x uid gid) eperm
  return ((), fs.modify i (fun x => { x with uid := uid.getD x.uid, gid := gid.getD x.gid }))

/-- The access mode of `open`: the descriptor is readable, writable. -/
def accessMode (flags : ℕ) : Bool × Bool :=
  match flags &&& oAccmode with
  | 0 => (true, false)
  | 1 => (false, true)
  | _ => (true, true)

/-- What a descriptor on an inode remembers of the flags it was opened with. -/
def opened (i : Ino) (flags : ℕ) : OpenFile where
  ino := i
  readable := (accessMode flags).1
  writable := (accessMode flags).2
  append := flags &&& oAppend == oAppend

/-- Links and special files are not opened, and directories not for writing. -/
def mayOpen (x : Inode) (writable : Bool) : Except Errno Unit :=
  match x.body with
  | .symlink _ => .error eloop
  | .special _ => .error enxio
  | .directory _ => check (!writable) eisdir
  | .regular _ => .ok ()

/-- An existing node is opened, and emptied if the flags say so; to empty it takes the right
to write, whatever the access mode. -/
def openInode (i : Ino) (flags : ℕ) : Except Errno (ℕ × FileSystem) := do
  let x ← fs.getInode i
  let file := opened i flags
  let trunc := flags &&& oTrunc == oTrunc
  mayOpen x (file.writable || trunc)
  check (!file.readable || cred.may x rOk) eacces
  check (!(file.writable || trunc) || cred.may x wOk) eacces
  let cleared := if trunc then
      fs.modify i (fun x => { x with body := .regular [] })
    else fs
  return (fs.fds.next, { cleared with fds := fs.fds.alloc file })

/-- A file that `open` has just created needs no permission. -/
def openFile (path : CString) (flags mode : ℕ) : Except Errno (ℕ × FileSystem) :=
  let creat := flags &&& oCreat == oCreat
  let excl := flags &&& oExcl == oExcl
  match fs.resolve cred path with
  | .ok i => do
    check (!(creat && excl)) eexist
    fs.openInode cred i flags
  | .error e => do
    check (creat && e == enoent) e
    let (_, fs') ← fs.create cred path (.regular []) mode
    return (fs'.fds.next, { fs' with fds := fs'.fds.alloc (opened fs.inodes.length flags) })

def getFile (fd : ℕ) : Except Errno OpenFile :=
  match fs.fds.get fd with
  | some file => .ok file
  | none => .error ebadf

def close (fd : ℕ) : Except Errno (Unit × FileSystem) := do
  let _ ← fs.getFile fd
  return ((), { fs with fds := fs.fds.free fd })

/-- The data of a file after a write; a gap before the offset is filled with zeros. -/
def writeAt (data buf : CString) (offset : ℕ) : CString :=
  if buf = [] then data
  else (data ++ List.replicate (offset - data.length) '\x00').take offset ++ buf ++
    data.drop (offset + buf.length)

/-- Where a write lands: an appending descriptor ignores the offset. -/
def position (file : OpenFile) (data : CString) (offset : ℕ) : ℕ :=
  if file.append then data.length else offset

def readAt (data : CString) (size offset : ℕ) : CString := (data.drop offset).take size

def pread (fd size offset : ℕ) : Except Errno (CString × FileSystem) := do
  let file ← fs.getFile fd
  check file.readable ebadf
  let x ← fs.getInode file.ino
  match x.body with
  | .regular data => return (readAt data size offset, fs)
  | _ => .error eisdir

def pwrite (fd : ℕ) (buf : CString) (offset : ℕ) : Except Errno (ℕ × FileSystem) := do
  let file ← fs.getFile fd
  check file.writable ebadf
  let x ← fs.getInode file.ino
  match x.body with
  | .regular data =>
    let written := writeAt data buf (position file data offset)
    return (buf.length, fs.modify file.ino (fun x => { x with body := .regular written }))
  | _ => .error einval

def truncate (path : CString) (size : ℕ) : Except Errno (Unit × FileSystem) := do
  let i ← fs.resolve cred path
  let x ← fs.getInode i
  check (cred.may x wOk) eacces
  match x.body with
  | .regular data =>
    return ((), fs.modify i (fun x => { x with
      body := .regular ((data ++ List.replicate (size - data.length) '\x00').take size) }))
  | .directory _ => .error eisdir
  | _ => .error einval

/-- The words of `stat` that the model has. -/
def lstat (path : CString) : Except Errno (StatBuf × FileSystem) := do
  let i ← fs.resolve cred path
  let x ← fs.getInode i
  return ([i, x.mode, x.uid, x.gid, (x.data.getD []).length], fs)

def access (path : CString) (mask : ℕ) : Except Errno (Unit × FileSystem) := do
  let i ← fs.resolve cred path
  let x ← fs.getInode i
  check (cred.may x (mask &&& 7)) eacces
  -- not even a privileged process executes a file without any execute bit
  check (mask &&& xOk == 0 || x.executable) eacces
  return ((), fs)

def readlink (path : CString) (size : ℕ) : Except Errno (CString × FileSystem) := do
  let i ← fs.resolve cred path
  let x ← fs.getInode i
  match x.body with
  | .symlink text => return (text.take size, fs)
  | _ => .error einval

def opendir (path : CString) : Except Errno (DirStream × FileSystem) := do
  let i ← fs.resolve cred path
  let x ← fs.getInode i
  check x.isDir enotdir
  check (cred.may x rOk) eacces
  let entries := x.entries.map (fun e => { dIno := e.2, dType := 0, dName := e.1 })
  return ({ dp := fs.fds.next, entries := entries, error := none },
    { fs with fds := fs.fds.alloc (opened i 0) })

def onPath {α : Type} (path : CString) (a : α) : Except Errno (α × FileSystem) := do
  let _ ← fs.resolve cred path
  return (a, fs)

/-- Times and extended attributes are not kept. -/
def perform : (c : SysCall) → Except Errno (c.Out × FileSystem)
  | .lstat path => fs.lstat cred path
  | .access path mask => fs.access cred path mask
  | .readlink path size => fs.readlink cred path size
  | .opendir path => fs.opendir cred path
  | .closedir dp => fs.close dp
  | .open path flags mode => fs.openFile cred path flags mode
  | .close fd => fs.close fd
  | .mkfifo path mode => fs.create cred path (.special 0) mode
  | .mknod path mode rdev => fs.mknod cred path mode rdev
  | .lchown path uid gid => fs.lchown cred path uid gid
  | .mkdir path mode => fs.mkdir cred path mode
  | .unlink path => fs.unlink cred path
  | .rmdir path => fs.rmdir cred path
  | .symlink text path => fs.create cred path (.symlink text) 0o777
  | .rename old new => fs.rename cred old new
  | .link old new => fs.link cred old new
  | .chmod path mode => fs.chmod cred path mode
  | .truncate path size => fs.truncate cred path size
  | .utime path _ => fs.onPath cred path ()
  | .utimensat path _ => fs.onPath cred path ()
  | .pread fd size offset => fs.pread fd size offset
  | .pwrite fd buf offset => fs.pwrite fd buf offset
  | .statvfs path => fs.onPath cred path []
  | .lsetxattr _ _ _ _ => .error enotsup
  | .lgetxattr _ _ _ => .error enotsup
  | .llistxattr _ _ => .error enotsup
  | .lremovexattr _ _ => .error enotsup

end Calls

end FileSystem

/-- A failing call changes nothing. -/
def fileKernel (cred : Cred) : Kernel FileSystem where
  call c fs :=
    match fs.perform cred c with
    | .ok (out, fs') => (.ok out, fs')
    | .error e => (.error e, fs)

def sampleFiles : FileSystem where
  inodes := [
    { body := .directory [("a".toList, 1)], mode := 0o777, uid := 0, gid := 0 },
    { body := .regular [], mode := 0o644, uid := 7, gid := 7 }]
  fds := .empty

def sampleEnv (uid gid : ℕ) : Env where
  opFlags := fun _ => 0
  gFilter := ⟨[], []⟩
  uid := uid
  gid := gid
  libErrno := fun _ e => e

end DistillerFS
