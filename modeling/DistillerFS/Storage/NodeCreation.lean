import DistillerFS.Storage.WriteThrough
import DistillerFS.Storage.Ownership

/-!
# Creating a node

mknod, mkdir and symlink make a node, close it if it was opened, and give it to the
caller. Any of these calls may fail on its own, after the others have taken effect.
-/
namespace DistillerFS
open Foundations FileSystem

/-- The error that a call reports although the file system has nothing against it. -/
abbrev Faults := SysCall → Option Errno

/-- A call that fails changes no node, but `close` gives the descriptor back in any case. -/
def FileSystem.afterFault (fs : FileSystem) : SysCall → FileSystem
  | .close fd => { fs with fds := fs.fds.free fd }
  | _ => fs

def faultyKernel (cred : Cred) (faults : Faults) : Kernel FileSystem where
  call c fs :=
    match faults c with
    | some e => (.error e, fs.afterFault c)
    | none => (fileKernel cred).call c fs

def Request.makes : Request → Option (SysCall × CString)
  | .mknod p mode rdev =>
    let path := getRelativePath p
    some (if sIsreg mode then .open path (oCreat ||| oExcl ||| oWronly) mode
      else if sIsfifo mode then .mkfifo path mode
      else .mknod path mode rdev, path)
  | .mkdir p mode => some (.mkdir (getRelativePath p) mode, getRelativePath p)
  | .symlink text p => some (.symlink text (getRelativePath p), getRelativePath p)
  | _ => none

section Outcome
variable (cred : Cred) (uid gid : ℕ) (path : CString)

/-- One node more: a name that was free in the directory of the path leads to a new inode
of the given owner, and nothing else is different. -/
def CreatedAt (fs fs' : FileSystem) : Prop :=
  ∃ d dir n y, fs.locate cred path eexist = .ok (d, dir, n) ∧ dir.entries.lookup n = none ∧
    y.uid = uid ∧ y.gid = gid ∧
    ∀ i, fs'.inode i = if i = fs.inodes.length then some y
      else (fs.inode i).map (fun x => if d = i then x.bind n fs.inodes.length else x)

/-- The request is carried out as a whole or not at all. -/
def AtomicCreation (fs : FileSystem) (result : Reply × Daemon FileSystem) : Prop :=
  result.1.rc = 0 ∧ CreatedAt cred uid gid path fs result.2.kernel ∨
    result.1.rc < 0 ∧ result.2.kernel.inodes = fs.inodes

def nodeGroup (dir : Inode) : ℕ := if dir.mode.testBit 10 then dir.gid else cred.gid

/-- The node can be given to the caller and the call goes through, or it is the caller's
from the beginning. -/
def ReachesCaller (faults : Faults) (dir : Inode) : Prop :=
  faults (.lchown path (some uid) (some gid)) = none ∧ (cred.privileged = true ∨
      cred.uid = uid ∧ (gid = nodeGroup cred dir ∨ cred.inGroup gid = true)) ∨
    cred.uid = uid ∧ nodeGroup cred dir = gid

def MakesNode (faults : Faults) (fs : FileSystem) (c : SysCall) : Prop :=
  faults c = none ∧ ∃ r, fs.perform cred c = .ok r

/-- Nothing goes wrong once the node is made: the descriptor of a regular file is closed
without an error, and the node reaches the caller. -/
structure CompletesCreation (faults : Faults) (fs : FileSystem) (c : SysCall) : Prop where
  closes : ∀ q flags mode, c = .open q flags mode → faults (.close fs.fds.next) = none
  reaches : ∀ d dir n, fs.locate cred path eexist = .ok (d, dir, n) →
    ReachesCaller cred uid gid path faults dir

end Outcome

section Calls
variable {cred : Cred} {faults : Faults} {fs fs' : FileSystem} {c : SysCall}

theorem faultyKernel_none (h : faults c = none) :
    (faultyKernel cred faults).call c fs = (fileKernel cred).call c fs := by
  simp only [faultyKernel, h]

theorem faultyKernel_some {e : Errno} (h : faults c = some e) :
    (faultyKernel cred faults).call c fs = (.error e, fs.afterFault c) := by
  simp only [faultyKernel, h]

theorem not_makes (hc : ∀ fd, c ≠ .close fd) (h : ¬ MakesNode cred faults fs c) :
    ∃ e, (faultyKernel cred faults).call c fs = (.error e, fs) := by
  cases hf : faults c with
  | some e =>
    refine ⟨e, ?_⟩
    rw [faultyKernel_some hf]
    cases c with
    | close fd => exact absurd rfl (hc fd)
    | _ => rfl
  | none =>
    rw [faultyKernel_none hf]
    cases hp : fs.perform cred c with
    | error e => exact ⟨e, fileKernel_error hp⟩
    | ok r => exact absurd ⟨hf, r, hp⟩ h

theorem makes_ok {r : c.Out × FileSystem} (hf : faults c = none) (hp : fs.perform cred c = .ok r) :
    (faultyKernel cred faults).call c fs = (.ok r.1, r.2) := by
  rw [faultyKernel_none hf]
  exact fileKernel_ok hp

theorem newInode_gid (cred : Cred) (dir : Inode) (body : Body) (mode : ℕ) :
    (newInode cred dir body mode).gid = nodeGroup cred dir := by
  unfold newInode nodeGroup
  split_ifs <;> rfl

theorem mayChown_newInode (cred : Cred) (dir : Inode) (body : Body) (mode uid gid : ℕ) :
    cred.mayChown (newInode cred dir body mode) uid gid = true ↔ cred.privileged = true ∨
      cred.uid = uid ∧ (gid = nodeGroup cred dir ∨ cred.inGroup gid = true) := by
  rw [Cred.mayChown, newInode_uid, newInode_gid]
  simp only [Bool.or_eq_true, Bool.and_eq_true, beq_iff_eq, @eq_comm _ uid]
  tauto

end Calls

section Create
variable {cred : Cred} {faults : Faults} {uid gid mode : ℕ} {path : CString} {body : Body}
  {fs fs₁ fs₂ : FileSystem}

theorem chown_owner (hresolve : fs₂.resolve cred path = .ok fs.inodes.length) {dir : Inode}
    (hnew : fs₂.inode fs.inodes.length = some (newInode cred dir body mode)) :
    ∃ f : Inode → Inode,
      ((faultyKernel cred faults).call (.lchown path (some uid) (some gid)) fs₂).2 =
        fs₂.modify fs.inodes.length f ∧
      ((f (newInode cred dir body mode)).uid = uid ∧ (f (newInode cred dir body mode)).gid = gid ↔
        ReachesCaller cred uid gid path faults dir) := by
  have hkept : fs₂ = fs₂.modify fs.inodes.length id := by simp [FileSystem.modify]
  cases hf : faults (.lchown path (some uid) (some gid)) with
  | some e =>
    refine ⟨id, ?_, ?_⟩
    · rw [faultyKernel_some hf]
      exact hkept
    · rw [id, newInode_uid, newInode_gid, ReachesCaller, hf]
      simp
  | none =>
    rw [faultyKernel_none hf, lchown_kernel hresolve hnew]
    by_cases hmay : cred.mayChown (newInode cred dir body mode) uid gid = true
    · rw [if_pos hmay]
      exact ⟨_, rfl, iff_of_true ⟨rfl, rfl⟩ (.inl ⟨hf, (mayChown_newInode _ _ _ _ _ _).mp hmay⟩)⟩
    · rw [if_neg hmay]
      refine ⟨id, hkept, ?_⟩
      rw [id, newInode_uid, newInode_gid, ReachesCaller, ← mayChown_newInode cred dir body mode]
      simp [hmay]

theorem chown_created (hcreate : fs.create cred path body mode = .ok ((), fs₁))
    (hinodes : fs₂.inodes = fs₁.inodes) :
    CreatedAt cred uid gid path fs
        ((faultyKernel cred faults).call (.lchown path (some uid) (some gid)) fs₂).2 ↔
      ∀ d dir n, fs.locate cred path eexist = .ok (d, dir, n) →
        ReachesCaller cred uid gid path faults dir := by
  obtain ⟨d, dir, n, hlocate, hfree, hinode, hresolve⟩ := create_leads hcreate hinodes
  obtain ⟨f, hfinal, howner⟩ := @chown_owner _ faults uid gid _ _ _ _ _ hresolve _
    ((hinode _).trans (if_pos rfl))
  rw [hfinal]
  constructor
  · rintro ⟨d', dir', n', z, hlocate', -, huid, hgid, hz⟩ d'' dir'' n'' hlocate''
    have hnode := hz fs.inodes.length
    rw [if_pos rfl, inode_modify, hinode, if_pos rfl, Option.map_some, if_pos rfl] at hnode
    cases hnode
    rw [hlocate] at hlocate''
    cases hlocate''
    exact howner.mp ⟨huid, hgid⟩
  · intro hreaches
    obtain ⟨huid, hgid⟩ := howner.mpr (hreaches d dir n hlocate)
    refine ⟨d, dir, n, _, hlocate, hfree, huid, hgid, fun i => ?_⟩
    rw [inode_modify, hinode]
    by_cases hi : i = fs.inodes.length
    · simp [hi]
    · simp only [if_neg hi, if_neg (Ne.symm hi), Option.map_map]
      rfl

theorem create_inodes_ne (hcreate : fs.create cred path body mode = .ok ((), fs₁)) :
    fs₁.inodes ≠ fs.inodes := by
  obtain ⟨d, dir, n, -, -, hinode, -⟩ := create_leads hcreate rfl
  intro hsame
  have hnew := hinode fs.inodes.length
  rw [if_pos rfl, inode, hsame, List.getElem?_length] at hnew
  cases hnew

end Create

section Requests
variable {req : Request} {c : SysCall} {path : CString}

/-- The reply of a request that makes a node: 0, or the negated error of the step that failed. -/
theorem makes_reply {σ : Type} (K : Kernel σ) (h : req.makes = some (c, path)) (env : Env)
    (s : Daemon σ) : if (passthrough K env.uid env.gid s.kernel req).error = none
      then (dispatch K req env s).1.rc = 0 else (dispatch K req env s).1.rc < 0 := by
  cases req with
  | mknod p mode rdev =>
    have hcreate := createNode_error K (getRelativePath p) mode rdev env (libCall env s).2
      env.uid env.gid
    rw [libCall_kernel] at hcreate
    cases hnode : (createNode K (getRelativePath p) mode rdev env (libCall env s).2).1 <;>
      simp [dispatch, loggedFSMknod, passthrough, hnode, ← hcreate, errorOf]
  | mkdir p mode =>
    cases hnode : (K.call (.mkdir (getRelativePath p) mode) s.kernel).1 <;>
      simp [dispatch, loggedFSMkdir, passthrough, Passthrough.create_error, hnode, errorOf]
  | symlink text p =>
    cases hnode : (K.call (.symlink text (getRelativePath p)) s.kernel).1 <;>
      simp [dispatch, loggedFSSymlink, passthrough, Passthrough.create_error, hnode, errorOf]
  | _ => cases h

/-- A regular file is made by opening it, every other node by a call of its own. -/
theorem makes_cases (h : req.makes = some (c, path)) :
    (∃ p mode rdev, req = .mknod p mode rdev ∧ sIsreg mode = true ∧ path = getRelativePath p ∧
      c = .open path (oCreat ||| oExcl ||| oWronly) mode) ∨
    ((∀ q flags mode, c ≠ .open q flags mode) ∧ (∀ fd, c ≠ .close fd) ∧
      (∀ (K : Kernel FileSystem) uid gid k,
        passthrough K uid gid k req = .create K k c path uid gid) ∧
      ∀ cred (fs : FileSystem) r, fs.perform cred c = .ok r →
        ∃ body mode, fs.create cred path body mode = .ok ((), r.2)) := by
  cases req with
  | mknod p mode rdev =>
    simp only [Request.makes, Option.some.injEq, Prod.mk.injEq] at h
    obtain ⟨rfl, rfl⟩ := h
    by_cases hreg : sIsreg mode = true
    · exact .inl ⟨p, mode, rdev, rfl, hreg, rfl, if_pos hreg⟩
    · right
      rw [if_neg hreg]
      by_cases hfifo : sIsfifo mode = true
      · rw [if_pos hfifo]
        refine ⟨by simp, by simp, fun K uid gid k => ?_, fun cred fs r hr => ⟨_, _, hr⟩⟩
        simp only [passthrough, Passthrough.mknod, if_neg hreg, if_pos hfifo]
      · rw [if_neg hfifo]
        refine ⟨by simp, by simp, fun K uid gid k => ?_, fun cred fs r hr => ?_⟩
        · simp only [passthrough, Passthrough.mknod, if_neg hreg, if_neg hfifo]
        · obtain ⟨body, hcreate⟩ := mknod_ok hr
          exact ⟨body, _, hcreate⟩
  | mkdir p mode =>
    cases h
    exact .inr ⟨by simp, by simp, fun _ _ _ _ => rfl, fun _ _ _ hr => ⟨_, _, hr⟩⟩
  | symlink text p =>
    cases h
    exact .inr ⟨by simp, by simp, fun _ _ _ _ => rfl, fun _ _ _ hr => ⟨_, _, hr⟩⟩
  | _ => cases h

variable {cred : Cred} {faults : Faults} {uid gid : ℕ} {fs fs₁ fs₂ : FileSystem}

/-- The request went well as far as its caller can see. -/
theorem atomic_iff_created {p : Passthrough FileSystem} {result : Reply × Daemon FileSystem}
    (hrc : if p.error = none then result.1.rc = 0 else result.1.rc < 0)
    (hkernel : result.2.kernel = p.kernel) (hok : p.error = none) :
    AtomicCreation cred uid gid path fs result ↔ CreatedAt cred uid gid path fs p.kernel := by
  rw [if_pos hok] at hrc
  rw [AtomicCreation, hrc, hkernel]
  simp

theorem atomic_iff_unchanged {p : Passthrough FileSystem} {result : Reply × Daemon FileSystem}
    (hrc : if p.error = none then result.1.rc = 0 else result.1.rc < 0)
    (hkernel : result.2.kernel = p.kernel) (hfailed : p.error ≠ none) :
    AtomicCreation cred uid gid path fs result ↔ p.kernel.inodes = fs.inodes := by
  rw [if_neg hfailed] at hrc
  rw [AtomicCreation, hkernel]
  simp [hrc, hrc.ne]

/-- The node is there, and the call behind it, if there is one, went well. -/
theorem create_passthrough_created {k : FileSystem} {u : c.Out}
    (hcall : (faultyKernel cred faults).call c k = (.ok u, fs₂)) {body : Body} {mode : ℕ}
    (hcreate : fs.create cred path body mode = .ok ((), fs₁)) (hinodes : fs₂.inodes = fs₁.inodes) :
    (Passthrough.create (faultyKernel cred faults) k c path uid gid).error = none ∧
      (CreatedAt cred uid gid path fs
          (Passthrough.create (faultyKernel cred faults) k c path uid gid).kernel ↔
        ∀ d dir n, fs.locate cred path eexist = .ok (d, dir, n) →
          ReachesCaller cred uid gid path faults dir) := by
  refine ⟨by rw [Passthrough.create_error, hcall]; rfl, ?_⟩
  simp only [Passthrough.create, Passthrough.andThen, Passthrough.single, hcall, errorOf,
    List.foldl_cons, List.foldl_nil]
  exact chown_created hcreate hinodes

theorem create_passthrough_failed {k : FileSystem} {e : Errno}
    (hcall : (faultyKernel cred faults).call c k = (.error e, fs₂)) :
    (Passthrough.create (faultyKernel cred faults) k c path uid gid).error ≠ none ∧
      (Passthrough.create (faultyKernel cred faults) k c path uid gid).kernel = fs₂ := by
  simp [Passthrough.create, Passthrough.andThen, Passthrough.single, hcall, errorOf]

/-- The calls behind a regular file: once it is open, closing and the change of owner. -/
theorem mknod_passthrough {K : Kernel FileSystem} {k opened : FileSystem} {p : CString}
    {mode rdev fd : ℕ} (hreg : sIsreg mode = true)
    (hopen : K.call (.open (getRelativePath p) (oCreat ||| oExcl ||| oWronly) mode) k =
      (.ok fd, opened)) :
    (passthrough K uid gid k (.mknod p mode rdev)).error =
        (Passthrough.create K opened (.close fd) (getRelativePath p) uid gid).error ∧
      (passthrough K uid gid k (.mknod p mode rdev)).kernel =
        (Passthrough.create K opened (.close fd) (getRelativePath p) uid gid).kernel := by
  simp only [passthrough, Passthrough.mknod, if_pos hreg, hopen, and_self]

theorem mknod_passthrough_failed {K : Kernel FileSystem} {k : FileSystem} {p : CString}
    {mode rdev : ℕ} {e : Errno} (hreg : sIsreg mode = true)
    (hopen : K.call (.open (getRelativePath p) (oCreat ||| oExcl ||| oWronly) mode) k =
      (.error e, k)) :
    (passthrough K uid gid k (.mknod p mode rdev)).error ≠ none ∧
      (passthrough K uid gid k (.mknod p mode rdev)).kernel = k := by
  simp [passthrough, Passthrough.mknod, Passthrough.single, hreg, hopen, errorOf]

theorem mknod_atomic_iff (cred : Cred) (faults : Faults) {p : CString} {mode rdev : ℕ}
    (hreg : sIsreg mode = true) (env : Env) (s : Daemon FileSystem) :
    AtomicCreation cred env.uid env.gid (getRelativePath p) s.kernel
        (dispatch (faultyKernel cred faults) (.mknod p mode rdev) env s) ↔
      (MakesNode cred faults s.kernel (.open (getRelativePath p) (oCreat ||| oExcl ||| oWronly) mode) →
        CompletesCreation cred env.uid env.gid (getRelativePath p) faults s.kernel
          (.open (getRelativePath p) (oCreat ||| oExcl ||| oWronly) mode)) := by
  have hrc := @makes_reply _ _ _ _ (faultyKernel cred faults)
    (show (Request.mknod p mode rdev).makes = _ from rfl) env s
  have hkernel := (dispatch_issues (faultyKernel cred faults) (.mknod p mode rdev) env s).2
  by_cases hmakes : MakesNode cred faults s.kernel
      (.open (getRelativePath p) (oCreat ||| oExcl ||| oWronly) mode)
  · obtain ⟨hfault, ⟨fd, opened⟩, hopen⟩ := id hmakes
    obtain ⟨fs₁, hcreate, rfl, hopened⟩ := openFile_excl hopen
    obtain ⟨herror, hafter⟩ := mknod_passthrough hreg (makes_ok hfault hopen)
    have hinodes : opened.inodes = fs₁.inodes := by rw [hopened]
    cases hclose : faults (.close s.kernel.fds.next) with
    | some e =>
      obtain ⟨hfailed, hleft⟩ := create_passthrough_failed (faultyKernel_some hclose)
      rw [atomic_iff_unchanged hrc hkernel (herror ▸ hfailed), hafter, hleft]
      refine iff_of_false (hinodes ▸ create_inodes_ne hcreate) (fun hcompletes => ?_)
      rw [(hcompletes hmakes).closes _ _ _ rfl] at hclose
      cases hclose
    | none =>
      have hperform : opened.perform cred (.close s.kernel.fds.next) =
          .ok ((), { opened with fds := opened.fds.free s.kernel.fds.next }) :=
        close_openFile_excl hopen
      obtain ⟨hok, hcreated⟩ := create_passthrough_created (makes_ok hclose hperform) hcreate hinodes
      rw [atomic_iff_created hrc hkernel (herror ▸ hok), hafter, hcreated]
      constructor
      · intro hreaches _
        refine ⟨fun q flags mode' hc => ?_, hreaches⟩
        exact hclose
      · intro hcompletes
        exact (hcompletes hmakes).reaches
  · obtain ⟨e, hopen⟩ := not_makes (fun _ h => SysCall.noConfusion h) hmakes
    obtain ⟨hfailed, hleft⟩ := mknod_passthrough_failed hreg hopen
    rw [atomic_iff_unchanged hrc hkernel hfailed, hleft]
    exact iff_of_true rfl (fun h => absurd h hmakes)

theorem create_atomic_iff (cred : Cred) (faults : Faults) (h : req.makes = some (c, path))
    (hopen : ∀ q flags mode, c ≠ .open q flags mode) (hclose : ∀ fd, c ≠ .close fd)
    (hcreate : ∀ (K : Kernel FileSystem) uid gid k,
      passthrough K uid gid k req = .create K k c path uid gid)
    (hnode : ∀ cred (fs : FileSystem) r, fs.perform cred c = .ok r →
      ∃ body mode, fs.create cred path body mode = .ok ((), r.2))
    (env : Env) (s : Daemon FileSystem) :
    AtomicCreation cred env.uid env.gid path s.kernel
        (dispatch (faultyKernel cred faults) req env s) ↔
      (MakesNode cred faults s.kernel c →
        CompletesCreation cred env.uid env.gid path faults s.kernel c) := by
  have hrc := makes_reply (faultyKernel cred faults) h env s
  have hkernel := (dispatch_issues (faultyKernel cred faults) req env s).2
  rw [hcreate] at hrc hkernel
  by_cases hmakes : MakesNode cred faults s.kernel c
  · obtain ⟨hfault, r, hr⟩ := id hmakes
    obtain ⟨body, mode, hmade⟩ := hnode cred s.kernel r hr
    obtain ⟨hok, hcreated⟩ := create_passthrough_created (makes_ok hfault hr) hmade rfl
    rw [atomic_iff_created hrc hkernel hok, hcreated]
    constructor
    · intro hreaches _
      exact ⟨fun q flags mode hc => absurd hc (hopen q flags mode), hreaches⟩
    · intro hcompletes
      exact (hcompletes hmakes).reaches
  · obtain ⟨e, hcall⟩ := not_makes hclose hmakes
    obtain ⟨hfailed, hleft⟩ := create_passthrough_failed hcall
    rw [atomic_iff_unchanged hrc hkernel hfailed, hleft]
    exact iff_of_true rfl (fun h => absurd h hmakes)

end Requests

/-- A node is created as a whole or not at all, exactly when nothing fails after it is
made: no error of `close`, and the change of owner goes through unless it is not needed. -/
theorem nodeCreation_iff (cred : Cred) (faults : Faults) (req : Request) (c : SysCall)
    (path : CString) (h : req.makes = some (c, path)) (env : Env) (s : Daemon FileSystem) :
    AtomicCreation cred env.uid env.gid path s.kernel
        (dispatch (faultyKernel cred faults) req env s) ↔
      (MakesNode cred faults s.kernel c →
        CompletesCreation cred env.uid env.gid path faults s.kernel c) := by
  rcases makes_cases h with ⟨p, mode, rdev, rfl, hreg, rfl, rfl⟩ | ⟨hopen, hclose, hcreate, hnode⟩
  · exact mknod_atomic_iff cred faults hreg env s
  · exact create_atomic_iff cred faults h hopen hclose hcreate hnode env s

/-- Root makes a directory for user 1000. -/
theorem nodeCreation_mkdir : AtomicCreation rootCred 1000 1000 "d".toList sampleFiles
    (dispatch (faultyKernel rootCred (fun _ => none)) (.mkdir "/d".toList 0o755)
      (sampleEnv 1000 1000) (Daemon.idle sampleFiles default)) := by
  refine (nodeCreation_iff rootCred (fun _ => none) _ _ _ rfl (sampleEnv 1000 1000)
    (Daemon.idle sampleFiles default)).mpr (fun _ => ⟨fun _ _ _ _ => rfl, fun _ _ _ _ => ?_⟩)
  exact .inl ⟨rfl, .inl rfl⟩

/-- The error of `close` is returned and the file is there; and the directory that the
daemon of user 7 makes for user 1000 is reported as made, but belongs to user 7. -/
theorem nodeCreation_fails :
    ¬ AtomicCreation rootCred 1000 1000 "b".toList sampleFiles
      (dispatch (faultyKernel rootCred (fun c => if c = .close 0 then some eio else none))
        (.mknod "/b".toList 0o100644 0) (sampleEnv 1000 1000) (Daemon.idle sampleFiles default)) ∧
    ¬ AtomicCreation userCred 1000 1000 "d".toList sampleFiles
      (dispatch (faultyKernel userCred (fun _ => none)) (.mkdir "/d".toList 0o755)
        (sampleEnv 1000 1000) (Daemon.idle sampleFiles default)) := by
  constructor
  · rintro (⟨hrc, -⟩ | ⟨-, hsame⟩)
    · exact absurd hrc (by decide)
    · exact absurd hsame (by decide)
  · rintro (⟨-, d, dir, n, y, -, -, huid, -, hnode⟩ | ⟨hrc, -⟩)
    · have howner : (FileSystem.inode (dispatch (faultyKernel userCred (fun _ => none))
          (.mkdir "/d".toList 0o755) (sampleEnv 1000 1000)
          (Daemon.idle sampleFiles default)).2.kernel 2).map Inode.uid = some 7 := by
        decide
      rw [hnode, if_pos (show 2 = sampleFiles.inodes.length from rfl), Option.map_some, huid] at howner
      exact absurd howner (by decide)
    · exact absurd hrc (by decide)

end DistillerFS
