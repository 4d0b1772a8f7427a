import DistillerFS.Daemon.Passthrough
import DistillerFS.Daemon.Session
import DistillerFS.Storage.FileKernel

/-!
# Open handles

A handle keeps its descriptor, and the descriptor its inode, whatever happens to the
names and the modes behind them: an invariant of every run of the handlers.
-/
namespace DistillerFS
open Foundations FileSystem

def handleOps : List FuseOps :=
  [.opOpen, .opChmod, .opRename, .opUnlink, .opMknod, .opLink, .opRead, .opWrite, .opRelease]

abbrev Handles := ℕ → Option ℕ

/-- `open` hands out `fi->fh`, and `release` is the last call that gets it. -/
def nextHandles (live : Handles) (req : Request) (reply : Reply) : Handles :=
  match req with
  | .open _ flags =>
    match reply.out with
    | .handle fd => Function.update live fd (some flags)
    | _ => live
  | .release _ fh => Function.update live fh none
  | _ => live

/-- A run from the mount on. The daemon may already have descriptors of its own. -/
inductive HandleRun (cred : Cred) : Daemon FileSystem → Handles → Prop where
  | mounted (fs : FileSystem) (errno : Errno) : HandleRun cred (.idle fs errno) (fun _ => none)
  | step {s : Daemon FileSystem} {live : Handles} (env : Env) (req : Request)
      (run : HandleRun cred s live) (hop : req.op ∈ handleOps) :
      HandleRun cred (dispatch (fileKernel cred) req env s).2
        (nextHandles live req (dispatch (fileKernel cred) req env s).1)

def StaysRegular (x x' : Inode) : Prop := x.data.isSome = true → x'.data.isSome = true

theorem StaysRegular.refl (x : Inode) : StaysRegular x x := id

theorem StaysRegular.trans (x y z : Inode) (h : StaysRegular x y) (h' : StaysRegular y z) :
    StaysRegular x z := h' ∘ h

/-- Regular files stay regular, and open descriptors stay open. -/
structure Steady (fs fs' : FileSystem) : Prop where
  regular : Preserves StaysRegular fs fs'
  opened : ∀ fd file, fs.fds.get fd = some file → fs'.fds.get fd = some file

namespace Steady
variable {fs fs' fs'' : FileSystem}

theorem of_fds (h : Preserves StaysRegular fs fs') (hfds : fs'.fds = fs.fds) : Steady fs fs' where
  regular := h
  opened := by
    intro fd file hfd
    rw [hfds, hfd]

theorem refl (fs : FileSystem) : Steady fs fs :=
  of_fds (Preserves.of_inodes StaysRegular.refl rfl) rfl

theorem trans (h : Steady fs fs') (h' : Steady fs' fs'') : Steady fs fs'' where
  regular := h.regular.trans StaysRegular.trans h'.regular
  opened := fun fd file hfd => h'.opened fd file (h.opened fd file hfd)

theorem modify {i : Ino} {f : Inode → Inode} (hf : ∀ x, StaysRegular x (f x)) (fs : FileSystem) :
    Steady fs (fs.modify i f) :=
  of_fds (Preserves.modify StaysRegular.refl (fun x _ => hf x)) rfl

theorem push (x : Inode) (fs : FileSystem) : Steady fs (fs.push x) :=
  of_fds (Preserves.push StaysRegular.refl x) rfl

theorem alloc (h : Preserves StaysRegular fs fs') {file : OpenFile}
    (hfds : fs'.fds = fs.fds.alloc file) : Steady fs fs' where
  regular := h
  opened := by
    intro fd g hfd
    rw [hfds, Slots.get_alloc, if_neg, hfd]
    rintro rfl
    rw [Slots.get_next] at hfd
    cases hfd

/-- A file that is opened and closed again leaves the other descriptors alone. -/
theorem alloc_close {cred : Cred} (h : Preserves StaysRegular fs fs') {file : OpenFile}
    (hfds : fs'.fds = fs.fds.alloc file) :
    Steady fs ((fileKernel cred).call (.close fs.fds.next) fs').2 := by
  have hclose : fs'.perform cred (.close fs.fds.next) =
      .ok ((), { fs' with fds := fs'.fds.free fs.fds.next }) := by
    refine close_eq_ok.mpr ⟨⟨file, ?_⟩, rfl⟩
    rw [hfds, Slots.get_alloc, if_pos rfl]
  rw [fileKernel_ok hclose]
  refine ⟨h.trans StaysRegular.trans (Preserves.of_inodes StaysRegular.refl rfl), ?_⟩
  intro fd g hfd
  rw [hfds, Slots.get_free_alloc, hfd]

end Steady

section Calls
variable {cred : Cred} {fs fs' : FileSystem}

theorem bind_steady (d i : Ino) (n : CString) (fs : FileSystem) : Steady fs (fs.modify d (.bind n i)) :=
  Steady.modify (fun x => by simp [StaysRegular]) fs

theorem unbind_steady (d : Ino) (n : CString) (fs : FileSystem) : Steady fs (fs.modify d (.unbind n)) :=
  Steady.modify (fun x => by simp [StaysRegular]) fs

theorem create_steady {path : CString} {body : Body} {mode : ℕ} {u : Unit}
    (h : fs.create cred path body mode = .ok (u, fs')) : Steady fs fs' := by
  obtain ⟨d, dir, n, _, _, _, rfl⟩ := create_eq_ok.mp h
  exact (bind_steady d _ n fs).trans (.push _ _)

theorem rename_steady {old new : CString} {u : Unit} (h : fs.rename cred old new = .ok (u, fs')) :
    Steady fs fs' := by
  rcases rename_ok h with rfl | ⟨d, n, d', n', i, rfl⟩
  · exact .refl _
  · exact ((unbind_steady d n _).trans (unbind_steady d' n' _)).trans (bind_steady d' i n' _)

theorem lchown_steady {path : CString} {uid gid : Option ℕ} {u : Unit}
    (h : fs.lchown cred path uid gid = .ok (u, fs')) : Steady fs fs' := by
  obtain ⟨i, x, _, _, _, rfl⟩ := lchown_eq_ok.mp h
  refine .modify ?_ fs
  intro x hx
  exact hx

theorem pwrite_steady (cred : Cred) (fs : FileSystem) (fd offset : ℕ) (buf : CString) :
    Steady fs ((fileKernel cred).call (.pwrite fd buf offset) fs).2 ∧
      ((fileKernel cred).call (.pwrite fd buf offset) fs).2.fds = fs.fds := by
  cases h : fs.perform cred (.pwrite fd buf offset) with
  | error e =>
    rw [fileKernel_error h]
    exact ⟨.refl fs, rfl⟩
  | ok r =>
    rw [fileKernel_ok h]
    obtain ⟨file, data, _, _, _, _, hfs'⟩ := pwrite_eq_ok.mp h
    rw [hfs']
    exact ⟨.modify (fun x _ => rfl) fs, rfl⟩

/-- What `open` leaves: its descriptor, on a regular file when it is for writing. -/
theorem openFile_opened {path : CString} {flags mode fd : ℕ}
    (h : fs.openFile cred path flags mode = .ok (fd, fs')) :
    Preserves StaysRegular fs fs' ∧ fd = fs.fds.next ∧
      ∃ i, fs'.fds = fs.fds.alloc (opened i flags) ∧
        ((opened i flags).writable = true → ∃ x, fs'.inode i = some x ∧ x.data.isSome = true) := by
  rcases openFile_ok h with ⟨i, _, hopen⟩ | ⟨fs₁, hcreate, hfd, rfl⟩
  · obtain ⟨x, hx, hregular, hfd, hfds, hinodes⟩ := openInode_ok hopen
    have hstays : Preserves StaysRegular fs fs' := by
      rcases hinodes with hsame | ⟨_, hcleared⟩
      · exact Preserves.of_inodes StaysRegular.refl hsame
      · exact (Steady.modify (fun x _ => rfl) fs).regular.trans StaysRegular.trans
          (Preserves.of_inodes StaysRegular.refl hcleared)
    refine ⟨hstays, hfd, i, hfds, ?_⟩
    intro hwritable
    obtain ⟨data, hdata⟩ := hregular (.inl hwritable)
    obtain ⟨x', hx', hstay⟩ := hstays i x hx
    exact ⟨x', hx', hstay (by simp [Inode.data, hdata])⟩
  · have hstays : Preserves StaysRegular fs fs₁ := (create_steady hcreate).regular
    refine ⟨hstays.trans StaysRegular.trans (Preserves.of_inodes StaysRegular.refl rfl), hfd,
      fs.inodes.length, rfl, ?_⟩
    intro _
    obtain ⟨d, dir, n, _, _, _, rfl⟩ := create_eq_ok.mp hcreate
    refine ⟨_, (inode_create fs d n _ fs.inodes.length).trans (if_pos rfl), ?_⟩
    rw [Inode.data, newInode_body]
    rfl

end Calls

/-- Each handle in use has its descriptor, and a handle for writing has a regular file. -/
def HandlesOpen (fs : FileSystem) (live : Handles) : Prop :=
  ∀ fd flags, live fd = some flags → ∃ i, fs.fds.get fd = some (opened i flags) ∧
    ((opened i flags).writable = true → ∃ x, fs.inode i = some x ∧ x.data.isSome = true)

section Requests
variable {cred : Cred} {fs fs' : FileSystem} {live : Handles}

theorem HandlesOpen.steady (h : HandlesOpen fs live) (hsteady : Steady fs fs') :
    HandlesOpen fs' live := by
  intro fd flags hlive
  obtain ⟨i, hfd, hregular⟩ := h fd flags hlive
  refine ⟨i, hsteady.opened fd _ hfd, ?_⟩
  intro hwritable
  obtain ⟨x, hx, hdata⟩ := hregular hwritable
  obtain ⟨x', hx', hstays⟩ := hsteady.regular i x hx
  exact ⟨x', hx', hstays hdata⟩

theorem single_steady {c : SysCall} {done : c.Out → Reply}
    (hc : ∀ out fs', fs.perform cred c = .ok (out, fs') → Steady fs fs') :
    Steady fs (Passthrough.single (fileKernel cred) fs c done).kernel :=
  fileKernel_rel (.refl fs) hc

theorem create_request_steady {c : SysCall} {path : CString} {uid gid : ℕ}
    (hc : Steady fs ((fileKernel cred).call c fs').2) :
    Steady fs (Passthrough.create (fileKernel cred) fs' c path uid gid).kernel := by
  unfold Passthrough.create Passthrough.andThen Passthrough.single
  split
  · exact hc
  · exact hc.trans (fileKernel_rel (.refl _) (fun _ _ h => lchown_steady h))

theorem mknod_request_steady (path : CString) (mode rdev uid gid : ℕ) :
    Steady fs (Passthrough.mknod (fileKernel cred) fs path mode rdev uid gid).kernel := by
  unfold Passthrough.mknod
  split_ifs
  · cases ho : fs.perform cred (.open path (oCreat ||| oExcl ||| oWronly) mode) with
    | error e =>
      simp only [fileKernel_error ho]
      exact single_steady (fun out fs' h => by rw [ho] at h; cases h)
    | ok r =>
      obtain ⟨hstays, hfd, i, hfds, _⟩ := openFile_opened ho
      simp only [fileKernel_ok ho, hfd]
      exact create_request_steady (.alloc_close hstays hfds)
  · exact create_request_steady (fileKernel_rel (.refl fs) (fun _ _ h => create_steady h))
  · refine create_request_steady (fileKernel_rel (.refl fs) ?_)
    intro out fs' h
    obtain ⟨body, hcreate⟩ := mknod_ok h
    exact create_steady hcreate

/-- The second descriptor of a write is gone when the write returns. -/
theorem write_request_steady (path buf : CString) (offset : ℕ) :
    Steady fs (Passthrough.write (fileKernel cred) fs path buf offset).kernel := by
  unfold Passthrough.write
  cases ho : fs.perform cred (.open path oWronly 0) with
  | error e =>
    simp only [fileKernel_error ho]
    exact single_steady (fun out fs' h => by rw [ho] at h; cases h)
  | ok r =>
    obtain ⟨hstays, hfd, i, hfds, _⟩ := openFile_opened ho
    simp only [fileKernel_ok ho, hfd]
    obtain ⟨hwrite, hsame⟩ := pwrite_steady cred r.2 fs.fds.next offset buf
    exact .alloc_close (hstays.trans StaysRegular.trans hwrite.regular) (hsame.trans hfds)

/-- Every call but `open` and `release`, whose requests change the handles in use. -/
theorem passthrough_steady {uid gid : ℕ} {req : Request} (hop : req.op ∈ handleOps)
    (hopen : req.op ≠ .opOpen) (hrelease : req.op ≠ .opRelease) :
    Steady fs (passthrough (fileKernel cred) uid gid fs req).kernel := by
  cases req with
  | mknod p mode rdev => exact mknod_request_steady _ mode rdev uid gid
  | write p buf offset fh => exact write_request_steady _ buf offset
  | link p q =>
    refine create_request_steady (fileKernel_rel (.refl fs) ?_)
    intro out fs' h
    obtain ⟨i, x, d, dir, n, _, _, _, _, _, _, rfl⟩ := link_eq_ok.mp h
    exact bind_steady d i n fs
  | rename p q => exact single_steady (fun _ _ h => rename_steady h)
  | unlink p =>
    apply single_steady
    intro out fs' h
    obtain ⟨d, n, rfl⟩ := unlink_ok h
    exact unbind_steady d n fs
  | chmod p mode =>
    apply single_steady
    intro out fs' h
    obtain ⟨i, rfl⟩ := chmod_ok h
    refine .modify ?_ fs
    intro x hx
    exact hx
  | read p size offset fh =>
    apply single_steady
    intro out fs' h
    obtain ⟨_, _, _, _, _, _, rfl⟩ := pread_eq_ok.mp h
    exact .refl _
  | «open» p flags => exact absurd rfl hopen
  | release p fh => exact absurd rfl hrelease
  | _ => simp [handleOps, Request.op] at hop

/-- The new handle of `open`. -/
theorem open_handles (h : HandlesOpen fs live) {path : CString} {flags mode fd : ℕ}
    (hopen : fs.openFile cred path flags mode = .ok (fd, fs')) :
    HandlesOpen fs' (Function.update live fd (some flags)) := by
  obtain ⟨hstays, rfl, i, hfds, hregular⟩ := openFile_opened hopen
  intro fd flags' hlive
  rw [Function.update_apply] at hlive
  split_ifs at hlive with hnew
  · cases hlive
    refine ⟨i, ?_, hregular⟩
    rw [hfds, Slots.get_alloc, if_pos hnew]
  · exact h.steady (.alloc hstays hfds) fd flags' hlive

theorem release_handles (h : HandlesOpen fs live) (fh : ℕ) :
    HandlesOpen ((fileKernel cred).call (.close fh) fs).2 (Function.update live fh none) := by
  intro fd flags hlive
  rw [Function.update_apply] at hlive
  split_ifs at hlive with hfh
  obtain ⟨i, hfd, hregular⟩ := h fd flags hlive
  cases hc : fs.perform cred (.close fh) with
  | error e =>
    rw [fileKernel_error hc]
    exact ⟨i, hfd, hregular⟩
  | ok r =>
    rw [fileKernel_ok hc, (close_eq_ok.mp hc).2]
    refine ⟨i, ?_, hregular⟩
    rw [Slots.get_free, if_neg hfh, hfd]

theorem dispatch_handles (env : Env) (s : Daemon FileSystem) (req : Request)
    (hop : req.op ∈ handleOps) (h : HandlesOpen s.kernel live) :
    HandlesOpen (dispatch (fileKernel cred) req env s).2.kernel
      (nextHandles live req (dispatch (fileKernel cred) req env s).1) := by
  have hkernel := (dispatch_issues (fileKernel cred) req env s).2
  rw [hkernel]
  cases req with
  | «open» p flags =>
    simp only [passthrough, Passthrough.single, nextHandles, dispatch, loggedFSOpen_out]
    cases ho : s.kernel.perform cred (.open (getRelativePath p) flags 0) with
    | error e =>
      rw [fileKernel_error ho]
      exact h
    | ok r =>
      rw [fileKernel_ok ho]
      exact open_handles h ho
  | release p fh => exact release_handles h fh
  | _ => exact h.steady (passthrough_steady hop (by simp [Request.op]) (by simp [Request.op]))

end Requests

/-- In every state of a run the handles in use are open. -/
theorem HandleRun.handlesOpen {cred : Cred} {s : Daemon FileSystem} {live : Handles}
    (run : HandleRun cred s live) : HandlesOpen s.kernel live := by
  induction run with
  | mounted fs errno => nofun
  | step env req _ hop ih => exact dispatch_handles env _ req hop ih

end DistillerFS
