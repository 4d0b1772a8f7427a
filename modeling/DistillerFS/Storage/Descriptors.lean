import DistillerFS.Daemon.Passthrough
import DistillerFS.Daemon.Session
import DistillerFS.Storage.Ownership
import Mathlib.Data.Set.Insert

/-!
# Descriptor balance

Every handler gives back the descriptors it opens for itself, whatever the calls in
between answer. What stays open are the handles that were handed out and not released.
-/
namespace DistillerFS
open Foundations

def SysCall.acquires : (c : SysCall) → c.Out → Option ℕ
  | .open _ _ _ => fun fd => some fd
  | .opendir _ => fun dir => some dir.dp
  | _ => fun _ => none

/-- The descriptor that a call gives back, even if it reports an error. -/
def SysCall.frees : SysCall → Option ℕ
  | .close fd => some fd
  | .closedir dp => some dp
  | _ => none

section Kernel
variable {σ : Type}

/-- `fds` is the set of open descriptors: a new one is not in use, a close always frees,
and no other call touches it. -/
structure TracksDescriptors (K : Kernel σ) (fds : σ → Set ℕ) : Prop where
  acquired : ∀ c k out fd, (K.call c k).1 = .ok out → c.acquires out = some fd →
    fd ∉ fds k ∧ fds (K.call c k).2 = insert fd (fds k)
  freed : ∀ c k fd, c.frees = some fd → fds (K.call c k).2 = fds k \ {fd}
  neutral : ∀ c k, c.frees = none → (∀ out, (K.call c k).1 = .ok out → c.acquires out = none) →
    fds (K.call c k).2 = fds k

/-- Each descriptor that the calls close is open at that moment and not one to keep. -/
def ClosesOwn (K : Kernel σ) (fds : σ → Set ℕ) (keep : Set ℕ) : σ → List SysCall → Prop
  | _, [] => True
  | k, c :: calls =>
    (∀ fd, c.frees = some fd → fd ∈ fds k ∧ fd ∉ keep) ∧ ClosesOwn K fds keep (K.call c k).2 calls

/-- The handles that are live: `open` hands one out, `release` gives it back. -/
def nextLive (live : List ℕ) (req : Request) (reply : Reply) : List ℕ :=
  match req with
  | .open _ _ =>
    match reply.out with
    | .handle fd => fd :: live
    | _ => live
  | .release _ fh => live.erase fh
  | _ => live

/-- FUSE releases only what was opened and not yet released. -/
def ReleasesLive (live : List ℕ) (req : Request) : Prop := ∀ p fh, req = .release p fh → fh ∈ live

/-- A run of handler calls from the state that `loggedFS_init` leaves, with the live handles. -/
inductive DescriptorRun (K : Kernel σ) (k₀ : σ) : Daemon σ → List ℕ → Prop where
  | mounted (errno : Errno) : DescriptorRun K k₀ (.idle k₀ errno) []
  | step {s : Daemon σ} {live : List ℕ} (env : Env) (req : Request)
      (run : DescriptorRun K k₀ s live) (hrel : ReleasesLive live req) :
      DescriptorRun K k₀ (dispatch K req env s).2 (nextLive live req (dispatch K req env s).1)

/-- The calls of an operation close only their own descriptors and leave `after` open. -/
structure Neat (K : Kernel σ) (fds : σ → Set ℕ) (keep : Set ℕ) (k : σ) (p : Passthrough σ)
    (after : Set ℕ) : Prop where
  closes : ClosesOwn K fds keep k p.calls
  open_ : fds p.kernel = after

def SysCall.Plain (c : SysCall) : Prop := c.frees = none ∧ ∀ out, c.acquires out = none

variable {K : Kernel σ} {fds : σ → Set ℕ} {keep : Set ℕ} {k : σ}

theorem TracksDescriptors.plain (h : TracksDescriptors K fds) {c : SysCall} (hc : c.Plain) (k : σ) :
    fds (K.call c k).2 = fds k :=
  h.neutral c k hc.1 fun out _ => hc.2 out

theorem TracksDescriptors.failed (h : TracksDescriptors K fds) {c : SysCall} {e : Errno}
    (hc : c.frees = none) (he : (K.call c k).1 = .error e) : fds (K.call c k).2 = fds k := by
  apply h.neutral c k hc
  intro out hout
  rw [he] at hout
  cases hout

theorem ClosesOwn.cons_open {c : SysCall} {calls : List SysCall} (hc : c.frees = none)
    (h : ClosesOwn K fds keep (K.call c k).2 calls) : ClosesOwn K fds keep k (c :: calls) := by
  refine ⟨?_, h⟩
  intro fd hfd
  rw [hc] at hfd
  cases hfd

theorem Neat.single (h : TracksDescriptors K fds) {c : SysCall} (hc : c.Plain)
    (done : c.Out → Reply) : Neat K fds keep k (.single K k c done) (fds k) where
  closes := ClosesOwn.cons_open hc.1 trivial
  open_ := h.plain hc k

/-- One call that brings no descriptor, and a change of the owner behind it. -/
theorem Neat.create (h : TracksDescriptors K fds) {c : SysCall} {path : CString} {uid gid : ℕ}
    (hclose : ∀ fd, c.frees = some fd → fd ∈ fds k ∧ fd ∉ keep) {after : Set ℕ}
    (hafter : fds (K.call c k).2 = after) : Neat K fds keep k (.create K k c path uid gid) after := by
  have hchown : (SysCall.lchown path (some uid) (some gid)).Plain := ⟨rfl, fun _ => rfl⟩
  unfold Passthrough.create Passthrough.andThen
  cases hres : (K.call c k).1 with
  | error e =>
    have herror : (Passthrough.single K k c fun _ => .ok).error = some e := by
      simp [Passthrough.single, hres, errorOf]
    rw [herror]
    exact ⟨⟨hclose, trivial⟩, hafter⟩
  | ok out =>
    have herror : (Passthrough.single K k c fun _ => .ok).error = none := by
      simp [Passthrough.single, hres, errorOf]
    rw [herror]
    exact ⟨⟨hclose, ClosesOwn.cons_open rfl trivial⟩, (h.plain hchown _).trans hafter⟩

/-- A descriptor is opened, plain calls may follow, and it is closed again. -/
theorem TracksDescriptors.reclosed (h : TracksDescriptors K fds) {c close : SysCall} {out : c.Out}
    {fd : ℕ} (hout : (K.call c k).1 = .ok out) (hfd : c.acquires out = some fd)
    (hclose : close.frees = some fd) {k' : σ} (hmid : fds k' = fds (K.call c k).2) :
    (∀ fd', close.frees = some fd' → fd' ∈ fds k' ∧ fd' ∉ fds k) ∧
      fds (K.call close k').2 = fds k := by
  obtain ⟨hfresh, hafter⟩ := h.acquired c k out fd hout hfd
  rw [hafter] at hmid
  constructor
  · intro fd' hfd'
    rw [hclose, Option.some.injEq] at hfd'
    subst hfd'
    exact ⟨by simp [hmid], hfresh⟩
  · rw [h.freed close k' fd hclose, hmid, Set.insert_sdiff_self_of_notMem hfresh]

theorem Neat.readdir (h : TracksDescriptors K fds) (path : CString)
    (filler : List (CString × StatBuf) → CString × StatBuf → Bool) :
    Neat K fds (fds k) k (.readdir K k path filler) (fds k) := by
  unfold Passthrough.readdir
  cases hopen : (K.call (.opendir path) k).1 with
  | error e => exact ⟨ClosesOwn.cons_open rfl trivial, h.failed rfl hopen⟩
  | ok dir =>
    have hclose : SysCall.frees (.closedir dir.dp) = some dir.dp := rfl
    obtain ⟨hown, hafter⟩ := h.reclosed hopen rfl hclose rfl
    exact ⟨ClosesOwn.cons_open rfl ⟨hown, trivial⟩, hafter⟩

theorem Neat.write (h : TracksDescriptors K fds) (path buf : CString) (offset : ℕ) :
    Neat K fds (fds k) k (.write K k path buf offset) (fds k) := by
  unfold Passthrough.write
  cases hopen : (K.call (.open path oWronly 0) k).1 with
  | error e => exact ⟨ClosesOwn.cons_open rfl trivial, h.failed rfl hopen⟩
  | ok fd =>
    have hclose : SysCall.frees (.close fd) = some fd := rfl
    have hwrite : (SysCall.pwrite fd buf offset).Plain := ⟨rfl, fun _ => rfl⟩
    obtain ⟨hown, hafter⟩ := h.reclosed hopen rfl hclose (h.plain hwrite _)
    exact ⟨ClosesOwn.cons_open rfl (ClosesOwn.cons_open rfl ⟨hown, trivial⟩), hafter⟩

theorem Neat.mknod (h : TracksDescriptors K fds) (path : CString) (mode rdev uid gid : ℕ) :
    Neat K fds (fds k) k (.mknod K k path mode rdev uid gid) (fds k) := by
  unfold Passthrough.mknod
  by_cases hreg : sIsreg mode = true
  · rw [if_pos hreg]
    cases hopen : (K.call (.open path (oCreat ||| oExcl ||| oWronly) mode) k).1 with
    | error e => exact ⟨ClosesOwn.cons_open rfl trivial, h.failed rfl hopen⟩
    | ok fd =>
      -- whatever `close` answers, the descriptor is free again
      have hclose : SysCall.frees (.close fd) = some fd := rfl
      obtain ⟨hown, hafter⟩ := h.reclosed hopen rfl hclose rfl
      have hneat : Neat K fds (fds k) _ (.create K _ (.close fd) path uid gid) (fds k) :=
        Neat.create h hown hafter
      exact ⟨ClosesOwn.cons_open rfl hneat.closes, hneat.open_⟩
  · rw [if_neg hreg]
    split_ifs
    · exact Neat.create h (fun fd hfd => by cases hfd) (h.plain ⟨rfl, fun _ => rfl⟩ k)
    · exact Neat.create h (fun fd hfd => by cases hfd) (h.plain ⟨rfl, fun _ => rfl⟩ k)

def keptBy (req : Request) (opened : Set ℕ) : Set ℕ :=
  match req with
  | .release _ fh => opened \ {fh}
  | _ => opened

def openAfter (opened : Set ℕ) (req : Request) (reply : Reply) : Set ℕ :=
  match req with
  | .open _ _ =>
    match reply.out with
    | .handle fd => insert fd opened
    | _ => opened
  | .release _ fh => opened \ {fh}
  | _ => opened

theorem dispatch_neat (h : TracksDescriptors K fds) (env : Env) (s : Daemon σ) {req : Request}
    (hrel : ∀ p fh, req = .release p fh → fh ∈ fds s.kernel) :
    Neat K fds (keptBy req (fds s.kernel)) s.kernel (passthrough K env.uid env.gid s.kernel req)
      (openAfter (fds s.kernel) req (dispatch K req env s).1) := by
  cases req with
  | «open» p flags =>
    simp only [openAfter, dispatch, loggedFSOpen_out]
    cases hres : (K.call (.open (getRelativePath p) flags 0) s.kernel).1 with
    | error e => exact ⟨ClosesOwn.cons_open rfl trivial, h.failed rfl hres⟩
    | ok fd => exact ⟨ClosesOwn.cons_open rfl trivial, (h.acquired _ _ _ _ hres rfl).2⟩
  | release p fh =>
    have hown : ∀ fd, SysCall.frees (.close fh) = some fd →
        fd ∈ fds s.kernel ∧ fd ∉ fds s.kernel \ {fh} := by
      intro fd hfd
      cases hfd
      exact ⟨hrel p fh rfl, fun hmem => hmem.2 rfl⟩
    exact ⟨⟨hown, trivial⟩, h.freed (.close fh) _ fh rfl⟩
  | readdir p filler => exact Neat.readdir h _ filler
  | mknod p mode rdev => exact Neat.mknod h _ mode rdev env.uid env.gid
  | write p buf offset fh => exact Neat.write h _ buf offset
  | mkdir p mode => exact Neat.create h (fun fd hfd => by cases hfd) (h.plain ⟨rfl, fun _ => rfl⟩ _)
  | symlink text p => exact Neat.create h (fun fd hfd => by cases hfd) (h.plain ⟨rfl, fun _ => rfl⟩ _)
  | link p q => exact Neat.create h (fun fd hfd => by cases hfd) (h.plain ⟨rfl, fun _ => rfl⟩ _)
  | fsync p d fh => exact ⟨trivial, rfl⟩
  | _ => exact Neat.single h ⟨rfl, fun _ => rfl⟩ _

theorem ClosesOwn.mono {keep' : Set ℕ} (hsub : keep' ⊆ keep) {calls : List SysCall}
    (h : ClosesOwn K fds keep k calls) : ClosesOwn K fds keep' k calls := by
  induction calls generalizing k with
  | nil => trivial
  | cons c calls ih =>
    refine ⟨?_, ih h.2⟩
    intro fd hfd
    exact ⟨(h.1 fd hfd).1, fun hmem => (h.1 fd hfd).2 (hsub hmem)⟩

/-- The handles in use are exactly the descriptors opened since the mount. -/
structure Balanced (fds : σ → Set ℕ) (k₀ : σ) (s : Daemon σ) (live : List ℕ) : Prop where
  nodup : live.Nodup
  fresh : ∀ fd ∈ live, fd ∉ fds k₀
  opened : fds s.kernel = fds k₀ ∪ {fd | fd ∈ live}

theorem Balanced.opened_handle {k₀ : σ} {s s' : Daemon σ} {live : List ℕ} {fd : ℕ}
    (hbal : Balanced fds k₀ s live) (hfd : fd ∉ fds s.kernel)
    (hafter : fds s'.kernel = insert fd (fds s.kernel)) : Balanced fds k₀ s' (fd :: live) := by
  rw [hbal.opened, Set.mem_union, not_or] at hfd
  constructor
  · exact List.nodup_cons.mpr ⟨hfd.2, hbal.nodup⟩
  · intro fd' hmem
    rcases List.mem_cons.mp hmem with rfl | hmem
    · exact hfd.1
    · exact hbal.fresh fd' hmem
  · ext fd'
    rw [hafter, hbal.opened]
    simp only [Set.mem_insert_iff, Set.mem_union, Set.mem_ofPred_eq, List.mem_cons]
    tauto

theorem Balanced.released_handle {k₀ : σ} {s s' : Daemon σ} {live : List ℕ} {fh : ℕ}
    (hbal : Balanced fds k₀ s live) (hfh : fh ∈ live)
    (hafter : fds s'.kernel = fds s.kernel \ {fh}) : Balanced fds k₀ s' (live.erase fh) := by
  have hbase := hbal.fresh fh hfh
  constructor
  · exact hbal.nodup.erase fh
  · exact fun fd hmem => hbal.fresh fd (List.mem_of_mem_erase hmem)
  · ext fd
    rw [hafter, hbal.opened]
    simp only [Set.mem_sdiff, Set.mem_union, Set.mem_ofPred_eq, Set.mem_singleton_iff,
      hbal.nodup.mem_erase_iff]
    by_cases heq : fd = fh
    · subst heq
      simp [hbase]
    · simp [heq]

theorem Balanced.same {k₀ : σ} {s s' : Daemon σ} {live : List ℕ} (hbal : Balanced fds k₀ s live)
    (hafter : fds s'.kernel = fds s.kernel) : Balanced fds k₀ s' live :=
  ⟨hbal.nodup, hbal.fresh, hafter.trans hbal.opened⟩

/-- One handler call keeps the balance: one case for each way the live handles change. -/
theorem Balanced.step (h : TracksDescriptors K fds) {k₀ : σ} {s : Daemon σ} {live : List ℕ}
    (hbal : Balanced fds k₀ s live) (env : Env) {req : Request} (hrel : ReleasesLive live req) :
    Balanced fds k₀ (dispatch K req env s).2 (nextLive live req (dispatch K req env s).1) := by
  have hopen : ∀ p fh, req = .release p fh → fh ∈ fds s.kernel := by
    intro p fh hreq
    rw [hbal.opened]
    exact .inr (hrel p fh hreq)
  have hafter : fds (dispatch K req env s).2.kernel =
      openAfter (fds s.kernel) req (dispatch K req env s).1 := by
    rw [(dispatch_issues K req env s).2]
    exact (dispatch_neat h env s hopen).open_
  cases req with
  | «open» p flags =>
    simp only [openAfter, nextLive, dispatch, loggedFSOpen_out] at hafter ⊢
    cases hres : (K.call (.open (getRelativePath p) flags 0) s.kernel).1 with
    | error e =>
      rw [hres] at hafter
      exact hbal.same hafter
    | ok fd =>
      rw [hres] at hafter
      exact hbal.opened_handle (h.acquired _ _ _ _ hres rfl).1 hafter
  | release p fh => exact hbal.released_handle (hrel p fh rfl) hafter
  | _ => exact hbal.same hafter

theorem DescriptorRun.balanced (h : TracksDescriptors K fds) {k₀ : σ} {s : Daemon σ}
    {live : List ℕ} (run : DescriptorRun K k₀ s live) : Balanced fds k₀ s live := by
  induction run with
  | mounted errno => exact ⟨List.nodup_nil, by simp, by simp [Daemon.idle]⟩
  | step env req run hrel ih => exact ih.step h env hrel

/-- In every run, the descriptors open since the mount are the live handles; and the next
handler closes only descriptors that are open, that were not open before the mount, and
that belong to no other live handle. -/
theorem descriptors_balanced (h : TracksDescriptors K fds) {k₀ : σ} {s : Daemon σ}
    {live : List ℕ} (run : DescriptorRun K k₀ s live) :
    live.Nodup ∧ fds k₀ ⊆ fds s.kernel ∧ fds s.kernel \ fds k₀ = {fd | fd ∈ live} ∧
    ∀ (env : Env) (req : Request), ReleasesLive live req →
      ∃ new, (dispatch K req env s).2.issued = s.issued ++ new ∧
        (dispatch K req env s).2.kernel = afterCalls K s.kernel new ∧
        ClosesOwn K fds (fds k₀ ∪ {fd | fd ∈ live ∧ ∀ p, req ≠ .release p fd}) s.kernel new := by
  have hbal := run.balanced h
  refine ⟨hbal.nodup, ?_, ?_, ?_⟩
  · rw [hbal.opened]
    exact Set.subset_union_left
  · ext fd
    rw [hbal.opened]
    simp only [Set.mem_sdiff, Set.mem_union, Set.mem_ofPred_eq]
    have hfresh := hbal.fresh fd
    tauto
  · intro env req hrel
    have hopen : ∀ p fh, req = .release p fh → fh ∈ fds s.kernel := by
      intro p fh hreq
      rw [hbal.opened]
      exact .inr (hrel p fh hreq)
    have hneat := dispatch_neat h env s hopen
    obtain ⟨hissued, hkernel⟩ := dispatch_issues K req env s
    refine ⟨_, hissued, hkernel.trans (passthrough_follows K _ _ _ req), hneat.closes.mono ?_⟩
    -- what the run keeps is kept by the request
    cases req with
    | release p fh =>
      rintro fd (hbase | ⟨hlive, hother⟩)
      · refine ⟨by rw [hbal.opened]; exact .inl hbase, ?_⟩
        rintro rfl
        exact hbal.fresh fd (hrel p fd rfl) hbase
      · refine ⟨by rw [hbal.opened]; exact .inr hlive, ?_⟩
        rintro rfl
        exact hother p rfl
    | _ =>
      change _ ⊆ fds s.kernel
      rw [hbal.opened]
      exact Set.union_subset_union_right _ fun fd hfd => hfd.1

end Kernel

section FileKernel
open FileSystem
variable {cred : Cred} {fs fs' : FileSystem}

def openDescriptors (fs : FileSystem) : Set ℕ := {fd | fs.fds.get fd ≠ none}

theorem create_fds {path : CString} {body : Body} {mode : ℕ} {u : Unit}
    (h : fs.create cred path body mode = .ok (u, fs')) : fs'.fds = fs.fds := by
  obtain ⟨d, dir, n, _, _, _, rfl⟩ := create_eq_ok.mp h
  rfl

theorem openFile_fds {path : CString} {flags mode fd : ℕ}
    (h : fs.openFile cred path flags mode = .ok (fd, fs')) :
    fd = fs.fds.next ∧ ∃ file, fs'.fds = fs.fds.alloc file := by
  rcases openFile_ok h with ⟨i, _, h⟩ | ⟨fs₁, _, hfd, rfl⟩
  · obtain ⟨_, _, _, hfd, hfds, _⟩ := openInode_ok h
    exact ⟨hfd, _, hfds⟩
  · exact ⟨hfd, _, rfl⟩

/-- A call that brings and frees no descriptor leaves the table as it is. -/
theorem perform_fds {c : SysCall} {out : c.Out} (hc : c.frees = none) (hout : c.acquires out = none)
    (h : fs.perform cred c = .ok (out, fs')) : fs'.fds = fs.fds := by
  cases c with
  | closedir dp => cases hc
  | close fd => cases hc
  | opendir path => cases hout
  | «open» path flags mode => cases hout
  | mkfifo | mkdir | symlink => exact create_fds h
  | mknod path mode rdev =>
    obtain ⟨_, h⟩ := mknod_ok h
    exact create_fds h
  | lchown path uid gid =>
    obtain ⟨_, _, _, _, _, rfl⟩ := lchown_eq_ok.mp h
    rfl
  | unlink path =>
    obtain ⟨_, _, rfl⟩ := unlink_ok h
    rfl
  | rmdir path =>
    obtain ⟨_, _, rfl⟩ := rmdir_ok h
    rfl
  | rename old new =>
    rcases rename_ok h with rfl | ⟨_, _, _, _, _, rfl⟩ <;> rfl
  | link old new =>
    obtain ⟨_, _, _, _, _, _, _, _, _, _, _, rfl⟩ := link_eq_ok.mp h
    rfl
  | chmod path mode =>
    obtain ⟨_, rfl⟩ := chmod_ok h
    rfl
  | pwrite fd buf offset =>
    obtain ⟨_, _, _, _, _, _, rfl⟩ := pwrite_eq_ok.mp h
    rfl
  | truncate path size =>
    obtain ⟨_, _, _, _, rfl⟩ := truncate_ok h
    rfl
  | _ => rw [perform_looks rfl h]

theorem openDescriptors_alloc {file : OpenFile} (h : fs'.fds = fs.fds.alloc file) :
    fs.fds.next ∉ openDescriptors fs ∧
      openDescriptors fs' = insert fs.fds.next (openDescriptors fs) := by
  constructor
  · exact fun hmem => hmem fs.fds.get_next
  · ext fd
    simp only [openDescriptors, Set.mem_insert_iff, Set.mem_ofPred_eq, h, Slots.get_alloc]
    split_ifs with hfd <;> simp [hfd]

theorem close_descriptors (fs : FileSystem) (fd : ℕ) :
    fs.close fd = .ok ((), { fs with fds := fs.fds.free fd }) ∨
      (fs.fds.get fd = none ∧ fs.close fd = .error ebadf) := by
  cases hget : fs.fds.get fd with
  | none => exact .inr ⟨rfl, by simp [FileSystem.close, getFile, hget, bind, Except.bind]⟩
  | some file => exact .inl (close_eq_ok.mpr ⟨⟨file, hget⟩, rfl⟩)

theorem fileKernel_frees (cred : Cred) (fs : FileSystem) {fd : ℕ} {c : SysCall}
    (hc : c.frees = some fd) :
    openDescriptors ((fileKernel cred).call c fs).2 = openDescriptors fs \ {fd} := by
  have hclosed : openDescriptors { fs with fds := fs.fds.free fd } = openDescriptors fs \ {fd} := by
    ext fd'
    simp only [openDescriptors, Set.mem_sdiff, Set.mem_ofPred_eq, Set.mem_singleton_iff, Slots.get_free]
    by_cases hfd : fd' = fd <;> simp [hfd]
  cases c with
  | close fd' | closedir fd' =>
    cases hc
    rcases close_descriptors fs fd with h | ⟨hnone, h⟩
    · simp only [fileKernel, perform, h]
      exact hclosed
    · have hfree : fd ∉ openDescriptors fs := fun hmem => hmem hnone
      simp only [fileKernel, perform, h]
      exact (Set.sdiff_singleton_eq_self hfree).symm
  | _ => cases hc

/-- The file system below the daemon keeps its descriptors as the daemon relies on. -/
theorem fileKernel_tracks (cred : Cred) : TracksDescriptors (fileKernel cred) openDescriptors where
  acquired := by
    intro c fs out fd hout hfd
    cases hperform : fs.perform cred c with
    | error e =>
      rw [fileKernel_error hperform] at hout
      cases hout
    | ok r =>
      rw [fileKernel_ok hperform] at hout ⊢
      cases hout
      cases c with
      | «open» path flags mode =>
        cases hfd
        obtain ⟨hnext, file, hfds⟩ := openFile_fds hperform
        rw [hnext]
        exact openDescriptors_alloc hfds
      | opendir path =>
        cases hfd
        obtain ⟨hnext, file, hfs⟩ := opendir_ok hperform
        rw [hnext]
        exact openDescriptors_alloc (congrArg FileSystem.fds hfs)
      | _ => cases hfd
  freed := fun c fs fd hc => fileKernel_frees cred fs hc
  neutral := by
    intro c fs hc hout
    cases hperform : fs.perform cred c with
    | error e => rw [fileKernel_error hperform]
    | ok r =>
      rw [fileKernel_ok hperform] at hout ⊢
      rw [openDescriptors, perform_fds hc (hout r.1 rfl) hperform]
      rfl

end FileKernel

/-- A file opened through the daemon is the one descriptor that is new. -/
theorem descriptors_balanced_open :
    openDescriptors (dispatch (fileKernel rootCred) (.open "/a".toList 0) (sampleEnv 0 0)
      (.idle sampleFiles default)).2.kernel \ openDescriptors sampleFiles = {fd | fd ∈ [0]} := by
  have mounted : DescriptorRun (fileKernel rootCred) sampleFiles (.idle sampleFiles default) [] :=
    .mounted default
  have run := mounted.step (sampleEnv 0 0) (.open "/a".toList 0) (fun p fh hreq => by cases hreq)
  exact (descriptors_balanced (fileKernel_tracks rootCred) run).2.2.1

end DistillerFS
