import DistillerFS.Daemon.Session
import DistillerFS.Daemon.Passthrough
import DistillerFS.Storage.FileKernel

/-!
# Who owns what the namespace operations touch

Creating a node and giving it to the caller leaves every other inode alone. The handler
of link has the same shape, but there the new name belongs to an old inode.
-/
namespace DistillerFS
open Foundations FileSystem

def namespaceOps : List FuseOps :=
  [.opMknod, .opMkdir, .opSymlink, .opLink, .opRename, .opUnlink, .opRmdir]

def creatingOps : List FuseOps := [.opMknod, .opMkdir, .opSymlink]

def SameOwner (x x' : Inode) : Prop := x'.uid = x.uid ∧ x'.gid = x.gid

theorem SameOwner.refl (x : Inode) : SameOwner x x := ⟨rfl, rfl⟩

theorem SameOwner.trans (x y z : Inode) (h : SameOwner x y) (h' : SameOwner y z) : SameOwner x z :=
  ⟨h'.1.trans h.1, h'.2.trans h.2⟩

/-- No inode changes its owner, and a new one is made by mknod, mkdir or symlink only. It
belongs to the caller, unless a daemon without privileges had to keep it. -/
structure OwnersFramed (cred : Cred) (uid gid : ℕ) (op : FuseOps) (fs fs' : FileSystem) : Prop where
  kept : Preserves SameOwner fs fs'
  created : ∀ i x', fs.inode i = none → fs'.inode i = some x' → op ∈ creatingOps ∧
    (x'.uid = uid ∧ x'.gid = gid ∨ cred.privileged = false ∧ x'.uid = cred.uid)

/-- The request is no link that succeeds and hands an old inode over to someone else. -/
def LinkKeepsOwner (cred : Cred) (fs : FileSystem) (uid gid : ℕ) : Request → Prop
  | .link p q => ∀ i x fs', fs.link cred (getRelativePath p) (getRelativePath q) = .ok ((), fs') →
      fs.resolve cred (getRelativePath p) = .ok i → fs.inode i = some x →
      cred.mayChown x uid gid = true → x.uid = uid ∧ x.gid = gid
  | _ => True

section Frames
variable {cred : Cred} {uid gid : ℕ} {op : FuseOps} {fs fs' : FileSystem}

theorem OwnersFramed.refl (fs : FileSystem) : OwnersFramed cred uid gid op fs fs where
  kept := Preserves.of_inodes SameOwner.refl rfl
  created := by
    intro i x hnone hx
    rw [hnone] at hx
    cases hx

/-- Rebinding names in a directory. -/
theorem OwnersFramed.modify {i : Ino} {f : Inode → Inode} (hf : ∀ x, SameOwner x (f x))
    (h : OwnersFramed cred uid gid op fs fs') : OwnersFramed cred uid gid op fs (fs'.modify i f) where
  kept := h.kept.trans SameOwner.trans (Preserves.modify SameOwner.refl (fun x _ => hf x))
  created := by
    intro j x' hnone hx'
    rw [inode_modify] at hx'
    obtain ⟨x, hx, rfl⟩ := Option.map_eq_some_iff.mp hx'
    obtain ⟨hop, howner⟩ := h.created j x hnone hx
    refine ⟨hop, ?_⟩
    split_ifs
    · rw [(hf x).1, (hf x).2]
      exact howner
    · exact howner

theorem OwnersFramed.unbind (fs : FileSystem) (d : Ino) (n : CString) :
    OwnersFramed cred uid gid op fs (fs.modify d (.unbind n)) :=
  OwnersFramed.modify (fun _ => ⟨rfl, rfl⟩) (.refl fs)

/-- A new node, and the change of its owner behind it. Between the two the descriptors
may change. -/
theorem OwnersFramed.create (hop : op ∈ creatingOps) {path : CString} {body : Body} {mode : ℕ}
    {fs₁ fs₂ : FileSystem} (hcreate : fs.create cred path body mode = .ok ((), fs₁))
    (hinodes : fs₂.inodes = fs₁.inodes) :
    OwnersFramed cred uid gid op fs
      ((fileKernel cred).call (.lchown path (some uid) (some gid)) fs₂).2 := by
  obtain ⟨d, dir, n, _, _, hinode, hresolve⟩ := create_leads hcreate hinodes
  let y := newInode cred dir body mode
  have hnew : fs₂.inode fs.inodes.length = some y := by rw [hinode, if_pos rfl]
  -- the chown reaches the new inode, or it is refused
  obtain ⟨owned, hfinal, howner⟩ : ∃ f : Inode → Inode,
      ((fileKernel cred).call (.lchown path (some uid) (some gid)) fs₂).2 =
        fs₂.modify fs.inodes.length f ∧
      ((f y).uid = uid ∧ (f y).gid = gid ∨ cred.privileged = false ∧ (f y).uid = cred.uid) := by
    rw [lchown_kernel hresolve hnew]
    split_ifs with hmay
    · exact ⟨_, rfl, .inl ⟨rfl, rfl⟩⟩
    · refine ⟨id, ?_, .inr ⟨?_, newInode_uid cred dir body mode⟩⟩
      · simp [FileSystem.modify]
      · rw [Bool.eq_false_iff]
        intro hprivileged
        simp [Cred.mayChown, hprivileged] at hmay
  rw [hfinal]
  refine ⟨?_, ?_⟩
  · intro i x hx
    have hne : i ≠ fs.inodes.length := Nat.ne_of_lt (lt_of_inode hx)
    refine ⟨if d = i then x.bind n fs.inodes.length else x, ?_, ?_⟩
    · rw [inode_modify, hinode, if_neg hne, hx]
      simp [Ne.symm hne]
    · split_ifs <;> exact ⟨rfl, rfl⟩
  · intro i x' hnone hx'
    rw [inode_modify, hinode, hnone] at hx'
    by_cases hi : i = fs.inodes.length
    · simp only [hi, if_true, Option.map_some, Option.some.injEq] at hx'
      rw [← hx']
      exact ⟨hop, howner⟩
    · simp [hi] at hx'

end Frames

section Requests
variable {cred : Cred} (env : Env) (s : Daemon FileSystem)

theorem create_framed {uid gid : ℕ} {op : FuseOps} (hop : op ∈ creatingOps) {fs : FileSystem}
    {c : SysCall} {path : CString}
    (hc : ∀ out fs', fs.perform cred c = .ok (out, fs') →
      ∃ body mode fs₁, fs.create cred path body mode = .ok ((), fs₁) ∧ fs'.inodes = fs₁.inodes) :
    OwnersFramed cred uid gid op fs (Passthrough.create (fileKernel cred) fs c path uid gid).kernel := by
  unfold Passthrough.create Passthrough.andThen Passthrough.single
  cases h : fs.perform cred c with
  | error e =>
    simp only [fileKernel_error h, errorOf]
    exact .refl fs
  | ok r =>
    obtain ⟨body, mode, fs₁, hcreate, hinodes⟩ := hc r.1 r.2 h
    simp only [fileKernel_ok h, errorOf, List.foldl_cons, List.foldl_nil]
    exact OwnersFramed.create hop hcreate hinodes

theorem mknod_framed {uid gid : ℕ} (fs : FileSystem) (path : CString) (mode rdev : ℕ) :
    OwnersFramed cred uid gid .opMknod fs
      (Passthrough.mknod (fileKernel cred) fs path mode rdev uid gid).kernel := by
  unfold Passthrough.mknod
  split_ifs
  · cases ho : fs.perform cred (.open path (oCreat ||| oExcl ||| oWronly) mode) with
    | error e =>
      simp only [fileKernel_error ho, Passthrough.single]
      exact .refl fs
    | ok r =>
      obtain ⟨fs₁, hcreate, hfd, hfs'⟩ := openFile_excl ho
      have hclose : r.2.perform cred (.close r.1) =
          .ok ((), { r.2 with fds := r.2.fds.free r.1 }) := close_openFile_excl ho
      simp only [fileKernel_ok ho, Passthrough.create, Passthrough.andThen, Passthrough.single,
        fileKernel_ok hclose, errorOf, List.foldl_cons, List.foldl_nil]
      apply OwnersFramed.create (by decide) hcreate
      rw [hfs']
  · apply create_framed (by decide)
    intro out fs' h
    exact ⟨_, _, fs', h, rfl⟩
  · apply create_framed (by decide)
    intro out fs' h
    obtain ⟨body, hcreate⟩ := mknod_ok h
    exact ⟨body, _, fs', hcreate, rfl⟩

theorem single_framed {uid gid : ℕ} {op : FuseOps} {fs : FileSystem} {c : SysCall}
    {done : c.Out → Reply}
    (hc : ∀ out fs', fs.perform cred c = .ok (out, fs') → OwnersFramed cred uid gid op fs fs') :
    OwnersFramed cred uid gid op fs (Passthrough.single (fileKernel cred) fs c done).kernel :=
  fileKernel_rel (.refl fs) hc

theorem rename_framed {uid gid : ℕ} {op : FuseOps} {fs fs' : FileSystem} {old new : CString}
    (h : fs.rename cred old new = .ok ((), fs')) : OwnersFramed cred uid gid op fs fs' := by
  rcases rename_ok h with rfl | ⟨d, n, d', n', i, rfl⟩
  · exact .refl _
  · exact .modify (fun _ => ⟨rfl, rfl⟩) (.modify (fun _ => ⟨rfl, rfl⟩) (.unbind _ d n))

/-- A link that succeeds: its new name leads to the old inode, which keeps its owner so far. -/
theorem link_leads {uid gid : ℕ} {fs fs' : FileSystem} {old new : CString} {u : Unit}
    (h : fs.link cred old new = .ok (u, fs')) : ∃ i x x', fs.resolve cred old = .ok i ∧
      fs.inode i = some x ∧ fs'.resolve cred new = .ok i ∧ fs'.inode i = some x' ∧ SameOwner x x' ∧
      OwnersFramed cred uid gid .opLink fs fs' := by
  obtain ⟨i, x, d, dir, n, hi, hx, _, hlocate, hfree, _, rfl⟩ := link_eq_ok.mp h
  obtain ⟨x', hx', hext⟩ := locate_bound hlocate hfree i i x hx
  refine ⟨i, x, x', hi, hx, ?_, hx', ⟨hext.2.2.1, hext.2.2.2.1⟩, ?_⟩
  · exact resolve_bound hlocate hfree (Preserves.of_inodes Extended.refl rfl)
  · exact .modify (fun _ => ⟨rfl, rfl⟩) (.refl fs)

/-- An old inode is given away: the owners are framed only if it was the caller's before. -/
theorem given_framed_iff {uid gid : ℕ} {fs fs' : FileSystem} {i : Ino} {x x' : Inode}
    (hx : fs.inode i = some x) (hx' : fs'.inode i = some x') (hsame : SameOwner x x')
    (h : OwnersFramed cred uid gid .opLink fs fs') :
    OwnersFramed cred uid gid .opLink fs
        (fs'.modify i (fun x => { x with uid := uid, gid := gid })) ↔ x.uid = uid ∧ x.gid = gid := by
  constructor
  · intro hframed
    obtain ⟨z, hz, howner⟩ := hframed.kept i x hx
    rw [inode_modify, hx'] at hz
    simp only [if_true, Option.map_some, Option.some.injEq] at hz
    rw [← hz] at howner
    exact ⟨howner.1.symm, howner.2.symm⟩
  · rintro ⟨huid, hgid⟩
    refine ⟨h.kept.trans SameOwner.trans (Preserves.modify SameOwner.refl ?_), ?_⟩
    · intro y hy
      rw [hx'] at hy
      cases hy
      exact ⟨huid.symm.trans hsame.1.symm, hgid.symm.trans hsame.2.symm⟩
    · intro j y hnone hy
      rw [inode_modify] at hy
      obtain ⟨z, hz, _⟩ := Option.map_eq_some_iff.mp hy
      have hji : i ≠ j := by
        rintro rfl
        rw [hx] at hnone
        cases hnone
      simp only [hz, Option.map_some, if_neg hji, Option.some.injEq] at hy
      cases hy
      exact h.created j y hnone hz

/-- The new name leads to the old inode, so that is what changes its owner. -/
theorem link_framed_iff {uid gid : ℕ} (fs : FileSystem) (p q : CString) :
    OwnersFramed cred uid gid .opLink fs (Passthrough.create (fileKernel cred) fs
        (.link (getRelativePath p) (getRelativePath q)) (getRelativePath q) uid gid).kernel ↔
      LinkKeepsOwner cred fs uid gid (.link p q) := by
  unfold Passthrough.create Passthrough.andThen Passthrough.single LinkKeepsOwner
  cases h : fs.perform cred (.link (getRelativePath p) (getRelativePath q)) with
  | error e =>
    simp only [fileKernel_error h, errorOf]
    refine iff_of_true (.refl fs) ?_
    intro i x fs' hlink
    have hno : fs.link cred (getRelativePath p) (getRelativePath q) = .error e := h
    rw [hno] at hlink
    cases hlink
  | ok r =>
    have hlink : fs.link cred (getRelativePath p) (getRelativePath q) = .ok r := h
    obtain ⟨i, x, x', hi, hx, hresolve, hx', howner, hframed⟩ := link_leads hlink
    have hmay : cred.mayChown x' uid gid = cred.mayChown x uid gid := by
      rw [Cred.mayChown, Cred.mayChown, howner.1, howner.2]
    simp only [fileKernel_ok h, errorOf, List.foldl_cons, List.foldl_nil,
      lchown_kernel hresolve hx', hmay]
    split_ifs with hgiven
    · rw [given_framed_iff hx hx' howner hframed]
      constructor
      · intro hcaller j y fs' _ hj hy _
        cases hi.symm.trans hj
        cases hx.symm.trans hy
        exact hcaller
      · intro hkeeps
        exact hkeeps i x r.2 hlink hi hx hgiven
    · refine iff_of_true hframed ?_
      intro j y fs' _ hj hy hmayGive
      cases hi.symm.trans hj
      cases hx.symm.trans hy
      exact absurd hmayGive hgiven

theorem dispatch_framed_iff (req : Request) (hop : req.op ∈ namespaceOps) :
    OwnersFramed cred env.uid env.gid req.op s.kernel
        (dispatch (fileKernel cred) req env s).2.kernel ↔
      LinkKeepsOwner cred s.kernel env.uid env.gid req := by
  rw [(dispatch_issues (fileKernel cred) req env s).2]
  cases req with
  | link p q => exact link_framed_iff s.kernel p q
  | mknod p mode rdev => exact iff_of_true (mknod_framed _ _ mode rdev) trivial
  | mkdir p mode =>
    have hcreates : FuseOps.opMkdir ∈ creatingOps := by decide
    refine iff_of_true (create_framed hcreates ?_) trivial
    intro out fs' h
    exact ⟨_, _, fs', h, rfl⟩
  | symlink text p =>
    have hcreates : FuseOps.opSymlink ∈ creatingOps := by decide
    refine iff_of_true (create_framed hcreates ?_) trivial
    intro out fs' h
    exact ⟨_, _, fs', h, rfl⟩
  | rename p q => exact iff_of_true (single_framed (fun _ _ h => rename_framed h)) trivial
  | unlink p =>
    refine iff_of_true (single_framed ?_) trivial
    intro out fs' h
    obtain ⟨d, n, rfl⟩ := unlink_ok h
    exact .unbind _ d n
  | rmdir p =>
    refine iff_of_true (single_framed ?_) trivial
    intro out fs' h
    obtain ⟨d, n, rfl⟩ := rmdir_ok h
    exact .unbind _ d n
  | _ => simp [namespaceOps, Request.op] at hop

end Requests

/-- Every request of the run keeps the owners of old inodes when its turn comes. -/
def RunKeepsOwners (cred : Cred) (s : Daemon FileSystem) (reqs : List (Env × Request)) : Prop :=
  ∀ pre r post, reqs = pre ++ r :: post →
    LinkKeepsOwner cred (runRequests (fileKernel cred) s pre).kernel r.1.uid r.1.gid r.2

theorem runRequests_owners {cred : Cred} (s : Daemon FileSystem) {reqs : List (Env × Request)}
    (hops : ∀ r ∈ reqs, r.2.op ∈ namespaceOps) (hkeeps : RunKeepsOwners cred s reqs) :
    Preserves SameOwner s.kernel (runRequests (fileKernel cred) s reqs).kernel := by
  induction reqs using List.reverseRecOn with
  | nil => exact Preserves.of_inodes SameOwner.refl rfl
  | append_singleton reqs r ih =>
    have hbefore : RunKeepsOwners cred s reqs := by
      intro pre q post hreqs
      exact hkeeps pre q (post ++ [r]) (by simp [hreqs])
    have hrun := ih (fun q hq => hops q (List.mem_append_left _ hq)) hbefore
    have hstep := (dispatch_framed_iff r.1 (runRequests (fileKernel cred) s reqs) r.2
      (hops r (by simp))).mpr (hkeeps reqs r [] rfl)
    rw [runRequests_concat]
    exact hrun.trans SameOwner.trans hstep.kept

/-- The frame holds of a namespace request, in any state, exactly when the request is no
link that hands an old inode over to its caller; and a run of requests that keep to this
changes the owner of no inode that was there at its start. -/
theorem ownership_framed_iff (cred : Cred) :
    (∀ (env : Env) (s : Daemon FileSystem) (req : Request), req.op ∈ namespaceOps →
      (OwnersFramed cred env.uid env.gid req.op s.kernel
          (dispatch (fileKernel cred) req env s).2.kernel ↔
        LinkKeepsOwner cred s.kernel env.uid env.gid req)) ∧
    (∀ (s : Daemon FileSystem) (reqs : List (Env × Request)),
      (∀ r ∈ reqs, r.2.op ∈ namespaceOps) → RunKeepsOwners cred s reqs →
      Preserves SameOwner s.kernel (runRequests (fileKernel cred) s reqs).kernel) :=
  ⟨fun env s req hop => dispatch_framed_iff env s req hop,
    fun s _ hops hkeeps => runRequests_owners s hops hkeeps⟩

def rootCred : Cred := { privileged := true, uid := 0, gid := 0, groups := [] }

/-- User 1000 makes a second name for the file of user 7 and owns it now. -/
theorem ownership_link_stolen : ¬ OwnersFramed rootCred 1000 1000 .opLink sampleFiles
    (dispatch (fileKernel rootCred) (.link "/a".toList "/b".toList) (sampleEnv 1000 1000)
      (Daemon.idle sampleFiles default)).2.kernel := by
  intro hframed
  obtain ⟨x', hx', huid, _⟩ := hframed.kept 1 _ rfl
  have howner : (FileSystem.inode (dispatch (fileKernel rootCred)
      (.link "/a".toList "/b".toList) (sampleEnv 1000 1000)
      (Daemon.idle sampleFiles default)).2.kernel 1).map Inode.uid = some 1000 := by
    decide
  rw [hx', Option.map_some, Option.some.injEq, huid] at howner
  exact absurd howner (by decide)

end DistillerFS
