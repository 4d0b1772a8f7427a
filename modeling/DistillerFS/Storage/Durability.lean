import DistillerFS.Daemon.Passthrough
import DistillerFS.Daemon.Session
import DistillerFS.Foundations.WrittenBytes
import DistillerFS.Storage.Ownership

/-!
# What a crash leaves

Each file has volatile and durable contents. System calls change the volatile contents,
a crash discards them, and only a system-level `fsync` would make them durable.
-/
namespace DistillerFS
open Foundations FileSystem

/-- The contents of each file, in memory and on the disk, and the bytes that were written to it:
those of the buffers only, not the zeros of a gap. -/
structure Disk where
  volatile : FileSystem
  durable : Ino → CString
  written : Ino → Written Char

/-- `O_TRUNC` empties a file that is there. -/
def emptied (cred : Cred) (fs : FileSystem) (path : CString) (flags : ℕ) (i : Ino) : Bool :=
  match fs.resolve cred path with
  | .ok j => i == j && flags &&& oTrunc == oTrunc
  | .error _ => false

namespace Disk

def mounted (fs : FileSystem) (durable : Ino → CString) : Disk where
  volatile := fs
  durable := durable
  written := fun _ => .nothing

def file (d : Disk) (fd : ℕ) : Option Ino := (d.volatile.fds.get fd).map OpenFile.ino

/-- What has been written to each file after a call that succeeded. -/
def record (cred : Cred) (d : Disk) : SysCall → Ino → Written Char
  | .open path flags _ => fun i =>
    if emptied cred d.volatile path flags i then .nothing else d.written i
  | .truncate path size => fun i =>
    if d.volatile.resolve cred path = .ok i then (d.written i).cutAt size else d.written i
  | .pwrite fd buf offset => fun i =>
    match d.volatile.fds.get fd with
    | none => d.written i
    | some file =>
      if i = file.ino then
        (d.written i).overwrite (position file ((d.volatile.contents i).getD []) offset) buf
      else d.written i
  | _ => d.written

def afterCrash (d : Disk) (i : Ino) : CString := d.durable i

def sync (d : Disk) (fd : ℕ) : Disk :=
  { d with durable := fun i =>
      if d.file fd = some i then (d.volatile.contents i).getD [] else d.durable i }

end Disk

/-- The system calls of the handlers change what is in memory, and never the disk. -/
def diskKernel (cred : Cred) : Kernel Disk where
  call c d :=
    match d.volatile.perform cred c with
    | .ok (out, fs) => (.ok out, { d with volatile := fs, written := d.record cred c })
    | .error e => (.error e, d)

/-- A run, with what every `fsync` that returned 0 has promised so far: all that had been
written to the file of its handle. -/
structure Promised where
  daemon : Daemon Disk
  promised : Ino → Written Char

namespace Promised

def mounted (fs : FileSystem) (durable : Ino → CString) (errno : Errno) : Promised where
  daemon := .idle (.mounted fs durable) errno
  promised := fun _ => .nothing

def promise (d : Disk) (fh : ℕ) (promised : Ino → Written Char) : Ino → Written Char :=
  fun i => if d.file fh = some i then d.written i else promised i

def step (cred : Cred) (w : Promised) (r : Env × Request) : Promised where
  daemon := (dispatch (diskKernel cred) r.2 r.1 w.daemon).2
  promised :=
    match r.2 with
    | .fsync _ _ fh =>
      if (dispatch (diskKernel cred) r.2 r.1 w.daemon).1.rc = 0 then
        promise w.daemon.kernel fh w.promised
      else w.promised
    | _ => w.promised

/-- Handler calls one after the other, from the mount on. -/
def run (cred : Cred) (w : Promised) (reqs : List (Env × Request)) : Promised :=
  reqs.foldl (step cred) w

/-- After a crash every file holds what was promised. -/
def Kept (w : Promised) : Prop := ∀ i, (w.promised i).HeldBy (w.daemon.kernel.afterCrash i)

end Promised

/-- What had been written to the file of a handle was on the disk all along. -/
def AlreadyDurable (durable : Ino → CString) (d : Disk) (fh : ℕ) : Prop :=
  ∀ i, d.file fh = some i → (d.written i).HeldBy (durable i)

section Contents
variable {cred : Cred} {fs fs' : FileSystem} {w : Written Char} {i : Ino}

def SameData (x x' : Inode) : Prop := x'.data = x.data

theorem SameData.refl (x : Inode) : SameData x x := rfl

theorem SameData.trans (x y z : Inode) (h : SameData x y) (h' : SameData y z) : SameData x z :=
  Eq.trans h' h

theorem create_sameData {path : CString} {body : Body} {mode : ℕ} {u : Unit}
    (h : fs.create cred path body mode = .ok (u, fs')) : Preserves SameData fs fs' := by
  obtain ⟨d, dir, n, _, _, _, rfl⟩ := create_eq_ok.mp h
  apply Preserves.trans SameData.trans _ (Preserves.push SameData.refl _)
  exact Preserves.modify SameData.refl (fun x _ => Inode.bind_data n _ x)

theorem unbind_sameData (fs : FileSystem) (d : Ino) (n : CString) :
    Preserves SameData fs (fs.modify d (.unbind n)) :=
  Preserves.modify SameData.refl (fun x _ => Inode.unbind_data n x)

def changesData : SysCall → Bool
  | .open _ _ _ | .truncate _ _ | .pwrite _ _ _ => true
  | _ => false

theorem perform_sameData {c : SysCall} {out : c.Out} (hc : changesData c = false)
    (h : fs.perform cred c = .ok (out, fs')) : Preserves SameData fs fs' := by
  cases c with
  | «open» | truncate | pwrite => cases hc
  | mkfifo | mkdir | symlink => exact create_sameData h
  | mknod path mode rdev =>
    obtain ⟨_, h⟩ := mknod_ok h
    exact create_sameData h
  | opendir path =>
    obtain ⟨_, _, rfl⟩ := opendir_ok h
    exact Preserves.of_inodes SameData.refl rfl
  | close | closedir =>
    rw [(close_eq_ok.mp h).2]
    exact Preserves.of_inodes SameData.refl rfl
  | unlink path =>
    obtain ⟨d, n, rfl⟩ := unlink_ok h
    exact unbind_sameData fs d n
  | rmdir path =>
    obtain ⟨d, n, rfl⟩ := rmdir_ok h
    exact unbind_sameData fs d n
  | rename old new =>
    rcases rename_ok h with rfl | ⟨d, n, d', n', j, rfl⟩
    · exact Preserves.of_inodes SameData.refl rfl
    · apply ((unbind_sameData fs d n).trans SameData.trans (unbind_sameData _ d' n')).trans SameData.trans
      exact Preserves.modify SameData.refl (fun x _ => Inode.bind_data n' j x)
  | link old new =>
    obtain ⟨j, _, d, _, n, _, _, _, _, _, _, rfl⟩ := link_eq_ok.mp h
    exact Preserves.modify SameData.refl (fun x _ => Inode.bind_data n j x)
  | chmod path mode =>
    obtain ⟨_, rfl⟩ := chmod_ok h
    exact Preserves.modify SameData.refl (fun x _ => rfl)
  | lchown path uid gid =>
    obtain ⟨_, _, _, _, _, rfl⟩ := lchown_eq_ok.mp h
    exact Preserves.modify SameData.refl (fun x _ => rfl)
  | _ =>
    rw [perform_looks rfl h]
    exact Preserves.of_inodes SameData.refl rfl

theorem heldBy_sameData (h : Preserves SameData fs fs') (hw : w.HeldBy ((fs.contents i).getD [])) :
    w.HeldBy ((fs'.contents i).getD []) := by
  cases hi : fs.contents i with
  | none =>
    intro o b ho
    have hnone := hw o b ho
    rw [hi] at hnone
    cases hnone
  | some data =>
    obtain ⟨x, hx, hbody⟩ := contents_eq_some.mp hi
    obtain ⟨x', hx', hdata⟩ := h i x hx
    have hsame : fs'.contents i = fs.contents i := by
      rw [contents, contents, hx', hx]
      exact hdata
    rw [hsame]
    exact hw

theorem openFile_heldBy {path : CString} {flags mode fd : ℕ}
    (h : fs.openFile cred path flags mode = .ok (fd, fs'))
    (hw : w.HeldBy ((fs.contents i).getD [])) :
    (if emptied cred fs path flags i then .nothing else w).HeldBy ((fs'.contents i).getD []) := by
  split_ifs with hempty
  · exact Written.nothing_heldBy _
  · rcases openFile_ok h with ⟨j, hj, hopen⟩ | ⟨fs₁, hcreate, _, rfl⟩
    · obtain ⟨x, hx, hregular, _, _, hinodes⟩ := openInode_ok hopen
      rcases hinodes with hsame | ⟨htrunc, hcleared⟩
      · exact heldBy_sameData (Preserves.of_inodes SameData.refl hsame) hw
      · obtain ⟨data, hdata⟩ := hregular (.inr htrunc)
        have hother : j ≠ i := by
          rintro rfl
          simp [emptied, hj, htrunc] at hempty
        have hsame : fs'.contents i = fs.contents i := by
          have hmodify := contents_modify (contents_eq_some.mpr ⟨x, hx, hdata⟩) [] i
          rw [if_neg hother] at hmodify
          rw [← hmodify, contents, contents, inode, inode, hcleared]
        rw [hsame]
        exact hw
    · have hcreated : Preserves SameData fs fs₁ := create_sameData hcreate
      exact heldBy_sameData
        (hcreated.trans SameData.trans (Preserves.of_inodes SameData.refl rfl)) hw

end Contents

namespace Disk
variable {cred : Cred} {d : Disk}

theorem written_writeAt {w : Written Char} {data : CString} (h : w.HeldBy data) (pos : ℕ)
    (buf : CString) : (w.overwrite pos buf).HeldBy (writeAt data buf pos) := by
  by_cases hbuf : buf = []
  · have hsame : w.overwrite pos buf = w := by
      ext o b
      rw [hbuf, Written.overwrite, if_neg (by simp only [List.length_nil]; omega)]
    rw [hsame, writeAt, if_pos hbuf]
    exact h
  · rw [writeAt, if_neg hbuf]
    exact h.overwrite '\x00' pos buf

/-- In memory every file holds what was written to it. -/
def Sound (d : Disk) : Prop := ∀ i, (d.written i).HeldBy ((d.volatile.contents i).getD [])

theorem mounted_sound (fs : FileSystem) (durable : Ino → CString) : (mounted fs durable).Sound := by
  intro i
  exact Written.nothing_heldBy _

theorem call_sound (c : SysCall) (h : d.Sound) : ((diskKernel cred).call c d).2.Sound := by
  cases hperform : d.volatile.perform cred c with
  | error e => simpa only [diskKernel, hperform] using h
  | ok r =>
    simp only [diskKernel, hperform]
    intro i
    cases c with
    | «open» path flags mode => exact openFile_heldBy hperform (h i)
    | truncate path size =>
      obtain ⟨j, data, hj, hdata, hfs⟩ := truncate_ok hperform
      simp only [record, hfs, hj, Except.ok.injEq, contents_modify hdata]
      by_cases hij : j = i
      · have hi := h i
        rw [← hij, hdata] at hi
        rw [if_pos hij, if_pos hij, ← hij]
        exact hi.cutAt '\x00' size
      · rw [if_neg hij, if_neg hij]
        exact h i
    | pwrite fd buf offset =>
      obtain ⟨file, data, hfile, _, hdata, _, hfs⟩ := pwrite_eq_ok.mp hperform
      simp only [record, hfs, hfile, contents_modify hdata]
      by_cases hij : i = file.ino
      · have hi := h i
        rw [hij, hdata] at hi
        rw [if_pos hij, if_pos hij.symm, hij, hdata]
        exact written_writeAt hi _ buf
      · rw [if_neg hij, if_neg (Ne.symm hij)]
        exact h i
    | _ => exact heldBy_sameData (perform_sameData rfl hperform) (h i)

/-- The handlers never make a system call that would reach the disk. -/
theorem call_durable (cred : Cred) (c : SysCall) (d : Disk) :
    ((diskKernel cred).call c d).2.durable = d.durable := by
  cases hperform : d.volatile.perform cred c <;> simp [diskKernel, hperform]

end Disk

section Ledger
variable {cred : Cred} {d : Disk} {c : SysCall}

theorem diskKernel_ok {out : c.Out} {fs : FileSystem}
    (h : d.volatile.perform cred c = .ok (out, fs)) :
    (diskKernel cred).call c d =
      (.ok out, { d with volatile := fs, written := d.record cred c }) := by
  simp [diskKernel, h]

theorem diskKernel_error {e : Errno} (h : d.volatile.perform cred c = .error e) :
    (diskKernel cred).call c d = (.error e, d) := by
  simp [diskKernel, h]

theorem emptied_wronly (fs : FileSystem) (path : CString) (i : Ino) :
    emptied cred fs path oWronly i = false := by
  have hkeep : (oWronly &&& oTrunc == oTrunc) = false := rfl
  unfold emptied
  split
  · rw [hkeep, Bool.and_false]
  · rfl

/-- A `write` that does not fail has its bytes in the ledger of the file that the path leads to. -/
theorem write_recorded {env : Env} {s : Daemon Disk} {p buf : CString} {offset fh : ℕ}
    (hrc : 0 ≤ (dispatch (diskKernel cred) (.write p buf offset fh) env s).1.rc) :
    ∃ i, s.kernel.volatile.resolve cred (getRelativePath p) = .ok i ∧
      (dispatch (diskKernel cred) (.write p buf offset fh) env s).2.kernel.written i =
        (s.kernel.written i).overwrite offset buf := by
  cases ho : s.kernel.volatile.perform cred (.open (getRelativePath p) oWronly 0) with
  | error e =>
    have hneg : (dispatch (diskKernel cred) (.write p buf offset fh) env s).1.rc < 0 := by
      simp [dispatch, loggedFSWrite, diskKernel_error ho]
    exact absurd hneg (not_lt_of_ge hrc)
  | ok r =>
    obtain ⟨j, y, data, hj, hy, hdata, hmay, _, _⟩ := openFile_wronly.mp ho
    obtain ⟨fs₁, fs₂, fs₃, hopen, hfd, hwrite, hclose, -⟩ := rewrite_ok hj hy hdata hmay buf offset
    refine ⟨j, hj, ?_⟩
    rw [(dispatch_issues (diskKernel cred) (.write p buf offset fh) env s).2]
    simp only [passthrough, Passthrough.write, diskKernel_ok hopen]
    rw [@diskKernel_ok cred ⟨fs₁, _, _⟩ _ _ _ hwrite, @diskKernel_ok cred ⟨fs₂, _, _⟩ _ _ _ hclose]
    simp [Disk.record, emptied_wronly, hfd, position]

end Ledger

namespace Promised
variable {cred : Cred} {w : Promised}

theorem step_sound (r : Env × Request) (h : w.daemon.kernel.Sound) :
    (step cred w r).daemon.kernel.Sound :=
  dispatch_kernel_invariant (diskKernel cred) (fun c _ => Disk.call_sound c) r.2 r.1 w.daemon h

theorem step_durable (r : Env × Request) :
    (step cred w r).daemon.kernel.durable = w.daemon.kernel.durable :=
  @dispatch_kernel_invariant _ (diskKernel cred) (fun d => d.durable = w.daemon.kernel.durable)
    (fun c d h => (Disk.call_durable cred c d).trans h) r.2 r.1 w.daemon rfl

theorem run_concat (cred : Cred) (w : Promised) (reqs : List (Env × Request)) (r : Env × Request) :
    run cred w (reqs ++ [r]) = step cred (run cred w reqs) r := by
  simp [run]

theorem run_sound (reqs : List (Env × Request)) (h : w.daemon.kernel.Sound) :
    (run cred w reqs).daemon.kernel.Sound := by
  induction reqs using List.reverseRecOn with
  | nil => exact h
  | append_singleton reqs r ih =>
    rw [run_concat]
    exact step_sound r ih

theorem run_durable (reqs : List (Env × Request)) :
    (run cred w reqs).daemon.kernel.durable = w.daemon.kernel.durable := by
  induction reqs using List.reverseRecOn with
  | nil => rfl
  | append_singleton reqs r ih => rw [run_concat, step_durable, ih]

theorem run_take_succ {reqs : List (Env × Request)} {n : ℕ} {r : Env × Request}
    (h : reqs[n]? = some r) :
    run cred w (reqs.take (n + 1)) = step cred (run cred w (reqs.take n)) r := by
  rw [List.take_add_one, h, Option.toList_some, run_concat]

theorem kept_promise {d : Disk} {promised : Ino → Written Char} {durable : Ino → CString}
    (h : ∀ i, (promised i).HeldBy (durable i)) (fh : ℕ) :
    (∀ i, (promise d fh promised i).HeldBy (durable i)) ↔ AlreadyDurable durable d fh := by
  unfold promise AlreadyDurable
  constructor
  · intro hnew i hi
    have hfile := hnew i
    rwa [if_pos hi] at hfile
  · intro hfile i
    by_cases hi : d.file fh = some i
    · rw [if_pos hi]
      exact hfile i hi
    · rw [if_neg hi]
      exact h i

/-- Only an `fsync` makes a new promise, and it does nothing for it. -/
theorem kept_step (h : w.Kept) (r : Env × Request) :
    (step cred w r).Kept ↔ ∀ env p datasync fh, r = (env, .fsync p datasync fh) →
      AlreadyDurable w.daemon.kernel.durable w.daemon.kernel fh := by
  have hcrash : (step cred w r).Kept ↔
      ∀ i, ((step cred w r).promised i).HeldBy (w.daemon.kernel.durable i) := by
    unfold Kept Disk.afterCrash
    rw [step_durable]
  rw [hcrash]
  obtain ⟨env, req⟩ := r
  cases req with
  | fsync p datasync fh =>
    have hzero : (dispatch (diskKernel cred) (.fsync p datasync fh) env w.daemon).1.rc = 0 := rfl
    have hbefore : ∀ i, (w.promised i).HeldBy (w.daemon.kernel.durable i) := h
    simp only [step, hzero, if_true]
    rw [kept_promise hbefore]
    constructor
    · intro hdurable _ _ _ _ heq
      cases heq
      exact hdurable
    · intro hdurable
      exact hdurable env p datasync fh rfl
  | _ =>
    apply iff_of_true h
    intro _ _ _ _ heq
    cases heq

/-- With the system call behind it the answer of `fsync` would be true. -/
theorem kept_sync {fs : FileSystem} {durable : Ino → CString} {errno : Errno}
    {reqs : List (Env × Request)} (h : (run cred (mounted fs durable errno) reqs).Kept)
    (fh : ℕ) (i : Ino) :
    (promise (run cred (mounted fs durable errno) reqs).daemon.kernel fh
      (run cred (mounted fs durable errno) reqs).promised i).HeldBy
        (((run cred (mounted fs durable errno) reqs).daemon.kernel.sync fh).afterCrash i) := by
  have hsound : (run cred (mounted fs durable errno) reqs).daemon.kernel.Sound :=
    run_sound reqs (Disk.mounted_sound fs durable)
  by_cases hi : (run cred (mounted fs durable errno) reqs).daemon.kernel.file fh = some i
  · simp only [promise, Disk.afterCrash, Disk.sync, if_pos hi]
    exact hsound i
  · simp only [promise, Disk.afterCrash, Disk.sync, if_neg hi]
    exact h i

end Promised

namespace Promised
variable (cred : Cred) (fs : FileSystem) (durable : Ino → CString) (errno : Errno)
  (reqs : List (Env × Request))

/-- The ledger of the first `n` calls of a run: it has the bytes of every `write` that did not
fail, the files in memory hold it, and with the system call behind `fsync` the disk would. -/
structure LedgerRight (n : ℕ) : Prop where
  recorded : ∀ env p buf offset fh, reqs[n]? = some (env, .write p buf offset fh) →
    0 ≤ (dispatch (diskKernel cred) (.write p buf offset fh) env
      (run cred (mounted fs durable errno) (reqs.take n)).daemon).1.rc →
    ∃ i, (run cred (mounted fs durable errno) (reqs.take n)).daemon.kernel.volatile.resolve cred
        (getRelativePath p) = .ok i ∧
      ∀ k b, buf[k]? = some b →
        (run cred (mounted fs durable errno) (reqs.take (n + 1))).daemon.kernel.written i
          (offset + k) = some b
  sound : (run cred (mounted fs durable errno) (reqs.take n)).daemon.kernel.Sound
  synced : (run cred (mounted fs durable errno) (reqs.take n)).Kept → ∀ fh i,
    (promise (run cred (mounted fs durable errno) (reqs.take n)).daemon.kernel fh
      (run cred (mounted fs durable errno) (reqs.take n)).promised i).HeldBy
        (((run cred (mounted fs durable errno) (reqs.take n)).daemon.kernel.sync fh).afterCrash i)

theorem run_ledgerRight (n : ℕ) : LedgerRight cred fs durable errno reqs n where
  recorded := by
    intro env p buf offset fh hr hrc
    obtain ⟨i, hi, hwritten⟩ := write_recorded hrc
    refine ⟨i, hi, fun k b hb => ?_⟩
    rw [run_take_succ hr, step, hwritten]
    exact Written.overwrite_get _ offset hb
  sound := run_sound _ (Disk.mounted_sound fs durable)
  synced := kept_sync

/-- The promises are kept after every call exactly if every `fsync` finds what it promises on
the disk. -/
theorem run_kept_iff : (∀ n, (run cred (mounted fs durable errno) (reqs.take n)).Kept) ↔
    ∀ n env p datasync fh, reqs[n]? = some (env, .fsync p datasync fh) → AlreadyDurable durable
      (run cred (mounted fs durable errno) (reqs.take n)).daemon.kernel fh := by
  have hdurable : ∀ n, (run cred (mounted fs durable errno)
      (reqs.take n)).daemon.kernel.durable = durable :=
    fun n => run_durable (reqs.take n)
  constructor
  · intro hkept n env p datasync fh hr
    have hnext := hkept (n + 1)
    rw [run_take_succ hr, kept_step (hkept n), hdurable] at hnext
    exact hnext env p datasync fh rfl
  · intro hfsync n
    induction n with
    | zero =>
      intro i
      exact Written.nothing_heldBy _
    | succ n ih =>
      cases hr : reqs[n]? with
      | none =>
        rw [List.take_add_one, hr, Option.toList_none, List.append_nil]
        exact ih
      | some r =>
        rw [run_take_succ hr, kept_step ih, hdurable]
        intro env p datasync fh heq
        rw [heq] at hr
        exact hfsync n env p datasync fh hr

end Promised

/-- A run keeps its promises, whenever it crashes, exactly if no `fsync` of it is called on
a file to which something was written that the disk did not hold at the mount. What was written
stands in the ledger, which is right after every call. -/
theorem fsync_kept_iff (cred : Cred) (fs : FileSystem) (durable : Ino → CString) (errno : Errno)
    (reqs : List (Env × Request)) :
    ((∀ n, (Promised.run cred (.mounted fs durable errno) (reqs.take n)).Kept) ↔
      ∀ n env p datasync fh, reqs[n]? = some (env, .fsync p datasync fh) → AlreadyDurable durable
        (Promised.run cred (.mounted fs durable errno) (reqs.take n)).daemon.kernel fh) ∧
    ∀ n, Promised.LedgerRight cred fs durable errno reqs n :=
  ⟨Promised.run_kept_iff cred fs durable errno reqs,
    Promised.run_ledgerRight cred fs durable errno reqs⟩

/-- One byte is written and `fsync` returns 0, and the crash takes the byte. -/
theorem fsync_loses_write : ¬ (Promised.run rootCred
    (.mounted sampleFiles (fun i => (sampleFiles.contents i).getD []) default)
    [(sampleEnv 0 0, .open "/a".toList oWronly), (sampleEnv 0 0, .write "/a".toList "x".toList 0 0),
      (sampleEnv 0 0, .fsync "/a".toList 0 0)]).Kept := by
  intro hkept
  have hbyte := hkept 1 0 'x' (by rfl)
  cases hbyte

end DistillerFS
