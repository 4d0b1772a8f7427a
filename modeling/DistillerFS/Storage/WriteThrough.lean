import DistillerFS.Daemon.Transparency
import DistillerFS.Storage.OpenHandles

/-!
# Writing through an open handle

`loggedFS_read` uses the descriptor of the handle; `loggedFS_write` opens the path again,
so it writes the file of the handle only as long as the path still leads there.
-/
namespace DistillerFS
open Foundations FileSystem

/-- `loggedFS_write` does what `pwrite` on `fi->fh` would do: it returns the same, leaves
the same data in every file, and a later `loggedFS_read` delivers what it would then. -/
structure WritesThrough (cred : Cred) (env : Env) (s : Daemon FileSystem) (p buf : CString)
    (offset fh : ℕ) : Prop where
  result : (dispatch (fileKernel cred) (.write p buf offset fh) env s).1.rc =
    (replyOf (fun n => ⟨(n : ℕ), .nothing⟩)
      ((fileKernel cred).call (.pwrite fh buf offset) s.kernel).1).rc
  contents : ∀ i, (dispatch (fileKernel cred) (.write p buf offset fh) env s).2.kernel.contents i =
    ((fileKernel cred).call (.pwrite fh buf offset) s.kernel).2.contents i
  seen : ∀ (env' : Env) (q data : CString) (fd size from_ : ℕ),
    ((fileKernel cred).call (.pread fd size from_)
      ((fileKernel cred).call (.pwrite fh buf offset) s.kernel).2).1 = .ok data →
    (dispatch (fileKernel cred) (.read q size from_ fd) env'
      (dispatch (fileKernel cred) (.write p buf offset fh) env s).2).1 =
        ⟨data.length, .bytes data⟩

/-- The bytes are there already, as they always are when there are none to write. -/
def AlreadyAt (data buf : CString) (pos : ℕ) : Prop := buf <+: data.drop pos

/-- The path still leads to a regular file that the daemon may write. It is the file of the
handle, which appends only where the offset is its end, or both places have the bytes already. -/
def ReopensSame (cred : Cred) (fs : FileSystem) (path buf : CString) (offset fh : ℕ) : Prop :=
  ∃ j y data file old, fs.resolve cred path = .ok j ∧ fs.inode j = some y ∧
    y.body = .regular data ∧ cred.may y wOk = true ∧ fs.fds.get fh = some file ∧
    fs.contents file.ino = some old ∧
    (j = file.ino ∧ (file.append = true → offset = old.length) ∨
      AlreadyAt data buf offset ∧ AlreadyAt old buf (position file old offset))

section Data
variable {data buf : CString} {pos : ℕ}

theorem gap_length (data : CString) (pos : ℕ) :
    ((data ++ List.replicate (pos - data.length) '\x00').take pos).length = pos := by
  simp only [List.length_take, List.length_append, List.length_replicate]
  omega

theorem writeAt_length (hbuf : buf ≠ []) :
    (writeAt data buf pos).length = max data.length (pos + buf.length) := by
  rw [writeAt, if_neg hbuf, List.length_append, List.length_append, gap_length, List.length_drop]
  omega

/-- A write changes nothing exactly if it writes what is there. -/
theorem writeAt_eq_self : writeAt data buf pos = data ↔ AlreadyAt data buf pos := by
  unfold AlreadyAt
  by_cases hbuf : buf = []
  · simp [writeAt, hbuf]
  · rw [writeAt, if_neg hbuf]
    constructor
    · intro hsame
      refine ⟨data.drop (pos + buf.length), ?_⟩
      conv_rhs => rw [← hsame]
      rw [List.append_assoc, List.drop_left' (gap_length data pos)]
    · rintro ⟨rest, hrest⟩
      have hpos : pos < data.length := by
        by_contra hend
        rw [List.drop_eq_nil_of_le (Nat.le_of_not_lt hend)] at hrest
        exact hbuf (List.append_eq_nil_iff.mp hrest).1
      have htail : data.drop (pos + buf.length) = rest := by
        rw [← List.drop_drop, ← hrest, List.drop_left]
      rw [htail, List.take_append_of_le_length hpos.le, List.append_assoc, hrest,
        List.take_append_drop]

/-- An appending write does what a write at the offset does only at the end. -/
theorem writeAt_append_iff :
    writeAt data buf pos = writeAt data buf data.length ↔ buf = [] ∨ pos = data.length := by
  constructor
  · intro hsame
    by_cases hbuf : buf = []
    · exact .inl hbuf
    · have hlengths := congrArg List.length hsame
      rw [writeAt_length hbuf, writeAt_length hbuf] at hlengths
      have hsome : 0 < buf.length := List.length_pos_iff.mpr hbuf
      exact .inr (by omega)
  · rintro (rfl | rfl)
    · rw [writeAt, writeAt, if_pos rfl, if_pos rfl]
    · rfl

theorem writeAt_position_iff (file : OpenFile) :
    writeAt data buf pos = writeAt data buf (position file data pos) ↔
      (file.append = true → pos = data.length) ∨
        AlreadyAt data buf pos ∧ AlreadyAt data buf (position file data pos) := by
  rw [← writeAt_eq_self, ← writeAt_eq_self]
  cases happend : file.append with
  | false => simp [position, happend]
  | true =>
    simp only [position, happend, if_true, true_implies]
    constructor
    · intro hsame
      refine (writeAt_append_iff.mp hsame).elim (fun hbuf => .inr ?_) .inl
      simp [writeAt, hbuf]
    · rintro (rfl | ⟨hpos, hend⟩)
      · rfl
      · rw [hpos, hend]

end Data

section Writes
variable {cred : Cred} {fs : FileSystem}

theorem direct_write {live : Handles} (h : HandlesOpen fs live) {fh flags : ℕ}
    (hlive : live fh = some flags) (hwritable : (accessMode flags).2 = true) (buf : CString)
    (offset : ℕ) : ∃ file old, fs.fds.get fh = some file ∧ fs.contents file.ino = some old ∧
      (fileKernel cred).call (.pwrite fh buf offset) fs = (.ok buf.length,
        fs.modify file.ino (fun x =>
          { x with body := .regular (writeAt old buf (position file old offset)) })) := by
  obtain ⟨i, hfd, hregular⟩ := h fh flags hlive
  obtain ⟨x, hx, hdata⟩ := hregular hwritable
  obtain ⟨old, hold⟩ := Option.isSome_iff_exists.mp hdata
  have hcontents : fs.contents i = some old := by
    rw [FileSystem.contents, hx, Option.bind_some, hold]
  refine ⟨opened i flags, old, hfd, hcontents, fileKernel_ok ?_⟩
  exact pwrite_eq_ok.mpr ⟨opened i flags, old, hfd, hwritable, hcontents, rfl, rfl⟩

theorem reopened_write {path : CString} {j : Ino} {y : Inode} {data : CString}
    (hj : fs.resolve cred path = .ok j) (hy : fs.inode j = some y) (hdata : y.body = .regular data)
    (hmay : cred.may y wOk = true) (buf : CString) (offset : ℕ) :
    (Passthrough.write (fileKernel cred) fs path buf offset).error = none ∧
      (Passthrough.write (fileKernel cred) fs path buf offset).reply = ⟨buf.length, .nothing⟩ ∧
      (Passthrough.write (fileKernel cred) fs path buf offset).kernel =
        { fs.modify j (fun x => { x with body := .regular (writeAt data buf offset) }) with
          fds := (fs.fds.alloc ⟨j, false, true, false⟩).free fs.fds.next } := by
  obtain ⟨fs₁, fs₂, fs₃, hopen, _, hwrite, hclose, hfs₃⟩ := rewrite_ok hj hy hdata hmay buf offset
  unfold Passthrough.write
  simp only [fileKernel_ok hopen, fileKernel_ok hwrite, fileKernel_ok hclose, errorOf, replyOf,
    true_and]
  exact hfs₃

theorem refused_write {s : Daemon FileSystem} {p : CString} {e : Errno} (env : Env) (buf : CString)
    (offset fh : ℕ) (h : s.kernel.perform cred (.open (getRelativePath p) oWronly 0) = .error e) :
    (dispatch (fileKernel cred) (.write p buf offset fh) env s).1.rc < 0 := by
  simp [dispatch, loggedFSWrite, fileKernel_error h]

theorem read_alike {fs₁ fs₂ : FileSystem} (hfds : ∀ fd, fs₂.fds.get fd = fs₁.fds.get fd)
    (hcontents : ∀ i, fs₂.contents i = fs₁.contents i) {fd size offset : ℕ} {data : CString}
    (h : ((fileKernel cred).call (.pread fd size offset) fs₁).1 = .ok data) :
    ((fileKernel cred).call (.pread fd size offset) fs₂).1 = .ok data := by
  cases hread : fs₁.perform cred (.pread fd size offset) with
  | error e =>
    rw [fileKernel_error hread] at h
    cases h
  | ok r =>
    rw [fileKernel_ok hread] at h
    cases h
    obtain ⟨file, old, hfile, hreadable, hold, hr, _⟩ := pread_eq_ok.mp hread
    have hread₂ : fs₂.perform cred (.pread fd size offset) = .ok (r.1, fs₂) :=
      pread_eq_ok.mpr ⟨file, old, (hfds fd).trans hfile, hreadable, (hcontents _).trans hold, hr, rfl⟩
    rw [fileKernel_ok hread₂]

theorem read_answers {σ : Type} (K : Kernel σ) {q data : CString} {size offset fd : ℕ} (env : Env)
    {s : Daemon σ} (h : (K.call (.pread fd size offset) s.kernel).1 = .ok data) :
    (dispatch K (.read q size offset fd) env s).1 = ⟨data.length, .bytes data⟩ := by
  simp [dispatch, loggedFSRead, directHandler, h]

theorem writes_alike_iff {contents : Ino → Option CString} {i j : Ino}
    {old₁ old₂ new₁ new₂ : CString} (hj : contents j = some old₁) (hi : contents i = some old₂) :
    (∀ k, (if j = k then some new₁ else contents k) = if i = k then some new₂ else contents k) ↔
      if j = i then new₁ = new₂ else new₁ = old₁ ∧ new₂ = old₂ := by
  by_cases hji : j = i
  · subst hji
    rw [if_pos rfl]
    constructor
    · intro h
      simpa using h j
    · rintro rfl k
      rfl
  · rw [if_neg hji]
    constructor
    · intro h
      have hatj := h j
      have hati := h i
      simp only [if_true, if_neg (Ne.symm hji), hj, Option.some.injEq] at hatj
      simp only [if_true, if_neg hji, hi, Option.some.injEq] at hati
      exact ⟨hatj, hati.symm⟩
    · rintro ⟨rfl, rfl⟩ k
      split_ifs with hjk hik hik
      · exact absurd (hjk.trans hik.symm) hji
      · rw [← hjk, hj]
      · rw [← hik, hi]
      · rfl

theorem reopensSame_iff {path buf : CString} {offset fh : ℕ} {j : Ino} {y : Inode} {data old : CString}
    {file : OpenFile} (hj : fs.resolve cred path = .ok j) (hy : fs.inode j = some y)
    (hdata : y.body = .regular data) (hmay : cred.may y wOk = true)
    (hfile : fs.fds.get fh = some file) (hold : fs.contents file.ino = some old) :
    ReopensSame cred fs path buf offset fh ↔
      if j = file.ino then writeAt data buf offset = writeAt old buf (position file old offset)
      else writeAt data buf offset = data ∧ writeAt old buf (position file old offset) = old := by
  have hcases : ReopensSame cred fs path buf offset fh ↔
      j = file.ino ∧ (file.append = true → offset = old.length) ∨
        AlreadyAt data buf offset ∧ AlreadyAt old buf (position file old offset) := by
    constructor
    · rintro ⟨j', y', data', file', old', hj', hy', hdata', _, hfile', hold', hsame⟩
      cases hj.symm.trans hj'
      cases hy.symm.trans hy'
      cases hdata.symm.trans hdata'
      cases hfile.symm.trans hfile'
      cases hold.symm.trans hold'
      exact hsame
    · intro hsame
      exact ⟨j, y, data, file, old, hj, hy, hdata, hmay, hfile, hold, hsame⟩
  rw [hcases]
  by_cases hown : j = file.ino
  · have hboth : data = old := by
      rw [← hown] at hold
      exact Option.some.inj ((contents_eq_some.mpr ⟨y, hy, hdata⟩).symm.trans hold)
    rw [if_pos hown, hboth, writeAt_position_iff, and_iff_right hown]
  · rw [if_neg hown, writeAt_eq_self, writeAt_eq_self]
    simp [hown]

theorem reopened_dispatch (env : Env) {s : Daemon FileSystem} {p : CString} {j : Ino} {y : Inode}
    {data : CString} (hj : s.kernel.resolve cred (getRelativePath p) = .ok j)
    (hy : s.kernel.inode j = some y) (hdata : y.body = .regular data)
    (hmay : cred.may y wOk = true) (buf : CString) (offset fh : ℕ) :
    (dispatch (fileKernel cred) (.write p buf offset fh) env s).1 = ⟨buf.length, .nothing⟩ ∧
      (∀ i, (dispatch (fileKernel cred) (.write p buf offset fh) env s).2.kernel.contents i =
        if j = i then some (writeAt data buf offset) else s.kernel.contents i) ∧
      ∀ fd, (dispatch (fileKernel cred) (.write p buf offset fh) env s).2.kernel.fds.get fd =
        s.kernel.fds.get fd := by
  obtain ⟨herror, hreply, hwritten⟩ := reopened_write hj hy hdata hmay buf offset
  have hkernel := ((dispatch_issues (fileKernel cred) (.write p buf offset fh) env s).2).trans hwritten
  refine ⟨?_, ?_, ?_⟩
  · exact (dispatch_answers (fileKernel cred) (.write p buf offset fh) env s herror).trans hreply
  · intro i
    rw [hkernel]
    exact contents_modify (contents_eq_some.mpr ⟨y, hy, hdata⟩) _ i
  · intro fd
    rw [hkernel, Slots.get_free_alloc]

theorem writesThrough_iff (env : Env) {s : Daemon FileSystem} {live : Handles}
    (h : HandlesOpen s.kernel live) {fh flags : ℕ} (hlive : live fh = some flags)
    (hwritable : (accessMode flags).2 = true) (p buf : CString) (offset : ℕ) :
    WritesThrough cred env s p buf offset fh ↔
      ReopensSame cred s.kernel (getRelativePath p) buf offset fh := by
  obtain ⟨file, old, hfile, hold, hdirect⟩ := direct_write h hlive hwritable buf offset
  cases ho : s.kernel.perform cred (.open (getRelativePath p) oWronly 0) with
  | error e =>
    refine iff_of_false ?_ ?_
    · intro hthrough
      have hresult := hthrough.result
      rw [hdirect] at hresult
      have hrefused := refused_write env buf offset fh ho
      rw [hresult] at hrefused
      exact absurd hrefused (not_lt_of_ge (Int.natCast_nonneg _))
    · rintro ⟨j, y, data, _, _, hj, hy, hdata, hmay, _⟩
      have hopen : s.kernel.perform cred (.open (getRelativePath p) oWronly 0) = .ok _ :=
        openFile_wronly.mpr ⟨j, y, data, hj, hy, hdata, hmay, rfl, rfl⟩
      rw [ho] at hopen
      cases hopen
  | ok r =>
    obtain ⟨j, y, data, hj, hy, hdata, hmay, _, _⟩ := openFile_wronly.mp ho
    obtain ⟨hresult, hafter, hfds⟩ := reopened_dispatch env hj hy hdata hmay buf offset fh
    have hdirectly : ∀ i, ((fileKernel cred).call (.pwrite fh buf offset) s.kernel).2.contents i =
        if file.ino = i then some (writeAt old buf (position file old offset))
        else s.kernel.contents i := by
      intro i
      rw [hdirect]
      exact contents_modify hold _ i
    have hsame : (∀ i, (dispatch (fileKernel cred) (.write p buf offset fh) env s).2.kernel.contents i =
          ((fileKernel cred).call (.pwrite fh buf offset) s.kernel).2.contents i) ↔
        ReopensSame cred s.kernel (getRelativePath p) buf offset fh := by
      simp only [hafter, hdirectly]
      rw [writes_alike_iff (contents_eq_some.mpr ⟨y, hy, hdata⟩) hold,
        reopensSame_iff hj hy hdata hmay hfile hold]
    constructor
    · intro hthrough
      exact hsame.mp hthrough.contents
    · intro hreopens
      have hcontents := hsame.mpr hreopens
      refine ⟨by rw [hresult, hdirect]; rfl, hcontents, ?_⟩
      intro env' q data' fd size from_ hread
      refine read_answers (fileKernel cred) env' (read_alike ?_ hcontents hread)
      intro fd
      rw [hfds, hdirect]
      rfl

end Writes

/-- In every state of every run, a write through a handle that was opened for writing does
what the handle would do exactly when the path, opened again, leads to the same file. -/
theorem write_through_iff {cred : Cred} {s : Daemon FileSystem} {live : Handles}
    (run : HandleRun cred s live) {fh flags : ℕ} (hlive : live fh = some flags)
    (hwritable : (accessMode flags).2 = true) (env : Env) (p buf : CString) (offset : ℕ) :
    WritesThrough cred env s p buf offset fh ↔
      ReopensSame cred s.kernel (getRelativePath p) buf offset fh :=
  writesThrough_iff env run.handlesOpen hlive hwritable p buf offset

def userCred : Cred := { privileged := false, uid := 7, gid := 7, groups := [] }

/-- The file is opened for writing, and the request happens to it before the write. -/
def openedThen (req : Request) : Daemon FileSystem :=
  runRequests (fileKernel userCred) (.idle sampleFiles default)
    [(sampleEnv 7 7, .open "/a".toList oWronly), (sampleEnv 7 7, req)]

def firstHandle : Handles := Function.update (fun _ => none) 0 (some oWronly)

theorem openedThen_run {req : Request} (hop : req.op ∈ handleOps)
    (hkeeps : ∀ live reply, nextHandles live req reply = live) :
    HandleRun userCred (openedThen req) firstHandle := by
  have hmount : HandleRun userCred (.idle sampleFiles default) (fun _ => none) :=
    .mounted sampleFiles default
  have hopen := HandleRun.step (sampleEnv 7 7) (.open "/a".toList oWronly) hmount (by decide)
  have hnext := HandleRun.step (sampleEnv 7 7) req hopen hop
  rw [hkeeps] at hnext
  exact hnext

theorem write_through_renamed :
    WritesThrough userCred (sampleEnv 7 7) (openedThen (.rename "/a".toList "/b".toList))
      "/b".toList "x".toList 0 0 := by
  have hrun : HandleRun userCred (openedThen (.rename "/a".toList "/b".toList)) firstHandle :=
    openedThen_run (by decide) (fun _ _ => rfl)
  have hlive : firstHandle 0 = some oWronly := rfl
  refine (write_through_iff hrun hlive rfl _ _ _ _).mpr ?_
  exact ⟨1, _, [], _, [], by rfl, rfl, rfl, by decide, rfl, rfl, .inl ⟨rfl, by decide⟩⟩

/-- The owner takes the right to write away from the file, and the open handle with it. -/
theorem write_after_chmod :
    HandleRun userCred (openedThen (.chmod "/a".toList 0o444)) firstHandle ∧
      ¬ WritesThrough userCred (sampleEnv 7 7) (openedThen (.chmod "/a".toList 0o444))
        "/a".toList "x".toList 0 0 := by
  refine ⟨openedThen_run (by decide) (fun _ _ => rfl), ?_⟩
  intro hthrough
  exact absurd hthrough.result (by decide)

end DistillerFS
