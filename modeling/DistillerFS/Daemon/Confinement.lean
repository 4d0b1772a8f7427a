import DistillerFS.Daemon.Passthrough
import DistillerFS.Daemon.Session
import DistillerFS.Foundations.PathNames

/-!
# The objects that the system calls name

A path argument of a system call is resolved name by name from the working directory,
or from the root of the host if it starts with '/'. `loggedFS_init` makes the covered
mount directory the working directory.
-/
namespace DistillerFS
open Foundations

/-- The macros that decide which callbacks are compiled. -/
structure BuildConfig where
  haveSetxattr : Bool
  fuseUseVersion : ℕ

def isXattrOp (op : FuseOps) : Bool :=
  op ∈ [.opSetxattr, .opGetxattr, .opListxattr, .opRemovexattr]

def BuildConfig.registers (b : BuildConfig) (op : FuseOps) : Bool :=
  if isXattrOp op then b.haveSetxattr
  else if op = .opUtime then b.fuseUseVersion == 25
  else if op = .opUtimens then b.fuseUseVersion != 25
  else true

/-- The arguments of a call that name objects; the text of a symbolic link is data. -/
def SysCall.paths : SysCall → List CString
  | .rename old new | .link old new => [old, new]
  | .symlink _ path => [path]
  | .lstat path | .access path _ | .readlink path _ | .opendir path | .open path _ _
  | .mkfifo path _ | .mknod path _ _ | .lchown path _ _ | .mkdir path _ | .unlink path
  | .rmdir path | .chmod path _ | .truncate path _ | .utime path _ | .utimensat path _
  | .statvfs path | .lsetxattr path _ _ _ | .lgetxattr path _ _ | .llistxattr path _
  | .lremovexattr path _ => [path]
  | .closedir _ | .close _ | .pread _ _ _ | .pwrite _ _ _ => []

/-- One step of the resolution, from a directory given by its names below the root. -/
def enter (dir : List CString) (name : CString) : List CString :=
  if name = ['.'] then dir else if name = ['.', '.'] then dir.dropLast else dir ++ [name]

def resolve (cwd : List CString) (path : CString) : List CString :=
  (names '/' path).foldl enter (if path.head? = some '/' then [] else cwd)

def OrdinaryName (name : CString) : Prop :=
  name ≠ [] ∧ '/' ∉ name ∧ name ≠ ['.'] ∧ name ≠ ['.', '.']

/-- A path operand as libfuse builds it: the names of the object below the mount point. -/
def OperandOf (ps : List CString) (operand : CString) : Prop :=
  (∀ name ∈ ps, OrdinaryName name) ∧ operand = absolute '/' ps

def LibfuseOperand (operand : CString) : Prop := ∃ ps, OperandOf ps operand

/-- Each call the handler issues names, in their order, the objects of the operands below
the mount directory, or of the last operand alone, or none. -/
def Confined {σ : Type} (K : Kernel σ) (env : Env) (s : Daemon σ) (cwd : List CString)
    (req : Request) : Prop :=
  ∃ new, (dispatch K req env s).2.issued = s.issued ++ new ∧
    ∀ c ∈ new, c.paths.map (resolve cwd) <:+ req.operands.map (fun o => cwd ++ names '/' o)

theorem foldl_enter {ps : List CString} (h : ∀ name ∈ ps, OrdinaryName name) (dir : List CString) :
    ps.foldl enter dir = dir ++ ps := by
  induction ps generalizing dir with
  | nil => exact (List.append_nil dir).symm
  | cons name ps ih =>
    obtain ⟨_, _, hdot, hdotdot⟩ := h name (by simp)
    have hstep : enter dir name = dir ++ [name] := by rw [enter, if_neg hdot, if_neg hdotdot]
    rw [List.foldl_cons, hstep, ih (fun n hn => h n (List.mem_cons_of_mem _ hn)), List.append_assoc]
    rfl

section Operand
variable {ps : List CString} {operand : CString}

theorem OperandOf.names_eq (h : OperandOf ps operand) : names '/' operand = ps := by
  rw [h.2]
  exact names_absolute fun name hname => ⟨(h.1 name hname).1, (h.1 name hname).2.1⟩

theorem OperandOf.resolve_eq (h : OperandOf ps operand) (cwd : List CString) :
    resolve cwd operand = ps := by
  have hhead : operand.head? = some '/' := by
    rw [h.2, absolute]
    cases ps <;> rfl
  rw [resolve, if_pos hhead, h.names_eq, foldl_enter h.1, List.nil_append]

/-- The translated operand names the object below the working directory. -/
theorem OperandOf.resolve_relative (h : OperandOf ps operand) (cwd : List CString) :
    resolve cwd (getRelativePath operand) = cwd ++ ps := by
  have hnames := h.names_eq
  obtain ⟨hps, rfl⟩ := h
  cases ps with
  | nil =>
    have hroot : resolve cwd ['.'] = cwd := rfl
    exact hroot.trans (List.append_nil cwd).symm
  | cons name ps =>
    obtain ⟨hne, hslash, _⟩ := hps name (by simp)
    obtain ⟨c, cs, rfl⟩ := List.exists_cons_of_ne_nil hne
    -- behind the first slash comes the first character of a name
    have hrel : getRelativePath (absolute '/' ((c :: cs) :: ps)) =
        (c :: cs) ++ ps.flatMap ('/' :: ·) := by
      simp [getRelativePath, absolute]
    have hhead : ((c :: cs) ++ ps.flatMap ('/' :: ·)).head? ≠ some '/' := by
      intro hc
      cases hc
      exact hslash (by simp)
    have htail : names '/' ((c :: cs) ++ ps.flatMap ('/' :: ·)) = (c :: cs) :: ps := by
      rw [← names_cons_separator]
      exact hnames
    rw [hrel, resolve, if_neg hhead, htail, foldl_enter hps]

end Operand

section Calls
variable {σ : Type} (K : Kernel σ)

theorem Passthrough.mem_andThen_calls {p : Passthrough σ} {next : List SysCall} {c : SysCall}
    (h : c ∈ (p.andThen K next).calls) : c ∈ p.calls ∨ c ∈ next := by
  unfold Passthrough.andThen at h
  cases he : p.error with
  | some e =>
    rw [he] at h
    exact .inl h
  | none =>
    rw [he] at h
    exact List.mem_append.mp h

theorem Passthrough.mem_create_calls {k : σ} {call c : SysCall} {path : CString} {uid gid : ℕ}
    (h : c ∈ (Passthrough.create K k call path uid gid).calls) :
    c = call ∨ c = .lchown path (some uid) (some gid) := by
  rcases Passthrough.mem_andThen_calls K h with h | h
  · exact .inl (List.mem_singleton.mp h)
  · exact .inr (List.mem_singleton.mp h)

theorem Passthrough.mknod_paths {k : σ} {c : SysCall} {path : CString} {mode rdev uid gid : ℕ}
    (h : c ∈ (Passthrough.mknod K k path mode rdev uid gid).calls) : c.paths <:+ [path] := by
  unfold Passthrough.mknod at h
  by_cases hreg : sIsreg mode = true
  · rw [if_pos hreg] at h
    cases hopen : (K.call (.open path (oCreat ||| oExcl ||| oWronly) mode) k).1 with
    | error e =>
      rw [hopen] at h
      rw [List.mem_singleton.mp h]
      exact List.suffix_refl _
    | ok fd =>
      rw [hopen] at h
      rcases List.mem_cons.mp h with rfl | h
      · exact List.suffix_refl _
      · rcases Passthrough.mem_create_calls K h with rfl | rfl
        · exact List.nil_suffix
        · exact List.suffix_refl _
  · rw [if_neg hreg] at h
    split_ifs at h
    all_goals
      rcases Passthrough.mem_create_calls K h with rfl | rfl <;> exact List.suffix_refl _

theorem Passthrough.write_paths {k : σ} {c : SysCall} {path buf : CString} {offset : ℕ}
    (h : c ∈ (Passthrough.write K k path buf offset).calls) : c.paths <:+ [path] := by
  unfold Passthrough.write at h
  cases hopen : (K.call (.open path oWronly 0) k).1 with
  | error e =>
    rw [hopen] at h
    rw [List.mem_singleton.mp h]
    exact List.suffix_refl _
  | ok fd =>
    rw [hopen] at h
    simp only [List.mem_cons, List.not_mem_nil, or_false] at h
    rcases h with rfl | rfl | rfl
    · exact List.suffix_refl _
    · exact List.nil_suffix
    · exact List.nil_suffix

theorem Passthrough.readdir_paths {k : σ} {c : SysCall} {path : CString}
    {filler : List (CString × StatBuf) → CString × StatBuf → Bool}
    (h : c ∈ (Passthrough.readdir K k path filler).calls) : c.paths <:+ [path] := by
  unfold Passthrough.readdir at h
  cases hopen : (K.call (.opendir path) k).1 with
  | error e =>
    rw [hopen] at h
    rw [List.mem_singleton.mp h]
    exact List.suffix_refl _
  | ok dir =>
    rw [hopen] at h
    simp only [List.mem_cons, List.not_mem_nil, or_false] at h
    rcases h with rfl | rfl
    · exact List.suffix_refl _
    · exact List.nil_suffix

/-- The calls of a handler that translates its operands. -/
theorem passthrough_paths {req : Request} (hop : isXattrOp req.op = false) (uid gid : ℕ) (k : σ)
    {c : SysCall} (h : c ∈ (passthrough K uid gid k req).calls) :
    c.paths <:+ req.operands.map getRelativePath := by
  cases req with
  | readdir p filler => exact Passthrough.readdir_paths K h
  | mknod p mode rdev => exact Passthrough.mknod_paths K h
  | write p buf offset fh => exact Passthrough.write_paths K h
  | mkdir p mode =>
    rcases Passthrough.mem_create_calls K h with rfl | rfl <;> exact List.suffix_refl _
  | symlink text p =>
    rcases Passthrough.mem_create_calls K h with rfl | rfl <;> exact List.suffix_refl _
  | link p q =>
    rcases Passthrough.mem_create_calls K h with rfl | rfl
    · exact List.suffix_refl _
    · exact List.suffix_cons _ _
  | fsync p d fh => cases h
  | read p size offset fh | release p fh =>
    rw [List.mem_singleton.mp h]
    exact List.nil_suffix
  | setxattr | getxattr | listxattr | removexattr => cases hop
  | _ =>
    rw [List.mem_singleton.mp h]
    exact List.suffix_refl _

/-- The four handlers of extended attributes pass their operand on as it is. -/
theorem passthrough_xattr {req : Request} (hop : isXattrOp req.op = true) (uid gid : ℕ) (k : σ) :
    ∃ c p, (passthrough K uid gid k req).calls = [c] ∧ req.operands = [p] ∧ c.paths = [p] := by
  cases req with
  | setxattr | getxattr | listxattr | removexattr => exact ⟨_, _, rfl, rfl, rfl⟩
  | _ => cases hop

theorem translated_confined (env : Env) (s : Daemon σ) (cwd : List CString) {req : Request}
    (hreq : ∀ o ∈ req.operands, LibfuseOperand o) (hop : isXattrOp req.op = false) :
    Confined K env s cwd req := by
  refine ⟨_, (dispatch_issues K req env s).1, ?_⟩
  intro c hc
  have hpaths := (passthrough_paths K hop env.uid env.gid s.kernel hc).map (resolve cwd)
  have hmap : (req.operands.map getRelativePath).map (resolve cwd) =
      req.operands.map (fun o => cwd ++ names '/' o) := by
    rw [List.map_map]
    apply List.map_congr_left
    intro o ho
    obtain ⟨ps, hps⟩ := hreq o ho
    rw [Function.comp_apply, hps.resolve_relative, hps.names_eq]
  rwa [hmap] at hpaths

/-- An absolute operand that is passed on as it is leads to the root of the host. -/
theorem xattr_confined_iff (env : Env) (s : Daemon σ) (cwd : List CString) {req : Request}
    (hreq : ∀ o ∈ req.operands, LibfuseOperand o) (hop : isXattrOp req.op = true) :
    Confined K env s cwd req ↔ cwd = [] := by
  have hissued := (dispatch_issues K req env s).1
  obtain ⟨c, p, hcalls, hoperands, hpaths⟩ := passthrough_xattr K hop env.uid env.gid s.kernel
  obtain ⟨ps, hps⟩ := hreq p (by simp [hoperands])
  constructor
  · rintro ⟨new, hnew, hnamed⟩
    have hc : c ∈ new := by
      rw [hissued, hcalls, List.append_cancel_left_eq] at hnew
      simp [← hnew]
    have hname := hnamed c hc
    rw [hpaths, hoperands, List.map_singleton, List.map_singleton, hps.resolve_eq,
      hps.names_eq] at hname
    have heq : ps = cwd ++ ps := List.singleton_inj.mp (hname.eq_of_length rfl)
    exact List.append_left_eq_self.mp heq.symm
  · intro hcwd
    refine ⟨_, hissued, ?_⟩
    intro c' hc'
    rw [hcalls, List.mem_singleton] at hc'
    rw [hc', hpaths, hoperands, List.map_singleton, List.map_singleton, hps.resolve_eq,
      hps.names_eq, hcwd]
    exact List.suffix_refl _

/-- A handler is confined when it translates its operands, and without the translation
only if the file system is mounted on the root of the host. -/
theorem confined_iff (env : Env) (s : Daemon σ) (cwd : List CString) {req : Request}
    (hreq : ∀ o ∈ req.operands, LibfuseOperand o) :
    Confined K env s cwd req ↔ isXattrOp req.op = false ∨ cwd = [] := by
  cases hop : isXattrOp req.op with
  | false => exact iff_of_true (translated_confined K env s cwd hreq hop) (.inl rfl)
  | true => simp [xattr_confined_iff K env s cwd hreq hop]

end Calls

/-- Every callback of a build but the four of extended attributes is confined, and so is a
whole build exactly when it leaves these out or the host's root is the mount point. -/
theorem confinement_exact (b : BuildConfig) (cwd : List CString) :
    (∀ (σ : Type) (K : Kernel σ) (env : Env) (s : Daemon σ) (req : Request),
      b.registers req.op = true → (∀ o ∈ req.operands, LibfuseOperand o) →
        (Confined K env s cwd req ↔ isXattrOp req.op = false ∨ cwd = [])) ∧
    ((∀ (σ : Type) (K : Kernel σ) (env : Env) (s : Daemon σ) (req : Request),
      b.registers req.op = true → (∀ o ∈ req.operands, LibfuseOperand o) →
        Confined K env s cwd req) ↔ b.haveSetxattr = false ∨ cwd = []) := by
  refine ⟨fun σ K env s req _ hreq => confined_iff K env s cwd hreq, ?_⟩
  constructor
  · intro hall
    rw [← Bool.not_eq_true, ← imp_iff_not_or]
    intro hset
    let req : Request := .getxattr ['/'] [] 0
    have hroot : ∀ o ∈ req.operands, LibfuseOperand o := by
      intro o ho
      rw [List.mem_singleton.mp ho]
      exact ⟨[], by simp, rfl⟩
    have hconf := hall (List SysCall) (oracleKernel (fun _ _ => .error eio))
      ⟨fun _ => 0, ⟨[], []⟩, 0, 0, fun _ e => e⟩ (Daemon.idle [] default) req hset hroot
    exact ((confined_iff _ _ _ cwd hroot).mp hconf).resolve_left (by decide)
  · intro hor σ K env s req hreg hreq
    apply (confined_iff K env s cwd hreq).mpr
    apply hor.imp_left
    intro hset
    by_contra hop
    rw [Bool.not_eq_false] at hop
    rw [BuildConfig.registers, if_pos hop, hset] at hreg
    cases hreg

/-- With the mount point "/mnt", reading an attribute of its file "/passwd" asks the host
for "/passwd". -/
theorem confinement_getxattr :
    LibfuseOperand "/passwd".toList ∧
    ¬ Confined (oracleKernel (fun _ _ => .error eio)) ⟨fun _ => 0, ⟨[], []⟩, 0, 0, fun _ e => e⟩
      (Daemon.idle [] default) ["mnt".toList] (.getxattr "/passwd".toList "user.tag".toList 0) := by
  constructor
  · refine ⟨["passwd".toList], ?_, rfl⟩
    intro name hname
    rw [List.mem_singleton.mp hname, OrdinaryName]
    decide
  · rintro ⟨new, hnew, hnamed⟩
    have hcall : new = [.lgetxattr "/passwd".toList "user.tag".toList 0] := hnew.symm
    have hname := hnamed _ (by rw [hcall]; exact List.mem_singleton_self _)
    exact absurd hname (by decide)

end DistillerFS
