import DistillerFS.Distillation.Commands
import DistillerFS.Foundations.PathNames
import DistillerFS.Foundations.PathTree

/-!
# Executing the script

The printed commands act on the destination, a tree of files that starts empty. The
operands of a command are strings below the two prefixes; a path of the log is the
canonical string of its components.
-/
namespace DistillerFS
open Foundations

inductive Leaf where
  | file (content : CString)
  | symlink (target : CString)
  | special (mode rdev : ℕ)
  deriving DecidableEq, Repr

abbrev FileTree := PathTree CString Leaf

abbrev components (path : CString) : List CString := names '/' path

/-- The path is absolute, without empty names and without a slash at its end. -/
def Canonical (path : CString) : Prop := path = absolute '/' (components path)

instance (path : CString) : Decidable (Canonical path) := inferInstanceAs (Decidable (_ = _))

def below (root operand : CString) : Option (List CString) :=
  if root <+: operand then some (components (operand.drop root.length)) else none

/-- The effect of a command on the destination. No log path leads through a symbolic
link, so links are not followed. -/
def Command.exec (c : Command) (src : FileTree) (fromPrefix toPrefix : CString) (t : FileTree) :
    Option FileTree :=
  match c with
  | .mkdirDir dir => do t.mkdirP (← below toPrefix dir)
  | .mkdirPath path => do t.mkdirP (← below toPrefix path)
  | .cp path path' => do src.copyLeaf t (← below fromPrefix path) (← below toPrefix path')
  | .touch path => do t.touch (← below toPrefix path) (.file [])
  | .echo _ => some t
  | .wrongFormat _ => none

/-- The commands one after the other; the first failure is the failure of the script. -/
def execAll (src : FileTree) (fromPrefix toPrefix : CString) (cs : List Command) (t : FileTree) :
    Option FileTree :=
  cs.foldlM (fun t c => c.exec src fromPrefix toPrefix t) t

theorem below_append (root path : CString) : below root (root ++ path) = some (components path) := by
  simp [below]

section Exec
variable (src : FileTree) (fromPrefix toPrefix path : CString) (t : FileTree)

@[simp] theorem exec_mkdirDir : (Command.mkdirDir (toPrefix ++ path)).exec src fromPrefix toPrefix t =
    t.mkdirP (components path) := by
  simp [Command.exec, below_append]

@[simp] theorem exec_mkdirPath : (Command.mkdirPath (toPrefix ++ path)).exec src fromPrefix toPrefix t =
    t.mkdirP (components path) := by
  simp [Command.exec, below_append]

@[simp] theorem exec_cp :
    (Command.cp (fromPrefix ++ path) (toPrefix ++ path)).exec src fromPrefix toPrefix t =
    src.copyLeaf t (components path) (components path) := by
  simp [Command.exec, below_append]

@[simp] theorem exec_touch : (Command.touch (toPrefix ++ path)).exec src fromPrefix toPrefix t =
    t.touch (components path) (.file []) := by
  simp [Command.exec, below_append]

end Exec

/-- The directory part of a canonical path names its parent. -/
theorem Canonical.getDir {path : CString} (h : Canonical path) :
    ∃ dir, getDir path = some dir ∧ components dir = (components path).dropLast ∧
      (¬ 1 < dir.length → (components path).dropLast = []) := by
  have hnames : ∀ n ∈ components path, n ≠ [] ∧ '/' ∉ n := fun n hn => mem_names hn
  rcases List.eq_nil_or_concat' (components path) with hnil | ⟨ps, n, hpath⟩
  · rw [Canonical, hnil] at h
    rw [h]
    exact ⟨['/'], rfl, rfl, fun _ => rfl⟩
  · rw [hpath] at hnames
    have hps : ∀ m ∈ ps, m ≠ [] ∧ '/' ∉ m := fun m hm => hnames m (List.mem_append_left _ hm)
    have htext : path = ps.flatMap ('/' :: ·) ++ '/' :: n := by
      rw [Canonical, hpath, absolute, if_neg (by simp), List.flatMap_append] at h
      simpa using h
    have hdir : components (ps.flatMap ('/' :: ·) ++ '/' :: []) = ps := by
      rw [components, names_append hps]
      exact List.append_nil ps
    refine ⟨ps.flatMap ('/' :: ·) ++ ['/'], ?_, ?_, ?_⟩
    · rw [htext, getDir_append (hnames n (by simp)).2]
    · rw [hdir, hpath, List.dropLast_concat]
    · intro hlength
      rw [hpath, List.dropLast_concat]
      cases ps with
      | nil => rfl
      | cons m ps =>
        simp at hlength

/-- What the block of one line does to the destination, path by path. -/
def distil (src : FileTree) (flags : CString) (p : List CString) (t : FileTree) :
    Option FileTree :=
  if opensFile flags then (t.mkdirP p.dropLast).bind (fun t => src.copyLeaf t p p)
  else if stringFind flags 'G' then
    if stringFind flags 'd' then t.mkdirP p
    else (t.mkdirP p.dropLast).bind (fun t => t.touch p (.file []))
  else some t

section Blocks
variable (src : FileTree) (fromPrefix toPrefix : CString)

theorem execAll_append (cs cs' : List Command) (t : FileTree) :
    execAll src fromPrefix toPrefix (cs ++ cs') t =
      (execAll src fromPrefix toPrefix cs t).bind (execAll src fromPrefix toPrefix cs') := by
  rw [execAll, List.foldlM_append]
  rfl

/-- Progress messages leave the destination alone. -/
theorem execAll_messages {cs : List Command} (h : ∀ c ∈ cs, c.isEcho = true) (t : FileTree) :
    execAll src fromPrefix toPrefix cs t = some t := by
  induction cs generalizing t with
  | nil => rfl
  | cons c cs ih =>
    have hc := h c (by simp)
    cases c with
    | echo count => exact ih (fun c hc => h c (List.mem_cons_of_mem _ hc)) t
    | _ => cases hc

theorem mkdirP_nil (t : FileTree) : t.mkdirP [] = some t := by
  refine PathTree.mkdirP_eq_some.mpr ⟨?_, t.withDirs_nil.symm⟩
  intro q hq
  rw [List.prefix_nil.mp hq]
  exact .inr t.root

theorem execAll_processPath {path : CString} (h : Canonical path) (flags : CString) (t : FileTree) :
    execAll src fromPrefix toPrefix (processPath path flags fromPrefix toPrefix) t =
      distil src flags (components path) t := by
  obtain ⟨dir, hdir, hparent, hroot⟩ := h.getDir
  unfold processPath distil
  simp only [hdir, if_pos (take_ne_prebuilts dir)]
  split_ifs with ho hd hG hdirs
  · simp [execAll, hparent]
  · simp [execAll, hroot hd, mkdirP_nil]
  · simp [execAll]
  · simp [execAll, hparent]
  · rfl

end Blocks

end DistillerFS
