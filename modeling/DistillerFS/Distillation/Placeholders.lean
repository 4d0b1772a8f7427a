import DistillerFS.Distillation.Commands

/-!
# Which lines leave a placeholder

A file that was only looked up is replaced by an empty one, a directory by an empty
directory. Paths in the directory "/prebuilts" are meant to be left out.
-/
namespace DistillerFS
open Foundations

/-- The commands that stand in for `path`, whose directory part is `dir`. -/
def placeholder (flags path dir toPrefix : CString) : List Command :=
  if stringFind flags 'd' then [.mkdirPath (toPrefix ++ path)]
  else [.mkdirDir (toPrefix ++ dir), .touch (toPrefix ++ path)]

def onlyStated (flags : CString) : Bool := stringFind flags 'G' && !opensFile flags

theorem onlyStated_eq_true {flags : CString} :
    onlyStated flags = true ↔ stringFind flags 'G' = true ∧ opensFile flags = false := by
  simp [onlyStated]

def InPrebuilts (path : CString) : Prop :=
  ∃ dir, getDir path = some dir ∧ "/prebuilts".toList <+: dir

/-- The lines that are meant to leave a placeholder. -/
def Selected (flags path : CString) : Prop :=
  onlyStated flags = true ∧ ∃ dir, getDir path = some dir ∧ ¬ "/prebuilts".toList <+: dir

theorem prefix_getDir {top path dir : CString} (htop : top ++ ['/'] <+: path)
    (hdir : getDir path = some dir) : top ++ ['/'] <+: dir := by
  obtain ⟨rest, rfl⟩ := htop
  by_cases hslash : '/' ∈ rest
  · obtain ⟨name, below, hsplit, hname⟩ := List.eq_append_cons_of_mem (List.mem_reverse.mpr hslash)
    have hrest : rest = below.reverse ++ '/' :: name.reverse := by
      rw [← List.reverse_reverse rest, hsplit]
      simp
    rw [hrest, ← List.append_assoc, getDir_append (by simpa using hname)] at hdir
    rw [← Option.some.inj hdir, List.append_assoc]
    exact List.prefix_append _ _
  · rw [List.append_assoc, List.singleton_append, getDir_append hslash] at hdir
    rw [Option.some.inj hdir]

section ProcessPath
variable {path flags fromPrefix toPrefix : CString}

theorem processPath_opened {dir : CString} (hopens : opensFile flags = true) :
    ¬ placeholder flags path dir toPrefix ⊆ processPath path flags fromPrefix toPrefix := by
  intro hsub
  cases hdir : getDir path with
  | none =>
    have hnil : processPath path flags fromPrefix toPrefix = [] := by
      simp [processPath, hdir]
    rw [hnil, List.subset_nil, placeholder] at hsub
    split_ifs at hsub
  | some found =>
    by_cases hd : stringFind flags 'd' = true
    · have hmem := @hsub (.mkdirPath (toPrefix ++ path)) (by simp [placeholder, hd])
      by_cases hlong : 1 < found.length <;> simp [processPath, hdir, hopens, hlong] at hmem
    · have hmem := @hsub (.touch (toPrefix ++ path)) (by simp [placeholder, hd])
      by_cases hlong : 1 < found.length <;> simp [processPath, hdir, hopens, hlong] at hmem

theorem processPath_onlyStated {dir : CString} (hdir : getDir path = some dir)
    (hstated : onlyStated flags = true) :
    processPath path flags fromPrefix toPrefix = placeholder flags path dir toPrefix := by
  obtain ⟨hG, hopens⟩ := onlyStated_eq_true.mp hstated
  simp only [processPath, hdir, hopens, hG, if_pos (take_ne_prebuilts dir), placeholder,
    if_true, Bool.false_eq_true, if_false]

theorem processPath_nothing (hG : stringFind flags 'G' = false) (hopens : opensFile flags = false) :
    processPath path flags fromPrefix toPrefix = [] := by
  unfold processPath
  cases getDir path with
  | none => rfl
  | some dir => simp [hG, hopens]

theorem placeholder_subset_iff {dir : CString} (hdir : getDir path = some dir) :
    placeholder flags path dir toPrefix ⊆ processPath path flags fromPrefix toPrefix ↔
      onlyStated flags = true := by
  constructor
  · intro hsub
    by_contra hstated
    cases hopens : opensFile flags with
    | true => exact processPath_opened hopens hsub
    | false =>
      have hG : stringFind flags 'G' = false := by
        simpa [onlyStated, hopens] using hstated
      rw [processPath_nothing hG hopens, List.subset_nil, placeholder] at hsub
      split_ifs at hsub
  · intro hstated
    rw [processPath_onlyStated hdir hstated]
    exact List.Subset.refl _

end ProcessPath

section Script
variable (log fromPrefix toPrefix : CString)

/-- What the script holds for the line after the lines `before`. -/
def printedFor (before : List CString) (line : CString) : List Command :=
  (mainLoop fromPrefix toPrefix 0 (before ++ [line])).drop
    (mainLoop fromPrefix toPrefix 0 before).length

theorem printedFor_eq (before : List CString) (line : CString) :
    ∃ messages, (∀ c ∈ messages, c.isEcho = true) ∧
      printedFor fromPrefix toPrefix before line =
        lineCommands fromPrefix toPrefix line ++ messages := by
  obtain ⟨count, hbefore⟩ := mainLoop_append fromPrefix toPrefix 0 before [line]
  obtain ⟨messages, count', hmessages, hline⟩ := mainLoop_cons fromPrefix toPrefix count line []
  refine ⟨messages, hmessages, ?_⟩
  rw [printedFor, hbefore, hline, List.drop_left]
  simp [mainLoop]

/-- The blocks make up the script. -/
theorem processLog_split {before after : List CString} {line : CString}
    (h : ioLines log = before ++ line :: after) :
    ∃ rest, processLog log fromPrefix toPrefix =
      mainLoop fromPrefix toPrefix 0 before ++ printedFor fromPrefix toPrefix before line ++ rest := by
  obtain ⟨count, hafter⟩ := mainLoop_append fromPrefix toPrefix 0 (before ++ [line]) after
  obtain ⟨count', hline⟩ := mainLoop_append fromPrefix toPrefix 0 before [line]
  refine ⟨mainLoop fromPrefix toPrefix count after, ?_⟩
  rw [processLog, h, show before ++ line :: after = before ++ [line] ++ after by simp, hafter,
    printedFor, hline, List.drop_left]

def LeavesPlaceholder (before : List CString) (line flags path : CString) : Prop :=
  ∃ dir, getDir path = some dir ∧
    placeholder flags path dir toPrefix ⊆ printedFor fromPrefix toPrefix before line

/-- Exactly the selected entries leave a placeholder, and what was only looked up below
"/prebuilts" leaves nothing. -/
def SelectsPlaceholders : Prop :=
  ∀ before line after, ioLines log = before ++ line :: after →
    ∀ flags path, readLine line = .entry flags path →
      (LeavesPlaceholder fromPrefix toPrefix before line flags path ↔ Selected flags path) ∧
      (onlyStated flags = true → "/prebuilts/".toList <+: path →
        ∀ c ∈ printedFor fromPrefix toPrefix before line, c.isEcho = true)

theorem placeholder_not_echo {flags path dir : CString} {c : Command}
    (h : c ∈ placeholder flags path dir toPrefix) : c.isEcho = false := by
  unfold placeholder at h
  split_ifs at h
  · rw [List.mem_singleton.mp h, Command.isEcho]
    simp
  · rcases List.mem_pair.mp h with rfl | rfl <;> rfl

variable {fromPrefix toPrefix}

/-- The exclusion is dead: a directory does not matter. -/
theorem leavesPlaceholder_iff {before : List CString} {line flags path : CString}
    (hread : readLine line = .entry flags path) :
    LeavesPlaceholder fromPrefix toPrefix before line flags path ↔
      onlyStated flags = true ∧ ∃ dir, getDir path = some dir := by
  obtain ⟨messages, hmessages, hprinted⟩ := printedFor_eq fromPrefix toPrefix before line
  have hline : lineCommands fromPrefix toPrefix line = processPath path flags fromPrefix toPrefix := by
    rw [lineCommands, hread]
  have hsubset : ∀ dir, placeholder flags path dir toPrefix ⊆
      printedFor fromPrefix toPrefix before line ↔
        placeholder flags path dir toPrefix ⊆ processPath path flags fromPrefix toPrefix := by
    intro dir
    rw [hprinted, hline]
    constructor
    · intro hsub c hc
      apply (List.mem_append.mp (hsub hc)).resolve_right
      intro hm
      have hecho := placeholder_not_echo toPrefix hc
      rw [hmessages c hm] at hecho
      cases hecho
    · intro hsub
      exact List.subset_append_of_subset_left _ hsub
  unfold LeavesPlaceholder
  simp only [hsubset]
  constructor
  · rintro ⟨dir, hdir, hsub⟩
    exact ⟨(placeholder_subset_iff hdir).mp hsub, dir, hdir⟩
  · rintro ⟨hstated, dir, hdir⟩
    exact ⟨dir, hdir, (placeholder_subset_iff hdir).mpr hstated⟩

/-- The script selects the right placeholders exactly when no entry that was only looked
up is in a directory that begins with "/prebuilts". -/
theorem selectsPlaceholders_iff (log fromPrefix toPrefix : CString) :
    SelectsPlaceholders log fromPrefix toPrefix ↔
      ∀ line ∈ ioLines log, ∀ flags path, readLine line = .entry flags path →
        onlyStated flags = true → ¬ InPrebuilts path := by
  constructor
  · rintro hselects line hline flags path hread hstated ⟨dir, hdir, hprebuilts⟩
    obtain ⟨before, after, hsplit⟩ := List.append_of_mem hline
    have hleaves : LeavesPlaceholder fromPrefix toPrefix before line flags path :=
      (leavesPlaceholder_iff hread).mpr ⟨hstated, dir, hdir⟩
    obtain ⟨-, dir', hdir', hnot⟩ :=
      (hselects before line after hsplit flags path hread).1.mp hleaves
    rw [hdir] at hdir'
    cases hdir'
    exact hnot hprebuilts
  · intro hnone before line after hsplit flags path hread
    have hline : line ∈ ioLines log := by
      rw [hsplit]
      simp
    constructor
    · rw [leavesPlaceholder_iff hread]
      unfold Selected
      constructor
      · rintro ⟨hstated, dir, hdir⟩
        refine ⟨hstated, dir, hdir, fun hprebuilts => ?_⟩
        exact hnone line hline flags path hread hstated ⟨dir, hdir, hprebuilts⟩
      · rintro ⟨hstated, dir, hdir, -⟩
        exact ⟨hstated, dir, hdir⟩
    · intro hstated hbelow
      have hslash : '/' ∈ path := hbelow.subset (by simp)
      obtain ⟨dir, hdir⟩ := exists_getDir hslash
      have hprefix : "/prebuilts/".toList <+: dir :=
        @prefix_getDir "/prebuilts".toList _ _ hbelow hdir
      have hin : InPrebuilts path := ⟨dir, hdir, (List.prefix_append _ _).trans hprefix⟩
      exact absurd hin (hnone line hline flags path hread hstated)

/-- One lookup below "/prebuilts" and there is an empty file. -/
theorem selectsPlaceholders_prebuilts :
    ¬ SelectsPlaceholders "[G]:1:/prebuilts/gcc".toList [] "/out".toList := by
  intro hselects
  obtain ⟨-, hnothing⟩ := hselects [] "[G]:1:/prebuilts/gcc".toList [] rfl "[G]".toList
    "/prebuilts/gcc".toList rfl
  have hmem : Command.touch "/out/prebuilts/gcc".toList ∈
      printedFor [] "/out".toList [] "[G]:1:/prebuilts/gcc".toList := by decide
  exact absurd (hnothing rfl (by decide) _ hmem) (by decide)

end Script

end DistillerFS
