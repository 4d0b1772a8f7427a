import DistillerFS.Distillation.Commands
import DistillerFS.Foundations.ShellQuoting

/-!
# The printed lines as a shell script

What the shell makes of the output of `process_log.lua`. The paths are spliced between
double quotes as they are, and the diagnostics go where the commands go.
-/
namespace DistillerFS
open Foundations

/-- The commands a printed line is for, each as its words. A diagnostic is for none. -/
def Command.intended : Command → List (List CString)
  | .mkdirDir dir => [["mkdir".toList, "-p".toList, dir]]
  | .mkdirPath path => [["mkdir".toList, "-p".toList, path]]
  | .cp src dst => [["cp".toList, "-a".toList, src, dst]]
  | .touch path => [["touch".toList, path]]
  | .echo count => [["echo".toList, Nat.toDigits 10 count ++ " lines processed.".toList]]
  | .wrongFormat _ => []

/-- The shell reads a printed line as what it is for. -/
def Command.Understood (c : Command) : Prop := Shell.commands c.render = some c.intended

/-- Every line that is printed for the log runs the intended command, with the paths of the
line of the log byte for byte, or nothing. -/
def RunsOnlyIntended (content fromPrefix toPrefix : CString) : Prop :=
  ∀ c ∈ processLog content fromPrefix toPrefix, c.Understood

/-- A comment, or an entry whose spliced paths hold nothing that double quotes let through:
no double quote, backquote or NUL, no dollar before an expansion, and no backslash at the
end or before a character it would escape. -/
def LineSafe (fromPrefix toPrefix line : CString) : Prop :=
  match readLine line with
  | .comment => True
  | .wrongFormat _ => False
  | .entry flags path => '/' ∈ path →
    (opensFile flags = true → Shell.quotable (fromPrefix ++ path) = true) ∧
      (opensFile flags = true ∨ stringFind flags 'G' = true →
        Shell.quotable (toPrefix ++ path) = true)

namespace Command

def words : Command → List Shell.Word
  | .mkdirDir path | .mkdirPath path =>
    [.bare ⟨"mkdir".toList, by decide⟩, .bare ⟨"-p".toList, by decide⟩, .quoted path]
  | .cp src dst =>
    [.bare ⟨"cp".toList, by decide⟩, .bare ⟨"-a".toList, by decide⟩, .quoted src, .quoted dst]
  | .touch path => [.bare ⟨"touch".toList, by decide⟩, .quoted path]
  | .echo count => [.bare ⟨"echo".toList, by decide⟩,
      .quoted (Nat.toDigits 10 count ++ " lines processed.".toList)]
  | .wrongFormat _ => []

theorem render_eq_commandLine {c : Command} (h : c.words ≠ []) :
    c.render = Shell.commandLine c.words := by
  cases c with
  | wrongFormat line => exact absurd rfl h
  | mkdirDir path | mkdirPath path =>
    exact List.append_assoc "mkdir -p \"".toList path ['"']
  | touch path => exact List.append_assoc "touch \"".toList path ['"']
  | cp src dst =>
    calc (cp src dst).render
        = "cp -a \"".toList ++ src ++ (['"'] ++ " \"".toList) ++ dst ++ ['"'] := rfl
      _ = "cp -a \"".toList ++ ((src ++ ['"']) ++ (" \"".toList ++ (dst ++ ['"']))) := by
        rw [List.append_assoc, List.append_assoc, List.append_assoc, List.append_assoc,
          List.append_assoc]
      _ = Shell.commandLine (cp src dst).words := rfl
  | echo count =>
    calc (echo count).render
        = "echo \"".toList ++ Nat.toDigits 10 count ++ (" lines processed.".toList ++ ['"']) := rfl
      _ = "echo \"".toList ++ ((Nat.toDigits 10 count ++ " lines processed.".toList) ++ ['"']) := by
        rw [List.append_assoc, List.append_assoc]
      _ = Shell.commandLine (echo count).words := rfl

theorem understood_iff_words {c : Command} (h : c.words ≠ []) :
    c.Understood ↔ ∀ w ∈ c.words, w.Quotable := by
  have hintended : c.intended = [c.words.map Shell.Word.value] := by
    cases c with
    | wrongFormat line => exact absurd rfl h
    | _ => rfl
  rw [Understood, render_eq_commandLine h, hintended, Shell.commands_commandLine h]

theorem echo_understood (count : ℕ) : (echo count).Understood := by
  have hwords : (echo count).words ≠ [] := List.cons_ne_nil _ _
  rw [understood_iff_words hwords]
  have hquotable : Shell.quotable (Nat.toDigits 10 count ++ " lines processed.".toList) = true := by
    apply Shell.quotable_of_inert
    intro c hc
    apply Shell.inert_of_not_mem
    rcases List.mem_append.mp hc with hdigit | htext
    · have hisDigit : c.isDigit = true := Nat.isDigit_of_mem_toDigits (by decide) (by decide) hdigit
      have hnone : Shell.active.all (fun d => !d.isDigit) = true := by decide
      intro hmem
      have hother := List.all_eq_true.mp hnone c hmem
      rw [hisDigit] at hother
      cases hother
    · have hall : " lines processed.".toList.all (fun d => d ∉ Shell.active) = true := by decide
      have hother := List.all_eq_true.mp hall c htext
      simpa using hother
  intro w hw
  rcases List.mem_cons.mp hw with rfl | hw
  · trivial
  · rw [List.mem_singleton.mp hw]
    exact hquotable

/-- A diagnostic is a command for the shell, whatever the line is. -/
theorem wrongFormat_not_understood (line : CString) : ¬ (wrongFormat line).Understood :=
  Shell.commands_ne_nil (fun _ => rfl)

/-- The paths of a command stand for themselves between double quotes. -/
def Safe : Command → Prop
  | .mkdirDir path | .mkdirPath path | .touch path => Shell.quotable path = true
  | .cp src dst => Shell.quotable src = true ∧ Shell.quotable dst = true
  | .echo _ => True
  | .wrongFormat _ => False

theorem understood_iff (c : Command) : c.Understood ↔ c.Safe := by
  cases c with
  | echo count => exact iff_of_true (echo_understood count) trivial
  | wrongFormat line => exact iff_of_false (wrongFormat_not_understood line) id
  | mkdirDir | mkdirPath | cp | touch =>
    apply (understood_iff_words (by simp [words])).trans
    simp [words, Shell.Word.Quotable, Safe]

theorem understood_of_isEcho {c : Command} (h : c.isEcho = true) : c.Understood := by
  cases c with
  | echo count => exact echo_understood count
  | _ => cases h

end Command

section Lines
variable (fromPrefix toPrefix : CString)

/-- The directory part of a safe path is safe. -/
theorem quotable_getDir {path dir : CString} (hdir : getDir path = some dir)
    (h : Shell.quotable (toPrefix ++ path) = true) : Shell.quotable (toPrefix ++ dir) = true := by
  have hslash : '/' ∈ path := by
    by_contra hnone
    rw [getDir_none hnone] at hdir
    cases hdir
  obtain ⟨name, before, hsplit, hname⟩ := List.eq_append_cons_of_mem (List.mem_reverse.mpr hslash)
  have hpath : path = before.reverse ++ '/' :: name.reverse := by
    rw [← List.reverse_reverse path, hsplit]
    simp
  have hname' : '/' ∉ name.reverse := fun hmem => hname (List.mem_reverse.mp hmem)
  rw [hpath, getDir_append hname'] at hdir
  cases hdir
  rw [hpath, ← List.append_assoc] at h
  rw [← List.append_assoc]
  exact Shell.quotable_cut (Shell.inert_of_not_mem (by decide)) h

theorem processPath_understood {path dir : CString} (flags : CString) (hdir : getDir path = some dir) :
    (∀ c ∈ processPath path flags fromPrefix toPrefix, c.Understood) ↔
      (opensFile flags = true → Shell.quotable (fromPrefix ++ path) = true) ∧
        (opensFile flags = true ∨ stringFind flags 'G' = true →
          Shell.quotable (toPrefix ++ path) = true) := by
  have hto := quotable_getDir toPrefix hdir
  simp only [processPath, hdir, if_pos (take_ne_prebuilts dir), Command.understood_iff]
  by_cases hopens : opensFile flags = true
  · rw [if_pos hopens]
    constructor
    · intro h
      have hcp : (Command.cp (fromPrefix ++ path) (toPrefix ++ path)).Safe := by
        apply h
        simp
      exact ⟨fun _ => hcp.1, fun _ => hcp.2⟩
    · rintro ⟨hsrc, hdst⟩ c hc
      have hdst' := hdst (.inl hopens)
      rcases List.mem_append.mp hc with hmkdir | hcp
      · split_ifs at hmkdir
        · rw [List.mem_singleton.mp hmkdir]
          exact hto hdst'
        · cases hmkdir
      · rw [List.mem_singleton.mp hcp]
        exact ⟨hsrc hopens, hdst'⟩
  · rw [if_neg hopens]
    by_cases hG : stringFind flags 'G' = true
    · rw [if_pos hG]
      by_cases hd : stringFind flags 'd' = true
      · simp [hopens, hG, hd, Command.Safe]
      · -- the directory is made in front of the file that is touched
        rw [if_neg hd]
        simp only [List.mem_cons, List.not_mem_nil, or_false, forall_eq_or_imp, forall_eq, Command.Safe]
        constructor
        · rintro ⟨_, htouch⟩
          exact ⟨fun h => absurd h hopens, fun _ => htouch⟩
        · rintro ⟨_, h⟩
          have htouch := h (.inr hG)
          exact ⟨hto htouch, htouch⟩
    · simp [hopens, hG]

theorem lineCommands_understood (line : CString) :
    (∀ c ∈ lineCommands fromPrefix toPrefix line, c.Understood) ↔
      LineSafe fromPrefix toPrefix line := by
  unfold lineCommands LineSafe
  cases readLine line with
  | comment => simp
  | wrongFormat line => simp [Command.wrongFormat_not_understood line]
  | entry flags path =>
    by_cases hslash : '/' ∈ path
    · obtain ⟨dir, hdir⟩ := exists_getDir hslash
      simp only [hslash, forall_const]
      exact processPath_understood fromPrefix toPrefix flags hdir
    · simp [processPath, getDir_none hslash, hslash]

end Lines

/-- The shell runs the intended commands of the log and no others if and only if every line
of the log is safe. -/
theorem runs_only_intended_iff (content fromPrefix toPrefix : CString) :
    RunsOnlyIntended content fromPrefix toPrefix ↔
      ∀ line ∈ ioLines content, LineSafe fromPrefix toPrefix line := by
  simp only [← lineCommands_understood]
  constructor
  · intro h line hline c hc
    by_cases hecho : c.isEcho = true
    · exact Command.understood_of_isEcho hecho
    · rw [Bool.not_eq_true] at hecho
      exact h c ((mem_mainLoop fromPrefix toPrefix hecho 0 (ioLines content)).mpr ⟨line, hline, hc⟩)
  · intro h c hc
    by_cases hecho : c.isEcho = true
    · exact Command.understood_of_isEcho hecho
    · rw [Bool.not_eq_true] at hecho
      obtain ⟨line, hline, hc⟩ := (mem_mainLoop fromPrefix toPrefix hecho 0 (ioLines content)).mp hc
      exact h line hline c hc

/-- The whole output, read as one script. -/
theorem script_runs {content fromPrefix toPrefix : CString}
    (h : RunsOnlyIntended content fromPrefix toPrefix) :
    Shell.commands ((processLog content fromPrefix toPrefix).flatMap (fun c => c.render ++ ['\n'])) =
      some ((processLog content fromPrefix toPrefix).flatMap Command.intended) :=
  Shell.commands_lines h

/-- A file name that closes the quotes brings a command of its own. -/
theorem script_injected :
    Shell.commands (Command.touch "/to/a\";reboot;\"".toList).render =
        some [["touch".toList, "/to/a".toList], ["reboot".toList], [[]]] ∧
      ¬ RunsOnlyIntended "[G]:1:/a\";reboot;\"\n".toList "/from".toList "/to".toList := by
  refine ⟨by decide, ?_⟩
  intro h
  have htouch := h (.touch "/to/a\";reboot;\"".toList) (by decide)
  have hquotable : Shell.quotable "/to/a\";reboot;\"".toList = true :=
    (Command.understood_iff _).mp htouch
  exact absurd hquotable (by decide)

end DistillerFS
