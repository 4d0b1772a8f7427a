import DistillerFS.Distillation.Execution
import DistillerFS.Distillation.ShellScript

/-!
# The effect of the script

The output of `process_log.lua` is a text. The shell cuts it into words, and the programs
that the words name act on the destination. Where the shell reads every line as intended,
the text has the effect of the commands it was printed for.
-/
namespace DistillerFS
open Foundations

def scriptText (content fromPrefix toPrefix : CString) : CString :=
  (processLog content fromPrefix toPrefix).flatMap (fun c => c.render ++ ['\n'])

/-- The programs that the script calls, by the words of the call. -/
inductive Utility where
  | mkdir (path : CString)
  | cp (src dst : CString)
  | touch (path : CString)
  | echo
  deriving DecidableEq, Repr

def utilityOf (words : List CString) : Option Utility :=
  match words with
  | [name, path] =>
    if name = "touch".toList then some (.touch path)
    else if name = "echo".toList then some .echo
    else none
  | [name, option, path] =>
    if name = "mkdir".toList ∧ option = "-p".toList then some (.mkdir path) else none
  | [name, option, path, path'] =>
    if name = "cp".toList ∧ option = "-a".toList then some (.cp path path') else none
  | _ => none

section Effect
variable (src : FileTree) (fromPrefix toPrefix : CString)

def Utility.exec (t : FileTree) : Utility → Option FileTree
  | .mkdir path => do t.mkdirP (← below toPrefix path)
  | .cp path path' => do src.copyLeaf t (← below fromPrefix path) (← below toPrefix path')
  | .touch path => do t.touch (← below toPrefix path) (.file [])
  | .echo => some t

def execWords (t : FileTree) (words : List CString) : Option FileTree := do
  (← utilityOf words).exec src fromPrefix toPrefix t

/-- The text as the shell runs it. A text without fixed words has no fixed effect. -/
def runText (text : CString) (t : FileTree) : Option FileTree := do
  (← Shell.commands text).foldlM (execWords src fromPrefix toPrefix) t

variable {src fromPrefix toPrefix}

theorem exec_intended {c : Command} (h : c.Understood) (t : FileTree) :
    c.intended.foldlM (execWords src fromPrefix toPrefix) t = c.exec src fromPrefix toPrefix t := by
  have hwords : ∀ words t', [words].foldlM (execWords src fromPrefix toPrefix) t' =
      execWords src fromPrefix toPrefix t' words := by
    intro words t'
    rw [List.foldlM_cons]
    cases execWords src fromPrefix toPrefix t' words <;> rfl
  cases c with
  | wrongFormat line => exact absurd h (Command.wrongFormat_not_understood line)
  | mkdirDir | mkdirPath | cp | touch | echo =>
    rw [Command.intended, hwords]
    rfl

/-- The script that the shell reads as it is meant. -/
theorem runText_scriptText {content : CString} (h : RunsOnlyIntended content fromPrefix toPrefix)
    (t : FileTree) : runText src fromPrefix toPrefix (scriptText content fromPrefix toPrefix) t =
      execAll src fromPrefix toPrefix (processLog content fromPrefix toPrefix) t := by
  have hcommands : ∀ (cs : List Command), (∀ c ∈ cs, c.Understood) → ∀ t,
      (cs.flatMap Command.intended).foldlM (execWords src fromPrefix toPrefix) t =
        execAll src fromPrefix toPrefix cs t := by
    intro cs
    induction cs with
    | nil => exact fun _ _ => rfl
    | cons c cs ih =>
      intro hcs t
      rw [List.flatMap_cons, List.foldlM_append, exec_intended (hcs c (by simp)), execAll,
        List.foldlM_cons]
      cases c.exec src fromPrefix toPrefix t with
      | none => rfl
      | some t' => exact ih (fun c hc => hcs c (List.mem_cons_of_mem _ hc)) t'
  rw [runText, scriptText, script_runs h]
  exact hcommands _ h t

/-- Safe lines leave nothing to the shell but the intended commands. -/
theorem runsOnlyIntended_of_lineSafe {content : CString}
    (h : ∀ line ∈ ioLines content, LineSafe fromPrefix toPrefix line) :
    RunsOnlyIntended content fromPrefix toPrefix := by
  intro c hc
  cases hecho : c.isEcho with
  | true => exact Command.understood_of_isEcho hecho
  | false =>
    obtain ⟨line, hline, hc⟩ := (mem_mainLoop fromPrefix toPrefix hecho 0 (ioLines content)).mp hc
    exact (lineCommands_understood fromPrefix toPrefix line).mpr (h line hline) c hc

end Effect

end DistillerFS
