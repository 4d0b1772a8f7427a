import DistillerFS.Report.RoundTrip

/-!
# The commands printed for a report

The main loop prints a block of commands for each line and a progress message now and
then. Apart from the messages, its output is the concatenation of the blocks.
-/
namespace DistillerFS
open Foundations

/-- The commands for one line of the log. -/
def lineCommands (fromPrefix toPrefix line : CString) : List Command :=
  match readLine line with
  | .comment => []
  | .wrongFormat line => [.wrongFormat line]
  | .entry flags path => processPath path flags fromPrefix toPrefix

def Command.isEcho : Command → Bool
  | .echo _ => true
  | _ => false

section MainLoop
variable (fromPrefix toPrefix : CString)

theorem mainLoop_cons (count : ℕ) (line : CString) (rest : List CString) :
    ∃ messages count', (∀ c ∈ messages, c.isEcho = true) ∧
      mainLoop fromPrefix toPrefix count (line :: rest) =
        lineCommands fromPrefix toPrefix line ++ messages ++
          mainLoop fromPrefix toPrefix count' rest := by
  unfold lineCommands
  rw [mainLoop]
  cases readLine line with
  | comment => exact ⟨[], count, by simp, rfl⟩
  | wrongFormat line => exact ⟨[], count, by simp, rfl⟩
  | entry flags path =>
    refine ⟨_, count + 1, ?_, rfl⟩
    intro c hc
    split_ifs at hc
    · rw [List.mem_singleton] at hc
      rw [hc, Command.isEcho]
    · exact absurd hc List.not_mem_nil

theorem mainLoop_append (count : ℕ) (lines rest : List CString) :
    ∃ count', mainLoop fromPrefix toPrefix count (lines ++ rest) =
      mainLoop fromPrefix toPrefix count lines ++ mainLoop fromPrefix toPrefix count' rest := by
  induction lines generalizing count with
  | nil => exact ⟨count, rfl⟩
  | cons line lines ih =>
    rw [List.cons_append, mainLoop, mainLoop]
    cases readLine line with
    | comment => exact ih count
    | wrongFormat line =>
      obtain ⟨count', h⟩ := ih count
      exact ⟨count', by simp [h]⟩
    | entry flags path =>
      obtain ⟨count', h⟩ := ih (count + 1)
      exact ⟨count', by simp [h]⟩

theorem mem_mainLoop {c : Command} (hc : c.isEcho = false) (count : ℕ) (lines : List CString) :
    c ∈ mainLoop fromPrefix toPrefix count lines ↔
      ∃ line ∈ lines, c ∈ lineCommands fromPrefix toPrefix line := by
  induction lines generalizing count with
  | nil => simp [mainLoop]
  | cons line rest ih =>
    obtain ⟨messages, count', hmessages, h⟩ := mainLoop_cons fromPrefix toPrefix count line rest
    have hnot : c ∉ messages := by
      intro hm
      rw [hmessages c hm] at hc
      cases hc
    simp [h, hnot, ih]

end MainLoop

/-- A copy of `path` is printed for the entry of that path only. -/
theorem cp_mem_processPath {src dst path flags fromPrefix toPrefix : CString} :
    .cp src dst ∈ processPath path flags fromPrefix toPrefix ↔
      src = fromPrefix ++ path ∧ dst = toPrefix ++ path ∧ '/' ∈ path ∧ opensFile flags = true := by
  by_cases hslash : '/' ∈ path
  · obtain ⟨dir, hdir⟩ := exists_getDir hslash
    unfold processPath
    simp only [hdir, hslash, true_and]
    split_ifs with ho <;> simp [ho]
  · simp [processPath, getDir_none hslash, hslash]

section Render

def Command.initial : Command → Char
  | .mkdirDir _ | .mkdirPath _ => 'm'
  | .cp _ _ => 'c'
  | .touch _ => 't'
  | .echo _ => 'e'
  | .wrongFormat _ => '!'

theorem Command.render_initial (c : Command) : c.render.head? = some c.initial := by
  cases c <;> rfl

def cpText (fromPrefix toPrefix path : CString) : CString :=
  (Command.cp (fromPrefix ++ path) (toPrefix ++ path)).render

theorem append_twice_injective {α : Type} (before between after : List α) :
    Function.Injective (fun p => before ++ p ++ between ++ p ++ after) := by
  intro p q h
  have hlength := congrArg List.length h
  simp only [List.length_append] at hlength
  simp only [List.append_assoc, List.append_cancel_left_eq] at h
  exact (List.append_inj h (by omega)).1

theorem cpText_eq (fromPrefix toPrefix p : CString) : cpText fromPrefix toPrefix p =
    "cp -a \"".toList ++ (fromPrefix ++ p) ++ "\" \"".toList ++ (toPrefix ++ p) ++ "\"".toList := rfl

/-- Under fixed prefixes the text of a copy determines its path. -/
theorem cpText_injective (fromPrefix toPrefix : CString) :
    Function.Injective (cpText fromPrefix toPrefix) := by
  intro p q h
  rw [cpText_eq, cpText_eq] at h
  apply append_twice_injective ("cp -a \"".toList ++ fromPrefix) ("\" \"".toList ++ toPrefix)
    "\"".toList
  simpa only [List.append_assoc] using h

theorem render_eq_cpText {c : Command} {fromPrefix toPrefix p : CString}
    (h : c.render = cpText fromPrefix toPrefix p) : ∃ src dst, c = .cp src dst := by
  have hinitial := congrArg List.head? h
  rw [cpText, Command.render_initial, Command.render_initial] at hinitial
  cases c with
  | cp src dst => exact ⟨src, dst, rfl⟩
  | mkdirDir _ | mkdirPath _ | touch _ | echo _ | wrongFormat _ =>
    simp [Command.initial] at hinitial

/-- Only the entry of `p` prints the copy of `p`. -/
theorem render_mem_lineCommands {fromPrefix toPrefix line p : CString} :
    cpText fromPrefix toPrefix p ∈ (lineCommands fromPrefix toPrefix line).map Command.render ↔
      ∃ flags, readLine line = .entry flags p ∧ '/' ∈ p ∧ opensFile flags = true := by
  rw [List.mem_map]
  constructor
  · rintro ⟨c, hc, hrender⟩
    obtain ⟨src, dst, rfl⟩ := render_eq_cpText hrender
    unfold lineCommands at hc
    cases hread : readLine line with
    | comment => simp [hread] at hc
    | wrongFormat line => simp [hread] at hc
    | entry flags path =>
      simp only [hread, cp_mem_processPath] at hc
      obtain ⟨rfl, rfl, hslash, hopens⟩ := hc
      obtain rfl := cpText_injective fromPrefix toPrefix hrender
      exact ⟨flags, rfl, hslash, hopens⟩
  · rintro ⟨flags, hread, hslash, hopens⟩
    refine ⟨.cp (fromPrefix ++ p) (toPrefix ++ p), ?_, rfl⟩
    simp only [lineCommands, hread, cp_mem_processPath]
    exact ⟨trivial, trivial, hslash, hopens⟩

/-- The copies in the output are the copies in the blocks. -/
theorem render_mem_mainLoop {fromPrefix toPrefix p : CString} {count : ℕ} {lines : List CString} :
    cpText fromPrefix toPrefix p ∈ (mainLoop fromPrefix toPrefix count lines).map Command.render ↔
      ∃ line ∈ lines, cpText fromPrefix toPrefix p ∈
        (lineCommands fromPrefix toPrefix line).map Command.render := by
  simp only [List.mem_map]
  constructor
  · rintro ⟨c, hc, hrender⟩
    have hecho : c.isEcho = false := by
      obtain ⟨src, dst, rfl⟩ := render_eq_cpText hrender
      rfl
    obtain ⟨line, hline, hc⟩ := (mem_mainLoop fromPrefix toPrefix hecho count lines).mp hc
    exact ⟨line, hline, c, hc, hrender⟩
  · rintro ⟨line, hline, c, hc, hrender⟩
    have hecho : c.isEcho = false := by
      obtain ⟨src, dst, rfl⟩ := render_eq_cpText hrender
      rfl
    exact ⟨c, (mem_mainLoop fromPrefix toPrefix hecho count lines).mpr ⟨line, hline, hc⟩, hrender⟩

end Render

end DistillerFS
