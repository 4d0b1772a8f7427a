import Mathlib.Data.List.Basic
import Mathlib.Data.List.Count

/-!
# The words of a shell text

How the shell cuts a text into commands and words and removes the quotes. Expansions,
patterns and operators other than the separators leave no fixed words, and an open quote
leaves none at all. Reserved words and assignments are not looked for: they belong to the
grammar behind the words.
-/
namespace DistillerFS.Foundations.Shell

/-- Where the shell is: before the first word of a command, between words, in a word, in
quotes, behind a backslash that counts, or in a comment. -/
inductive Mode where
  | start
  | gap
  | word
  | single
  | double
  | escaped
  | escapedDouble
  | comment
  deriving DecidableEq, Repr

/-- What a character does: only `text` becomes a part of a word. -/
inductive Role where
  | text
  | quoting
  | blank
  | ending
  | remark
  deriving DecidableEq, Repr

abbrev Pieces := List (Role × Char)

abbrev backquote : Char := '\x60'

/-- A dollar in front of these begins an expansion. -/
def expands (c : Char) : Bool := c.isAlphanum || "_@*#?-$!\x7b(".toList.contains c

/-- In double quotes a backslash counts in front of these only. -/
def escapable (c : Char) : Bool := "$\x60\"\\\n".toList.contains c

def special (c : Char) : Bool := "\x60&|()<>*?[".toList.contains c

def stepDouble (c : Char) (next : Option Char) : Option (Role × Mode) :=
  if c = '"' then some (.quoting, .word)
  else if c = backquote ∨ c = '$' ∧ next.any expands = true then none
  else if c = '\\' ∧ next.any escapable = true then some (.quoting, .escapedDouble)
  else some (.text, .double)

def stepBare (m : Mode) (c : Char) (next : Option Char) : Option (Role × Mode) :=
  if c = '"' then some (.quoting, .double)
  else if c = '\'' then some (.quoting, .single)
  else if c = '\\' then
    -- a line that is continued is not told apart
    if next.any (· ≠ '\n') = true then some (.quoting, .escaped) else none
  else if c = ' ' ∨ c = '\t' then some (.blank, if m = .start then .start else .gap)
  else if c = '\n' then some (.ending, .start)
  else if c = ';' then if m = .start then none else some (.ending, .start)
  else if c = '#' ∧ m ≠ .word then some (.remark, .comment)
  else if special c = true ∨ c = '~' ∧ m ≠ .word then none
  else if c = '$' ∧ next.any (fun d => expands d || d == '\'' || d == '"') = true then none
  else some (.text, .word)

/-- What a character does in front of the next one, if it does anything fixed, and where
the shell is then. A script holds no NUL. -/
def step (m : Mode) (c : Char) (next : Option Char) : Option (Role × Mode) :=
  if c = '\x00' then none
  else
    match m with
    | .start | .gap | .word => stepBare m c next
    | .single => if c = '\'' then some (.quoting, .word) else some (.text, .single)
    | .double => stepDouble c next
    | .escaped => some (.text, .word)
    | .escapedDouble => if c = '\n' then some (.quoting, .double) else some (.text, .double)
    | .comment => if c = '\n' then some (.ending, .start) else some (.remark, .comment)

def Mode.closed : Mode → Bool
  | .start | .gap | .word | .comment => true
  | _ => false

def scan : Mode → List Char → Option Pieces
  | m, [] => if m.closed then some [] else none
  | m, c :: rest => (step m c rest.head?).bind (fun s => (scan s.2 rest).map ((s.1, c) :: ·))

def close (word : Option (List Char)) (words : List (List Char)) : List (List (List Char)) :=
  if words ++ word.toList = [] then [] else [words ++ word.toList]

/-- The commands, from the word and the words read so far of the first one. -/
def commandsFrom (word : Option (List Char)) (words : List (List Char)) :
    Pieces → List (List (List Char))
  | [] => close word words
  | (.text, c) :: ps => commandsFrom (some (word.getD [] ++ [c])) words ps
  | (.quoting, _) :: ps => commandsFrom (some (word.getD [])) words ps
  | (.blank, _) :: ps => commandsFrom none (words ++ word.toList) ps
  | (.ending, _) :: ps => close word words ++ commandsFrom none [] ps
  | (.remark, _) :: ps => commandsFrom word words ps

/-- The commands of a text, each as the list of its words. -/
def commands (text : List Char) : Option (List (List (List Char))) :=
  (scan .start text).map (commandsFrom none [])

section Pieces
variable {m : Mode} {text : List Char} {ps : Pieces}

def texts (ps : Pieces) : List Char := ps.filterMap (fun p => if p.1 = .text then some p.2 else none)

def marks (ps : Pieces) : List Char := ps.filterMap (fun p => if p.1 = .text then none else some p.2)

theorem texts_cons (r : Role) (c : Char) (ps : Pieces) :
    texts ((r, c) :: ps) = if r = .text then c :: texts ps else texts ps := by
  unfold texts
  rw [List.filterMap_cons]
  split_ifs <;> rfl

theorem marks_cons (r : Role) (c : Char) (ps : Pieces) :
    marks ((r, c) :: ps) = if r = .text then marks ps else c :: marks ps := by
  unfold marks
  rw [List.filterMap_cons]
  split_ifs <;> rfl

theorem scan_cons {c : Char} {rest : List Char} : scan m (c :: rest) = some ps ↔
    ∃ r m' qs, step m c rest.head? = some (r, m') ∧ scan m' rest = some qs ∧ ps = (r, c) :: qs := by
  simp only [scan, Option.bind_eq_some_iff, Option.map_eq_some_iff]
  constructor
  · rintro ⟨⟨r, m'⟩, hstep, qs, hqs, rfl⟩
    exact ⟨r, m', qs, hstep, hqs, rfl⟩
  · rintro ⟨r, m', qs, hstep, hqs, rfl⟩
    exact ⟨(r, m'), hstep, qs, hqs, rfl⟩

/-- Every character of a text is in a word, or marks something. -/
theorem count_scan (h : scan m text = some ps) (c : Char) :
    text.count c = (texts ps).count c + (marks ps).count c := by
  induction text generalizing m ps with
  | nil =>
    simp only [scan, Option.ite_none_right_eq_some] at h
    cases h.2
    rfl
  | cons d rest ih =>
    obtain ⟨r, m', qs, _, hqs, rfl⟩ := scan_cons.mp h
    rw [List.count_cons, ih hqs, texts_cons, marks_cons]
    by_cases hr : r = .text
    · rw [if_pos hr, if_pos hr, List.count_cons]
      omega
    · rw [if_neg hr, if_neg hr, List.count_cons]
      omega

/-- The words hold the text characters, in their order. -/
theorem commandsFrom_texts (word : Option (List Char)) (words : List (List Char)) (ps : Pieces) :
    (commandsFrom word words ps).flatten.flatten = words.flatten ++ word.getD [] ++ texts ps := by
  have hclose : ∀ (word : Option (List Char)) (words : List (List Char)),
      (close word words).flatten.flatten = words.flatten ++ word.getD [] := by
    intro word words
    unfold close
    cases word with
    | none => split_ifs with hempty <;> simp_all
    | some w => simp
  induction ps generalizing word words with
  | nil => simp [commandsFrom, hclose, texts]
  | cons p ps ih =>
    obtain ⟨r, c⟩ := p
    cases r with
    | text => simp [commandsFrom, ih, texts]
    | quoting => simp [commandsFrom, ih, texts]
    | blank => cases word <;> simp [commandsFrom, ih, texts]
    | ending => simp [commandsFrom, ih, hclose, texts]
    | remark => simp [commandsFrom, ih, texts]

end Pieces

section Lines
variable {m : Mode} {c : Char} {ps : Pieces}

/-- At the end of a line that leaves no quote open, the newline changes nothing. -/
theorem step_newline {s : Role × Mode} (h : step m c none = some s) (hs : s.2.closed = true) :
    step m c (some '\n') = some s := by
  have hexpands : (some '\n').any (fun d => expands d || d == '\'' || d == '"') =
      (none : Option Char).any (fun d => expands d || d == '\'' || d == '"') := by decide
  have hcontinued : (some '\n').any (· ≠ '\n') = (none : Option Char).any (· ≠ '\n') := by decide
  rw [← h]
  unfold step
  by_cases hnul : c = '\x00'
  · rw [if_pos hnul, if_pos hnul]
  · rw [if_neg hnul, if_neg hnul]
    cases m with
    | start | gap | word => simp only [stepBare, hexpands, hcontinued]
    | double =>
      by_cases hquote : c = '"'
      · subst hquote
        rfl
      · unfold step stepDouble at h
        rw [if_neg hnul] at h
        simp only [if_neg hquote, Option.any_none] at h
        split_ifs at h <;> cases h <;> cases hs
    | single | escaped | escapedDouble | comment => rfl

theorem scan_newline {text : List Char} (h : scan m text = some ps) (rest : List Char) :
    scan m (text ++ '\n' :: rest) =
      (scan .start rest).map (fun qs => ps ++ (.ending, '\n') :: qs) := by
  induction text generalizing m ps with
  | nil =>
    simp only [scan, Option.ite_none_right_eq_some] at h
    obtain ⟨hm, hps⟩ := h
    cases hps
    cases m <;> cases hm <;> rfl
  | cons c text ih =>
    obtain ⟨r, m', qs, hstep, hqs, rfl⟩ := scan_cons.mp h
    have hnext : step m c (text ++ '\n' :: rest).head? = some (r, m') := by
      cases text with
      | nil =>
        simp only [scan, Option.ite_none_right_eq_some] at hqs
        exact step_newline hstep hqs.1
      | cons d text => exact hstep
    rw [List.cons_append, scan, hnext, Option.bind_some, ih hqs, Option.map_map]
    rfl

theorem commandsFrom_ending (word : Option (List Char)) (words : List (List Char)) (ps qs : Pieces) :
    commandsFrom word words (ps ++ (.ending, c) :: qs) =
      commandsFrom word words ps ++ commandsFrom none [] qs := by
  induction ps generalizing word words with
  | nil => rfl
  | cons p ps ih =>
    obtain ⟨r, d⟩ := p
    cases r <;> simp [commandsFrom, ih]

/-- A script of lines that each leave no quote open runs their commands in order. -/
theorem commands_lines {α : Type*} {ls : List α} {line : α → List Char}
    {cs : α → List (List (List Char))} (h : ∀ l ∈ ls, commands (line l) = some (cs l)) :
    commands (ls.flatMap (fun l => line l ++ ['\n'])) = some (ls.flatMap cs) := by
  induction ls with
  | nil => rfl
  | cons l ls ih =>
    obtain ⟨ps, hps, hcs⟩ := Option.map_eq_some_iff.mp (h l List.mem_cons_self)
    obtain ⟨qs, hqs, hrest⟩ := Option.map_eq_some_iff.mp (ih (fun l hl => h l (List.mem_cons_of_mem _ hl)))
    rw [List.flatMap_cons, List.append_assoc, List.singleton_append, commands, scan_newline hps, hqs,
      Option.map_some, Option.map_some, commandsFrom_ending, hcs, hrest, List.flatMap_cons]

/-- A text that begins with a word has a command. -/
theorem commands_ne_nil {rest : List Char} (h : ∀ next, step .start c next = some (.text, .word)) :
    commands (c :: rest) ≠ some [] := by
  have hword : ∀ (ps : Pieces) (w : List Char) (words : List (List Char)),
      commandsFrom (some w) words ps ≠ [] ∧ commandsFrom none (words ++ [w]) ps ≠ [] := by
    intro ps
    induction ps with
    | nil => simp [commandsFrom, close]
    | cons p ps ih =>
      intro w words
      obtain ⟨r, d⟩ := p
      cases r with
      | text => exact ⟨(ih _ _).1, (ih _ _).1⟩
      | quoting => exact ⟨(ih _ _).1, (ih _ _).1⟩
      | blank =>
        refine ⟨(ih _ _).2, ?_⟩
        rw [commandsFrom, Option.toList_none, List.append_nil]
        exact (ih _ _).2
      | ending => simp [commandsFrom, close]
      | remark => exact ih w words
  intro hnil
  obtain ⟨ps, hps, hcommands⟩ := Option.map_eq_some_iff.mp hnil
  obtain ⟨r, m', qs, hstep, _, rfl⟩ := scan_cons.mp hps
  rw [h] at hstep
  cases hstep
  exact (hword qs _ []).1 hcommands

end Lines

end DistillerFS.Foundations.Shell
