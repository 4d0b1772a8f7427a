import DistillerFS.Foundations.ShellWords

/-!
# Words between double quotes

A line of bare words and double-quoted values, joined by spaces, as a program prints it that
does not escape what it quotes. The shell reads the values back exactly if each of them
stands for itself between double quotes.
-/
namespace DistillerFS.Foundations.Shell

def nameChar (c : Char) : Bool := c.isAlphanum || c == '-'

abbrev Name := {s : List Char // s ≠ [] ∧ s.all nameChar = true}

inductive Word where
  | bare (name : Name)
  | quoted (value : List Char)

/-- A character that stands for itself in double quotes. -/
def inert (c next : Char) : Bool :=
  c != '"' && c != backquote && c != '\x00' && !(c == '$' && expands next) &&
    !(c == '\\' && escapable next)

/-- A text that stands for itself between double quotes. -/
def quotable : List Char → Bool
  | [] => true
  | c :: rest => inert c (rest.headD '"') && quotable rest

namespace Word

def value : Word → List Char
  | bare name => name.val
  | quoted value => value

def render : Word → List Char
  | bare name => name.val
  | quoted value => '"' :: (value ++ ['"'])

def Quotable : Word → Prop
  | bare _ => True
  | quoted value => quotable value = true

def pieces : Word → Pieces
  | bare name => name.val.map (Role.text, ·)
  | quoted value => (.quoting, '"') :: (value.map (Role.text, ·) ++ [(.quoting, '"')])

end Word

def commandLine : List Word → List Char
  | [] => []
  | [w] => w.render
  | w :: w' :: ws => w.render ++ ' ' :: commandLine (w' :: ws)

def linePieces : List Word → Pieces
  | [] => []
  | [w] => w.pieces
  | w :: w' :: ws => w.pieces ++ (.blank, ' ') :: linePieces (w' :: ws)

section Steps
variable {m : Mode} {c : Char} {next : Option Char}

theorem step_name (hm : m = .start ∨ m = .gap ∨ m = .word) (h : nameChar c = true) :
    step m c next = some (.text, .word) := by
  have hne : ∀ d, nameChar d = false → c ≠ d := by
    rintro d hd rfl
    rw [h] at hd
    cases hd
  have hspecial : special c = false := by
    rw [special, List.contains_eq_mem, decide_eq_false_iff_not]
    intro hc
    have hall : "\x60&|()<>*?[".toList.all (fun d => !nameChar d) = true := by decide
    have hother := List.all_eq_true.mp hall c hc
    rw [h] at hother
    cases hother
  have hbare : stepBare m c next = some (.text, .word) := by
    unfold stepBare
    rw [if_neg (hne '"' rfl), if_neg (hne '\'' rfl), if_neg (hne '\\' rfl),
      if_neg (not_or.mpr ⟨hne ' ' rfl, hne '\t' rfl⟩), if_neg (hne '\n' rfl), if_neg (hne ';' rfl),
      if_neg (fun hc => hne '#' rfl hc.1), if_neg, if_neg (fun hc => hne '$' rfl hc.1)]
    rw [hspecial]
    exact not_or.mpr ⟨Bool.false_ne_true, fun hc => hne '~' rfl hc.1⟩
  unfold step
  rw [if_neg (hne '\x00' rfl)]
  rcases hm with rfl | rfl | rfl <;> exact hbare

theorem step_inert {d : Char} (h : inert c d = true) : step .double c (some d) = some (.text, .double) := by
  simp only [inert, Bool.and_eq_true, bne_iff_ne, Bool.not_eq_true', Bool.and_eq_false_iff,
    beq_eq_false_iff_ne] at h
  obtain ⟨⟨⟨⟨hquote, hsubst⟩, hnul⟩, hdollar⟩, hback⟩ := h
  unfold step stepDouble
  rw [if_neg hnul]
  simp only [Option.any_some]
  rw [if_neg hquote, if_neg, if_neg]
  · rintro ⟨hc, hd⟩
    rcases hback with hc' | hd'
    · exact hc' hc
    · rw [hd] at hd'
      cases hd'
  · rintro (hc | ⟨hc, hd⟩)
    · exact hsubst hc
    · rcases hdollar with hc' | hd'
      · exact hc' hc
      · rw [hd] at hd'
        cases hd'

end Steps

section Complete

theorem scan_name {m : Mode} (hm : m = .start ∨ m = .gap) (name : Name) (rest : List Char) :
    scan m (name.val ++ rest) = (scan .word rest).map (name.val.map (Role.text, ·) ++ ·) := by
  have hword : ∀ s : List Char, (∀ c ∈ s, nameChar c = true) →
      scan .word (s ++ rest) = (scan .word rest).map (s.map (Role.text, ·) ++ ·) := by
    intro s hs
    induction s with
    | nil => simp
    | cons c s ih =>
      rw [List.cons_append, scan, step_name (.inr (.inr rfl)) (hs c List.mem_cons_self),
        Option.bind_some, ih (fun c hc => hs c (List.mem_cons_of_mem _ hc)), Option.map_map]
      rfl
  obtain ⟨s, hne, hs⟩ := name
  rw [List.all_eq_true] at hs
  cases s with
  | nil => exact absurd rfl hne
  | cons c s =>
    have hstep : ∀ next, step m c next = some (.text, .word) := by
      intro next
      apply step_name _ (hs c List.mem_cons_self)
      rcases hm with hm | hm
      · exact .inl hm
      · exact .inr (.inl hm)
    rw [List.cons_append, scan, hstep, Option.bind_some,
      hword s (fun c hc => hs c (List.mem_cons_of_mem _ hc)), Option.map_map]
    rfl

theorem head?_append_quote (value rest : List Char) :
    (value ++ '"' :: rest).head? = some (value.headD '"') := by
  cases value <;> rfl

theorem scan_quotable {value : List Char} (h : quotable value = true) (rest : List Char) :
    scan .double (value ++ '"' :: rest) =
      (scan .word rest).map (fun ps => value.map (Role.text, ·) ++ (.quoting, '"') :: ps) := by
  induction value with
  | nil => rfl
  | cons c value ih =>
    rw [quotable, Bool.and_eq_true] at h
    rw [List.cons_append, scan, head?_append_quote, step_inert h.1, Option.bind_some, ih h.2,
      Option.map_map]
    rfl

theorem scan_word {m : Mode} (hm : m = .start ∨ m = .gap) {w : Word} (h : w.Quotable)
    (rest : List Char) : scan m (w.render ++ rest) = (scan .word rest).map (w.pieces ++ ·) := by
  cases w with
  | bare name => exact scan_name hm name rest
  | quoted value =>
    have hopen : step m '"' (value ++ '"' :: rest).head? = some (.quoting, .double) := by
      rcases hm with rfl | rfl <;> rfl
    have htext : (Word.quoted value).render ++ rest = '"' :: (value ++ '"' :: rest) := by
      simp [Word.render]
    rw [htext, scan, hopen, Option.bind_some, scan_quotable h, Option.map_map]
    congr 1
    funext ps
    simp [Word.pieces]

/-- The pieces of a command line of quotable words. -/
theorem scan_commandLine {m : Mode} (hm : m = .start ∨ m = .gap) {ws : List Word} (hne : ws ≠ [])
    (h : ∀ w ∈ ws, w.Quotable) : scan m (commandLine ws) = some (linePieces ws) := by
  induction ws generalizing m with
  | nil => exact absurd rfl hne
  | cons w ws ih =>
    have hw : w.Quotable := h w List.mem_cons_self
    cases ws with
    | nil =>
      have hend := scan_word hm hw []
      rw [List.append_nil] at hend
      rw [commandLine, hend, linePieces]
      simp [scan, Mode.closed]
    | cons w' ws =>
      have hrest := ih (.inr rfl) (List.cons_ne_nil w' ws) (fun w hw => h w (List.mem_cons_of_mem _ hw))
      rw [commandLine, scan_word hm hw, scan]
      have hblank : step .word ' ' (commandLine (w' :: ws)).head? = some (.blank, .gap) := rfl
      rw [hblank, Option.bind_some, hrest]
      rfl

theorem commandsFrom_text (w : List Char) (words : List (List Char)) (s : List Char) (ps : Pieces) :
    commandsFrom (some w) words (s.map (Role.text, ·) ++ ps) = commandsFrom (some (w ++ s)) words ps := by
  induction s generalizing w with
  | nil => simp
  | cons c s ih => simp [commandsFrom, ih]

theorem commandsFrom_word (w : Word) (words : List (List Char)) (ps : Pieces) :
    commandsFrom none words (w.pieces ++ ps) = commandsFrom (some w.value) words ps := by
  cases w with
  | bare name =>
    obtain ⟨s, hne, _⟩ := name
    cases s with
    | nil => exact absurd rfl hne
    | cons c s => simp [Word.pieces, Word.value, commandsFrom, commandsFrom_text]
  | quoted value =>
    simp only [Word.pieces, Word.value, List.cons_append, commandsFrom, List.append_assoc,
      commandsFrom_text]
    simp

theorem commandsFrom_linePieces {ws : List Word} (hne : ws ≠ []) (words : List (List Char)) :
    commandsFrom none words (linePieces ws) = [words ++ ws.map Word.value] := by
  induction ws generalizing words with
  | nil => exact absurd rfl hne
  | cons w ws ih =>
    cases ws with
    | nil =>
      have hend := commandsFrom_word w words []
      rw [List.append_nil] at hend
      rw [linePieces, hend]
      simp [commandsFrom, close]
    | cons w' ws =>
      rw [linePieces, commandsFrom_word, commandsFrom, ih (List.cons_ne_nil w' ws)]
      simp

end Complete

section Sound
variable {m m' : Mode} {r : Role} {c : Char} {next : Option Char} {ps : Pieces}

/-- Nothing but double quotes and spaces is marked. -/
def OnlyQuotes (ps : Pieces) : Prop := ∀ c ∈ marks ps, c = '"' ∨ c = ' '

/-- The modes that double quotes and blanks lead to. -/
def Mode.calm : Mode → Bool
  | .start | .gap | .word | .double => true
  | _ => false

theorem OnlyQuotes.head (h : OnlyQuotes ((r, c) :: ps)) (hr : r ≠ .text) : c = '"' ∨ c = ' ' := by
  apply h
  rw [marks_cons, if_neg hr]
  exact List.mem_cons_self

theorem OnlyQuotes.tail (h : OnlyQuotes ((r, c) :: ps)) : OnlyQuotes ps := by
  intro d hd
  apply h
  rw [marks_cons]
  split_ifs
  · exact hd
  · exact List.mem_cons_of_mem _ hd

theorem stepBare_text (h : stepBare m c next = some (.text, m')) : m' = .word := by
  revert h
  fun_cases stepBare m c next <;> intro h <;> cases h
  rfl

theorem stepDouble_text (h : stepDouble c next = some (.text, m')) : m' = .double := by
  revert h
  fun_cases stepDouble c next <;> intro h <;> cases h
  rfl

/-- Without other marks no double quote is a part of a word. -/
theorem step_calm (hm : m.calm = true) (h : step m c next = some (r, m'))
    (hr : r ≠ .text → c = '"' ∨ c = ' ') : m'.calm = true ∧ (r = .text → c ≠ '"') := by
  by_cases hquote : c = '"'
  · subst hquote
    cases m <;> cases hm <;> cases h <;> exact ⟨rfl, nofun⟩
  · refine ⟨?_, fun _ => hquote⟩
    by_cases hspace : c = ' '
    · subst hspace
      cases m <;> cases hm <;> cases h <;> rfl
    · have htext : r = .text := by
        by_contra hne
        rcases hr hne with hc | hc
        · exact hquote hc
        · exact hspace hc
      subst htext
      have hnul : c ≠ '\x00' := by
        rintro rfl
        cases m <;> cases h
      unfold step at h
      rw [if_neg hnul] at h
      cases m with
      | start | gap | word =>
        rw [stepBare_text h]
        rfl
      | double =>
        rw [stepDouble_text h]
        rfl
      | single | escaped | escapedDouble | comment => cases hm

theorem quote_not_mem_texts {text : List Char} (hm : m.calm = true) (h : scan m text = some ps)
    (honly : OnlyQuotes ps) : '"' ∉ texts ps := by
  induction text generalizing m ps with
  | nil =>
    simp only [scan, Option.ite_none_right_eq_some] at h
    cases h.2
    exact List.not_mem_nil
  | cons c rest ih =>
    obtain ⟨r, m', qs, hstep, hqs, rfl⟩ := scan_cons.mp h
    obtain ⟨hm', hc⟩ := step_calm hm hstep honly.head
    have hrest := ih hm' hqs honly.tail
    cases r with
    | text =>
      rw [texts_cons, if_pos rfl, List.mem_cons, not_or]
      exact ⟨Ne.symm (hc rfl), hrest⟩
    | quoting | blank | ending | remark => exact hrest

theorem inert_of_step {d : Char} (hc : c ≠ '"') (h : step .double c (some d) = some (r, m'))
    (hr : r ≠ .text → c = '"' ∨ c = ' ') : inert c d = true ∧ r = .text ∧ m' = .double := by
  unfold step stepDouble at h
  simp only [Option.any_some, if_neg hc] at h
  split_ifs at h with hnul hdollar hback
  · cases h
    rcases hr (by decide) with hquote | hspace
    · exact absurd hquote hc
    · rw [hback.1] at hspace
      exact absurd hspace (by decide)
  · cases h
    refine ⟨?_, rfl, rfl⟩
    rw [not_or] at hdollar
    simp only [inert, Bool.and_eq_true, bne_iff_ne, Bool.not_eq_true', Bool.and_eq_false_iff,
      beq_eq_false_iff_ne]
    refine ⟨⟨⟨⟨hc, hdollar.1⟩, hnul⟩, ?_⟩, ?_⟩
    · by_cases hd : expands d = true
      · exact .inl (fun hdol => hdollar.2 ⟨hdol, hd⟩)
      · exact .inr (Bool.eq_false_iff.mpr hd)
    · by_cases hd : escapable d = true
      · exact .inl (fun hesc => hback ⟨hesc, hd⟩)
      · exact .inr (Bool.eq_false_iff.mpr hd)

/-- Up to the closing quote everything is text, so the value stands for itself. -/
theorem quotable_of_scan {value rest : List Char} (hvalue : '"' ∉ value)
    (h : scan .double (value ++ '"' :: rest) = some ps) (honly : OnlyQuotes ps) :
    quotable value = true ∧ ∃ qs, scan .word rest = some qs ∧ OnlyQuotes qs := by
  induction value generalizing ps with
  | nil =>
    obtain ⟨r, m', qs, hstep, hqs, rfl⟩ := scan_cons.mp h
    cases hstep
    exact ⟨rfl, qs, hqs, honly.tail⟩
  | cons c value ih =>
    rw [List.mem_cons, not_or] at hvalue
    rw [List.cons_append] at h
    obtain ⟨r, m', qs, hstep, hqs, rfl⟩ := scan_cons.mp h
    rw [head?_append_quote] at hstep
    obtain ⟨hinert, _, rfl⟩ := inert_of_step (Ne.symm hvalue.1) hstep honly.head
    obtain ⟨hquotable, hrest⟩ := ih hvalue.2 hqs honly.tail
    refine ⟨?_, hrest⟩
    rw [quotable, hinert, hquotable]
    rfl

theorem quotable_of_word {w : Word} {rest : List Char} (hm : m = .start ∨ m = .gap)
    (hvalue : '"' ∉ w.value) (h : scan m (w.render ++ rest) = some ps) (honly : OnlyQuotes ps) :
    w.Quotable ∧ ∃ qs, scan .word rest = some qs ∧ OnlyQuotes qs := by
  cases w with
  | bare name =>
    have hname : m = .start ∨ m = .gap := hm
    rw [Word.render, scan_name hname, Option.map_eq_some_iff] at h
    obtain ⟨qs, hqs, rfl⟩ := h
    refine ⟨trivial, qs, hqs, ?_⟩
    intro c hc
    apply honly
    simp only [marks, List.filterMap_append, List.mem_append]
    exact .inr hc
  | quoted value =>
    have htext : (Word.quoted value).render ++ rest = '"' :: (value ++ '"' :: rest) := by
      simp [Word.render]
    rw [htext] at h
    obtain ⟨r, m', qs, hstep, hqs, rfl⟩ := scan_cons.mp h
    have hdouble : m' = .double := by
      rcases hm with rfl | rfl <;> cases hstep <;> rfl
    subst hdouble
    exact quotable_of_scan hvalue hqs honly.tail

theorem quotable_of_line {ws : List Word} (hm : m = .start ∨ m = .gap)
    (hvalues : ∀ w ∈ ws, '"' ∉ w.value) (h : scan m (commandLine ws) = some ps)
    (honly : OnlyQuotes ps) : ∀ w ∈ ws, w.Quotable := by
  induction ws generalizing m ps with
  | nil =>
    intro w hw
    cases hw
  | cons w ws ih =>
    have hvalue : '"' ∉ w.value := hvalues w List.mem_cons_self
    cases ws with
    | nil =>
      rw [commandLine, ← List.append_nil w.render] at h
      intro w' hw'
      cases List.mem_singleton.mp hw'
      exact (quotable_of_word hm hvalue h honly).1
    | cons w' ws =>
      rw [commandLine] at h
      obtain ⟨hquotable, qs, hqs, honly'⟩ := quotable_of_word hm hvalue h honly
      obtain ⟨r, m', qs', hstep, hqs', rfl⟩ := scan_cons.mp hqs
      have hgap : m' = .gap := by cases hstep; rfl
      intro v hv
      rcases List.mem_cons.mp hv with rfl | hv
      · exact hquotable
      · exact ih (.inr hgap) (fun w hw => hvalues w (List.mem_cons_of_mem _ hw)) hqs' honly'.tail v hv

/-- A command line is its words, double quotes and spaces. -/
theorem count_commandLine {ws : List Word} (hquote : c ≠ '"') (hspace : c ≠ ' ') :
    (commandLine ws).count c = (ws.map Word.value).flatten.count c := by
  have hrender : ∀ w : Word, w.render.count c = w.value.count c := by
    intro w
    cases w with
    | bare name => rfl
    | quoted value => simp [Word.render, Word.value, Ne.symm hquote]
  induction ws with
  | nil => rfl
  | cons w ws ih =>
    cases ws with
    | nil => simp [commandLine, hrender]
    | cons w' ws =>
      rw [commandLine, List.count_append, List.count_cons_of_ne (Ne.symm hspace), ih, hrender]
      simp only [List.map_cons, List.flatten_cons, List.count_append]

end Sound

/-- A line of bare and quoted words is one command of exactly these words if and only if
each quoted value stands for itself between double quotes. -/
theorem commands_commandLine {ws : List Word} (hne : ws ≠ []) :
    commands (commandLine ws) = some [ws.map Word.value] ↔ ∀ w ∈ ws, w.Quotable := by
  constructor
  · intro h
    obtain ⟨ps, hscan, hcommands⟩ := Option.map_eq_some_iff.mp h
    have htexts : texts ps = (ws.map Word.value).flatten := by
      have hflatten := commandsFrom_texts none [] ps
      rw [hcommands] at hflatten
      simpa using hflatten.symm
    have honly : OnlyQuotes ps := by
      intro c hc
      by_contra hother
      rw [not_or] at hother
      have hcount := count_scan hscan c
      rw [count_commandLine hother.1 hother.2, htexts] at hcount
      have hpos : 0 < (marks ps).count c := List.count_pos_iff.mpr hc
      omega
    have hquote : '"' ∉ texts ps := quote_not_mem_texts rfl hscan honly
    apply quotable_of_line (.inl rfl) _ hscan honly
    intro w hw hmem
    apply hquote
    rw [htexts]
    exact List.mem_flatten.mpr ⟨w.value, List.mem_map_of_mem hw, hmem⟩
  · intro h
    rw [commands, scan_commandLine (.inl rfl) hne h, Option.map_some, commandsFrom_linePieces hne,
      List.nil_append]

section Quotable
variable {c : Char} {s : List Char}

def active : List Char := ['"', backquote, '\x00', '$', '\\']

theorem inert_of_not_mem (h : c ∉ active) (next : Char) : inert c next = true := by
  simp only [active, List.mem_cons, List.not_mem_nil, or_false, not_or] at h
  simp [inert, h.1, h.2.1, h.2.2.1, h.2.2.2.1, h.2.2.2.2]

theorem quotable_of_inert (h : ∀ c ∈ s, ∀ next, inert c next = true) : quotable s = true := by
  induction s with
  | nil => rfl
  | cons c s ih =>
    rw [quotable, h c List.mem_cons_self, ih (fun c hc => h c (List.mem_cons_of_mem _ hc))]
    rfl

/-- A text may be cut behind a character that always stands for itself. -/
theorem quotable_cut (hc : ∀ next, inert c next = true) {rest : List Char}
    (h : quotable (s ++ c :: rest) = true) : quotable (s ++ [c]) = true := by
  induction s with
  | nil => simp [quotable, hc]
  | cons d s ih =>
    rw [List.cons_append, quotable, Bool.and_eq_true] at h ⊢
    refine ⟨?_, ih h.2⟩
    have hhead : (s ++ [c]).headD '"' = (s ++ c :: rest).headD '"' := by cases s <;> rfl
    rw [hhead]
    exact h.1

end Quotable

end DistillerFS.Foundations.Shell
