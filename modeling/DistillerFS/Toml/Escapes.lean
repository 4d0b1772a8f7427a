import DistillerFS.Toml.Quoting

/-!
# Scanned strings can be read

The scanner checks the escapes of a string, and `toml_rtos` reads them later on. What the
scanner has accepted fails there only for a control character or a code without a character.
-/
namespace DistillerFS.Toml
open Foundations

def hexNumber (digits : CString) (ucs : ℕ) : ℕ :=
  digits.foldl (fun ucs ch => ucs * 16 + (hexValue ch).getD 0) ucs

/-- The text has an escape whose digits are the code of no character. -/
def IllegalCode (text : CString) : Prop :=
  ∃ u digits, '\\' :: u :: digits <:+: text ∧
    (u = 'u' ∧ digits.length = 4 ∨ u = 'U' ∧ digits.length = 8) ∧
    (∀ d ∈ digits, hexDigit d = true) ∧ tomlUcsToUtf8 (hexNumber digits 0) = none

/-- What `toml_rtos` may refuse in a scanned string. -/
def Refused (multiline : Bool) (text : CString) : Prop :=
  (∃ c ∈ text, forbidden multiline c = true) ∨ IllegalCode text

def multilineString : CString → Bool
  | [] => false
  | qchar :: sp => [qchar, qchar, qchar].isPrefixOf (qchar :: sp)

def blank (c : Char) : Bool := " \t\r".toList.contains c
def blankLine (c : Char) : Bool := " \t\r\n".toList.contains c

/-- The escapes that the scanner accepts in a basic string. -/
inductive Escaped (multiline : Bool) : CString → Prop
  | nil : Escaped multiline []
  | char (c : Char) (p : CString) (hc : c ≠ '\\') (h : Escaped multiline p) : Escaped multiline (c :: p)
  | simple (c : Char) (p : CString) (hc : simpleEscape c = true) (h : Escaped multiline p) :
      Escaped multiline ('\\' :: c :: p)
  | code (u : Char) (digits p : CString)
      (hlen : u = 'u' ∧ digits.length = 4 ∨ u = 'U' ∧ digits.length = 8)
      (hdigits : ∀ d ∈ digits, hexDigit d = true) (h : Escaped multiline p) :
      Escaped multiline ('\\' :: u :: (digits ++ p))
  | line (p : CString) (hline : endsLine p = true) (hmultiline : multiline = true)
      (h : Escaped multiline (p.dropWhile blankLine)) : Escaped multiline ('\\' :: p)

theorem Refused.mono {multiline : Bool} {text text' : CString} (h : Refused multiline text)
    (hpart : text <:+: text') : Refused multiline text' := by
  rcases h with ⟨c, hc, hforbidden⟩ | ⟨u, digits, hescape, hrest⟩
  · exact Or.inl ⟨c, hpart.subset hc, hforbidden⟩
  · exact Or.inr ⟨u, digits, hescape.trans hpart, hrest⟩

section Hex
variable {lineno nhex k : ℕ} {p q body : CString}

theorem hexDigit_value {c : Char} (h : hexDigit c = true) : ∃ v, hexValue c = some v := by
  have hdigits : "0123456789ABCDEF".toList.all (fun d => (hexValue d).isSome) = true := by decide
  exact Option.isSome_iff_exists.mp (List.all_eq_true.mp hdigits c (List.contains_iff_mem.mp h))

/-- The digits that the scanner has counted are read. -/
theorem readHex_digits (digits : CString) (hdigits : ∀ d ∈ digits, hexDigit d = true) (ch : Char)
    (ucs : ℕ) (body : CString) : readHex nhex digits.length ch ucs (digits ++ body) =
      .ok (hexNumber digits ucs, body) := by
  induction digits generalizing ch ucs with
  | nil => rfl
  | cons d digits ih =>
    obtain ⟨v, hv⟩ := hexDigit_value (hdigits d List.mem_cons_self)
    rw [List.length_cons, List.cons_append, readHex, hv]
    simp only [ih (fun e he => hdigits e (List.mem_cons_of_mem _ he))]
    rw [hexNumber, hexNumber, List.foldl_cons, hv]
    rfl

end Hex

section Basic
variable {lineno : ℕ} {p q : CString}

theorem basicEnd_hex {k : ℕ} (h : basicEnd lineno false k p = .ok q) : ∃ digits p',
    p = digits ++ p' ∧ digits.length = k ∧ (∀ d ∈ digits, hexDigit d = true) ∧
      basicEnd lineno false 0 p' = .ok q := by
  induction k generalizing p with
  | zero => exact ⟨[], p, rfl, rfl, by simp, h⟩
  | succ k ih =>
    cases p with
    | nil => cases h
    | cons c p =>
      rw [basicEnd] at h
      by_cases hc : hexDigit c = true
      · rw [if_pos hc] at h
        obtain ⟨digits, p', rfl, hlen, hdigits, hend⟩ := ih h
        refine ⟨c :: digits, p', rfl, by rw [List.length_cons, hlen], ?_, hend⟩
        intro d hd
        cases List.mem_cons.mp hd with
        | inl hd => rw [hd]; exact hc
        | inr hd => exact hdigits d hd
      · rw [if_neg hc] at h
        cases h

/-- What the scanner does at a character of a basic string. -/
theorem basicEnd_cases (h : basicEnd lineno false 0 p = .ok q) :
    p = q ∨ (∃ c p', p = c :: p' ∧ c ≠ '\\' ∧ basicEnd lineno false 0 p' = .ok q) ∨
      (∃ c p', p = '\\' :: c :: p' ∧ simpleEscape c = true ∧ basicEnd lineno false 0 p' = .ok q) ∨
      ∃ u digits p', p = '\\' :: u :: (digits ++ p') ∧
        (u = 'u' ∧ digits.length = 4 ∨ u = 'U' ∧ digits.length = 8) ∧
        (∀ d ∈ digits, hexDigit d = true) ∧ basicEnd lineno false 0 p' = .ok q := by
  cases p with
  | nil => cases h
  | cons c p =>
    rw [basicEnd] at h
    by_cases hbackslash : c = '\\'
    · rw [if_pos hbackslash] at h
      cases p with
      | nil => cases h
      | cons c' p =>
        rw [basicEnd] at h
        by_cases hsimple : simpleEscape c' = true
        · rw [if_pos hsimple] at h
          exact Or.inr (Or.inr (Or.inl ⟨c', p, by rw [hbackslash], hsimple, h⟩))
        · rw [if_neg hsimple] at h
          split_ifs at h with hu hU
          · obtain ⟨digits, p', rfl, hlen, hdigits, hend⟩ := basicEnd_hex h
            exact Or.inr (Or.inr (Or.inr ⟨c', digits, p', by rw [hbackslash], Or.inl ⟨hu, hlen⟩,
              hdigits, hend⟩))
          · obtain ⟨digits, p', rfl, hlen, hdigits, hend⟩ := basicEnd_hex h
            exact Or.inr (Or.inr (Or.inr ⟨c', digits, p', by rw [hbackslash], Or.inr ⟨hU, hlen⟩,
              hdigits, hend⟩))
    · rw [if_neg hbackslash] at h
      by_cases hdone : c = '"'
      · left
        rw [hdone] at h
        cases h
        rw [hdone]
      · right; left
        refine ⟨c, p, rfl, hbackslash, ?_⟩
        split_ifs at h <;> exact h

/-- What stands in front of the closing quote. The induction is on the length of the text. -/
theorem basicEnd_escaped (h : basicEnd lineno false 0 p = .ok q) :
    ∃ body, p = body ++ q ∧ Escaped false body := by
  induction hn : p.length using Nat.strong_induction_on generalizing p with
  | h n ih =>
    rcases basicEnd_cases h with rfl | ⟨c, p', rfl, hc, h'⟩ | ⟨c, p', rfl, hc, h'⟩ |
      ⟨u, digits, p', rfl, hlen, hdigits, h'⟩
    · exact ⟨[], rfl, .nil⟩
    · obtain ⟨body, rfl, hbody⟩ := ih _ (by rw [← hn, List.length_cons]; omega) h' rfl
      exact ⟨c :: body, rfl, .char c body hc hbody⟩
    · obtain ⟨body, rfl, hbody⟩ := ih _ (by rw [← hn, List.length_cons, List.length_cons]; omega) h' rfl
      exact ⟨'\\' :: c :: body, rfl, .simple c body hc hbody⟩
    · obtain ⟨body, rfl, hbody⟩ := ih _ (by
        rw [← hn, List.length_cons, List.length_cons, List.length_append]; omega) h' rfl
      refine ⟨'\\' :: u :: (digits ++ body), ?_, .code u digits body hlen hdigits hbody⟩
      simp

end Basic

section Triple
variable {lineno : ℕ} {p q : CString}

theorem tripleEscapes_hex {k : ℕ} (h : tripleEscapes lineno q false k p = .ok ()) : ∃ digits p',
    p = digits ++ p' ∧ digits.length = k ∧ (∀ d ∈ digits, hexDigit d = true) ∧
      tripleEscapes lineno q false 0 p' = .ok () := by
  induction k generalizing p with
  | zero => exact ⟨[], p, rfl, rfl, by simp, h⟩
  | succ k ih =>
    cases p with
    | nil => cases h
    | cons c p =>
      rw [tripleEscapes] at h
      by_cases hc : hexDigit c = true
      · rw [if_pos hc] at h
        obtain ⟨digits, p', rfl, hlen, hdigits, hend⟩ := ih h
        refine ⟨c :: digits, p', rfl, by rw [List.length_cons, hlen], ?_, hend⟩
        intro d hd
        cases List.mem_cons.mp hd with
        | inl hd => rw [hd]; exact hc
        | inr hd => exact hdigits d hd
      · rw [if_neg hc] at h
        cases h

theorem tripleEscapes_char {c : Char} (hc : c ≠ '\\') (p : CString) :
    tripleEscapes lineno q false 0 (c :: p) = tripleEscapes lineno q false 0 p := by
  rw [tripleEscapes, decide_eq_false hc]

/-- Blanks and line breaks are skipped. -/
theorem tripleEscapes_dropWhile (p : CString) :
    tripleEscapes lineno q false 0 (p.dropWhile blankLine) = tripleEscapes lineno q false 0 p := by
  induction p with
  | nil => rfl
  | cons c p ih =>
    rw [List.dropWhile_cons]
    by_cases hc : blankLine c = true
    · have hne : c ≠ '\\' := by
        rintro rfl
        revert hc
        decide
      rw [if_pos hc, ih, tripleEscapes_char hne]
    · rw [if_neg hc]

theorem endsLine_iff : endsLine p = true ↔ (p.dropWhile blank).head? = some '\n' := decide_eq_true_iff

theorem endsLine_cons {c : Char} (hc : blank c = false) (p : CString) :
    endsLine (c :: p) = true ↔ c = '\n' := by
  rw [endsLine_iff, List.dropWhile_cons, hc]
  simp

theorem endsLine_skip {c : Char} (hc : blank c = true) (p : CString) :
    endsLine (c :: p) = true ↔ endsLine p = true := by
  rw [endsLine_iff, endsLine_iff, List.dropWhile_cons, if_pos hc]

/-- The line ends in the text itself, since a quote follows it. -/
theorem endsLine_append (hq : q.head? = some '"') (h : endsLine (p ++ q) = true) : endsLine p = true := by
  induction p with
  | nil =>
    cases q with
    | nil => cases hq
    | cons c q =>
      cases hq
      cases (endsLine_cons (by decide) q).mp h
  | cons c p ih =>
    cases hc : blank c with
    | true => exact (endsLine_skip hc p).mpr (ih ((endsLine_skip hc (p ++ q)).mp h))
    | false => exact (endsLine_cons hc p).mpr ((endsLine_cons hc (p ++ q)).mp h)

theorem tripleEscapes_escaped (hq : q.head? = some '"') (h : tripleEscapes lineno q false 0 p = .ok ()) :
    Escaped true p := by
  induction hn : p.length using Nat.strong_induction_on generalizing p with
  | h n ih =>
    cases p with
    | nil => exact .nil
    | cons c p =>
      by_cases hbackslash : c = '\\'
      · rw [hbackslash] at h ⊢
        rw [tripleEscapes] at h
        cases p with
        | nil => cases h
        | cons c' p =>
          change tripleEscapes lineno q true 0 (c' :: p) = .ok () at h
          rw [tripleEscapes] at h
          split_ifs at h with hsimple hu hU hline
          · exact .simple c' p hsimple (ih _ (by rw [← hn, List.length_cons, List.length_cons]; omega) h rfl)
          · obtain ⟨digits, p', rfl, hlen, hdigits, hend⟩ := tripleEscapes_hex h
            refine .code c' digits p' (.inl ⟨hu, hlen⟩) hdigits (ih _ ?_ hend rfl)
            rw [← hn, List.length_cons, List.length_cons, List.length_append]
            omega
          · obtain ⟨digits, p', rfl, hlen, hdigits, hend⟩ := tripleEscapes_hex h
            refine .code c' digits p' (.inr ⟨hU, hlen⟩) hdigits (ih _ ?_ hend rfl)
            rw [← hn, List.length_cons, List.length_cons, List.length_append]
            omega
          · have hends := endsLine_append hq hline
            refine .line (c' :: p) hends rfl (ih _ ?_ ?_ rfl)
            · rw [← hn, List.length_cons]
              exact Nat.lt_succ_of_le (List.dropWhile_suffix _).length_le
            · rw [tripleEscapes_dropWhile]
              by_cases hc' : c' = '\\'
              · rw [hc', endsLine_cons (by decide)] at hends
                cases hends
              · rw [tripleEscapes_char hc']
                exact h
      · rw [tripleEscapes_char hbackslash] at h
        exact .char c p hbackslash (ih _ (by rw [← hn, List.length_cons]; omega) h rfl)

end Triple

section Reading
variable {multiline : Bool} {body : CString}

theorem escapedChar_of_simple : ∀ c, simpleEscape c = true → ∃ d, escapedChar c = some d := by
  intro c hc
  have hall : "btnfr\"\\".toList.all (fun d => (escapedChar d).isSome) = true := by decide
  exact Option.isSome_iff_exists.mp (List.all_eq_true.mp hall c (List.contains_iff_mem.mp hc))

theorem simpleEscape_not_code {c : Char} (hc : simpleEscape c = true) : ¬ (c = 'u' ∨ c = 'U') := by
  rintro (rfl | rfl) <;> revert hc <;> decide

theorem simpleEscape_not_blank {c : Char} (hc : simpleEscape c = true) : blank c = false ∧ c ≠ '\n' := by
  have hall : "btnfr\"\\".toList.all (fun d => blank d = false ∧ d ≠ '\n') = true := by decide
  exact of_decide_eq_true (List.all_eq_true.mp hall c (List.contains_iff_mem.mp hc))

/-- An escape with a character behind the backslash does not end the line. -/
theorem not_endsLine {c : Char} (hblank : blank c = false) (hline : c ≠ '\n') (p : CString) :
    ¬ (multiline = true ∧ c :: p ≠ [] ∧ endsLine (c :: p) = true) := by
  rintro ⟨-, -, hends⟩
  exact hline ((endsLine_cons hblank p).mp hends)

theorem normBasicStr_step {ch : Char} {sp sp' w : CString} {fuel : ℕ} {E : CString → Prop}
    (hstep : normStep multiline ch sp = .ok (w, sp'))
    (h : Yields (normBasicStr multiline fuel sp') (fun _ => True) E) :
    Yields (normBasicStr multiline (fuel + 1) (ch :: sp)) (fun _ => True) E := by
  rw [normBasicStr, hstep, ok_bind]
  apply h.bind
  exact fun dst _ => yields_pure.mpr trivial

theorem normBasicStr_refused {ch : Char} {sp e : CString} {fuel : ℕ} {E : CString → Prop}
    (hstep : normStep multiline ch sp = .error e) (he : E e) :
    Yields (normBasicStr multiline (fuel + 1) (ch :: sp)) (fun _ => True) E := by
  rw [normBasicStr, hstep]
  exact yields_error.mpr he

theorem normStep_char {c : Char} (hc : c ≠ '\\') (p : CString) : normStep multiline c p =
    if forbidden multiline c = true then .error (invalidChar c) else .ok ([c], p) := by
  unfold normStep
  rw [if_pos hc]

theorem normStep_simple {c : Char} (hc : simpleEscape c = true) (p : CString) :
    ∃ d, normStep multiline '\\' (c :: p) = .ok ([d], p) := by
  obtain ⟨d, hd⟩ := escapedChar_of_simple c hc
  obtain ⟨hblank, hline⟩ := simpleEscape_not_blank hc
  refine ⟨d, ?_⟩
  unfold normStep
  rw [if_neg (fun hne => hne rfl), if_neg (not_endsLine hblank hline p)]
  simp only [if_neg (simpleEscape_not_code hc), hd]

/-- The digits of a code are as many as its letter says. -/
theorem normStep_code {u : Char} {digits : CString}
    (hlen : u = 'u' ∧ digits.length = 4 ∨ u = 'U' ∧ digits.length = 8)
    (hdigits : ∀ d ∈ digits, hexDigit d = true) (p : CString) :
    normStep multiline '\\' (u :: (digits ++ p)) =
      (tomlUcsToUtf8 (hexNumber digits 0)).elim (.error "illegal ucs code in \\u or \\U".toList)
        (fun bytes => .ok (bytes, p)) := by
  have hu : u = 'u' ∨ u = 'U' := hlen.imp And.left And.left
  have hnhex : (if u = 'u' then 4 else 8) = digits.length := by
    rcases hlen with ⟨rfl, hlen⟩ | ⟨rfl, hlen⟩ <;> rw [hlen] <;> rfl
  have hnot : ¬ (multiline = true ∧ u :: (digits ++ p) ≠ [] ∧ endsLine (u :: (digits ++ p)) = true) := by
    rcases hu with rfl | rfl <;> exact not_endsLine (by decide) (by decide) _
  have hread := @readHex_digits digits.length digits hdigits u 0 p
  unfold normStep
  rw [if_neg (fun hne => hne rfl), if_neg hnot]
  simp only [if_pos hu, hnhex, hread, ok_bind]
  cases tomlUcsToUtf8 (hexNumber digits 0) <;> rfl

theorem normStep_line {p : CString} (hline : endsLine p = true) (hmultiline : multiline = true) :
    normStep multiline '\\' p = .ok ([], p.dropWhile blankLine) := by
  have hne : p ≠ [] := by
    rintro rfl
    cases endsLine_iff.mp hline
  unfold normStep
  rw [if_neg (fun hne => hne rfl), if_pos ⟨hmultiline, hne, hline⟩]
  rfl

theorem normBasicStr_rest {p text : CString} {fuel : ℕ} (hsuffix : p <:+ text)
    (h : Yields (normBasicStr multiline fuel p) (fun _ => True) (fun _ => Refused multiline p)) :
    Yields (normBasicStr multiline fuel p) (fun _ => True) (fun _ => Refused multiline text) :=
  h.mono (fun _ _ => trivial) (fun _ he => he.mono hsuffix.isInfix)

theorem normBasicStr_escaped (h : Escaped multiline body) {fuel : ℕ} (hfuel : body.length ≤ fuel) :
    Yields (normBasicStr multiline fuel body) (fun _ => True) (fun _ => Refused multiline body) := by
  induction h generalizing fuel with
  | nil =>
    rw [normBasicStr]
    exact yields_ok.mpr trivial
  | char c p hc h ih =>
    obtain ⟨fuel, rfl⟩ := Nat.exists_eq_succ_of_ne_zero (Nat.ne_zero_of_lt hfuel)
    have hmore := normBasicStr_rest (List.suffix_cons c p) (ih (Nat.le_of_succ_le_succ hfuel))
    have hstep := @normStep_char multiline c hc p
    by_cases hforbidden : forbidden multiline c = true
    · rw [if_pos hforbidden] at hstep
      exact normBasicStr_refused hstep (Or.inl ⟨c, List.mem_cons_self, hforbidden⟩)
    · rw [if_neg hforbidden] at hstep
      exact normBasicStr_step hstep hmore
  | simple c p hc h ih =>
    obtain ⟨fuel, rfl⟩ := Nat.exists_eq_succ_of_ne_zero (Nat.ne_zero_of_lt hfuel)
    obtain ⟨d, hstep⟩ := @normStep_simple multiline c hc p
    apply normBasicStr_step hstep
    apply normBasicStr_rest ((List.suffix_cons c p).trans (List.suffix_cons _ _))
    exact ih (by simp only [List.length_cons] at hfuel; omega)
  | code u digits p hlen hdigits h ih =>
    obtain ⟨fuel, rfl⟩ := Nat.exists_eq_succ_of_ne_zero (Nat.ne_zero_of_lt hfuel)
    have hstep := @normStep_code multiline u digits hlen hdigits p
    cases hcode : tomlUcsToUtf8 (hexNumber digits 0) with
    | none =>
      rw [hcode] at hstep
      refine normBasicStr_refused hstep (Or.inr ⟨u, digits, ⟨[], p, ?_⟩, hlen, hdigits, hcode⟩)
      simp
    | some bytes =>
      rw [hcode] at hstep
      apply normBasicStr_step hstep
      apply normBasicStr_rest
        ((List.suffix_append digits p).trans ((List.suffix_cons u _).trans (List.suffix_cons _ _)))
      exact ih (by simp only [List.length_cons, List.length_append] at hfuel; omega)
  | line p hline hmultiline h ih =>
    obtain ⟨fuel, rfl⟩ := Nat.exists_eq_succ_of_ne_zero (Nat.ne_zero_of_lt hfuel)
    have hsuffix : p.dropWhile blankLine <:+ p := List.dropWhile_suffix _
    apply normBasicStr_step (normStep_line hline hmultiline)
    apply normBasicStr_rest (hsuffix.trans (List.suffix_cons _ _))
    exact ih (hsuffix.length_le.trans (Nat.le_of_succ_le_succ hfuel))

end Reading

section Scanned
variable {p q body : CString} {c : Char} {lineno : ℕ} {dotisspecial multiline : Bool} {t : Token}

theorem normLitStr_refused (multiline : Bool) (body : CString) :
    Yields (normLitStr multiline body) (fun _ => True) (fun _ => Refused multiline body) := by
  induction body with
  | nil => exact yields_ok.mpr trivial
  | cons c body ih =>
    rw [normLitStr]
    apply yields_ite
    · intro hc
      exact yields_error.mpr (Or.inl ⟨c, List.mem_cons_self, hc⟩)
    · intro _
      apply Yields.map
      exact ih.mono (fun _ _ => trivial) (fun _ he => he.mono (List.suffix_cons c body).isInfix)

def skipLine (body : CString) : CString :=
  if body.head? = some '\n' then body.drop 1
  else if "\r\n".toList.isPrefixOf body then body.drop 2
  else body

theorem skipLine_suffix (body : CString) : skipLine body <:+ body := by
  unfold skipLine
  split_ifs
  · exact List.drop_suffix 1 body
  · exact List.drop_suffix 2 body
  · exact List.suffix_rfl

theorem Escaped.of_cons (h : Escaped multiline (c :: p)) (hc : c ≠ '\\') : Escaped multiline p := by
  cases h with
  | char c p hc h => exact h
  | simple c p hc' h => exact absurd rfl hc
  | code u digits p hlen hdigits h => exact absurd rfl hc
  | line p hline hmultiline h => exact absurd rfl hc

theorem Escaped.skipLine (h : Escaped multiline body) : Escaped multiline (skipLine body) := by
  unfold Toml.skipLine
  split_ifs with hline hreturn
  · cases body with
    | nil => exact h
    | cons c body =>
      cases hline
      exact h.of_cons (by decide)
  · obtain ⟨rest, rfl⟩ := List.isPrefixOf_iff_prefix.mp hreturn
    exact Escaped.of_cons (h.of_cons (c := '\r') (by decide)) (by decide)
  · exact h

theorem tomlRtos_triple (hc : c = '\'' ∨ c = '"') (body : CString) :
    tomlRtos (c :: c :: c :: (body ++ [c, c, c])) =
      (if c = '\'' then normLitStr true (skipLine body)
        else normBasicStr true (skipLine body).length (skipLine body)).toOption.map cString := by
  have htriple : [c, c, c].isPrefixOf (c :: c :: c :: (body ++ [c, c, c])) = true :=
    List.isPrefixOf_iff_prefix.mpr ⟨body ++ [c, c, c], rfl⟩
  have hbody : (body ++ [c, c, c]).take ((body ++ [c, c, c]).length - 3) = body := by simp
  have hsuffix : [c, c, c].isSuffixOf (body ++ [c, c, c]) = true :=
    List.isSuffixOf_iff_suffix.mpr (List.suffix_append ..)
  have hlen : 3 ≤ (body ++ [c, c, c]).length := by simp
  have hdrop : (c :: c :: c :: (body ++ [c, c, c])).drop 3 = body ++ [c, c, c] := rfl
  simp only [tomlRtos, hc, not_true_eq_false, if_false, htriple, if_true, hdrop, hsuffix, hlen,
    and_self, hbody]
  unfold skipLine
  split_ifs <;> rfl

theorem lastTriple_front (h : [c, c, c] <+: q) : [c, c, c] <+: lastTriple c q := by
  induction q with
  | nil => exact h
  | cons d q ih =>
    rw [lastTriple]
    by_cases hmore : q[2]? = some c
    · rw [if_pos hmore]
      apply ih
      obtain ⟨rest, hrest⟩ := h
      cases hrest
      cases rest with
      | nil => cases hmore
      | cons e rest =>
        cases hmore
        exact ⟨rest, rfl⟩
    · rw [if_neg hmore]
      exact h

/-- The text of a string token that begins with a quote. -/
inductive Quoted : CString → Prop
  | literal (body : CString) (h : ¬ ['\'', '\'', '\''].isPrefixOf ('\'' :: (body ++ ['\''])) = true) :
      Quoted ('\'' :: (body ++ ['\'']))
  | basic (body : CString) (h : ¬ ['"', '"', '"'].isPrefixOf ('"' :: (body ++ ['"'])) = true)
      (hbody : Escaped false body) : Quoted ('"' :: (body ++ ['"']))
  | literalTriple (body : CString) : Quoted ('\'' :: '\'' :: '\'' :: (body ++ ['\'', '\'', '\'']))
  | basicTriple (body : CString) (hbody : Escaped true body) :
      Quoted ('"' :: '"' :: '"' :: (body ++ ['"', '"', '"']))

/-- What is taken when the last three quotes are found at `q`. -/
theorem take_triple (hp : [c, c, c].isPrefixOf p = true) (hsuffix : q <:+ p.drop 3) (hq : [c, c, c] <+: q) :
    ∃ body, p.drop 3 = body ++ q ∧ (p.drop 3).take (p.length - 3 - q.length) = body ∧
      p.take (p.length - q.length + 3) = c :: c :: c :: (body ++ [c, c, c]) := by
  obtain ⟨p', rfl⟩ := List.isPrefixOf_iff_prefix.mp hp
  obtain ⟨body, hbody⟩ := hsuffix
  obtain ⟨rest, rfl⟩ := hq
  have hdrop : ([c, c, c] ++ p').drop 3 = p' := rfl
  rw [hdrop] at hbody ⊢
  subst hbody
  refine ⟨body, rfl, ?_, ?_⟩
  · apply List.take_left'
    simp only [List.length_append, List.length_cons, List.length_nil]
    omega
  · have hsplit : [c, c, c] ++ (body ++ ([c, c, c] ++ rest)) = c :: c :: c :: (body ++ [c, c, c]) ++ rest := by
      simp
    rw [hsplit]
    apply List.take_left'
    simp only [List.length_append, List.length_cons, List.length_nil]
    omega

/-- What is taken when the closing quote is found in front of `q`. -/
theorem take_single (body q : CString) :
    (c :: (body ++ c :: q)).take ((c :: (body ++ c :: q)).length - q.length) = c :: (body ++ [c]) := by
  have hsplit : c :: (body ++ c :: q) = c :: (body ++ [c]) ++ q := by simp
  rw [hsplit]
  apply List.take_left'
  rw [List.length_append, Nat.add_sub_cancel]

theorem not_triple_of_front {text : CString} (h : ¬ [c, c, c].isPrefixOf p = true) (htext : text <+: p) :
    ¬ [c, c, c].isPrefixOf text = true :=
  fun htriple => h (List.isPrefixOf_iff_prefix.mpr ((List.isPrefixOf_iff_prefix.mp htriple).trans htext))

theorem scan_literalTriple (h : scanString p lineno dotisspecial = .ok t)
    (hsingle : "'''".toList.isPrefixOf p = true) : Quoted t.text := by
  rw [scanString, if_pos hsingle] at h
  cases hq : strstr "'''".toList (p.drop 3) with
  | none => rw [hq] at h; cases h
  | some q =>
    rw [hq] at h
    cases h
    have hprefix : ['\'', '\'', '\''] <+: q := (strstr_suffix hq).2
    have hlast := (lastTriple_suffix '\'' q hprefix.length_le).1.trans (strstr_suffix hq).1
    obtain ⟨body, -, -, htake⟩ :=
      take_triple (c := '\'') hsingle hlast (lastTriple_front hprefix)
    change Quoted (p.take (p.length - (lastTriple '\'' q).length + 3))
    rw [htake]
    exact .literalTriple body

theorem scan_basicTriple (h : scanString p lineno dotisspecial = .ok t)
    (hsingle : ¬ "'''".toList.isPrefixOf p = true)
    (htriple : "\"\"\"".toList.isPrefixOf p = true) : Quoted t.text := by
  rw [scanString, if_neg hsingle, if_pos htriple] at h
  cases hq : closingTriple '"' (p.drop 3) with
  | none => rw [hq] at h; cases h
  | some q =>
    rw [hq] at h
    have hprefix : ['"', '"', '"'] <+: q := (closingTriple_suffix hq).2
    have hlast := (lastTriple_suffix '"' q hprefix.length_le).1.trans (closingTriple_suffix hq).1
    have hlastprefix := lastTriple_front hprefix
    obtain ⟨body, -, hbody, htake⟩ := take_triple (c := '"') htriple hlast hlastprefix
    have hhead : (lastTriple '"' q).head? = some '"' := by
      obtain ⟨rest, hrest⟩ := hlastprefix
      rw [← hrest]
      rfl
    simp only [hbody] at h
    cases hescapes : tripleEscapes lineno (lastTriple '"' q) false 0 body with
    | error e => rw [hescapes] at h; cases h
    | ok u =>
      rw [hescapes] at h
      cases h
      change Quoted (p.take (p.length - (lastTriple '"' q).length + 3))
      rw [htake]
      exact .basicTriple body (tripleEscapes_escaped hhead hescapes)

theorem scan_literal (h : scanString ('\'' :: p) lineno dotisspecial = .ok t)
    (hsingle : ¬ "'''".toList.isPrefixOf ('\'' :: p) = true) : Quoted t.text := by
  have htriple : ¬ "\"\"\"".toList.isPrefixOf ('\'' :: p) = true := by simp [List.isPrefixOf]
  have hquote : ('\'' :: p).head? = some '\'' := rfl
  rw [scanString, if_neg hsingle, if_neg htriple, if_pos hquote, List.drop_one, List.tail_cons] at h
  cases hrest : p.dropWhile (fun c => c ≠ '\n' ∧ c ≠ '\'') with
  | nil =>
    rw [hrest] at h
    cases h
  | cons c q =>
    rw [hrest] at h
    by_cases hc : c = '\''
    · simp only [hc, ne_eq, not_true_eq_false, if_false, Except.ok.injEq] at h
      subst h
      have hp := List.takeWhile_append_dropWhile (p := fun c => c ≠ '\n' ∧ c ≠ '\'') (l := p)
      rw [hrest, hc] at hp
      have htake := take_single (c := '\'') (p.takeWhile fun c => c ≠ '\n' ∧ c ≠ '\'') q
      rw [hp] at htake
      change Quoted (('\'' :: p).take (('\'' :: p).length - q.length))
      have hprefix := List.take_prefix (('\'' :: p).length - q.length) ('\'' :: p)
      rw [htake] at hprefix ⊢
      exact .literal _ (not_triple_of_front hsingle hprefix)
    · simp only [ne_eq, hc, not_false_eq_true, if_true] at h
      cases h

theorem scan_basic (h : scanString ('"' :: p) lineno dotisspecial = .ok t)
    (htriple : ¬ "\"\"\"".toList.isPrefixOf ('"' :: p) = true) : Quoted t.text := by
  have hsingle : ¬ "'''".toList.isPrefixOf ('"' :: p) = true := by simp [List.isPrefixOf]
  have hliteral : ¬ ('"' :: p).head? = some '\'' := by simp
  have hquote : ('"' :: p).head? = some '"' := rfl
  rw [scanString, if_neg hsingle, if_neg htriple, if_neg hliteral, if_pos hquote, List.drop_one,
    List.tail_cons] at h
  cases hend : basicEnd lineno false 0 p with
  | error e =>
    rw [hend] at h
    cases h
  | ok q =>
    rw [hend] at h
    cases h
    obtain ⟨-, hhead⟩ := (basicEnd_yields lineno false 0 p).value hend
    obtain ⟨body, rfl, hbody⟩ := basicEnd_escaped hend
    cases q with
    | nil => cases hhead
    | cons c q =>
      cases hhead
      have hlen : ('"' :: (body ++ '"' :: q)).length - ('"' :: q).length + 1 =
          ('"' :: (body ++ '"' :: q)).length - q.length := by
        simp only [List.length_cons, List.length_append]
        omega
      change Quoted (('"' :: (body ++ '"' :: q)).take
        (('"' :: (body ++ '"' :: q)).length - ('"' :: q).length + 1))
      have hprefix := List.take_prefix (('"' :: (body ++ '"' :: q)).length - q.length)
        ('"' :: (body ++ '"' :: q))
      rw [hlen, take_single]
      rw [take_single] at hprefix
      exact .basic body (not_triple_of_front htriple hprefix) hbody

/-- Each of the four kinds of quotes has its own part of the scanner. -/
theorem scanString_quoted (h : scanString p lineno dotisspecial = .ok t)
    (hquote : p.head? = some '\'' ∨ p.head? = some '"') : Quoted t.text := by
  by_cases hsingle : "'''".toList.isPrefixOf p = true
  · exact scan_literalTriple h hsingle
  by_cases htriple : "\"\"\"".toList.isPrefixOf p = true
  · exact scan_basicTriple h hsingle htriple
  cases p with
  | nil => simp at hquote
  | cons c p =>
    rcases hquote with hc | hc
    · cases hc
      exact scan_literal h hsingle
    · cases hc
      exact scan_basic h htriple

theorem refused_of_none {x : Except CString CString} {E : Prop} (h : Yields x (fun _ => True) (fun _ => E))
    (hnone : x.toOption.map cString = none) : E := by
  cases x with
  | ok a => cases hnone
  | error e => exact h.failure rfl

/-- `toml_rtos` refuses a control character or a code, and nothing else. -/
theorem Quoted.refused {text : CString} (h : Quoted text) (hnone : tomlRtos text = none) :
    Refused (multilineString text) text := by
  cases h with
  | literal body hnot =>
    rw [tomlRtos_single (.inl rfl) body hnot, if_pos rfl] at hnone
    have hsingle : multilineString ('\'' :: (body ++ ['\''])) = false :=
      Bool.eq_false_of_not_eq_true hnot
    rw [hsingle]
    exact (refused_of_none (normLitStr_refused false body) hnone).mono ⟨['\''], ['\''], rfl⟩
  | basic body hnot hbody =>
    rw [tomlRtos_single (.inr rfl) body hnot, if_neg (by decide)] at hnone
    have hsingle : multilineString ('"' :: (body ++ ['"'])) = false :=
      Bool.eq_false_of_not_eq_true hnot
    rw [hsingle]
    exact (refused_of_none (normBasicStr_escaped hbody le_rfl) hnone).mono ⟨['"'], ['"'], rfl⟩
  | literalTriple body =>
    rw [tomlRtos_triple (.inl rfl), if_pos rfl] at hnone
    change Refused true _
    apply (refused_of_none (normLitStr_refused true (skipLine body)) hnone).mono
    exact (skipLine_suffix body).isInfix.trans ⟨['\'', '\'', '\''], ['\'', '\'', '\''], rfl⟩
  | basicTriple body hbody =>
    rw [tomlRtos_triple (.inr rfl), if_neg (by decide)] at hnone
    change Refused true _
    apply (refused_of_none (normBasicStr_escaped hbody.skipLine le_rfl) hnone).mono
    exact (skipLine_suffix body).isInfix.trans ⟨['"', '"', '"'], ['"', '"', '"'], rfl⟩

/-- A quoted value of a file is read, or it has a control character or a code without a
character in it. -/
theorem RawValue.refused {conf raw : CString} (h : RawValue conf raw)
    (hquote : raw.head? = some '\'' ∨ raw.head? = some '"') (hnone : tomlRtos raw = none) :
    Refused (multilineString raw) raw := by
  obtain ⟨t, dotisspecial, -, hscan, rfl⟩ := h.scanned
  have hhead : t.ptr.head? = t.text.head? := by
    obtain ⟨rest, hrest⟩ := List.take_prefix t.len t.ptr
    cases htext : t.text with
    | nil => exact absurd htext h.nonempty
    | cons c text =>
      rw [← hrest]
      change (t.text ++ rest).head? = _
      rw [htext]
      rfl
  exact (scanString_quoted hscan (hhead ▸ hquote)).refused hnone

end Scanned

end DistillerFS.Toml
