import DistillerFS.Toml.Tables
import Mathlib.Data.List.TakeWhile

/-!
# Writing strings

A string between double quotes, and what the scanner, `toml_rtos` and `normalize_key` make
of it. A single quote is escaped since the scanner refuses three of them in a row.
-/
namespace DistillerFS.Toml

def hexChar (n : ℕ) : Char := "0123456789ABCDEF".toList.getD n '0'

/-- A character as it is written between double quotes. -/
def quoteChar (c : Char) : CString :=
  if c = '"' ∨ c = '\\' then ['\\', c]
  else if controlChar c = true ∨ c = '\'' then
    ['\\', 'u', '0', '0', hexChar (c.toNat / 16), hexChar (c.toNat % 16)]
  else [c]

def quoteBody (s : CString) : CString := s.flatMap quoteChar

def quote (s : CString) : CString := '"' :: (quoteBody s ++ ['"'])

section Characters
variable {c : Char}

theorem hexChar_spec : ∀ n < 16, hexDigit (hexChar n) = true ∧ hexValue (hexChar n) = some n := by
  decide

theorem controlChar_toNat_lt (h : controlChar c = true ∨ c = '\'') : c.toNat < 0x80 := by
  rcases h with h | rfl
  · simp only [controlChar, Bool.or_eq_true, Bool.and_eq_true, decide_eq_true_eq] at h
    omega
  · decide

/-- The three ways in which a character is written. -/
theorem quoteChar_cases (c : Char) :
    (quoteChar c = ['\\', c] ∧ (c = '"' ∨ c = '\\')) ∨
      (quoteChar c = ['\\', 'u', '0', '0', hexChar (c.toNat / 16), hexChar (c.toNat % 16)] ∧
        c.toNat < 0x80) ∨
      (quoteChar c = [c] ∧ c ≠ '"' ∧ c ≠ '\\' ∧ c ≠ '\'' ∧ controlChar c = false) := by
  unfold quoteChar
  by_cases hquoted : c = '"' ∨ c = '\\'
  · rw [if_pos hquoted]
    exact Or.inl ⟨rfl, hquoted⟩
  · rw [if_neg hquoted]
    obtain ⟨hquote, hbackslash⟩ := not_or.mp hquoted
    by_cases hcontrol : controlChar c = true ∨ c = '\''
    · rw [if_pos hcontrol]
      exact Or.inr (Or.inl ⟨rfl, controlChar_toNat_lt hcontrol⟩)
    · rw [if_neg hcontrol]
      obtain ⟨hplain, hsingle⟩ := not_or.mp hcontrol
      exact Or.inr (Or.inr ⟨rfl, hquote, hbackslash, hsingle, Bool.eq_false_of_not_eq_true hplain⟩)

theorem quoteChar_ne_nil (c : Char) : quoteChar c ≠ [] := by
  rcases quoteChar_cases c with ⟨h, -⟩ | ⟨h, -⟩ | ⟨h, -⟩ <;> rw [h] <;> exact List.cons_ne_nil _ _

theorem quoteChar_head_ne (c : Char) : (quoteChar c).head? ≠ some '"' := by
  rcases quoteChar_cases c with ⟨h, -⟩ | ⟨h, -⟩ | ⟨h, hquote, -⟩ <;> rw [h]
  · simp
  · simp
  · simpa using hquote

theorem newline_control : controlChar '\n' = true := by decide

theorem basicEnd_quoteChar (lineno : ℕ) (c : Char) (p : CString) :
    basicEnd lineno false 0 (quoteChar c ++ p) = basicEnd lineno false 0 p := by
  rcases quoteChar_cases c with ⟨h, hc⟩ | ⟨h, hc⟩ | ⟨h, hquote, hbackslash, hsingle, hplain⟩
  · rw [h]
    rcases hc with rfl | rfl <;> rfl
  · have hhigh := (hexChar_spec (c.toNat / 16) (by omega)).1
    have hlow := (hexChar_spec (c.toNat % 16) (by omega)).1
    have hzero : hexDigit '0' = true := by decide
    have hu : simpleEscape 'u' = false := by decide
    rw [h]
    simp only [List.cons_append, List.nil_append, basicEnd, hu, hzero, hhigh, hlow, if_true,
      Bool.false_eq_true, if_false]
  · have hnewline : c ≠ '\n' := by
      rintro rfl
      cases newline_control.symm.trans hplain
    rw [h]
    simp [basicEnd, hbackslash, hsingle, hnewline, hquote]

theorem normBasicStr_quoteChar (c : Char) (fuel : ℕ) (p : CString) :
    normBasicStr false (fuel + 1) (quoteChar c ++ p) =
      (normBasicStr false fuel p).map (c :: ·) := by
  have hround : ∀ ch sp, quoteChar c = ch :: sp →
      normStep false ch (sp ++ p) = .ok ([c], p) := by
    intro ch sp hcons
    rcases quoteChar_cases c with ⟨h, hc⟩ | ⟨h, hc⟩ | ⟨h, hquote, hbackslash, hsingle, hplain⟩
    · rw [h] at hcons
      cases hcons
      rcases hc with rfl | rfl <;> rfl
    · rw [h] at hcons
      cases hcons
      have hhigh := (hexChar_spec (c.toNat / 16) (by omega)).2
      have hlow := (hexChar_spec (c.toNat % 16) (by omega)).2
      have hzero : hexValue '0' = some 0 := by decide
      have hcode : c.toNat / 16 * 16 + c.toNat % 16 = c.toNat := by omega
      have hucs : tomlUcsToUtf8 (c.toNat : ℤ) = some [c] := by
        have hbyte : byte c.toNat = c := by
          rw [byte, Nat.mod_eq_of_lt (by omega), Char.ofNat_toNat]
        unfold tomlUcsToUtf8
        rw [if_neg (by omega), if_neg (by omega), if_neg (by omega)]
        simp only [Int.toNat_natCast]
        rw [if_pos (by omega), hbyte]
      simp [normStep, readHex, hzero, hhigh, hlow, hcode, hucs, bind, Except.bind]
    · rw [h] at hcons
      cases hcons
      simp [normStep, hbackslash, forbidden, hplain]
  cases hcons : quoteChar c with
  | nil => exact absurd hcons (quoteChar_ne_nil c)
  | cons ch sp =>
    rw [List.cons_append, normBasicStr, hround ch sp hcons]
    cases h : normBasicStr false fuel p <;> simp [bind, Except.bind, Except.map, h, pure, Except.pure]

end Characters

section Strings
variable {s rest : CString}

theorem quoteBody_cons (c : Char) (s : CString) : quoteBody (c :: s) = quoteChar c ++ quoteBody s :=
  List.flatMap_cons

theorem basicEnd_quoteBody (lineno : ℕ) (s rest : CString) :
    basicEnd lineno false 0 (quoteBody s ++ '"' :: rest) = .ok ('"' :: rest) := by
  induction s with
  | nil => rfl
  | cons c s ih => rw [quoteBody_cons, List.append_assoc, basicEnd_quoteChar, ih]

theorem normBasicStr_quoteBody (s : CString) (fuel : ℕ) (h : (quoteBody s).length ≤ fuel) :
    normBasicStr false fuel (quoteBody s) = .ok s := by
  induction s generalizing fuel with
  | nil => simp [quoteBody, normBasicStr]
  | cons c s ih =>
    rw [quoteBody_cons, List.length_append] at h
    have hpos := List.length_pos_iff.mpr (quoteChar_ne_nil c)
    obtain ⟨fuel, rfl⟩ := Nat.exists_eq_succ_of_ne_zero (show fuel ≠ 0 by omega)
    rw [quoteBody_cons, normBasicStr_quoteChar, ih fuel (by omega)]
    rfl

/-- The quotes are no triple quotes, unless another quote follows. -/
theorem quote_not_triple (h : rest.head? ≠ some '"') :
    ¬ ((quote s ++ rest)[1]? = some '"' ∧ (quote s ++ rest)[2]? = some '"') := by
  rintro ⟨hsecond, hthird⟩
  cases s with
  | nil =>
    rw [List.head?_eq_getElem?] at h
    exact h (by simpa [quote, quoteBody] using hthird)
  | cons c s =>
    apply quoteChar_head_ne c
    cases hcons : quoteChar c with
    | nil => exact absurd hcons (quoteChar_ne_nil c)
    | cons ch sp =>
      rw [quote, quoteBody_cons, hcons] at hsecond
      simpa using hsecond

theorem triple_of_isPrefixOf {p : CString} {c : Char} (h : [c, c, c].isPrefixOf p = true) :
    p[1]? = some c ∧ p[2]? = some c := by
  obtain ⟨q, rfl⟩ := List.isPrefixOf_iff_prefix.mp h
  exact ⟨rfl, rfl⟩

theorem quote_length (s : CString) : (quote s).length = (quoteBody s).length + 2 := by
  simp [quote]

theorem quote_append (s rest : CString) :
    quote s ++ rest = '"' :: (quoteBody s ++ '"' :: rest) := by
  simp [quote]

/-- The scanner takes a string just as it is written. -/
theorem scanString_quote (lineno : ℕ) (dotisspecial : Bool) (s : CString)
    (h : rest.head? ≠ some '"') : scanString (quote s ++ rest) lineno dotisspecial =
      .ok (stringToken lineno (quote s ++ rest) (quote s).length) := by
  have hsingle : ¬ "'''".toList.isPrefixOf (quote s ++ rest) = true := by
    rw [quote_append]
    simp [List.isPrefixOf]
  have htriple : ¬ "\"\"\"".toList.isPrefixOf (quote s ++ rest) = true :=
    fun hprefix => quote_not_triple h (triple_of_isPrefixOf hprefix)
  have hhead : (quote s ++ rest).head? = some '"' := rfl
  unfold scanString
  rw [if_neg hsingle, if_neg htriple, if_neg (by rw [hhead]; decide), if_pos hhead]
  rw [quote_append, List.drop_one, List.tail_cons, basicEnd_quoteBody]
  have hlen : ('"' :: (quoteBody s ++ '"' :: rest)).length - ('"' :: rest).length + 1 =
      (quote s).length := by
    rw [quote_length]
    simp only [List.length_cons, List.length_append]
    omega
  rw [← hlen]
  rfl

theorem tomlRtos_single {c : Char} (hc : c = '\'' ∨ c = '"') (body : CString)
    (htriple : ¬ [c, c, c].isPrefixOf (c :: (body ++ [c])) = true) : tomlRtos (c :: (body ++ [c])) =
      (if c = '\'' then normLitStr false body
        else normBasicStr false body.length body).toOption.map cString := by
  have hbody : (body ++ [c]).take ((body ++ [c]).length - 1) = body := by simp
  have hsuffix : [c].isSuffixOf (body ++ [c]) = true :=
    List.isSuffixOf_iff_suffix.mpr (List.suffix_append ..)
  have hlen : 1 ≤ (body ++ [c]).length := by simp
  simp only [tomlRtos, hc, not_true_eq_false, if_false, if_neg htriple, List.drop_one,
    List.tail_cons, hsuffix, hlen, and_self, if_true, hbody, Option.bind_some]

/-- `toml_rtos` gives back what was written, up to the first NUL. -/
theorem tomlRtos_quote (s : CString) : tomlRtos (quote s) = some (cString s) := by
  have htriple : ¬ ['"', '"', '"'].isPrefixOf (quote s) = true := by
    intro hprefix
    have hnot := @quote_not_triple s [] (by simp)
    rw [List.append_nil] at hnot
    exact hnot (triple_of_isPrefixOf hprefix)
  rw [quote, tomlRtos_single (.inr rfl) _ htriple, if_neg (by decide), normBasicStr_quoteBody s _ le_rfl]
  rfl

theorem cString_eq (h : '\x00' ∉ s) : cString s = s := by
  rw [cString, List.takeWhile_eq_self_iff]
  intro c hc
  rw [decide_eq_true_eq]
  rintro rfl
  exact h hc

/-- A key that is written as a string is read as it is. -/
theorem normalizeKey_quote (lineno : ℕ) (hnul : '\x00' ∉ s) (hline : '\n' ∉ s) :
    normalizeKey (stringToken lineno (quote s ++ rest) (quote s).length) = .ok s := by
  have htext : (stringToken lineno (quote s ++ rest) (quote s).length).text = quote s :=
    List.take_left
  have htriple : ¬ ((quote s)[1]? = some '"' ∧ (quote s)[2]? = some '"') := by
    have hnot := @quote_not_triple s [] (by simp)
    rwa [List.append_nil] at hnot
  have hbody : ((quote s).drop 1).take ((quote s).length - 2 * 1) = quoteBody s := by
    rw [quote_length, quote]
    simp
  have hhead : (quote s).head? = some '"' := rfl
  have hheadD : (quote s).headD '\x00' = '"' := rfl
  unfold normalizeKey
  simp only [htext, hhead, hheadD, or_true, if_true, htriple, if_false, hbody, decide_false]
  rw [if_neg (by decide), normBasicStr_quoteBody s _ le_rfl]
  simp only [Except.bind, cString_eq hnul, hline, if_false]

end Strings

end DistillerFS.Toml
