import DistillerFS.Foundations.Outcomes
import DistillerFS.Toml.Parser

/-!
# Where tokens lie

A token lies in the text, in the line that it names, and every token but the last one and an
empty string takes some of the text.
-/
namespace DistillerFS.Toml
open Foundations

section Scanning

theorem strstr_suffix {pattern p q : CString} (h : strstr pattern p = some q) :
    q <:+ p ∧ pattern <+: q := by
  induction p with
  | nil => cases h
  | cons c p ih =>
    rw [strstr] at h
    by_cases hc : pattern.isPrefixOf (c :: p) = true
    · rw [if_pos hc] at h
      cases h
      exact ⟨List.suffix_rfl, List.isPrefixOf_iff_prefix.mp hc⟩
    · rw [if_neg hc] at h
      obtain ⟨hsuffix, hprefix⟩ := ih h
      exact ⟨hsuffix.trans (List.suffix_cons c p), hprefix⟩

theorem closingTriple_suffix {before : Char} {p q : CString} (h : closingTriple before p = some q) :
    q <:+ p ∧ "\"\"\"".toList <+: q := by
  induction p generalizing before with
  | nil => cases h
  | cons c p ih =>
    rw [closingTriple] at h
    by_cases hc : "\"\"\"".toList.isPrefixOf (c :: p) = true ∧ before ≠ '\\'
    · rw [if_pos hc] at h
      cases h
      exact ⟨List.suffix_rfl, List.isPrefixOf_iff_prefix.mp hc.1⟩
    · rw [if_neg hc] at h
      obtain ⟨hsuffix, hprefix⟩ := ih h
      exact ⟨hsuffix.trans (List.suffix_cons c p), hprefix⟩

/-- Three quotes are still there when the last three of them are found. -/
theorem lastTriple_suffix (quote : Char) (q : CString) (hq : 3 ≤ q.length) :
    lastTriple quote q <:+ q ∧ 3 ≤ (lastTriple quote q).length := by
  induction q with
  | nil => exact ⟨List.suffix_rfl, hq⟩
  | cons c q ih =>
    rw [lastTriple]
    by_cases hmore : q[2]? = some quote
    · rw [if_pos hmore]
      obtain ⟨hlt, -⟩ := List.getElem?_eq_some_iff.mp hmore
      obtain ⟨hsuffix, hlength⟩ := ih hlt
      exact ⟨hsuffix.trans (List.suffix_cons c q), hlength⟩
    · rw [if_neg hmore]
      exact ⟨List.suffix_rfl, hq⟩

/-- A basic string ends at a quote, or the error names its line. -/
theorem basicEnd_yields (lineno : ℕ) (escape : Bool) (hexreq : ℕ) (p : CString) :
    Yields (basicEnd lineno escape hexreq p) (fun q => q <:+ p ∧ q.head? = some '"')
      (fun e => ∃ msg, e = .syntaxError lineno msg) := by
  induction p generalizing escape hexreq with
  | nil =>
    cases escape <;> cases hexreq <;> exact yields_error.mpr ⟨_, rfl⟩
  | cons c p ih =>
    have hlonger : ∀ escape hexreq, Yields (basicEnd lineno escape hexreq p)
        (fun q => q <:+ c :: p ∧ q.head? = some '"') (fun e => ∃ msg, e = .syntaxError lineno msg) :=
      fun escape hexreq => (ih escape hexreq).weaken
        (fun q hq => ⟨hq.1.trans (List.suffix_cons c p), hq.2⟩)
    cases escape with
    | true =>
      rw [basicEnd]
      apply yields_ite (fun _ => hlonger false hexreq)
      intro _
      apply yields_ite (fun _ => hlonger false 4)
      intro _
      apply yields_ite (fun _ => hlonger false 8)
      intro _
      exact yields_error.mpr ⟨_, rfl⟩
    | false =>
      cases hexreq with
      | succ hexreq =>
        rw [basicEnd]
        apply yields_ite (fun _ => hlonger false hexreq)
        intro _
        exact yields_error.mpr ⟨_, rfl⟩
      | zero =>
        rw [basicEnd]
        apply yields_ite (fun _ => hlonger true 0)
        intro _
        apply yields_ite
        · intro _
          apply yields_ite
          · intro _
            exact yields_error.mpr ⟨_, rfl⟩
          · exact fun _ => hlonger false 0
        intro _
        apply yields_ite
        · intro _
          exact yields_error.mpr ⟨_, rfl⟩
        intro _
        apply yields_ite
        · intro hc
          rw [hc]
          exact yields_ok.mpr ⟨List.suffix_rfl, rfl⟩
        · exact fun _ => hlonger false 0

theorem tripleEscapes_yields (lineno : ℕ) (q : CString) (escape : Bool) (hexreq : ℕ) (p : CString) :
    Yields (tripleEscapes lineno q escape hexreq p) (fun _ => True)
      (fun e => ∃ msg, e = .syntaxError lineno msg) := by
  constructor
  · exact fun _ _ => trivial
  intro e he
  induction p generalizing escape hexreq with
  | nil =>
    cases escape <;> simp only [tripleEscapes] at he <;> split_ifs at he <;> cases he <;>
      exact ⟨_, rfl⟩
  | cons c p ih =>
    cases escape with
    | true =>
      rw [tripleEscapes] at he
      split_ifs at he
      · exact ih _ _ he
      · exact ih _ _ he
      · exact ih _ _ he
      · exact ih _ _ he
      · cases he
        exact ⟨_, rfl⟩
    | false =>
      cases hexreq with
      | zero =>
        rw [tripleEscapes] at he
        exact ih _ _ he
      | succ hexreq =>
        rw [tripleEscapes] at he
        split_ifs at he
        · exact ih _ _ he
        · cases he
          exact ⟨_, rfl⟩

theorem timestampLength_le (p : CString) : timestampLength p ≤ p.length := by
  have hspaces := (List.dropWhile_suffix (· = ' ') (l := (p.takeWhile timestampChar).reverse)).length_le
  have htake := (List.takeWhile_prefix timestampChar (l := p)).length_le
  rw [List.length_reverse] at hspaces
  exact hspaces.trans htake

/-- The token ends behind the last three quotes, so in the text. -/
theorem lastTriple_end {c : Char} {p q : CString} (hq : q <:+ p.drop 3) (hthree : 3 ≤ q.length) :
    p.length - (lastTriple c q).length + 3 ≤ p.length := by
  obtain ⟨hsuffix, hlength⟩ := lastTriple_suffix c q hthree
  have hle := (hsuffix.trans hq).length_le
  rw [List.length_drop] at hle
  omega

/-- A string token begins where it is looked for and ends in the text. -/
theorem scanString_yields (p : CString) (lineno : ℕ) (dotisspecial : Bool) :
    Yields (scanString p lineno dotisspecial)
      (fun t => t = stringToken lineno p t.len ∧ t.len ≤ p.length)
      (fun e => ∃ msg, e = .syntaxError lineno msg) := by
  unfold scanString
  apply yields_ite
  · intro _
    cases hq : strstr "'''".toList (p.drop 3) with
    | none => exact yields_error.mpr ⟨_, rfl⟩
    | some q =>
      obtain ⟨hsuffix, hprefix⟩ := strstr_suffix hq
      exact yields_ok.mpr ⟨rfl, lastTriple_end hsuffix hprefix.length_le⟩
  intro _
  apply yields_ite
  · intro _
    cases hq : closingTriple '"' (p.drop 3) with
    | none => exact yields_error.mpr ⟨_, rfl⟩
    | some q =>
      obtain ⟨hsuffix, hprefix⟩ := closingTriple_suffix hq
      apply (tripleEscapes_yields ..).bind
      intro _ _
      exact yields_pure.mpr ⟨rfl, lastTriple_end hsuffix hprefix.length_le⟩
  intro _
  apply yields_ite
  · intro _
    cases hq : (p.drop 1).dropWhile (fun c => c ≠ '\n' ∧ c ≠ '\'') with
    | nil => exact yields_error.mpr ⟨_, rfl⟩
    | cons c q =>
      apply yields_ite
      · intro _
        exact yields_error.mpr ⟨_, rfl⟩
      · intro _
        exact yields_ok.mpr ⟨rfl, Nat.sub_le ..⟩
  intro _
  apply yields_ite
  · intro _
    apply (basicEnd_yields ..).bind
    rintro q ⟨hsuffix, hhead⟩
    refine yields_pure.mpr ⟨rfl, ?_⟩
    have hpos : 0 < q.length := List.length_pos_iff.mpr (by rintro rfl; cases hhead)
    have hle := hsuffix.length_le
    rw [List.length_drop] at hle
    simp only [stringToken]
    omega
  intro _
  apply yields_ite
  · intro _
    exact yields_ok.mpr ⟨rfl, timestampLength_le p⟩
  · intro _
    exact yields_ok.mpr ⟨rfl, (List.takeWhile_prefix _).length_le⟩

end Scanning

/-- The character begins no token of another kind than a string. -/
structure BeginsString (dotisspecial : Bool) (c : Char) : Prop where
  comment : c ≠ '#'
  dot : ¬ (dotisspecial = true ∧ c = '.')
  punctuation : punctuation c = none
  blank : ¬ (c = '\r' ∨ c = ' ' ∨ c = '\t')

/-- The kinds of tokens that `next_token` makes. -/
inductive Shape : Token → Prop
  | eof (lineno : ℕ) : Shape (eofToken lineno)
  | char (tok : TokenType) (lineno : ℕ) (c : Char) (p : CString) (h : tok ≠ .string) :
      Shape (charToken tok lineno (c :: p))
  | string (t : Token) (dotisspecial : Bool) (c : Char) (p : CString) (hptr : t.ptr = c :: p)
      (hc : BeginsString dotisspecial c) (h : scanString (c :: p) t.lineno dotisspecial = .ok t) :
      Shape t

section Shape
variable {t : Token}

theorem Shape.len_le (h : Shape t) : t.len ≤ t.ptr.length := by
  cases h with
  | eof lineno => exact Nat.zero_le _
  | char tok lineno c p h => exact Nat.succ_le_succ (Nat.zero_le _)
  | string t dotisspecial c p hptr hc h =>
    rw [hptr]
    exact ((scanString_yields ..).value h).2

theorem Shape.string_scanned (h : Shape t) (ht : t.tok = .string) : ∃ dotisspecial c p,
    t.ptr = c :: p ∧ BeginsString dotisspecial c ∧ scanString (c :: p) t.lineno dotisspecial = .ok t := by
  cases h with
  | eof lineno => cases ht
  | char tok lineno c p h => exact absurd ht h
  | string t dotisspecial c p hptr hc h => exact ⟨dotisspecial, c, p, hptr, hc, h⟩

theorem Shape.len_eq (h : Shape t) (ht : t.tok ≠ .string) (heof : t.eof = false) : t.len = 1 := by
  cases h with
  | eof lineno => cases heof
  | char tok lineno c p h => rfl
  | string t dotisspecial c p hptr hc h =>
    rw [((scanString_yields ..).value h).1] at ht
    exact absurd rfl ht

theorem Shape.newline_of_eof (h : Shape t) (heof : t.eof = true) : t.tok = .newline := by
  cases h with
  | eof lineno => rfl
  | char tok lineno c p h => cases heof
  | string t dotisspecial c p hptr hc h =>
    rw [((scanString_yields ..).value h).1] at heof
    cases heof

end Shape

theorem punctuation_ne_string {c : Char} {tok : TokenType} (h : punctuation c = some tok) :
    tok ≠ .string := by
  unfold punctuation at h
  rintro rfl
  split_ifs at h <;> cases h

/-- The next token stands behind some text in the same line. -/
theorem makeToken_yields (lineno : ℕ) (dotisspecial comment : Bool) (p : CString) :
    Yields (makeToken lineno dotisspecial comment p)
      (fun t => ∃ skipped, p = skipped ++ t.ptr ∧ '\n' ∉ skipped ∧ t.lineno = lineno ∧ Shape t)
      (fun e => ∃ msg, e = .syntaxError lineno msg) := by
  induction p generalizing comment with
  | nil =>
    cases comment <;> exact yields_ok.mpr ⟨[], rfl, List.not_mem_nil, rfl, .eof lineno⟩
  | cons c p ih =>
    have hskip : ∀ comment, c ≠ '\n' → Yields (makeToken lineno dotisspecial comment p)
        (fun t => ∃ skipped, c :: p = skipped ++ t.ptr ∧ '\n' ∉ skipped ∧ t.lineno = lineno ∧ Shape t)
        (fun e => ∃ msg, e = .syntaxError lineno msg) := by
      intro comment hc
      apply (ih comment).weaken
      rintro t ⟨skipped, rfl, hline, hlineno, hshape⟩
      exact ⟨c :: skipped, rfl, by simp [hc.symm, hline], hlineno, hshape⟩
    cases comment with
    | true =>
      rw [makeToken]
      apply yields_ite
      · intro _
        exact yields_ok.mpr ⟨[], rfl, List.not_mem_nil, rfl, .char _ _ c p nofun⟩
      · exact hskip true
    | false =>
      rw [makeToken]
      apply yields_ite
      · intro hc
        exact hskip true (by rw [hc]; decide)
      intro hcomment
      apply yields_ite
      · intro _
        exact yields_ok.mpr ⟨[], rfl, List.not_mem_nil, rfl, .char _ _ c p nofun⟩
      intro hdot
      cases hpunctuation : punctuation c with
      | some tok =>
        exact yields_ok.mpr ⟨[], rfl, List.not_mem_nil, rfl,
          .char _ _ c p (punctuation_ne_string hpunctuation)⟩
      | none =>
        apply yields_ite
        · intro hblank
          apply hskip false
          rintro rfl
          revert hblank
          decide
        · intro hblank
          have hscan := scanString_yields (c :: p) lineno dotisspecial
          constructor
          · intro t ht
            have hlineno : t.lineno = lineno := by rw [(hscan.value ht).1]; rfl
            have hptr : t.ptr = c :: p := by rw [(hscan.value ht).1]; rfl
            refine ⟨[], hptr.symm, List.not_mem_nil, hlineno, ?_⟩
            rw [← hlineno] at ht
            exact .string t dotisspecial c p hptr ⟨hcomment, hdot, hpunctuation, hblank⟩ ht
          · exact fun e he => hscan.failure he

def lines (conf : CString) : ℕ := 1 + conf.count '\n'

/-- A token lies in the text, in the line that it names. -/
structure Placed (conf : CString) (t : Token) : Prop where
  inside : ∃ before, conf = before ++ t.ptr ∧ t.lineno = 1 + before.count '\n'
  len_le : t.len ≤ t.ptr.length

/-- An error of the reader that names a line names one of the text. -/
def Located (conf : CString) : TomlError → Prop
  | .syntaxError lineno _ | .badKey lineno | .keyExists lineno => 1 ≤ lineno ∧ lineno ≤ lines conf
  | .internal => True
  | .endless | .dangling => False

section Next
variable {conf : CString} {t : Token}

theorem Placed.lineno_mem (h : Placed conf t) : 1 ≤ t.lineno ∧ t.lineno ≤ lines conf := by
  obtain ⟨before, rfl, hlineno⟩ := h.inside
  rw [hlineno, lines, List.count_append]
  omega

theorem placed_first (conf : CString) : Placed conf (firstToken conf) :=
  ⟨⟨[], rfl, rfl⟩, Nat.zero_le _⟩

theorem nextToken_yields (h : Placed conf t) (dotisspecial : Bool) :
    Yields (nextToken t dotisspecial)
      (fun t' => Placed conf t' ∧ Shape t' ∧ t'.ptr.length + t.len ≤ t.ptr.length)
      (Located conf) := by
  obtain ⟨before, hconf, hlineno⟩ := h.inside
  have hsplit : t.ptr = t.text ++ t.ptr.drop t.len := (List.take_append_drop t.len t.ptr).symm
  have hline : t.lineno + t.text.count '\n' = 1 + (before ++ t.text).count '\n' := by
    rw [List.count_append, hlineno]
    omega
  apply (makeToken_yields ..).mono
  · rintro t' ⟨skipped, hdrop, hskipped, hlineno', hshape⟩
    have hcount : skipped.count '\n' = 0 := List.count_eq_zero.mpr hskipped
    refine ⟨⟨⟨before ++ t.text ++ skipped, ?_, ?_⟩, hshape.len_le⟩, hshape, ?_⟩
    · rw [hconf, List.append_assoc, List.append_assoc, ← hdrop, ← hsplit]
    · rw [hlineno', hline, @List.count_append _ _ _ _ skipped, hcount, Nat.add_zero]
    · have hlength := congrArg List.length hdrop
      rw [List.length_drop, List.length_append] at hlength
      have hle := h.len_le
      omega
  · rintro e ⟨msg, rfl⟩
    simp only [Located, lines]
    rw [hline, hconf, hsplit, ← List.append_assoc, @List.count_append _ _ _ _ (t.ptr.drop t.len)]
    omega

theorem scanString_dot {p : CString} {lineno : ℕ} (h : scanString ('.' :: p) lineno false = .ok t) :
    t.len ≠ 0 := by
  have hliteral : literalChar false '.' = true := by decide
  have hdigit : isdigit '.' = false := by decide
  simp [scanString, List.isPrefixOf, scanDate, scanTime, scanDigits, hdigit, hliteral] at h
  rw [← h]
  exact Nat.succ_ne_zero _

/-- Behind an empty string there is a string again. -/
theorem nextToken_empty (hshape : Shape t) (ht : t.tok = .string) (hlen : t.len = 0)
    (dotisspecial : Bool) : Yields (nextToken t dotisspecial) (fun t' => t'.tok = .string)
      (fun _ => True) := by
  obtain ⟨dotisspecial', c, p, hptr, hc, hscan⟩ := hshape.string_scanned ht
  have hdot : ¬ (dotisspecial = true ∧ c = '.') := by
    rintro ⟨-, rfl⟩
    cases dotisspecial' with
    | true => exact hc.dot ⟨rfl, rfl⟩
    | false => exact scanString_dot hscan hlen
  unfold nextToken
  rw [hptr, hlen, List.drop_zero, makeToken, if_neg hc.comment, if_neg hdot, hc.punctuation]
  simp only [if_neg hc.blank]
  apply (scanString_yields ..).mono
  · rintro t' ⟨ht', -⟩
    rw [ht']
    rfl
  · exact fun _ _ => trivial

end Next

end DistillerFS.Toml
