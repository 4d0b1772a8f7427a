import DistillerFS.Toml.Quoting

/-!
# Writing values

Strings, arrays and tables as they are written in a file, and what the parser is to make of
them. Keys are bare where they can be.
-/
namespace DistillerFS.Toml

inductive Value where
  | str (s : CString)
  | arr (vs : List Value)
  | tab (es : List (CString × Value))

/-- A character of a bare key. -/
def bareChar (c : Char) : Bool := isalnum c || c = '_' || c = '-'

/-- A key that needs no quotes and does not look like a date. -/
def bareKey (k : CString) : Bool := k.all bareChar && !(k.headD '0' |> isdigit)

def renderKey (k : CString) : CString := if bareKey k then k else quote k

mutual

def renderValue : Value → CString
  | .str s => quote s
  | .arr vs => '[' :: (renderItems [] vs ++ [']'])
  | .tab es => '{' :: (renderEntries [] es ++ ['}'])

def renderItems (sep : CString) : List Value → CString
  | [] => []
  | v :: vs => sep ++ (renderValue v ++ renderItems [',', ' '] vs)

def renderEntries (sep : CString) : List (CString × Value) → CString
  | [] => []
  | (k, v) :: es =>
    sep ++ (renderKey k ++ (' ' :: '=' :: ' ' :: (renderValue v ++ renderEntries [',', ' '] es)))

end

def renderEntry (k : CString) (v : Value) : CString :=
  renderKey k ++ (' ' :: '=' :: ' ' :: renderValue v)

def Value.kind : Value → ArrayKind
  | .str _ => .value
  | .arr _ => .array
  | .tab _ => .table

mutual

/-- The value as the parser keeps it. -/
def Value.item : Value → Item
  | .str s => .val (quote s)
  | .arr vs => .arr (itemsOf .empty vs)
  | .tab es => .tab (entriesOf .empty es).setReadonly

def itemsOf (a : Arr) : List Value → Arr
  | [] => a
  | v :: vs => itemsOf (a.add v.kind v.item) vs

def entriesOf (t : Table) : List (CString × Value) → Table
  | [] => t
  | (k, v) :: es => entriesOf (addEntry t k v.item) es

end

/-- A key that the parser accepts. -/
structure KeyOk (k : CString) : Prop where
  nul : '\x00' ∉ k
  line : '\n' ∉ k

/-- No key stands twice in a table, and no string has a NUL. -/
inductive Value.Ok : Value → Prop
  | str (s : CString) (h : '\x00' ∉ s) : Ok (.str s)
  | arr (vs : List Value) (h : ∀ v ∈ vs, v.Ok) : Ok (.arr vs)
  | tab (es : List (CString × Value)) (nodup : (es.map Prod.fst).Nodup) (hkeys : ∀ e ∈ es, KeyOk e.1)
      (h : ∀ e ∈ es, e.2.Ok) : Ok (.tab es)

structure EntriesOk (es : List (CString × Value)) : Prop where
  nodup : (es.map Prod.fst).Nodup
  key : ∀ e ∈ es, KeyOk e.1
  value : ∀ e ∈ es, e.2.Ok

section Tokens
variable {c : Char} {tok : TokenType} {k w p rest : CString}

theorem makeToken_punctuation (h : punctuation c = some tok) (lineno : ℕ) (dotisspecial : Bool)
    (p : CString) :
    makeToken lineno dotisspecial false (c :: p) = .ok (charToken tok lineno (c :: p)) := by
  have hcomment : c ≠ '#' := by rintro rfl; cases h
  have hdot : ¬ (dotisspecial = true ∧ c = '.') := by rintro ⟨-, rfl⟩; cases h
  rw [makeToken, if_neg hcomment, if_neg hdot, h]

theorem makeToken_space (lineno : ℕ) (dotisspecial : Bool) (p : CString) :
    makeToken lineno dotisspecial false (' ' :: p) = makeToken lineno dotisspecial false p := by
  rw [makeToken, if_neg (by decide), if_neg (by simp)]
  rfl

theorem punctuation_ne_quote (h : punctuation c = some tok) (p : CString) :
    (c :: p).head? ≠ some '"' := by
  intro hhead
  cases hhead
  cases h

theorem nextToken_char (tok : TokenType) (lineno : ℕ) (hc : c ≠ '\n') (p : CString)
    (dotisspecial : Bool) :
    nextToken (charToken tok lineno (c :: p)) dotisspecial = makeToken lineno dotisspecial false p := by
  have hcount : (charToken tok lineno (c :: p)).text.count '\n' = 0 :=
    List.count_eq_zero.mpr (by simp [charToken, Token.text, hc.symm])
  rw [nextToken, hcount]
  rfl

theorem nextToken_string (lineno : ℕ) (hw : '\n' ∉ w) (rest : CString) (dotisspecial : Bool) :
    nextToken (stringToken lineno (w ++ rest) w.length) dotisspecial =
      makeToken lineno dotisspecial false rest := by
  have htext : (stringToken lineno (w ++ rest) w.length).text = w := List.take_left
  have hdrop : (stringToken lineno (w ++ rest) w.length).ptr.drop w.length = rest := List.drop_left
  rw [nextToken, htext, List.count_eq_zero.mpr hw]
  exact congrArg (makeToken lineno dotisspecial false) hdrop

/-- What is written between quotes has no control characters. -/
theorem quote_plain {d : Char} (hd : controlChar d = true) (s : CString) : d ∉ quote s := by
  have hne : ∀ c, controlChar c = false → d ≠ c := by
    rintro c hc rfl
    cases hd.symm.trans hc
  have hhex : ∀ n < 16, controlChar (hexChar n) = false := by decide
  have hquote : d ≠ '"' := hne _ (by decide)
  have hbackslash : d ≠ '\\' := hne _ (by decide)
  have hbody : d ∉ quoteBody s := by
    intro hmem
    obtain ⟨c, -, hc⟩ := List.mem_flatMap.mp hmem
    rcases quoteChar_cases c with ⟨h, hquoted⟩ | ⟨h, hcontrol⟩ | ⟨h, -, -, -, hplain⟩
    · rw [h] at hc
      rcases hquoted with rfl | rfl <;> simp [hquote, hbackslash] at hc
    · have hu : d ≠ 'u' := hne _ (by decide)
      have hzero : d ≠ '0' := hne _ (by decide)
      have hhigh := hne _ (hhex (c.toNat / 16) (by omega))
      have hlow := hne _ (hhex (c.toNat % 16) (by omega))
      rw [h] at hc
      simp [hbackslash, hu, hzero, hhigh, hlow] at hc
    · rw [h] at hc
      exact hne c hplain (List.mem_singleton.mp hc)
  simp [quote, hbody, hquote]

theorem quote_line (s : CString) : '\n' ∉ quote s := quote_plain newline_control s

theorem makeToken_quote (lineno : ℕ) (dotisspecial : Bool) (s : CString)
    (h : rest.head? ≠ some '"') : makeToken lineno dotisspecial false (quote s ++ rest) =
      .ok (stringToken lineno (quote s ++ rest) (quote s).length) := by
  rw [← scanString_quote lineno dotisspecial s h, quote_append, makeToken, if_neg (by decide),
    if_neg (by simp)]
  rfl

theorem bareChar_ne {d : Char} (hc : bareChar c = true) (hd : bareChar d = false) : c ≠ d := by
  rintro rfl
  rw [hc] at hd
  cases hd

theorem isdigit_literal (h : '0' ≤ c ∧ c ≤ '9') : "0123456789+-_.".toList.contains c = true := by
  have hlow : 48 ≤ c.toNat := h.1
  have hhigh : c.toNat ≤ 57 := h.2
  rw [← Char.ofNat_toNat c]
  interval_cases c.toNat <;> decide

theorem bareChar_literal (hc : bareChar c = true) : literalChar true c = true := by
  have hdot : c ≠ '.' := bareChar_ne hc (by decide)
  rw [literalChar, if_neg (by simp [hdot])]
  simp only [bareChar, isalnum, Bool.or_eq_true, Bool.and_eq_true, decide_eq_true_eq] at hc ⊢
  rcases hc with ((hletter | hdigit) | rfl) | rfl
  · exact Or.inl hletter
  · exact Or.inr (isdigit_literal hdigit)
  · decide
  · decide

/-- A bare key begins no other token, and the scanner takes all of it. -/
theorem makeToken_bare (lineno : ℕ) (hk : bareKey k = true)
    (hrest : ∀ c ∈ rest.head?, literalChar true c = false) :
    makeToken lineno true false (k ++ rest) = .ok (stringToken lineno (k ++ rest) k.length) := by
  rw [bareKey, Bool.and_eq_true, List.all_eq_true] at hk
  obtain ⟨hall, hdigit⟩ := hk
  have htake : ((k ++ rest).takeWhile (literalChar true)).length = k.length := by
    have hk : ∀ c ∈ k, literalChar true c = true := fun c hc => bareChar_literal (hall c hc)
    have hstop : rest.takeWhile (literalChar true) = [] := by
      cases rest with
      | nil => rfl
      | cons c rest => rw [List.takeWhile_cons, hrest c rfl]; rfl
    rw [List.takeWhile_append_of_pos hk, hstop, List.append_nil]
  cases k with
  | nil => cases hdigit
  | cons c k =>
    have hc := hall c List.mem_cons_self
    have hdigit : isdigit c = false := by simpa using hdigit
    have hne : ∀ d, bareChar d = false → c ≠ d := fun d hd => bareChar_ne hc hd
    have hpunctuation : punctuation c = none := by
      unfold punctuation
      rw [if_neg (hne _ (by decide)), if_neg (hne _ (by decide)), if_neg (hne _ (by decide)),
        if_neg (hne _ (by decide)), if_neg (hne _ (by decide)), if_neg (hne _ (by decide)),
        if_neg (hne _ (by decide))]
    have hblank : ¬ (c = '\r' ∨ c = ' ' ∨ c = '\t') := by
      rintro (h | h | h)
      · exact hne _ (by decide) h
      · exact hne _ (by decide) h
      · exact hne _ (by decide) h
    have hsingle : c ≠ '\'' := hne _ (by decide)
    have hdouble : c ≠ '"' := hne _ (by decide)
    have hscan : scanString (c :: k ++ rest) lineno true =
        .ok (stringToken lineno (c :: k ++ rest) ((c :: k ++ rest).takeWhile (literalChar true)).length) := by
      simp [scanString, List.isPrefixOf, scanDate, scanTime, scanDigits, hdigit, hsingle, hdouble,
        hsingle.symm, hdouble.symm]
    rw [htake] at hscan
    rw [← hscan, List.cons_append, makeToken, if_neg (hne _ (by decide)),
      if_neg (fun h => hne '.' (by decide) h.2), hpunctuation]
    simp only [if_neg hblank]

def keyToken (k : CString) (lineno : ℕ) (rest : CString) : Token :=
  stringToken lineno (renderKey k ++ rest) (renderKey k).length

def valueToken (v : Value) (lineno : ℕ) (rest : CString) : Token :=
  match v with
  | .str s => stringToken lineno (quote s ++ rest) (quote s).length
  | .arr vs => charToken .lbracket lineno ('[' :: (renderItems [] vs ++ ']' :: rest))
  | .tab es => charToken .lbrace lineno ('{' :: (renderEntries [] es ++ '}' :: rest))

@[simp] theorem charToken_ptr (tok : TokenType) (lineno : ℕ) (p : CString) :
    (charToken tok lineno p).ptr = p := rfl

@[simp] theorem keyToken_lineno (k : CString) (lineno : ℕ) (rest : CString) :
    (keyToken k lineno rest).lineno = lineno := rfl

def EndsKey (c : Char) : Prop := literalChar true c = false ∧ c ≠ '"'

theorem makeToken_key (lineno : ℕ) (k : CString) (hc : EndsKey c) (p : CString) :
    makeToken lineno true false (renderKey k ++ c :: p) = .ok (keyToken k lineno (c :: p)) := by
  unfold keyToken renderKey
  cases hk : bareKey k with
  | true =>
    apply makeToken_bare lineno hk
    intro d hd
    cases hd
    exact hc.1
  | false =>
    apply makeToken_quote
    simpa using hc.2

theorem renderKey_line (hk : KeyOk k) : '\n' ∉ renderKey k := by
  unfold renderKey
  cases bareKey k with
  | true => exact hk.line
  | false => exact quote_line k

theorem nextToken_key (hk : KeyOk k) (lineno : ℕ) (rest : CString) (dotisspecial : Bool) :
    nextToken (keyToken k lineno rest) dotisspecial = makeToken lineno dotisspecial false rest :=
  nextToken_string lineno (renderKey_line hk) rest dotisspecial

theorem normalizeKey_key (hk : KeyOk k) (lineno : ℕ) (rest : CString) :
    normalizeKey (keyToken k lineno rest) = .ok k := by
  unfold keyToken renderKey
  cases hbare : bareKey k with
  | false => exact normalizeKey_quote lineno hk.nul hk.line
  | true =>
    simp only [if_true]
    rw [bareKey, Bool.and_eq_true, List.all_eq_true] at hbare
    have htext : (stringToken lineno (k ++ rest) k.length).text = k := List.take_left
    have hquote : ∀ d, bareChar d = false → k.head? ≠ some d :=
      fun d hd hhead => bareChar_ne (hbare.1 d (List.mem_of_mem_head? hhead)) hd rfl
    have hall : k.all (fun c => isalnum c || c = '_' || c = '-') = true :=
      List.all_eq_true.mpr hbare.1
    unfold normalizeKey
    simp only [htext]
    rw [if_neg (not_or.mpr ⟨hquote _ (by decide), hquote _ (by decide)⟩), if_pos hall]

theorem makeToken_value (v : Value) (lineno : ℕ) (dotisspecial : Bool) (h : rest.head? ≠ some '"') :
    makeToken lineno dotisspecial false (renderValue v ++ rest) = .ok (valueToken v lineno rest) := by
  cases v with
  | str s =>
    rw [renderValue]
    exact makeToken_quote lineno dotisspecial s h
  | arr vs =>
    rw [renderValue, List.cons_append, List.append_assoc]
    exact makeToken_punctuation rfl lineno dotisspecial _
  | tab es =>
    rw [renderValue, List.cons_append, List.append_assoc]
    exact makeToken_punctuation rfl lineno dotisspecial _

end Tokens

section Entries
variable {k : CString} {t : Table} {item : Item} {α : Type} {a b : α} {es : List (CString × α)}

theorem EntriesOk.tail {e : CString × Value} {es : List (CString × Value)} (h : EntriesOk (e :: es)) :
    EntriesOk es :=
  ⟨(List.nodup_cons.mp h.nodup).2, fun e he => h.key e (List.mem_cons_of_mem _ he),
    fun e he => h.value e (List.mem_cons_of_mem _ he)⟩

/-- The keys that come later are still new. -/
theorem EntriesOk.new_tail {v : Value} {es : List (CString × Value)} (h : EntriesOk ((k, v) :: es))
    (hnew : ∀ e ∈ (k, v) :: es, e.1 ∉ t.keys) : ∀ e ∈ es, e.1 ∉ (addEntry t k item).keys := by
  intro e he hmem
  rcases mem_addEntry_keys.mp hmem with hkey | hmem
  · have hmem : e.1 ∈ es.map Prod.fst := List.mem_map_of_mem he
    rw [hkey] at hmem
    exact (List.nodup_cons.mp h.nodup).1 hmem
  · exact hnew e (List.mem_cons_of_mem _ he) hmem

theorem renderItems_sep (sep : CString) (v : Value) (vs : List Value) :
    renderItems sep (v :: vs) = sep ++ renderItems [] (v :: vs) := by
  simp [renderItems]

theorem renderEntries_sep (sep : CString) (e : CString × Value) (es : List (CString × Value)) :
    renderEntries sep (e :: es) = sep ++ renderEntries [] (e :: es) := by
  simp [renderEntries]

end Entries

end DistillerFS.Toml
