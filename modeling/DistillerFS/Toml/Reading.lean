import DistillerFS.Toml.Values

/-!
# Reading values

What was written is read back by the recursive descent, whatever stands behind it.
-/
namespace DistillerFS.Toml
open Foundations

section Steps
variable {c : Char} {tok : TokenType} {p rest : CString} {lineno : ℕ}

theorem eatToken_char (tok : TokenType) (lineno : ℕ) (hc : c ≠ '\n') (p : CString)
    (isdotspecial : Bool) : eatToken (charToken tok lineno (c :: p)) tok isdotspecial =
      makeToken lineno isdotspecial false p := by
  unfold eatToken
  rw [if_neg (fun hne => hne rfl), nextToken_char tok lineno hc]

theorem skipNewlines_char (htok : tok ≠ .newline) (lineno : ℕ) (p : CString) (isdotspecial : Bool)
    (fuel : ℕ) :
    skipNewlines isdotspecial (fuel + 1) (charToken tok lineno p) = .ok (charToken tok lineno p) := by
  rw [skipNewlines]
  exact if_neg htok

theorem valueToken_tok (v : Value) (lineno : ℕ) (rest : CString) :
    (valueToken v lineno rest).tok ≠ .newline ∧ (valueToken v lineno rest).tok ≠ .rbracket := by
  cases v <;> exact ⟨nofun, nofun⟩

theorem skipNewlines_value (v : Value) (lineno : ℕ) (rest : CString) (isdotspecial : Bool)
    (fuel : ℕ) : skipNewlines isdotspecial (fuel + 1) (valueToken v lineno rest) =
      .ok (valueToken v lineno rest) := by
  rw [skipNewlines, if_neg (valueToken_tok v lineno rest).1]

end Steps

section Entries
variable {k : CString} {tab : Table}

theorem ends_blank : EndsKey ' ' := ⟨by decide, by decide⟩

theorem firstEntry (es : List (CString × Value)) (lineno : ℕ) (q : CString) :
    ∃ t, makeToken lineno true false (renderEntries [] es ++ '}' :: q) = .ok t := by
  cases es with
  | nil => exact ⟨_, makeToken_punctuation rfl ..⟩
  | cons e es =>
    apply Exists.intro
    rw [renderEntries, List.nil_append, List.append_assoc]
    exact makeToken_key lineno e.1 ends_blank _

theorem firstItem (vs : List Value) (lineno : ℕ) (q : CString) :
    ∃ t, makeToken lineno false false (renderItems [] vs ++ ']' :: q) = .ok t := by
  cases vs with
  | nil => exact ⟨_, makeToken_punctuation rfl ..⟩
  | cons v vs =>
    apply Exists.intro
    rw [renderItems, List.nil_append, List.append_assoc]
    apply makeToken_value
    cases vs with
    | nil => simp [renderItems]
    | cons v' vs => simp [renderItems]

theorem createKeyval_new (hk : KeyOk k) (hnew : k ∉ tab.keys) (lineno : ℕ) (rest raw : CString) :
    createKeyval tab (keyToken k lineno rest) raw = .ok (tab.setKval (tab.kval ++ [(k, raw)])) := by
  unfold createKeyval
  rw [normalizeKey_key hk, ok_bind, checkKey_of_not_mem hnew]
  rfl

theorem createKeyarray_new (hk : KeyOk k) (hnew : k ∉ tab.keys) (lineno : ℕ) (rest : CString) (a : Arr) :
    createKeyarray tab (keyToken k lineno rest) a = .ok (tab.setArr (tab.arr ++ [(k, a)]), k) := by
  unfold createKeyarray
  rw [normalizeKey_key hk, ok_bind, checkKey_of_not_mem hnew]
  rfl

theorem createKeytable_new (hk : KeyOk k) (hnew : k ∉ tab.keys) (lineno : ℕ) (rest : CString) :
    createKeytable tab (keyToken k lineno rest) = .ok (tab.setTab (tab.tab ++ [(k, .empty)]), k) := by
  unfold createKeytable
  rw [normalizeKey_key hk, ok_bind, checkKey_of_not_mem hnew]
  rfl

end Entries

/-- What is left behind an element: the end, or a comma and the next one. -/
structure Reads (fuel : ℕ) : Prop where
  keyval : ∀ {k : CString} {v : Value} {tab : Table} {tok : TokenType} {c : Char} (lineno : ℕ)
    {p : CString}, KeyOk k → v.Ok → punctuation c = some tok → k ∉ tab.keys → tab.readonly = false →
    2 * (renderEntry k v ++ c :: p).length + 1 < fuel →
    parseKeyval fuel (keyToken k lineno (' ' :: '=' :: ' ' :: (renderValue v ++ c :: p))) tab =
      .ok (charToken tok lineno (c :: p), addEntry tab k v.item)
  inlineTable : ∀ {es : List (CString × Value)} {tok : TokenType} {c : Char} (lineno : ℕ) {p : CString},
    EntriesOk es → punctuation c = some tok →
    2 * ('{' :: (renderEntries [] es ++ '}' :: c :: p)).length + 1 < fuel →
    parseInlineTable fuel (charToken .lbrace lineno ('{' :: (renderEntries [] es ++ '}' :: c :: p))) .empty =
      .ok (charToken tok lineno (c :: p), (entriesOf .empty es).setReadonly)
  entries : ∀ {es : List (CString × Value)} {tab : Table} {t : Token} (lineno : ℕ) {q : CString},
    EntriesOk es → (∀ e ∈ es, e.1 ∉ tab.keys) → tab.readonly = false →
    2 * (renderEntries [] es ++ '}' :: q).length + 2 < fuel →
    makeToken lineno true false (renderEntries [] es ++ '}' :: q) = .ok t →
    parseEntries fuel t tab = .ok (charToken .rbrace lineno ('}' :: q), entriesOf tab es)
  array : ∀ {vs : List Value} {tok : TokenType} {c : Char} (lineno : ℕ) {p : CString},
    (∀ v ∈ vs, v.Ok) → punctuation c = some tok →
    2 * ('[' :: (renderItems [] vs ++ ']' :: c :: p)).length + 1 < fuel →
    parseArray fuel (charToken .lbracket lineno ('[' :: (renderItems [] vs ++ ']' :: c :: p))) .empty =
      .ok (charToken tok lineno (c :: p), itemsOf .empty vs)
  elements : ∀ {vs : List Value} {arr : Arr} {t : Token} (lineno : ℕ) {q : CString},
    (∀ v ∈ vs, v.Ok) → 2 * (renderItems [] vs ++ ']' :: q).length + 2 < fuel →
    makeToken lineno false false (renderItems [] vs ++ ']' :: q) = .ok t →
    parseElements fuel t arr = .ok (charToken .rbracket lineno (']' :: q), itemsOf arr vs)

section Steps
variable {fuel : ℕ} {c : Char} {tok : TokenType} {p q : CString} {lineno : ℕ} {tab : Table}
  {k : CString} {v : Value} {vs : List Value} {es : List (CString × Value)}

theorem Value.Ok.items (h : (Value.arr vs).Ok) : ∀ v ∈ vs, v.Ok := by
  cases h
  assumption

theorem Value.Ok.entries (h : (Value.tab es).Ok) : EntriesOk es := by
  cases h
  constructor <;> assumption

/-- The value behind a key and `=`. -/
theorem reads_keyval (h : Reads fuel) (hk : KeyOk k) (hv : v.Ok) (hc : punctuation c = some tok)
    (hnew : k ∉ tab.keys) (hwritable : tab.readonly = false)
    (hfuel : 2 * (renderEntry k v ++ c :: p).length + 1 < fuel + 1) :
    parseKeyval (fuel + 1) (keyToken k lineno (' ' :: '=' :: ' ' :: (renderValue v ++ c :: p))) tab =
      .ok (charToken tok lineno (c :: p), addEntry tab k v.item) := by
  have hnewtab : k ∉ tab.tab.map Prod.fst := fun hmem => hnew (List.mem_append_right _ hmem)
  have hnewarr : k ∉ tab.arr.map Prod.fst :=
    fun hmem => hnew (List.mem_append_left _ (List.mem_append_right _ hmem))
  have heat : eatToken (keyToken k lineno (' ' :: '=' :: ' ' :: (renderValue v ++ c :: p))) .string true =
      .ok (charToken .equal lineno ('=' :: (' ' :: (renderValue v ++ c :: p)))) := by
    unfold eatToken
    rw [if_neg (fun hne => hne rfl), nextToken_key hk]
    exact (makeToken_space ..).trans (makeToken_punctuation rfl ..)
  have hvalue : nextToken (charToken .equal lineno ('=' :: (' ' :: (renderValue v ++ c :: p)))) false =
      .ok (valueToken v lineno (c :: p)) := by
    rw [nextToken_char _ _ (by decide), makeToken_space]
    exact makeToken_value v lineno false (punctuation_ne_quote hc p)
  have hkey := @normalizeKey_key k hk lineno (' ' :: '=' :: ' ' :: (renderValue v ++ c :: p))
  have hlen : 2 * (renderValue v ++ c :: p).length + 1 < fuel := by
    simp only [renderEntry, List.length_append, List.length_cons] at hfuel ⊢
    omega
  rw [parseKeyval, if_neg (by rw [hwritable]; decide), heat, ok_bind, if_neg (by rintro ⟨⟩),
    if_neg (fun hne => hne rfl), hvalue, ok_bind]
  cases v with
  | str s =>
    have hnext : nextToken (valueToken (.str s) lineno (c :: p)) true = .ok (charToken tok lineno (c :: p)) :=
      (nextToken_string lineno (quote_line s) (c :: p) true).trans (makeToken_punctuation hc ..)
    have htext : (valueToken (.str s) lineno (c :: p)).text = quote s := List.take_left
    change (createKeyval tab _ _ >>= fun tab => nextToken (valueToken (.str s) lineno (c :: p)) true >>=
      fun t => pure (t, tab)) = _
    rw [htext, createKeyval_new hk hnew, ok_bind, hnext]
    rfl
  | arr vs =>
    rw [renderValue, List.cons_append, List.append_assoc] at hlen
    have harray := h.array lineno hv.items hc hlen
    change (createKeyarray tab _ _ >>= fun r => parseArray fuel (valueToken (.arr vs) lineno (c :: p)) .empty >>=
      fun s => pure (s.1, r.1.setArr (replace r.2 s.2 r.1.arr))) = _
    rw [createKeyarray_new hk hnew, ok_bind]
    change (parseArray fuel (charToken ..) .empty >>= _) = _
    rw [harray, ok_bind, Table.setArr_arr, replace_append_of_not_mem hnewarr]
    rfl
  | tab es =>
    rw [renderValue, List.cons_append, List.append_assoc] at hlen
    have htable := h.inlineTable lineno hv.entries hc hlen
    have hthere := @lookup_append_of_not_mem Table k .empty tab.tab hnewtab
    change (createKeytable tab _ >>= _) = _
    rw [createKeytable_new hk hnew, ok_bind]
    simp only [Table.setTab_tab, hthere]
    change (parseInlineTable fuel (charToken ..) .empty >>= _) = _
    rw [htable, ok_bind, replace_append_of_not_mem hnewtab]
    rfl

theorem reads_inlineTable (h : Reads fuel) (hes : EntriesOk es) (hc : punctuation c = some tok)
    (hfuel : 2 * ('{' :: (renderEntries [] es ++ '}' :: c :: p)).length + 1 < fuel + 1) :
    parseInlineTable (fuel + 1)
        (charToken .lbrace lineno ('{' :: (renderEntries [] es ++ '}' :: c :: p))) .empty =
      .ok (charToken tok lineno (c :: p), (entriesOf .empty es).setReadonly) := by
  obtain ⟨t, ht⟩ := firstEntry es lineno (c :: p)
  rw [List.length_cons] at hfuel
  have hnew : ∀ e ∈ es, e.1 ∉ Table.empty.keys := fun _ _ => List.not_mem_nil
  have hwritable : Table.empty.readonly = false := rfl
  have hentries := h.entries lineno hes hnew hwritable (by omega) ht
  have hclose : eatToken (charToken .rbrace lineno ('}' :: c :: p)) .rbrace true =
      .ok (charToken tok lineno (c :: p)) := by
    rw [eatToken_char _ _ (by decide), makeToken_punctuation hc]
  rw [parseInlineTable, eatToken_char _ _ (by decide), ht, ok_bind, hentries, ok_bind]
  change (eatToken (charToken .rbrace lineno ('}' :: c :: p)) .rbrace true >>= _) = _
  rw [hclose]
  rfl

/-- Behind an entry comes the end of the table, or a comma and the next entry. -/
theorem reads_entries (h : Reads fuel) {t : Token} (hes : EntriesOk es) (hnew : ∀ e ∈ es, e.1 ∉ tab.keys)
    (hwritable : tab.readonly = false)
    (hfuel : 2 * (renderEntries [] es ++ '}' :: q).length + 2 < fuel + 1)
    (ht : makeToken lineno true false (renderEntries [] es ++ '}' :: q) = .ok t) :
    parseEntries (fuel + 1) t tab = .ok (charToken .rbrace lineno ('}' :: q), entriesOf tab es) := by
  cases es with
  | nil =>
    have hbrace := (makeToken_punctuation (c := '}') rfl lineno true q).symm.trans ht
    cases hbrace
    rfl
  | cons e es =>
    obtain ⟨k, v⟩ := e
    have hk := hes.key (k, v) List.mem_cons_self
    have hv := hes.value (k, v) List.mem_cons_self
    have hnewk := hnew (k, v) List.mem_cons_self
    have hrest : renderEntries [] ((k, v) :: es) ++ '}' :: q =
        renderKey k ++ (' ' :: '=' :: ' ' :: (renderValue v ++ (renderEntries [',', ' '] es ++ '}' :: q))) := by
      simp [renderEntries]
    have hkey := makeToken_key lineno k ends_blank
      ('=' :: ' ' :: (renderValue v ++ (renderEntries [',', ' '] es ++ '}' :: q)))
    rw [hrest] at ht hfuel
    cases hkey.symm.trans ht
    rw [parseEntries, if_neg (by rintro ⟨⟩), if_neg (by rintro ⟨⟩), if_neg (fun hne => hne rfl)]
    have hlen : ∀ c p, renderEntries [',', ' '] es ++ '}' :: q = c :: p →
        2 * (renderEntry k v ++ c :: p).length + 1 < fuel := by
      intro c p hcons
      rw [hcons] at hfuel
      simp only [renderEntry, List.length_append, List.length_cons] at hfuel ⊢
      omega
    cases es with
    | nil =>
      have hkeyval := @Reads.keyval fuel h k v tab .rbrace '}' lineno q hk hv rfl hnewk hwritable
        (hlen '}' q rfl)
      change (parseKeyval fuel (keyToken k lineno (' ' :: '=' :: ' ' :: (renderValue v ++ '}' :: q))) tab >>= _) = _
      rw [hkeyval, ok_bind]
      exact (if_neg (by rintro ⟨⟩)).trans (if_neg (by rintro ⟨⟩))
    | cons e' es =>
      have hcons : renderEntries [',', ' '] (e' :: es) ++ '}' :: q =
          ',' :: ' ' :: (renderEntries [] (e' :: es) ++ '}' :: q) := by
        rw [renderEntries_sep]
        rfl
      have hkeyval := @Reads.keyval fuel h k v tab .comma ',' lineno _ hk hv rfl hnewk hwritable
        (hlen _ _ hcons)
      obtain ⟨t', ht'⟩ := firstEntry (e' :: es) lineno q
      rw [hcons] at hfuel ⊢
      have hentries := h.entries lineno hes.tail (hes.new_tail hnew) ((addEntry_readonly tab k v.item).trans hwritable)
        (by simp only [List.length_append, List.length_cons] at hfuel ⊢; omega) ht'
      change (parseKeyval fuel (keyToken k lineno (' ' :: '=' :: ' ' :: (renderValue v ++ ',' :: _))) tab >>=
        _) = _
      rw [hkeyval, ok_bind]
      change (eatToken (charToken .comma lineno _) .comma true >>= fun t => parseEntries fuel t _) = _
      rw [eatToken_char _ _ (by decide), makeToken_space, ht', ok_bind, hentries]
      rfl

theorem reads_array (h : Reads fuel) (hvs : ∀ v ∈ vs, v.Ok) (hc : punctuation c = some tok)
    (hfuel : 2 * ('[' :: (renderItems [] vs ++ ']' :: c :: p)).length + 1 < fuel + 1) :
    parseArray (fuel + 1) (charToken .lbracket lineno ('[' :: (renderItems [] vs ++ ']' :: c :: p))) .empty =
      .ok (charToken tok lineno (c :: p), itemsOf .empty vs) := by
  obtain ⟨t, ht⟩ := firstItem vs lineno (c :: p)
  rw [List.length_cons] at hfuel
  have helements := @Reads.elements fuel h vs .empty t lineno (c :: p) hvs (by omega) ht
  have hclose : eatToken (charToken .rbracket lineno (']' :: c :: p)) .rbracket true =
      .ok (charToken tok lineno (c :: p)) := by
    rw [eatToken_char _ _ (by decide), makeToken_punctuation hc]
  rw [parseArray, eatToken_char _ _ (by decide), ht, ok_bind, helements, ok_bind]
  change (eatToken (charToken .rbracket lineno (']' :: c :: p)) .rbracket true >>= _) = _
  rw [hclose]
  rfl

theorem reads_element (h : Reads fuel) {arr : Arr} (hv : v.Ok) (hc : punctuation c = some tok)
    (hfuel : 2 * (renderValue v ++ c :: p).length + 1 < fuel) :
    parseElement (parseArray fuel) (parseInlineTable fuel) (valueToken v lineno (c :: p)) arr =
      .ok (charToken tok lineno (c :: p), arr.add v.kind v.item) := by
  cases v with
  | str s =>
    have hnext : nextToken (valueToken (.str s) lineno (c :: p)) false = .ok (charToken tok lineno (c :: p)) :=
      (nextToken_string lineno (quote_line s) (c :: p) false).trans (makeToken_punctuation hc ..)
    have htext : (valueToken (.str s) lineno (c :: p)).text = quote s := List.take_left
    change (nextToken (valueToken (.str s) lineno (c :: p)) false >>= fun t =>
      pure (t, arr.add .value (.val (valueToken (.str s) lineno (c :: p)).text))) = _
    rw [hnext, htext]
    rfl
  | arr vs =>
    rw [renderValue, List.cons_append, List.append_assoc] at hfuel
    have harray := h.array lineno hv.items hc hfuel
    change (parseArray fuel (charToken ..) .empty >>= _) = _
    rw [harray]
    rfl
  | tab es =>
    rw [renderValue, List.cons_append, List.append_assoc] at hfuel
    have htable := h.inlineTable lineno hv.entries hc hfuel
    change (parseInlineTable fuel (charToken ..) .empty >>= _) = _
    rw [htable]
    rfl

/-- Behind an element comes the end of the array, or a comma and the next element. -/
theorem reads_elements (h : Reads fuel) {arr : Arr} {t : Token} (hvs : ∀ v ∈ vs, v.Ok)
    (hfuel : 2 * (renderItems [] vs ++ ']' :: q).length + 2 < fuel + 1)
    (ht : makeToken lineno false false (renderItems [] vs ++ ']' :: q) = .ok t) :
    parseElements (fuel + 1) t arr = .ok (charToken .rbracket lineno (']' :: q), itemsOf arr vs) := by
  cases vs with
  | nil =>
    have hbracket := (makeToken_punctuation (c := ']') rfl lineno false q).symm.trans ht
    cases hbracket
    rw [parseElements, skipNewlines_char (by decide)]
    rfl
  | cons v vs =>
    have hv := hvs v List.mem_cons_self
    have hrest : renderItems [] (v :: vs) ++ ']' :: q =
        renderValue v ++ (renderItems [',', ' '] vs ++ ']' :: q) := by
      simp [renderItems]
    have hhead : (renderItems [',', ' '] vs ++ ']' :: q).head? ≠ some '"' := by
      cases vs with
      | nil => simp [renderItems]
      | cons v' vs => simp [renderItems]
    rw [hrest] at ht hfuel
    cases (makeToken_value v lineno false hhead).symm.trans ht
    rw [parseElements, skipNewlines_value, ok_bind, if_neg (valueToken_tok ..).2]
    cases vs with
    | nil =>
      have helement := @reads_element fuel ']' .rbracket q lineno v h arr hv rfl
        (by simp only [renderItems, List.nil_append] at hfuel; omega)
      change (parseElement _ _ (valueToken v lineno (']' :: q)) arr >>= _) = _
      have hskip := @skipNewlines_char .rbracket (by decide) lineno (']' :: q) false
      rw [helement, ok_bind]
      simp only [hskip, ok_bind]
      rfl
    | cons v' vs =>
      have hcons : renderItems [',', ' '] (v' :: vs) ++ ']' :: q =
          ',' :: ' ' :: (renderItems [] (v' :: vs) ++ ']' :: q) := by
        rw [renderItems_sep]
        rfl
      rw [hcons] at hfuel ⊢
      have helement := @reads_element fuel ',' .comma (' ' :: (renderItems [] (v' :: vs) ++ ']' :: q))
        lineno v h arr hv rfl (by omega)
      obtain ⟨t', ht'⟩ := firstItem (v' :: vs) lineno q
      have helements := @Reads.elements fuel h (v' :: vs) (arr.add v.kind v.item) t' lineno q
        (fun w hw => hvs w (List.mem_cons_of_mem _ hw))
        (by simp only [List.length_append, List.length_cons] at hfuel ⊢; omega) ht'
      have hskip := @skipNewlines_char .comma (by decide) lineno
        (',' :: ' ' :: (renderItems [] (v' :: vs) ++ ']' :: q)) false
      rw [helement, ok_bind]
      simp only [hskip, ok_bind]
      change (eatToken (charToken .comma lineno _) .comma false >>= fun t => parseElements fuel t _) = _
      rw [eatToken_char _ _ (by decide), makeToken_space, ht', ok_bind, helements]
      rfl

/-- The induction is on the steps that are left. -/
theorem reads (fuel : ℕ) : Reads fuel := by
  induction fuel with
  | zero =>
    constructor <;> intros <;> omega
  | succ fuel ih =>
    exact ⟨fun _ _ => reads_keyval ih, fun _ _ => reads_inlineTable ih, fun _ _ => reads_entries ih,
      fun _ _ => reads_array ih, fun _ _ => reads_elements ih⟩

end Steps

end DistillerFS.Toml
