import DistillerFS.Toml.Tables

/-!
# The recursive descent

Each function of the parser takes some of the text and leaves well-formed tables. It never
runs out of steps and follows no pointer that leads nowhere.
-/
namespace DistillerFS.Toml
open Foundations

section Tokens
variable {conf : CString} {t t' : Token} {typ : TokenType}

theorem Shape.eof_of_nil (h : Shape t) (hptr : t.ptr = []) : t.eof = true := by
  cases h with
  | eof lineno => rfl
  | char tok lineno c p h => cases hptr
  | string t dotisspecial c p hc _ _ =>
    rw [hptr] at hc
    cases hc

theorem Shape.nil_of_eof (h : Shape t) (heof : t.eof = true) : t.ptr = [] := by
  cases h with
  | eof lineno => rfl
  | char tok lineno c p h => cases heof
  | string t dotisspecial c p hptr hc h =>
    rw [((scanString_yields ..).value h).1] at heof
    cases heof

/-- A token that `next_token` has set. -/
structure Current (conf : CString) (t : Token) : Prop where
  placed : Placed conf t
  shape : Shape t

/-- The second token comes after the first one. -/
structure Follows (conf : CString) (t t' : Token) : Prop where
  current : Current conf t'
  left : t'.ptr.length + t.len ≤ t.ptr.length
  text : t.tok = .string → t'.tok ≠ .string → 0 < t.len

theorem nextToken_follows (h : Current conf t) (dotisspecial : Bool) :
    Yields (nextToken t dotisspecial) (Follows conf t) (Located conf) := by
  have hnext := nextToken_yields h.placed dotisspecial
  constructor
  · intro t' ht'
    obtain ⟨hplaced, hshape, hleft⟩ := hnext.value ht'
    refine ⟨⟨hplaced, hshape⟩, hleft, ?_⟩
    intro ht hstring
    by_contra hlen
    exact hstring ((nextToken_empty h.shape ht (by omega) dotisspecial).value ht')
  · exact fun e he => hnext.failure he

theorem eatToken_follows (h : Current conf t) (typ : TokenType) (isdotspecial : Bool) :
    Yields (eatToken t typ isdotspecial) (fun t' => t.tok = typ ∧ Follows conf t t')
      (Located conf) := by
  unfold eatToken
  apply yields_ite
  · intro _
    exact yields_error.mpr trivial
  · intro htok
    exact (nextToken_follows h isdotspecial).weaken fun t' ht' => ⟨not_not.mp htok, ht'⟩

theorem Current.lt_of_follows (h : Current conf t) (hf : Follows conf t t') (hstring : t.tok ≠ .string)
    (heof : t.eof = false) : t'.ptr.length < t.ptr.length := by
  have hlen := h.shape.len_eq hstring heof
  have hleft := hf.left
  omega

theorem Current.not_eof (h : Current conf t) (hnewline : t.tok ≠ .newline) : t.eof = false := by
  by_contra heof
  exact hnewline (h.shape.newline_of_eof (Bool.eq_true_of_not_eq_false heof))

theorem Follows.le (h : Follows conf t t') : t'.ptr.length ≤ t.ptr.length := by
  have hleft := h.left
  omega

theorem Follows.lt_of_string (h : Follows conf t t') (ht : t.tok = .string) (ht' : t'.tok ≠ .string) :
    t'.ptr.length < t.ptr.length := by
  have hlen := h.text ht ht'
  have hleft := h.left
  omega

/-- A string behind which no string stands is a value. -/
theorem Current.rawValue (h : Current conf t) (ht : t.tok = .string) (hf : Follows conf t t')
    (ht' : t'.tok ≠ .string) : RawValue conf t.text := by
  obtain ⟨dotisspecial, c, p, hptr, -, hscan⟩ := h.shape.string_scanned ht
  rw [← hptr] at hscan
  constructor
  · intro htext
    have hlen := congrArg List.length htext
    rw [Token.text, List.length_take, List.length_nil] at hlen
    have hpos := hf.text ht ht'
    have hle := h.shape.len_le
    omega
  · exact ⟨t, dotisspecial, h.placed, hscan, rfl⟩

theorem skipNewlines_yields (h : Current conf t) (isdotspecial : Bool) {fuel : ℕ}
    (hfuel : t.ptr.length < fuel) : Yields (skipNewlines isdotspecial fuel t)
      (fun t' => Current conf t' ∧ t'.ptr.length ≤ t.ptr.length ∧ (t.tok ≠ .newline → t' = t))
      (Located conf) := by
  induction fuel generalizing t with
  | zero => omega
  | succ fuel ih =>
    rw [skipNewlines]
    apply yields_ite
    · intro hnewline
      apply (nextToken_follows h isdotspecial).bind
      intro t' hf
      have hskip : t.tok ≠ .newline → t' = t := fun hne => absurd hnewline hne
      apply yields_ite
      · intro _
        exact yields_pure.mpr ⟨hf.current, hf.le, hskip⟩
      · intro heof'
        -- a line break at the end of the text would be followed by the end
        have heof : t.eof = false := by
          by_contra heof
          have hnil := h.shape.nil_of_eof (Bool.eq_true_of_not_eq_false heof)
          have hle := hf.le
          rw [hnil] at hle
          exact heof' (hf.current.shape.eof_of_nil (List.length_eq_zero_iff.mp (Nat.le_zero.mp hle)))
        have hlt := h.lt_of_follows hf (by rw [hnewline]; decide) heof
        apply (ih hf.current (by omega)).weaken
        rintro t'' ⟨hcurrent, hle, -⟩
        exact ⟨hcurrent, by omega, fun hne => absurd hnewline hne⟩
    · intro _
      exact yields_ok.mpr ⟨h, le_rfl, fun _ => rfl⟩

end Tokens

section Keys
variable {conf : CString} {t : Token} {tab : Table}

theorem normalizeKey_yields (h : Placed conf t) :
    Yields (normalizeKey t) (fun _ => True) (Located conf) := by
  have hbad : Located conf (.badKey t.lineno) := h.lineno_mem
  unfold normalizeKey
  apply yields_ite
  · intro _
    refine Yields.bind (P := fun _ => True) ?_ ?_
    · apply yields_ite
      · intro _
        exact yields_ok.mpr trivial
      · intro _
        split
        · exact yields_error.mpr h.lineno_mem
        · exact yields_ok.mpr trivial
    · intro ret _
      exact yields_ite (fun _ => yields_error.mpr hbad) (fun _ => yields_ok.mpr trivial)
  · intro _
    exact yields_ite (fun _ => yields_ok.mpr trivial) (fun _ => yields_error.mpr hbad)

/-- What `check_key` finds is in the table. -/
theorem checkKey_absent {key : CString} (h : checkKey tab key = .absent) : key ∉ tab.keys := by
  unfold checkKey at h
  split at h
  · cases h
  · cases h
  · cases h
  · apply not_mem_keys <;> assumption

theorem checkKey_array {key : CString} {a : Arr} (h : checkKey tab key = .array a) :
    tab.arr.lookup key = some a := by
  unfold checkKey at h
  split at h <;> cases h
  assumption

theorem checkKey_table {key : CString} {sub : Table} (h : checkKey tab key = .table sub) :
    tab.tab.lookup key = some sub := by
  unfold checkKey at h
  split at h <;> cases h
  assumption

theorem createKeyval_yields (h : Placed conf t) (htab : TableOk conf tab) (raw : CString) :
    Yields (createKeyval tab t raw) (fun tab' => RawValue conf raw → Grown conf tab tab')
      (Located conf) := by
  unfold createKeyval
  apply (normalizeKey_yields h).bind
  intro key _
  cases hfound : checkKey tab key with
  | absent =>
    have hkey := checkKey_absent hfound
    exact yields_pure.mpr fun hraw => ⟨htab.add_kval hkey hraw, keeps_addEntry hkey (.val raw)⟩
  | value raw' => exact yields_error.mpr h.lineno_mem
  | array a => exact yields_error.mpr h.lineno_mem
  | table sub => exact yields_error.mpr h.lineno_mem

/-- The table has an entry with the key that is returned. -/
theorem createKeytable_yields (h : Placed conf t) (htab : TableOk conf tab) :
    Yields (createKeytable tab t)
      (fun r => Grown conf tab r.1 ∧ ∃ sub, r.1.tab.lookup r.2 = some sub) (Located conf) := by
  unfold createKeytable
  apply (normalizeKey_yields h).bind
  intro key _
  cases hfound : checkKey tab key with
  | absent =>
    have hkey := checkKey_absent hfound
    refine yields_pure.mpr
      ⟨⟨htab.add_tab hkey tableOk_empty, keeps_addEntry hkey (.tab .empty)⟩, .empty, ?_⟩
    apply lookup_append_of_not_mem
    intro hmem
    exact hkey (List.mem_append_right _ hmem)
  | value raw' => exact yields_error.mpr h.lineno_mem
  | array a => exact yields_error.mpr h.lineno_mem
  | table dest =>
    have hlookup := checkKey_table hfound
    have hdest := htab.tab _ (mem_of_lookup hlookup)
    apply yields_ite
    · intro _
      have hgrown : Grown conf dest (dest.setImplicit false) :=
        ⟨hdest.setImplicit false, keeps_of_find_eq fun _ => rfl⟩
      exact yields_pure.mpr ⟨htab.grown.replace_tab hlookup hgrown, _, lookup_replace hlookup⟩
    · intro _
      exact yields_error.mpr h.lineno_mem

theorem dottedTable_yields (h : Placed conf t) (htab : TableOk conf tab) :
    Yields (dottedTable tab t)
      (fun r => Grown conf tab r.1 ∧ ∃ sub, r.1.tab.lookup r.2 = some sub) (Located conf) := by
  unfold dottedTable
  apply (normalizeKey_yields h).bind
  intro name _
  apply yields_ite
  · intro hsome
    exact yields_pure.mpr ⟨htab.grown, Option.isSome_iff_exists.mp hsome⟩
  · intro _
    exact createKeytable_yields h htab

theorem createKeyarray_yields (h : Placed conf t) (htab : TableOk conf tab) {a : Arr}
    (ha : ArrOk conf a) : Yields (createKeyarray tab t a)
      (fun r => Grown conf tab r.1 ∧ r.1.arr.lookup r.2 = some a) (Located conf) := by
  unfold createKeyarray
  apply (normalizeKey_yields h).bind
  intro key _
  cases hfound : checkKey tab key with
  | absent =>
    have hkey := checkKey_absent hfound
    refine yields_pure.mpr ⟨⟨htab.add_arr hkey ha, keeps_addEntry hkey (.arr a)⟩, ?_⟩
    apply lookup_append_of_not_mem
    intro hmem
    exact hkey (List.mem_append_left _ (List.mem_append_right _ hmem))
  | value raw' => exact yields_error.mpr h.lineno_mem
  | array a => exact yields_error.mpr h.lineno_mem
  | table sub => exact yields_error.mpr h.lineno_mem

end Keys

section Descent
variable {conf : CString} {fuel : ℕ} {t : Token} {tab : Table} {arr : Arr} {α : Type}

/-- Text was taken, and what was read is well formed unless a string comes next: an empty
string is not yet known to be a mistake. -/
structure Parsed (conf : CString) (left : ℕ) (P : α → Prop) (r : Token × α) : Prop where
  current : Current conf r.1
  left : r.1.ptr.length < left
  ok : r.1.tok ≠ .string → P r.2

/-- The functions with so many steps, each with the steps that it may need. -/
structure Sound (conf : CString) (fuel : ℕ) : Prop where
  keyval : ∀ {t : Token} {tab : Table}, Current conf t → TableOk conf tab → 2 * t.ptr.length + 1 < fuel →
    Yields (parseKeyval fuel t tab) (Parsed conf t.ptr.length (Grown conf tab)) (Located conf)
  inlineTable : ∀ {t : Token} {tab : Table}, Current conf t → TableOk conf tab →
    2 * t.ptr.length + 1 < fuel → Yields (parseInlineTable fuel t tab)
      (fun r => Parsed conf t.ptr.length (Grown conf tab) r ∧ Grown conf tab r.2) (Located conf)
  entries : ∀ {t : Token} {tab : Table}, Current conf t → TableOk conf tab → 2 * t.ptr.length + 2 < fuel →
    Yields (parseEntries fuel t tab) (Parsed conf (t.ptr.length + 1) (Grown conf tab)) (Located conf)
  array : ∀ {t : Token} {arr : Arr}, Current conf t → ArrOk conf arr → 2 * t.ptr.length + 1 < fuel →
    Yields (parseArray fuel t arr)
      (fun r => Parsed conf t.ptr.length (ArrOk conf) r ∧ ArrOk conf r.2) (Located conf)
  elements : ∀ {t : Token} {arr : Arr}, Current conf t → ArrOk conf arr → 2 * t.ptr.length + 2 < fuel →
    Yields (parseElements fuel t arr) (Parsed conf (t.ptr.length + 1) (ArrOk conf)) (Located conf)

/-- The value or the table behind `=`. -/
theorem sound_keyval (h : Sound conf fuel) (ht : Current conf t) (htab : TableOk conf tab)
    (hfuel : 2 * t.ptr.length + 1 < fuel + 1) :
    Yields (parseKeyval (fuel + 1) t tab) (Parsed conf t.ptr.length (Grown conf tab)) (Located conf) := by
  rw [parseKeyval]
  apply yields_ite
  · intro _
    exact yields_error.mpr ht.placed.lineno_mem
  intro _
  apply (eatToken_follows ht .string true).bind
  rintro t₁ ⟨hstring, hf₁⟩
  have ht₁ := hf₁.current
  apply yields_ite
  · intro hdot
    have hlt₁ := hf₁.lt_of_string hstring (by rw [hdot]; decide)
    apply (dottedTable_yields ht.placed htab).bind
    rintro ⟨tab', name⟩ ⟨htab', sub, hsub⟩
    apply (nextToken_follows ht₁ true).bind
    intro t₂ hf₂
    have hle₂ := hf₂.le
    simp only [hsub]
    apply (h.keyval hf₂.current (htab'.ok.tab _ (mem_of_lookup hsub)) (by omega)).bind
    rintro ⟨t₃, sub'⟩ hsub'
    have hlt₃ := hsub'.left
    exact yields_pure.mpr ⟨hsub'.current, by simp only at hlt₃ ⊢; omega,
      fun hne => htab'.replace_tab hsub (hsub'.ok hne)⟩
  intro _
  apply yields_ite
  · intro _
    exact yields_error.mpr ht₁.placed.lineno_mem
  intro hequal
  have hequal := not_not.mp hequal
  have hlt₁ := hf₁.lt_of_string hstring (by rw [hequal]; decide)
  apply (nextToken_follows ht₁ false).bind
  intro t₂ hf₂
  have ht₂ := hf₂.current
  have hlt₂ := ht₁.lt_of_follows hf₂ (by rw [hequal]; decide) (ht₁.not_eof (by rw [hequal]; decide))
  cases htok : t₂.tok with
  | string =>
    apply (createKeyval_yields ht.placed htab t₂.text).bind
    intro tab' htab'
    apply (nextToken_follows ht₂ true).bind
    intro t₃ hf₃
    have hle₃ := hf₃.le
    exact yields_pure.mpr ⟨hf₃.current, by simp only; omega,
      fun hne => htab' (ht₂.rawValue htok hf₃ hne)⟩
  | lbracket =>
    apply (createKeyarray_yields ht.placed htab (arrOk_nil .unset)).bind
    rintro ⟨tab', name⟩ ⟨htab', hempty⟩
    apply (h.array ht₂ (arrOk_nil .unset) (by omega)).bind
    rintro ⟨t₃, arr⟩ ⟨harr, harrOk⟩
    have hlt₃ := harr.left
    exact yields_pure.mpr ⟨harr.current, by simp only at hlt₃ ⊢; omega,
      fun _ => htab'.replace_arr hempty harrOk (keeps_nil _ _)⟩
  | lbrace =>
    apply (createKeytable_yields ht.placed htab).bind
    rintro ⟨tab', name⟩ ⟨htab', sub, hsub⟩
    simp only [hsub]
    apply (h.inlineTable ht₂ (htab'.ok.tab _ (mem_of_lookup hsub)) (by omega)).bind
    rintro ⟨t₃, sub'⟩ ⟨hsub', hsubOk⟩
    have hlt₃ := hsub'.left
    exact yields_pure.mpr ⟨hsub'.current, by simp only at hlt₃ ⊢; omega,
      fun _ => htab'.replace_tab hsub hsubOk⟩
  | dot => exact yields_error.mpr ht₂.placed.lineno_mem
  | comma => exact yields_error.mpr ht₂.placed.lineno_mem
  | equal => exact yields_error.mpr ht₂.placed.lineno_mem
  | rbrace => exact yields_error.mpr ht₂.placed.lineno_mem
  | newline => exact yields_error.mpr ht₂.placed.lineno_mem
  | rbracket => exact yields_error.mpr ht₂.placed.lineno_mem

theorem sound_inlineTable (h : Sound conf fuel) (ht : Current conf t) (htab : TableOk conf tab)
    (hfuel : 2 * t.ptr.length + 1 < fuel + 1) : Yields (parseInlineTable (fuel + 1) t tab)
      (fun r => Parsed conf t.ptr.length (Grown conf tab) r ∧ Grown conf tab r.2) (Located conf) := by
  rw [parseInlineTable]
  apply (eatToken_follows ht .lbrace true).bind
  rintro t₁ ⟨hlbrace, hf₁⟩
  have hlt₁ := ht.lt_of_follows hf₁ (by rw [hlbrace]; decide) (ht.not_eof (by rw [hlbrace]; decide))
  apply (h.entries hf₁.current htab (by omega)).bind
  rintro ⟨t₂, tab'⟩ hentries
  have hlt₂ := hentries.left
  apply (eatToken_follows hentries.current .rbrace true).bind
  rintro t₃ ⟨hrbrace, hf₃⟩
  have hle₃ := hf₃.le
  have hgrown := hentries.ok (by rw [hrbrace]; decide)
  have htab' : Grown conf tab tab'.setReadonly :=
    ⟨hgrown.ok.setReadonly, hgrown.keeps.trans (keeps_of_find_eq fun _ => rfl)⟩
  exact yields_pure.mpr ⟨⟨hf₃.current, by simp only at hlt₂ hle₃ ⊢; omega, fun _ => htab'⟩, htab'⟩

theorem sound_entries (h : Sound conf fuel) (ht : Current conf t) (htab : TableOk conf tab)
    (hfuel : 2 * t.ptr.length + 2 < fuel + 1) : Yields (parseEntries (fuel + 1) t tab)
      (Parsed conf (t.ptr.length + 1) (Grown conf tab)) (Located conf) := by
  rw [parseEntries]
  apply yields_ite
  · intro _
    exact yields_error.mpr ht.placed.lineno_mem
  intro _
  apply yields_ite
  · intro _
    exact yields_ok.mpr ⟨ht, Nat.lt_succ_self _, fun _ => htab.grown⟩
  intro _
  apply yields_ite
  · intro _
    exact yields_error.mpr ht.placed.lineno_mem
  intro _
  apply (h.keyval ht htab (by omega)).bind
  rintro ⟨t₁, tab'⟩ hkeyval
  have hlt₁ : t₁.ptr.length < t.ptr.length := hkeyval.left
  apply yields_ite
  · intro _
    exact yields_error.mpr hkeyval.current.placed.lineno_mem
  intro _
  apply yields_ite
  · intro hcomma
    have htab' := hkeyval.ok (by rw [hcomma]; decide)
    apply (eatToken_follows hkeyval.current .comma true).bind
    rintro t₂ ⟨-, hf₂⟩
    have hle₂ : t₂.ptr.length ≤ t₁.ptr.length := hf₂.le
    apply (h.entries hf₂.current htab'.ok (by omega)).weaken
    intro r hr
    have hlt := hr.left
    exact ⟨hr.current, by omega, fun hne => htab'.trans (hr.ok hne)⟩
  · intro _
    exact yields_pure.mpr ⟨hkeyval.current, by simp only; omega, hkeyval.ok⟩

theorem sound_array (h : Sound conf fuel) (ht : Current conf t) (harr : ArrOk conf arr)
    (hfuel : 2 * t.ptr.length + 1 < fuel + 1) : Yields (parseArray (fuel + 1) t arr)
      (fun r => Parsed conf t.ptr.length (ArrOk conf) r ∧ ArrOk conf r.2) (Located conf) := by
  rw [parseArray]
  apply (eatToken_follows ht .lbracket false).bind
  rintro t₁ ⟨hlbracket, hf₁⟩
  have hlt₁ := ht.lt_of_follows hf₁ (by rw [hlbracket]; decide)
    (ht.not_eof (by rw [hlbracket]; decide))
  apply (h.elements hf₁.current harr (by omega)).bind
  rintro ⟨t₂, arr'⟩ helements
  have hlt₂ := helements.left
  apply (eatToken_follows helements.current .rbracket true).bind
  rintro t₃ ⟨hrbracket, hf₃⟩
  have hle₃ := hf₃.le
  have harr' := helements.ok (by rw [hrbracket]; decide)
  exact yields_pure.mpr ⟨⟨hf₃.current, by simp only at hlt₂ hle₃ ⊢; omega, fun _ => harr'⟩, harr'⟩

/-- An element of an array: a string, an array or a table. -/
theorem sound_element (h : Sound conf fuel) (ht : Current conf t) (harr : ArrOk conf arr)
    (hfuel : 2 * t.ptr.length + 1 < fuel) :
    Yields (parseElement (parseArray fuel) (parseInlineTable fuel) t arr)
      (Parsed conf (t.ptr.length + 1) (ArrOk conf)) (Located conf) := by
  unfold parseElement
  cases htok : t.tok with
  | string =>
    apply (eatToken_follows ht .string false).bind
    rintro t₁ ⟨-, hf₁⟩
    have hle₁ := hf₁.le
    refine yields_pure.mpr ⟨hf₁.current, by simp only; omega, ?_⟩
    exact fun hne => harr.add ⟨_, rfl⟩ (.val _ (ht.rawValue htok hf₁ hne))
  | lbracket =>
    apply (h.array ht (arrOk_nil .unset) (by omega)).bind
    rintro ⟨t₁, sub⟩ ⟨hsub, hsubOk⟩
    have hlt₁ := hsub.left
    exact yields_pure.mpr ⟨hsub.current, by simp only at hlt₁ ⊢; omega,
      fun _ => harr.add ⟨_, rfl⟩ (.arr _ hsubOk)⟩
  | lbrace =>
    apply (h.inlineTable ht tableOk_empty (by omega)).bind
    rintro ⟨t₁, sub⟩ ⟨hsub, hsubOk⟩
    have hlt₁ := hsub.left
    exact yields_pure.mpr ⟨hsub.current, by simp only at hlt₁ ⊢; omega,
      fun _ => harr.add ⟨_, rfl⟩ (.tab _ hsubOk.ok)⟩
  | dot => exact yields_error.mpr ht.placed.lineno_mem
  | comma => exact yields_error.mpr ht.placed.lineno_mem
  | equal => exact yields_error.mpr ht.placed.lineno_mem
  | rbrace => exact yields_error.mpr ht.placed.lineno_mem
  | newline => exact yields_error.mpr ht.placed.lineno_mem
  | rbracket => exact yields_error.mpr ht.placed.lineno_mem

theorem sound_elements (h : Sound conf fuel) (ht : Current conf t) (harr : ArrOk conf arr)
    (hfuel : 2 * t.ptr.length + 2 < fuel + 1) : Yields (parseElements (fuel + 1) t arr)
      (Parsed conf (t.ptr.length + 1) (ArrOk conf)) (Located conf) := by
  rw [parseElements]
  apply (skipNewlines_yields ht false (by omega)).bind
  rintro t₁ ⟨ht₁, hle₁, -⟩
  apply yields_ite
  · intro _
    exact yields_pure.mpr ⟨ht₁, by simp only; omega, fun _ => harr⟩
  intro _
  apply (sound_element h ht₁ harr (by omega)).bind
  rintro ⟨t₂, arr'⟩ helement
  have hlt₂ := helement.left
  apply (skipNewlines_yields helement.current false (by simp only; omega)).bind
  rintro t₃ ⟨ht₃, hle₃, hskip⟩
  have harr' : t₃.tok ≠ .string → ArrOk conf arr' := by
    intro hne
    apply helement.ok
    intro hstring
    apply hne
    rw [hskip (by rw [hstring]; decide), hstring]
  simp only at hlt₂ hle₃
  apply yields_ite
  · intro hcomma
    apply (eatToken_follows ht₃ .comma false).bind
    rintro t₄ ⟨-, hf₄⟩
    have hlt₄ := ht₃.lt_of_follows hf₄ (by rw [hcomma]; decide)
      (ht₃.not_eof (by rw [hcomma]; decide))
    apply (h.elements hf₄.current (harr' (by rw [hcomma]; decide)) (by omega)).weaken
    intro r hr
    have hlt := hr.left
    exact ⟨hr.current, by omega, hr.ok⟩
  · intro _
    exact yields_pure.mpr ⟨ht₃, by simp only; omega, harr'⟩

/-- The induction is on the steps that are left. -/
theorem sound (conf : CString) (fuel : ℕ) : Sound conf fuel := by
  induction fuel with
  | zero =>
    constructor <;> intros <;> omega
  | succ fuel ih =>
    exact ⟨fun ht htab => sound_keyval ih ht htab, fun ht htab => sound_inlineTable ih ht htab,
      fun ht htab => sound_entries ih ht htab, fun ht harr => sound_array ih ht harr,
      fun ht harr => sound_elements ih ht harr⟩

end Descent

end DistillerFS.Toml
