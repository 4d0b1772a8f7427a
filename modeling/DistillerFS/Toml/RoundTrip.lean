import DistillerFS.Toml.Document
import DistillerFS.Toml.Reading

/-!
# The round trip of a document

A document is written line by line: its own entries, and then its sections under their
headers. Parsing it gives back the tables, and following any path in them the strings.
-/
namespace DistillerFS.Toml
open Foundations

structure Document where
  entries : List (CString × Value)
  sections : List (CString × List (CString × Value))

def renderLines : List (CString × Value) → CString
  | [] => []
  | (k, v) :: es => renderKey k ++ (' ' :: '=' :: ' ' :: (renderValue v ++ '\n' :: renderLines es))

def renderSections : List (CString × List (CString × Value)) → CString
  | [] => []
  | (name, es) :: ss => '[' :: (renderKey name ++ ']' :: '\n' :: (renderLines es ++ renderSections ss))

def Document.render (d : Document) : CString := renderLines d.entries ++ renderSections d.sections

def sectionsOf (t : Table) : List (CString × List (CString × Value)) → Table
  | [] => t
  | (name, es) :: ss => sectionsOf (addEntry t name (.tab (entriesOf .empty es))) ss

def Document.table (d : Document) : Table := sectionsOf (entriesOf .empty d.entries) d.sections

/-- Entries and sections have different names. -/
structure Document.Ok (d : Document) : Prop where
  entries : EntriesOk d.entries
  names : ∀ s ∈ d.sections, KeyOk s.1
  sections : ∀ s ∈ d.sections, EntriesOk s.2
  nodup : (d.sections.map Prod.fst).Nodup
  disjoint : ∀ s ∈ d.sections, s.1 ∉ d.entries.map Prod.fst

section Lines
variable {root sub : Table} {t : Token} {q : CString} {lineno : ℕ} {es : List (CString × Value)}
  {way : List Step}

/-- The text has a first token, or none is left. -/
def Starts (q : CString) : Prop := ∀ lineno, ∃ t, makeToken lineno true false q = .ok t

theorem starts_lines (es : List (CString × Value)) (hq : Starts q) : Starts (renderLines es ++ q) := by
  cases es with
  | nil => exact hq
  | cons e es =>
    intro lineno
    apply Exists.intro
    rw [renderLines, List.append_assoc]
    exact makeToken_key lineno e.1 ends_blank _

theorem starts_sections (ss : List (CString × List (CString × Value))) : Starts (renderSections ss) := by
  intro lineno
  cases ss with
  | nil => exact ⟨_, rfl⟩
  | cons s ss => exact ⟨_, makeToken_punctuation rfl ..⟩

theorem nextToken_newline (lineno : ℕ) (p : CString) (dotisspecial : Bool) :
    nextToken (charToken .newline lineno ('\n' :: p)) dotisspecial =
      makeToken (lineno + 1) dotisspecial false p := rfl

theorem keyvalLine {k : CString} {v : Value} (hk : KeyOk k) (hv : v.Ok) (hsub : tableAt way root = some sub)
    (hnew : k ∉ sub.keys) (hwritable : sub.readonly = false) (q : CString) :
    modifyAt (parseKeyval
        (2 * (keyToken k lineno (' ' :: '=' :: ' ' :: (renderValue v ++ '\n' :: q))).ptr.length + 2)
        (keyToken k lineno (' ' :: '=' :: ' ' :: (renderValue v ++ '\n' :: q)))) way root =
      .ok (charToken .newline lineno ('\n' :: q), putAt (addEntry sub k v.item) way root) := by
  rw [modifyAt_eq _ hsub]
  have hlen : (keyToken k lineno (' ' :: '=' :: ' ' :: (renderValue v ++ '\n' :: q))).ptr.length =
      (renderEntry k v ++ '\n' :: q).length := by
    simp [keyToken, stringToken, renderEntry]
  rw [hlen]
  have hkeyval := (reads (2 * (renderEntry k v ++ '\n' :: q).length + 2)).keyval lineno hk hv
    (c := '\n') rfl hnew hwritable (Nat.lt_succ_self _)
  rw [hkeyval]
  rfl

/-- The lines of a table are read into it; what comes behind them starts from there. -/
theorem parseLines_entries (hes : EntriesOk es) (hsub : tableAt way root = some sub)
    (hnew : ∀ e ∈ es, e.1 ∉ sub.keys) (hwritable : sub.readonly = false) (hq : Starts q)
    (res : Except TomlError Table)
    (hrest : ∀ fuel t, q.length < fuel → makeToken (lineno + es.length) true false q = .ok t →
      parseLines fuel ⟨t, putAt (entriesOf sub es) way root, way⟩ = res)
    {fuel : ℕ} (hfuel : (renderLines es ++ q).length < fuel)
    (ht : makeToken lineno true false (renderLines es ++ q) = .ok t) :
    parseLines fuel ⟨t, root, way⟩ = res := by
  induction es generalizing lineno root sub fuel t with
  | nil =>
    have hself := hrest fuel t hfuel ht
    rwa [entriesOf, putAt_self hsub] at hself
  | cons e es ih =>
    obtain ⟨k, v⟩ := e
    have hk := hes.key (k, v) List.mem_cons_self
    have hv := hes.value (k, v) List.mem_cons_self
    have hlines : renderLines ((k, v) :: es) ++ q =
        renderKey k ++ (' ' :: '=' :: ' ' :: (renderValue v ++ '\n' :: (renderLines es ++ q))) := by
      simp [renderLines]
    rw [hlines] at hfuel ht
    cases (makeToken_key lineno k ends_blank _).symm.trans ht
    obtain ⟨t', ht'⟩ := starts_lines es hq (lineno + 1)
    obtain ⟨fuel, rfl⟩ := Nat.exists_eq_succ_of_ne_zero (Nat.ne_zero_of_lt hfuel)
    have hline := @keyvalLine root sub lineno way k v hk hv hsub (hnew (k, v) List.mem_cons_self)
      hwritable (renderLines es ++ q)
    have hthere : tableAt way (putAt (addEntry sub k v.item) way root) = some (addEntry sub k v.item) := by
      have hput := @tableAt_putAt root (addEntry sub k v.item) sub way [] hsub
      rwa [List.append_nil] at hput
    have hround : parseLine ⟨keyToken k lineno
        (' ' :: '=' :: ' ' :: (renderValue v ++ '\n' :: (renderLines es ++ q))), root, way⟩ =
        .ok ⟨t', putAt (addEntry sub k v.item) way root, way⟩ := by
      change (modifyAt (parseKeyval _ (keyToken k lineno
          (' ' :: '=' :: ' ' :: (renderValue v ++ '\n' :: (renderLines es ++ q))))) way root >>= fun r =>
        if r.1.tok ≠ .newline then .error (.syntaxError r.1.lineno "extra chars after value".toList)
        else eatToken r.1 .newline true >>= fun t => pure (Context.mk t r.2 way)) = _
      rw [hline, ok_bind, if_neg (fun hne => hne rfl)]
      unfold eatToken
      rw [if_neg (fun hne => hne rfl), nextToken_newline, ht']
      rfl
    rw [parseLines, if_neg (by rintro ⟨⟩), hround, ok_bind]
    apply ih hes.tail hthere (hes.new_tail hnew) ((addEntry_readonly sub k v.item).trans hwritable) _ _ ht'
    · intro fuel t hfuel ht
      rw [putAt_putAt _ hsub]
      rw [Nat.add_assoc, Nat.add_comm 1] at ht
      exact hrest fuel t hfuel ht
    · simp only [List.length_append, List.length_cons] at hfuel ⊢
      omega

end Lines

section Sections
variable {root : Table} {t : Token} {lineno : ℕ} {way : List Step} {name : CString}

theorem ends_bracket : EndsKey ']' := ⟨by decide, by decide⟩

theorem renderKey_not_bracket (k p : CString) : (renderKey k ++ ']' :: p).head? ≠ some '[' := by
  unfold renderKey
  cases hk : bareKey k with
  | false => simp [quote]
  | true =>
    rw [bareKey, Bool.and_eq_true, List.all_eq_true] at hk
    cases k with
    | nil => simp
    | cons c k =>
      have hc := bareChar_ne (hk.1 c List.mem_cons_self) (show bareChar '[' = false by decide)
      simpa using hc

theorem parseSelect_header (hname : KeyOk name) (hnew : name ∉ root.keys) (q : CString) :
    parseSelect (charToken .lbracket lineno ('[' :: (renderKey name ++ ']' :: '\n' :: q))) root =
      .ok (charToken .newline lineno ('\n' :: q), addEntry root name (.tab .empty), [.tab name]) := by
  have hllb : ¬ ('[' :: (renderKey name ++ ']' :: '\n' :: q))[1]? = some '[' := by
    rw [List.getElem?_cons_succ, ← List.head?_eq_getElem?]
    exact renderKey_not_bracket name _
  have hkey : eatToken (charToken .lbracket lineno ('[' :: (renderKey name ++ ']' :: '\n' :: q)))
      .lbracket true = .ok (keyToken name lineno (']' :: '\n' :: q)) := by
    rw [eatToken_char _ _ (by decide), makeToken_key lineno name ends_bracket]
  have hpath : fillTabpath lineno 10 (keyToken name lineno (']' :: '\n' :: q)) =
      .ok ([(name, keyToken name lineno (']' :: '\n' :: q))],
        charToken .rbracket lineno (']' :: '\n' :: q)) := by
    rw [fillTabpath, if_neg (fun hne => hne rfl), normalizeKey_key hname, ok_bind, nextToken_key hname,
      makeToken_punctuation rfl]
    rfl
  have hadd : addTable (keyToken name lineno (']' :: '\n' :: q)) root =
      .ok (.tab name, addEntry root name (.tab .empty)) := by
    rw [addTable, createKeytable_new hname hnew]
    rfl
  have hclose : eatToken (charToken .rbracket lineno (']' :: '\n' :: q)) .rbracket true =
      .ok (charToken .newline lineno ('\n' :: q)) := by
    rw [eatToken_char _ _ (by decide), makeToken_punctuation rfl]
  unfold parseSelect
  rw [hkey, ok_bind]
  simp only [charToken_ptr, hllb, eatSecond, decide_false, Bool.false_eq_true, if_false, ok_bind,
    keyToken_lineno, hpath]
  simp only [List.getLast?_singleton, List.dropLast_singleton, walkTabpath, ok_bind, modifyAt, hadd]
  rw [if_neg (fun hne => hne rfl), if_neg (fun hne => hne.1)]
  rw [hclose, ok_bind]
  rfl

/-- The entries of a new section, put into their table. -/
theorem putAt_section (hnew : name ∉ root.keys) (s : Table) :
    putAt s [.tab name] (addEntry root name (.tab .empty)) = addEntry root name (.tab s) := by
  have hmem : name ∉ root.tab.map Prod.fst := fun hmem => hnew (List.mem_append_right _ hmem)
  have hthere : (addEntry root name (.tab .empty)).tab.lookup name = some .empty :=
    lookup_append_of_not_mem hmem
  rw [putAt_tab hthere, putAt]
  change (root.setTab _).setTab (replace name s (root.tab ++ [(name, .empty)])) = _
  rw [replace_append_of_not_mem hmem]
  rfl

theorem tableAt_section (hnew : name ∉ root.keys) :
    tableAt [.tab name] (addEntry root name (.tab .empty)) = some .empty := by
  have hmem : name ∉ root.tab.map Prod.fst := fun hmem => hnew (List.mem_append_right _ hmem)
  rw [tableAt]
  change ((root.tab ++ [(name, Table.empty)]).lookup name).bind _ = _
  rw [lookup_append_of_not_mem hmem]
  rfl

/-- Two rounds of the loop: the header, and the line break behind it. -/
theorem parseLines_header (hname : KeyOk name) (hnew : name ∉ root.keys) {q : CString}
    (ht : makeToken (lineno + 1) true false q = .ok t) (fuel : ℕ) : parseLines (fuel + 2)
      ⟨charToken .lbracket lineno ('[' :: (renderKey name ++ ']' :: '\n' :: q)), root, way⟩ =
    parseLines fuel ⟨t, addEntry root name (.tab .empty), [.tab name]⟩ := by
  have hheader : parseLine
      ⟨charToken .lbracket lineno ('[' :: (renderKey name ++ ']' :: '\n' :: q)), root, way⟩ =
      .ok ⟨charToken .newline lineno ('\n' :: q), addEntry root name (.tab .empty), [.tab name]⟩ := by
    change (parseSelect _ root >>= fun r => pure (Context.mk r.1 r.2.1 r.2.2)) = _
    rw [parseSelect_header hname hnew]
    rfl
  have hbreak : parseLine
      ⟨charToken .newline lineno ('\n' :: q), addEntry root name (.tab .empty), [.tab name]⟩ =
      .ok ⟨t, addEntry root name (.tab .empty), [.tab name]⟩ := by
    change (nextToken (charToken .newline lineno _) true >>= fun t => pure (Context.mk t _ _)) = _
    rw [nextToken_newline, ht]
    rfl
  rw [parseLines, if_neg (by rintro ⟨⟩), hheader, ok_bind, parseLines, if_neg (by rintro ⟨⟩), hbreak,
    ok_bind]

theorem parseLines_eof (fuel : ℕ) (lineno : ℕ) (root : Table) (way : List Step) :
    parseLines (fuel + 1) ⟨eofToken lineno, root, way⟩ = .ok root := rfl

/-- The sections are read one after the other, each into a new table. -/
theorem parseLines_sections {ss : List (CString × List (CString × Value))} (hnames : ∀ s ∈ ss, KeyOk s.1)
    (hsections : ∀ s ∈ ss, EntriesOk s.2) (hnodup : (ss.map Prod.fst).Nodup)
    (hnew : ∀ s ∈ ss, s.1 ∉ root.keys) {fuel : ℕ} (hfuel : (renderSections ss).length < fuel)
    (ht : makeToken lineno true false (renderSections ss) = .ok t) :
    parseLines fuel ⟨t, root, way⟩ = .ok (sectionsOf root ss) := by
  induction ss generalizing lineno root fuel t way with
  | nil =>
    obtain ⟨fuel, rfl⟩ := Nat.exists_eq_succ_of_ne_zero (Nat.ne_zero_of_lt hfuel)
    have heof : makeToken lineno true false (renderSections []) = .ok (eofToken lineno) := rfl
    cases heof.symm.trans ht
    exact parseLines_eof fuel lineno root way
  | cons s ss ih =>
    obtain ⟨name, es⟩ := s
    have hname := hnames (name, es) List.mem_cons_self
    have hes : EntriesOk es := hsections (name, es) List.mem_cons_self
    have hnewname := hnew (name, es) List.mem_cons_self
    have hbracket := makeToken_punctuation (c := '[') rfl lineno true
      (renderKey name ++ ']' :: '\n' :: (renderLines es ++ renderSections ss))
    rw [renderSections] at hfuel ht
    cases hbracket.symm.trans ht
    rw [List.length_cons, List.length_append, List.length_cons, List.length_cons] at hfuel
    obtain ⟨fuel, rfl⟩ := Nat.exists_eq_succ_of_ne_zero (Nat.ne_zero_of_lt hfuel)
    obtain ⟨fuel, rfl⟩ := Nat.exists_eq_succ_of_ne_zero (show fuel ≠ 0 by omega)
    obtain ⟨t', ht'⟩ := starts_lines es (starts_sections ss) (lineno + 1)
    rw [parseLines_header hname hnewname ht']
    -- what comes behind the entries starts from the table with the section in it
    apply parseLines_entries hes (tableAt_section hnewname) (fun _ _ => List.not_mem_nil) rfl
      (starts_sections ss) _ _
      (by rw [List.length_append] at hfuel ⊢; omega) ht'
    intro fuel t hfuel ht
    rw [putAt_section hnewname, sectionsOf]
    apply ih (fun s hs => hnames s (List.mem_cons_of_mem _ hs))
      (fun s hs => hsections s (List.mem_cons_of_mem _ hs)) (List.nodup_cons.mp hnodup).2 _ hfuel ht
    intro s hs hmem
    rcases mem_addEntry_keys.mp hmem with hkey | hmem
    · have hmem : s.1 ∈ ss.map Prod.fst := List.mem_map_of_mem hs
      rw [hkey] at hmem
      exact (List.nodup_cons.mp hnodup).1 hmem
    · exact hnew s (List.mem_cons_of_mem _ hs) hmem

end Sections

section Terminated

theorem nul_control : controlChar '\x00' = true := by decide

theorem renderKey_nul (k : CString) : '\x00' ∉ renderKey k := by
  unfold renderKey
  cases hk : bareKey k with
  | false => exact quote_plain nul_control k
  | true =>
    rw [bareKey, Bool.and_eq_true, List.all_eq_true] at hk
    intro hmem
    exact bareChar_ne (hk.1 _ hmem) (show bareChar '\x00' = false by decide) rfl

mutual

theorem renderValue_nul : ∀ v : Value, '\x00' ∉ renderValue v
  | .str s => quote_plain nul_control s
  | .arr vs => by
    rw [renderValue]
    simp [renderItems_nul [] List.not_mem_nil vs]
  | .tab es => by
    rw [renderValue]
    simp [renderEntries_nul [] List.not_mem_nil es]

theorem renderItems_nul (sep : CString) (hsep : '\x00' ∉ sep) :
    ∀ vs : List Value, '\x00' ∉ renderItems sep vs
  | [] => List.not_mem_nil
  | v :: vs => by
    rw [renderItems]
    simp [hsep, renderValue_nul v, renderItems_nul [',', ' '] (by decide) vs]

theorem renderEntries_nul (sep : CString) (hsep : '\x00' ∉ sep) :
    ∀ es : List (CString × Value), '\x00' ∉ renderEntries sep es
  | [] => List.not_mem_nil
  | (k, v) :: es => by
    rw [renderEntries]
    simp [hsep, renderKey_nul k, renderValue_nul v, renderEntries_nul [',', ' '] (by decide) es]

end

theorem renderLines_nul (es : List (CString × Value)) : '\x00' ∉ renderLines es := by
  induction es with
  | nil => exact List.not_mem_nil
  | cons e es ih =>
    rw [renderLines]
    simp [renderKey_nul, renderValue_nul, ih]

theorem renderSections_nul (ss : List (CString × List (CString × Value))) :
    '\x00' ∉ renderSections ss := by
  induction ss with
  | nil => exact List.not_mem_nil
  | cons s ss ih =>
    rw [renderSections]
    simp [renderKey_nul, renderLines_nul, ih]

/-- A document that was written is read to its end. -/
theorem cString_render (d : Document) : cString d.render = d.render := by
  apply cString_eq
  simp [Document.render, renderLines_nul, renderSections_nul]

end Terminated

section Documents

theorem mem_entriesOf_keys {t : Table} {es : List (CString × Value)} {k : CString} :
    k ∈ (entriesOf t es).keys ↔ k ∈ t.keys ∨ k ∈ es.map Prod.fst := by
  induction es generalizing t with
  | nil => simp [entriesOf]
  | cons e es ih =>
    obtain ⟨k', v⟩ := e
    rw [entriesOf, ih, mem_addEntry_keys, List.map_cons, List.mem_cons]
    tauto

/-- A document that was written is parsed to its tables. -/
theorem tomlParse_document {d : Document} (hd : d.Ok) : tomlParse d.render = .ok d.table := by
  obtain ⟨t, ht⟩ := starts_lines d.entries (starts_sections d.sections) 1
  have hthere : tableAt [] Table.empty = some .empty := rfl
  have hstart : parseLine (startContext d.render) = .ok ⟨t, .empty, []⟩ := by
    change (nextToken (firstToken d.render) true >>= fun t => pure (Context.mk t .empty [])) = _
    have hnext : nextToken (firstToken d.render) true = makeToken 1 true false d.render := rfl
    rw [hnext, Document.render, ht]
    rfl
  unfold tomlParse
  rw [parseLines, if_neg (by rintro ⟨⟩), hstart, ok_bind]
  apply parseLines_entries hd.entries hthere (fun _ _ => List.not_mem_nil) rfl
    (starts_sections d.sections) _ _ (Nat.lt_succ_self _) ht
  intro fuel t hfuel ht
  apply parseLines_sections hd.names hd.sections hd.nodup _ hfuel ht
  intro s hs hmem
  rcases mem_entriesOf_keys.mp hmem with hmem | hmem
  · exact List.not_mem_nil hmem
  · exact hd.disjoint s hs hmem

end Documents

end DistillerFS.Toml
