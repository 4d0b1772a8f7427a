import DistillerFS.Toml.Parsing
import Mathlib.Logic.Relation

/-!
# A whole TOML file

The lines of a file, with the headers that select the current table. The way to the current
table leads to a table after every line.
-/
namespace DistillerFS.Toml
open Foundations

section Header
variable {conf : CString} {t z : Token} {tab root : Table}

/-- A way leads to a table in a tree that has grown from another one. -/
structure Leads (conf : CString) (old : Table) (way : List Step) (root : Table) : Prop where
  grown : Grown conf old root
  there : ∃ sub, tableAt way root = some sub

theorem Leads.from {old : Table} {way : List Step} (h : Grown conf old tab) (h' : Leads conf tab way root) :
    Leads conf old way root := ⟨h.trans h'.grown, h'.there⟩

theorem fillTabpath_yields {lineno : ℕ} (hlineno : 1 ≤ lineno ∧ lineno ≤ lines conf)
    (ht : Current conf t) (room : ℕ) : Yields (fillTabpath lineno room t)
      (fun r => r.1 ≠ [] ∧ (∀ e ∈ r.1, Placed conf e.2) ∧ Current conf r.2 ∧
        r.2.ptr.length ≤ t.ptr.length) (Located conf) := by
  induction room generalizing t with
  | zero => exact yields_error.mpr hlineno
  | succ room ih =>
    rw [fillTabpath]
    apply yields_ite
    · intro _
      exact yields_error.mpr hlineno
    intro _
    apply (normalizeKey_yields ht.placed).bind
    intro key _
    apply (nextToken_follows ht true).bind
    intro t₁ hf₁
    have hle₁ := hf₁.le
    apply yields_ite
    · intro _
      refine yields_pure.mpr ⟨by simp, ?_, hf₁.current, hle₁⟩
      intro e he
      rw [List.mem_singleton.mp he]
      exact ht.placed
    intro _
    apply yields_ite
    · intro _
      exact yields_error.mpr hlineno
    intro _
    apply (nextToken_follows hf₁.current true).bind
    intro t₂ hf₂
    have hle₂ := hf₂.le
    apply (ih hf₂.current).bind
    rintro ⟨path, t₃⟩ ⟨-, hpath, ht₃, hle₃⟩
    refine yields_pure.mpr ⟨by simp, ?_, ht₃, by simp only at hle₃ ⊢; omega⟩
    intro e he
    cases List.mem_cons.mp he with
    | inl he => rw [he]; exact ht.placed
    | inr he => exact hpath e he

/-- The induction is on the path; every step of it is there or is made. -/
theorem walkTabpath_yields {path : List (CString × Token)} (hpath : ∀ e ∈ path, Placed conf e.2)
    (htab : TableOk conf tab) :
    Yields (walkTabpath path tab) (fun r => Leads conf tab r.1 r.2) (Located conf) := by
  induction path generalizing tab with
  | nil => exact yields_ok.mpr ⟨htab.grown, tab, rfl⟩
  | cons e path ih =>
    obtain ⟨key, tok⟩ := e
    have hrest : ∀ e ∈ path, Placed conf e.2 := fun e he => hpath e (List.mem_cons_of_mem _ he)
    rw [walkTabpath]
    cases hfound : checkKey tab key with
    | table next =>
      have hlookup := checkKey_table hfound
      apply (ih hrest (htab.tab _ (mem_of_lookup hlookup))).bind
      rintro ⟨way, next'⟩ ⟨hgrown, sub, hsub⟩
      refine yields_pure.mpr ⟨htab.grown.replace_tab hlookup hgrown, sub, ?_⟩
      rw [tableAt, Table.setTab_tab, lookup_replace hlookup, Option.bind_some]
      exact hsub
    | array arr =>
      have hlookup := checkKey_array hfound
      have harr := htab.arr _ (mem_of_lookup hlookup)
      apply yields_ite
      · intro _
        exact yields_error.mpr trivial
      intro hkind
      cases hlast : arr.items.getLast? with
      | none => exact yields_error.mpr trivial
      | some item =>
        -- an array of tables holds tables, so there is one to follow
        have hitem := List.mem_of_getLast? hlast
        have hholds := harr.kind item hitem
        rw [not_not.mp hkind] at hholds
        obtain ⟨next, rfl⟩ := hholds
        have hidx : arr.items[arr.items.length - 1]? = some (.tab next) := by
          rw [← List.getLast?_eq_getElem?, hlast]
        obtain ⟨hlt, -⟩ := List.getElem?_eq_some_iff.mp hidx
        apply (ih hrest (harr.items _ hitem).table).bind
        rintro ⟨way, next'⟩ ⟨hgrown, sub, hsub⟩
        refine yields_pure.mpr ⟨htab.grown.replace_arr hlookup (harr.set_table hgrown.ok hidx)
          (keeps_set hidx arr.kind hgrown.keeps), sub, ?_⟩
        rw [tableAt, Table.setArr_arr, lookup_replace hlookup, Option.bind_some]
        simp only [Arr.mk_items, List.getElem?_set_self hlt]
        exact hsub
    | value raw => exact yields_error.mpr (hpath (key, tok) List.mem_cons_self).lineno_mem
    | absent =>
      have hkey := checkKey_absent hfound
      apply (ih hrest (tableOk_empty.setImplicit true)).bind
      rintro ⟨way, next'⟩ ⟨hgrown, sub, hsub⟩
      refine yields_pure.mpr
        ⟨⟨htab.add_tab hkey hgrown.ok, keeps_addEntry hkey (.tab next')⟩, sub, ?_⟩
      have hmem : key ∉ tab.tab.map Prod.fst := fun hmem => hkey (List.mem_append_right _ hmem)
      rw [tableAt, Table.setTab_tab, lookup_append_of_not_mem hmem, Option.bind_some]
      exact hsub

theorem tableArray_yields (hz : Placed conf z) (htab : TableOk conf tab) :
    Yields (tableArray tab z)
      (fun r => Grown conf tab r.1 ∧ ∃ arr, r.1.arr.lookup r.2 = some arr) (Located conf) := by
  unfold tableArray
  apply (normalizeKey_yields hz).bind
  intro key _
  apply yields_ite
  · intro hsome
    exact yields_pure.mpr ⟨htab.grown, Option.isSome_iff_exists.mp hsome⟩
  · intro _
    exact (createKeyarray_yields hz htab (arrOk_nil .table)).weaken fun r hr => ⟨hr.1, _, hr.2⟩

theorem addToArray_yields (hz : Placed conf z) (htab : TableOk conf tab) :
    Yields (addToArray z tab) (fun r => Leads conf tab [r.1] r.2) (Located conf) := by
  unfold addToArray
  apply (tableArray_yields hz htab).bind
  rintro ⟨tab', key⟩ ⟨hgrown, arr, harr⟩
  simp only at hgrown harr ⊢
  rw [harr]
  apply yields_ite
  · intro _
    exact yields_error.mpr hz.lineno_mem
  intro hkind
  have hkind := not_not.mp hkind
  have hok := hgrown.ok.arr _ (mem_of_lookup harr)
  have hadded : ArrOk conf (.mk arr.kind (arr.items ++ [.tab .empty])) := by
    constructor
    · intro i hi
      cases List.mem_append.mp hi with
      | inl hi => exact hok.kind i hi
      | inr hi =>
        rw [List.mem_singleton.mp hi, hkind]
        exact ⟨.empty, rfl⟩
    · intro i hi
      cases List.mem_append.mp hi with
      | inl hi => exact hok.items i hi
      | inr hi => rw [List.mem_singleton.mp hi]; exact .tab _ tableOk_empty
  refine yields_pure.mpr
    ⟨hgrown.replace_arr harr hadded (keeps_append arr arr.kind (.tab .empty)), .empty, ?_⟩
  rw [tableAt, Table.setArr_arr, lookup_replace harr, Option.bind_some]
  simp [tableAt]

theorem addTable_yields (hz : Placed conf z) (htab : TableOk conf tab) :
    Yields (addTable z tab) (fun r => Leads conf tab [r.1] r.2) (Located conf) := by
  unfold addTable
  apply (createKeytable_yields hz htab).bind
  rintro ⟨tab', key⟩ ⟨hgrown, sub, hsub⟩
  refine yields_pure.mpr ⟨hgrown, sub, ?_⟩
  rw [tableAt]
  simp only at hsub ⊢
  rw [hsub]
  rfl

/-- What makes an entry in the table at the end of a way lengthens the way by a step. -/
theorem Leads.modifyAt {old : Table} {way : List Step} (h : Leads conf old way root)
    {f : Table → Except TomlError (Step × Table)}
    (hf : ∀ sub, TableOk conf sub → Yields (f sub) (fun r => Leads conf sub [r.1] r.2) (Located conf)) :
    Yields (modifyAt f way root) (fun r => Leads conf old (way ++ [r.1]) r.2) (Located conf) := by
  obtain ⟨sub, hsub⟩ := h.there
  rw [modifyAt_eq f hsub]
  apply Yields.map
  apply (hf sub (h.grown.ok.tableAt hsub)).weaken
  rintro ⟨step, sub'⟩ ⟨hgrown, sub'', hsub''⟩
  refine ⟨h.grown.trans (.putAt h.grown.ok hsub hgrown), sub'', ?_⟩
  rw [tableAt_putAt hsub]
  exact hsub''

theorem eatSecond_yields (ht : Current conf t) (llb : Bool) (typ : TokenType) :
    Yields (eatSecond llb t typ) (fun t' => Current conf t' ∧ t'.ptr.length ≤ t.ptr.length)
      (Located conf) := by
  unfold eatSecond
  apply yields_ite
  · intro _
    exact (eatToken_follows ht typ true).weaken fun t' ht' => ⟨ht'.2.current, ht'.2.le⟩
  · intro _
    exact yields_ok.mpr ⟨ht, le_rfl⟩

theorem parseSelect_yields (ht : Current conf t) (hroot : TableOk conf root) :
    Yields (parseSelect t root) (fun r => Current conf r.1 ∧ r.1.ptr.length < t.ptr.length ∧
      Leads conf root r.2.2 r.2.1) (Located conf) := by
  unfold parseSelect
  apply (eatToken_follows ht .lbracket true).bind
  rintro t₁ ⟨hlbracket, hf₁⟩
  have hlt₁ := ht.lt_of_follows hf₁ (by rw [hlbracket]; decide) (ht.not_eof (by rw [hlbracket]; decide))
  apply (eatSecond_yields hf₁.current ..).bind
  rintro t₂ ⟨ht₂, hle₂⟩
  apply (fillTabpath_yields ht₂.placed.lineno_mem ht₂ 10).bind
  rintro ⟨path, t₃⟩ ⟨hpath, hplaced, ht₃, hle₃⟩
  have hz := List.getLast?_eq_some_getLast hpath
  have hlast := hplaced _ (List.getLast_mem hpath)
  simp only at hle₃ hz ⊢
  rw [hz]
  apply (walkTabpath_yields (fun e he => hplaced e (List.dropLast_subset _ he)) hroot).bind
  rintro ⟨way, root'⟩ hleads
  have hentry : ∀ sub, TableOk conf sub → Yields
      ((if t.ptr[1]? = some '[' then addToArray (path.getLast hpath).2
        else addTable (path.getLast hpath).2) sub)
      (fun r => Leads conf sub [r.1] r.2) (Located conf) := by
    intro sub hsub
    by_cases hllb : t.ptr[1]? = some '['
    · rw [if_pos hllb]
      exact addToArray_yields hlast hsub
    · rw [if_neg hllb]
      exact addTable_yields hlast hsub
  apply (hleads.modifyAt hentry).bind
  rintro ⟨step, root''⟩ hleads'
  apply yields_ite
  · intro _
    exact yields_error.mpr ht₃.placed.lineno_mem
  intro _
  apply yields_ite
  · intro _
    exact yields_error.mpr ht₃.placed.lineno_mem
  intro _
  apply (eatSecond_yields ht₃ ..).bind
  rintro t₄ ⟨ht₄, hle₄⟩
  apply (eatToken_follows ht₄ .rbracket true).bind
  rintro t₅ ⟨-, hf₅⟩
  apply yields_ite
  · intro _
    exact yields_error.mpr hf₅.current.placed.lineno_mem
  · intro _
    exact yields_pure.mpr ⟨hf₅.current, lt_of_le_of_lt (hf₅.le.trans (hle₄.trans hle₃))
      (lt_of_le_of_lt hle₂ hlt₁), hleads'⟩

end Header

section Lines
variable {conf : CString} {t : Token} {old root : Table} {curtab : List Step}

theorem keyvalLine_yields (ht : Current conf t) (hleads : Leads conf old curtab root) :
    Yields (modifyAt (parseKeyval (2 * t.ptr.length + 2) t) curtab root)
      (fun r => Current conf r.1 ∧ r.1.ptr.length < t.ptr.length ∧
        (r.1.tok ≠ .string → Leads conf old curtab r.2)) (Located conf) := by
  obtain ⟨sub, hsub⟩ := hleads.there
  rw [modifyAt_eq _ hsub]
  apply Yields.map
  apply ((sound conf _).keyval ht (hleads.grown.ok.tableAt hsub) (by omega)).weaken
  rintro ⟨t', sub'⟩ hparsed
  refine ⟨hparsed.current, hparsed.left, fun hne =>
    ⟨hleads.grown.trans (.putAt hleads.grown.ok hsub (hparsed.ok hne)), sub', ?_⟩⟩
  have hthere := @tableAt_putAt root sub' sub curtab [] hsub
  rwa [List.append_nil] at hthere

/-- The token in the loop is the artificial one or one that `next_token` has set. -/
structure InLoop (conf : CString) (old : Table) (ctx : Context) : Prop where
  placed : Placed conf ctx.tok
  shape : Shape ctx.tok ∨ ctx.tok = firstToken conf
  leads : Leads conf old ctx.curtab ctx.root

theorem inLoop_start (conf : CString) : InLoop conf .empty (startContext conf) :=
  ⟨placed_first conf, .inr rfl, ⟨tableOk_empty.grown, .empty, rfl⟩⟩

/-- A round of the loop takes some text, or sets the first token. -/
theorem parseLine_yields {ctx : Context} (h : InLoop conf old ctx) (heof : ctx.tok.eof = false) :
    Yields (parseLine ctx) (fun ctx' => InLoop conf old ctx' ∧ Shape ctx'.tok ∧
      ctx'.tok.ptr.length ≤ ctx.tok.ptr.length ∧
      (Shape ctx.tok → ctx'.tok.ptr.length < ctx.tok.ptr.length)) (Located conf) := by
  obtain ⟨t, root, curtab⟩ := ctx
  obtain ⟨hplaced, hshape, hleads⟩ := h
  unfold parseLine
  simp only at hplaced hshape hleads heof ⊢
  cases htok : t.tok with
  | newline =>
    apply (nextToken_yields hplaced true).bind
    rintro t' ⟨hplaced', hshape', hleft⟩
    refine yields_pure.mpr ⟨⟨hplaced', .inl hshape', hleads⟩, hshape', by simp only; omega, ?_⟩
    intro hshape
    have hlen := hshape.len_eq (by rw [htok]; decide) heof
    simp only
    omega
  | string =>
    have ht : Current conf t := by
      refine ⟨hplaced, hshape.resolve_right ?_⟩
      rintro rfl
      cases htok
    apply (keyvalLine_yields ht hleads).bind
    rintro ⟨t₁, root'⟩ ⟨ht₁, hlt₁, hleads'⟩
    apply yields_ite
    · intro _
      exact yields_error.mpr ht₁.placed.lineno_mem
    intro hnewline
    have hnewline := not_not.mp hnewline
    apply (eatToken_follows ht₁ .newline true).bind
    rintro t₂ ⟨-, hf₂⟩
    have hlt₂ := lt_of_le_of_lt hf₂.le hlt₁
    exact yields_pure.mpr ⟨⟨hf₂.current.placed, .inl hf₂.current.shape,
      hleads' (by rw [hnewline]; decide)⟩, hf₂.current.shape, hlt₂.le, fun _ => hlt₂⟩
  | lbracket =>
    have ht : Current conf t := by
      refine ⟨hplaced, hshape.resolve_right ?_⟩
      rintro rfl
      cases htok
    apply (parseSelect_yields ht hleads.grown.ok).bind
    rintro ⟨t₁, root', curtab'⟩ ⟨ht₁, hlt₁, hleads'⟩
    exact yields_pure.mpr ⟨⟨ht₁.placed, .inl ht₁.shape, .from hleads.grown hleads'⟩, ht₁.shape,
      hlt₁.le, fun _ => hlt₁⟩
  | dot => exact yields_error.mpr hplaced.lineno_mem
  | comma => exact yields_error.mpr hplaced.lineno_mem
  | equal => exact yields_error.mpr hplaced.lineno_mem
  | lbrace => exact yields_error.mpr hplaced.lineno_mem
  | rbrace => exact yields_error.mpr hplaced.lineno_mem
  | rbracket => exact yields_error.mpr hplaced.lineno_mem

theorem parseLines_yields {ctx : Context} (h : InLoop conf old ctx) (hshape : Shape ctx.tok) {fuel : ℕ}
    (hfuel : ctx.tok.ptr.length < fuel) :
    Yields (parseLines fuel ctx) (Grown conf old) (Located conf) := by
  induction fuel generalizing ctx with
  | zero => omega
  | succ fuel ih =>
    rw [parseLines]
    apply yields_ite
    · intro _
      exact yields_ok.mpr h.leads.grown
    intro heof
    apply (parseLine_yields h (Bool.eq_false_of_not_eq_true heof)).bind
    rintro ctx' ⟨h', hshape', -, hlt⟩
    have hlt := hlt hshape
    exact ih h' hshape' (by omega)

end Lines

/-- Every text is a well-formed table or has an error in one of its lines. -/
theorem tomlParse_yields (conf : CString) :
    Yields (tomlParse conf) (TableOk conf) (Located conf) := by
  have hstart : Yields (parseLine (startContext conf) >>= parseLines (conf.length + 1))
      (Grown conf .empty) (Located conf) := by
    apply (parseLine_yields (inLoop_start conf) rfl).bind
    rintro ctx ⟨h, hshape, hle, -⟩
    exact parseLines_yields h hshape (Nat.lt_succ_of_le hle)
  exact hstart.weaken fun _ h => h.ok

/-- One round of the loop of `toml_parse` that goes well. -/
def NextRound (ctx ctx' : Context) : Prop := ctx.tok.eof = false ∧ parseLine ctx = .ok ctx'

/-- The contexts that the loop goes through on a text. -/
def Reached (conf : CString) : Context → Prop := Relation.ReflTransGen NextRound (startContext conf)

theorem Reached.inLoop {conf : CString} {ctx : Context} (h : Reached conf ctx) :
    InLoop conf .empty ctx := by
  induction h with
  | refl => exact inLoop_start conf
  | tail hreached hround ih => exact ((parseLine_yields ih hround.1).value hround.2).1

theorem parseLines_keeps {conf : CString} {ctx : Context} {fuel : ℕ} {res : Table}
    (h : InLoop conf .empty ctx) (hres : parseLines fuel ctx = .ok res) :
    (Item.tab ctx.root).Keeps (.tab res) := by
  induction fuel generalizing ctx with
  | zero => cases hres
  | succ fuel ih =>
    rw [parseLines] at hres
    by_cases heof : ctx.tok.eof = true
    · rw [if_pos heof] at hres
      cases hres
      exact .refl _
    · rw [if_neg heof] at hres
      have heof := Bool.eq_false_of_not_eq_true heof
      cases hline : parseLine ctx with
      | error e =>
        rw [hline] at hres
        cases hres
      | ok ctx' =>
        rw [hline, ok_bind] at hres
        have hself : InLoop conf ctx.root ctx :=
          ⟨h.placed, h.shape, h.leads.grown.ok.grown, h.leads.there⟩
        have hkeeps := ((parseLine_yields hself heof).value hline).1.leads.grown.keeps
        exact hkeeps.trans (ih ((parseLine_yields h heof).value hline).1 hres)

/-- The loop comes to its result from every context that it goes through. -/
theorem Reached.parseLines {conf : CString} {ctx : Context} (h : Reached conf ctx) {res : Table}
    (hres : tomlParse conf = .ok res) : ∃ fuel, parseLines fuel ctx = .ok res := by
  induction h with
  | refl => exact ⟨_, hres⟩
  | tail hreached hround ih =>
    obtain ⟨fuel, hfuel⟩ := ih
    cases fuel with
    | zero => cases hfuel
    | succ fuel =>
      rw [Toml.parseLines, if_neg (by rw [hround.1]; decide), hround.2, ok_bind] at hfuel
      exact ⟨fuel, hfuel⟩

/-- No line changes or loses a value that an earlier line has set. -/
theorem value_kept (conf : CString) (ctx : Context) (res : Table) (h : Reached conf ctx)
    (hres : tomlParse conf = .ok res) : (Item.tab ctx.root).Keeps (.tab res) := by
  obtain ⟨fuel, hfuel⟩ := h.parseLines hres
  exact parseLines_keeps h.inLoop hfuel

theorem value_kept_two_lines :
    (Item.tab (.mk false false [("a".toList, "''".toList)] [] [])).Keeps
      (.tab (.mk false false [("a".toList, "''".toList), ("b".toList, "''".toList)] [] [])) := by
  have hfirst : NextRound (startContext "a=''\nb=''\n".toList)
      ⟨stringToken 1 "a=''\nb=''\n".toList 1, .empty, []⟩ := ⟨rfl, rfl⟩
  have hsecond : NextRound ⟨stringToken 1 "a=''\nb=''\n".toList 1, .empty, []⟩
      ⟨stringToken 2 "b=''\n".toList 1, .mk false false [("a".toList, "''".toList)] [] [], []⟩ :=
    ⟨rfl, rfl⟩
  exact value_kept "a=''\nb=''\n".toList _ _ (.tail (.tail .refl hfirst) hsecond) rfl

end DistillerFS.Toml
