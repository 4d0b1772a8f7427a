import DistillerFS.Toml.Lookup
import DistillerFS.Toml.Tokens

/-!
# Well-formed tables

No key stands twice in a table, an array holds what its kind says, and every value is the
text of a string token of the file.
-/
namespace DistillerFS.Toml
open Foundations

/-- What an array of the kind may hold. -/
def ArrayKind.Holds : ArrayKind → Item → Prop
  | .unset, _ => False
  | .value, i => ∃ raw, i = .val raw
  | .array, i => ∃ a, i = .arr a
  | .table, i => ∃ t, i = .tab t
  | .mixed, _ => True

/-- The text of a string token of the file, with a character at least. -/
structure RawValue (conf raw : CString) : Prop where
  nonempty : raw ≠ []
  scanned : ∃ t dotisspecial, Placed conf t ∧ scanString t.ptr t.lineno dotisspecial = .ok t ∧ raw = t.text

mutual

inductive TableOk (conf : CString) : Table → Prop
  | mk (implicit readonly : Bool) (kval : List (CString × CString)) (arr : List (CString × Arr))
      (tab : List (CString × Table)) (nodup : (Table.mk implicit readonly kval arr tab).keys.Nodup)
      (hkval : ∀ e ∈ kval, RawValue conf e.2) (harr : ∀ e ∈ arr, ArrOk conf e.2)
      (htab : ∀ e ∈ tab, TableOk conf e.2) : TableOk conf (.mk implicit readonly kval arr tab)

inductive ArrOk (conf : CString) : Arr → Prop
  | mk (kind : ArrayKind) (items : List Item) (hkind : ∀ i ∈ items, kind.Holds i)
      (hitems : ∀ i ∈ items, ItemOk conf i) : ArrOk conf (.mk kind items)

inductive ItemOk (conf : CString) : Item → Prop
  | val (raw : CString) (h : RawValue conf raw) : ItemOk conf (.val raw)
  | arr (a : Arr) (h : ArrOk conf a) : ItemOk conf (.arr a)
  | tab (t : Table) (h : TableOk conf t) : ItemOk conf (.tab t)

end

section Ok
variable {conf : CString} {t s : Table} {a : Arr} {key : CString}

theorem TableOk.nodup (h : TableOk conf t) : t.keys.Nodup := by
  cases h
  assumption

theorem TableOk.kval (h : TableOk conf t) : ∀ e ∈ t.kval, RawValue conf e.2 := by
  cases h
  assumption

theorem TableOk.arr (h : TableOk conf t) : ∀ e ∈ t.arr, ArrOk conf e.2 := by
  cases h
  assumption

theorem TableOk.tab (h : TableOk conf t) : ∀ e ∈ t.tab, TableOk conf e.2 := by
  cases h
  assumption

theorem ArrOk.kind (h : ArrOk conf a) : ∀ i ∈ a.items, a.kind.Holds i := by
  cases h
  assumption

theorem ArrOk.items (h : ArrOk conf a) : ∀ i ∈ a.items, ItemOk conf i := by
  cases h
  assumption

theorem ItemOk.table (h : ItemOk conf (.tab t)) : TableOk conf t := by
  cases h
  assumption

theorem TableOk.of_parts (nodup : t.keys.Nodup) (hkval : ∀ e ∈ t.kval, RawValue conf e.2)
    (harr : ∀ e ∈ t.arr, ArrOk conf e.2) (htab : ∀ e ∈ t.tab, TableOk conf e.2) : TableOk conf t := by
  cases t
  exact .mk _ _ _ _ _ nodup hkval harr htab

theorem tableOk_empty : TableOk conf .empty :=
  .of_parts List.nodup_nil (by simp [Table.empty, Table.kval]) (by simp [Table.empty, Table.arr])
    (by simp [Table.empty, Table.tab])

theorem arrOk_nil (kind : ArrayKind) : ArrOk conf (.mk kind []) := .mk kind [] (by simp) (by simp)

theorem TableOk.setImplicit (h : TableOk conf t) (implicit : Bool) :
    TableOk conf (t.setImplicit implicit) := .of_parts h.nodup h.kval h.arr h.tab

theorem TableOk.setReadonly (h : TableOk conf t) : TableOk conf t.setReadonly :=
  .of_parts h.nodup h.kval h.arr h.tab

/-- Another table under the key of a table. -/
theorem TableOk.replace_tab (h : TableOk conf t) (hs : TableOk conf s) :
    TableOk conf (t.setTab (replace key s t.tab)) := by
  refine .of_parts ?_ h.kval h.arr ?_
  · have hnodup := h.nodup
    rw [Table.keys] at hnodup ⊢
    rwa [Table.setTab_kval, Table.setTab_arr, Table.setTab_tab, replace_keys]
  · intro e he
    cases mem_replace he with
    | inl he => rw [he]; exact hs
    | inr he => exact h.tab e he

theorem TableOk.replace_arr (h : TableOk conf t) (ha : ArrOk conf a) :
    TableOk conf (t.setArr (replace key a t.arr)) := by
  refine .of_parts ?_ h.kval ?_ h.tab
  · have hnodup := h.nodup
    rw [Table.keys] at hnodup ⊢
    rwa [Table.setArr_kval, Table.setArr_arr, Table.setArr_tab, replace_keys]
  · intro e he
    cases mem_replace he with
    | inl he => rw [he]; exact ha
    | inr he => exact h.arr e he

theorem TableOk.add_kval (h : TableOk conf t) (hkey : key ∉ t.keys) {raw : CString}
    (hraw : RawValue conf raw) : TableOk conf (t.setKval (t.kval ++ [(key, raw)])) := by
  refine .of_parts ?_ ?_ h.arr h.tab
  · have hnodup := List.nodup_cons.mpr ⟨hkey, h.nodup⟩
    refine (List.perm_iff_count.mpr fun k => ?_).nodup hnodup
    simp only [Table.keys, Table.setKval_kval, Table.setKval_arr, Table.setKval_tab, List.map_append,
      List.map_cons, List.map_nil, List.count_append, List.count_cons, List.count_nil]
    omega
  · intro e he
    cases List.mem_append.mp he with
    | inl he => exact h.kval e he
    | inr he => rw [List.mem_singleton.mp he]; exact hraw

theorem TableOk.add_arr (h : TableOk conf t) (hkey : key ∉ t.keys) (ha : ArrOk conf a) :
    TableOk conf (t.setArr (t.arr ++ [(key, a)])) := by
  refine .of_parts ?_ h.kval ?_ h.tab
  · have hnodup := List.nodup_cons.mpr ⟨hkey, h.nodup⟩
    refine (List.perm_iff_count.mpr fun k => ?_).nodup hnodup
    simp only [Table.keys, Table.setArr_kval, Table.setArr_arr, Table.setArr_tab, List.map_append,
      List.map_cons, List.map_nil, List.count_append, List.count_cons, List.count_nil]
    omega
  · intro e he
    cases List.mem_append.mp he with
    | inl he => exact h.arr e he
    | inr he => rw [List.mem_singleton.mp he]; exact ha

theorem TableOk.add_tab (h : TableOk conf t) (hkey : key ∉ t.keys) (hs : TableOk conf s) :
    TableOk conf (t.setTab (t.tab ++ [(key, s)])) := by
  refine .of_parts ?_ h.kval h.arr ?_
  · have hnodup := List.nodup_cons.mpr ⟨hkey, h.nodup⟩
    refine (List.perm_iff_count.mpr fun k => ?_).nodup hnodup
    simp only [Table.keys, Table.setTab_kval, Table.setTab_arr, Table.setTab_tab, List.map_append,
      List.map_cons, List.map_nil, List.count_append, List.count_cons, List.count_nil]
    omega
  · intro e he
    cases List.mem_append.mp he with
    | inl he => exact h.tab e he
    | inr he => rw [List.mem_singleton.mp he]; exact hs

/-- An item more; the kind is mixed when it is of another kind than the others. -/
theorem ArrOk.add (h : ArrOk conf a) {kind : ArrayKind} {item : Item} (hkind : kind.Holds item)
    (hitem : ItemOk conf item) : ArrOk conf (a.add kind item) := by
  have hitems : ∀ i ∈ a.items ++ [item], ItemOk conf i := by
    intro i hi
    cases List.mem_append.mp hi with
    | inl hi => exact h.items i hi
    | inr hi => rw [List.mem_singleton.mp hi]; exact hitem
  refine .mk _ _ ?_ hitems
  intro i hi
  by_cases hunset : a.kind = .unset
  · rw [if_pos hunset]
    cases List.mem_append.mp hi with
    | inl hi =>
      have hholds := h.kind i hi
      rw [hunset] at hholds
      exact hholds.elim
    | inr hi => rw [List.mem_singleton.mp hi]; exact hkind
  · rw [if_neg hunset]
    by_cases hmixed : a.kind ≠ kind
    · rw [if_pos hmixed]
      trivial
    · rw [if_neg hmixed]
      cases List.mem_append.mp hi with
      | inl hi => exact h.kind i hi
      | inr hi =>
        rw [List.mem_singleton.mp hi, not_not.mp hmixed]
        exact hkind

theorem ArrOk.set_table (h : ArrOk conf a) (hs : TableOk conf s) {idx : ℕ} {sub : Table}
    (hidx : a.items[idx]? = some (.tab sub)) :
    ArrOk conf (.mk a.kind (a.items.set idx (.tab s))) := by
  obtain ⟨hlt, hget⟩ := List.getElem?_eq_some_iff.mp hidx
  have hold := h.kind _ (hget ▸ List.getElem_mem hlt)
  have hholds : a.kind.Holds (.tab s) := by
    cases hkind : a.kind <;> rw [hkind] at hold
    case table => exact ⟨s, rfl⟩
    case mixed => trivial
    all_goals simp [ArrayKind.Holds] at hold
  constructor
  · intro i hi
    cases List.mem_or_eq_of_mem_set hi with
    | inl hi => exact h.kind i hi
    | inr hi => rw [hi]; exact hholds
  · intro i hi
    cases List.mem_or_eq_of_mem_set hi with
    | inl hi => exact h.items i hi
    | inr hi => rw [hi]; exact .tab s hs

end Ok

/-- A well-formed table that keeps what was in another one. -/
structure Grown (conf : CString) (t t' : Table) : Prop where
  ok : TableOk conf t'
  keeps : (Item.tab t).Keeps (.tab t')

section Grown
variable {conf key : CString} {t t' t'' sub sub' : Table} {a a' : Arr}

theorem TableOk.grown (h : TableOk conf t) : Grown conf t t := ⟨h, .refl _⟩

theorem Grown.trans (h : Grown conf t t') (h' : Grown conf t' t'') : Grown conf t t'' :=
  ⟨h'.ok, h.keeps.trans h'.keeps⟩

theorem Grown.replace_tab (h : Grown conf t t') (hsub : t'.tab.lookup key = some sub)
    (hsub' : Grown conf sub sub') : Grown conf t (t'.setTab (replace key sub' t'.tab)) :=
  ⟨h.ok.replace_tab hsub'.ok, h.keeps.trans (keeps_replace_tab hsub hsub'.keeps)⟩

theorem Grown.replace_arr (h : Grown conf t t') (ha : t'.arr.lookup key = some a)
    (ha' : ArrOk conf a') (hkeeps : (Item.arr a).Keeps (.arr a')) :
    Grown conf t (t'.setArr (replace key a' t'.arr)) :=
  ⟨h.ok.replace_arr ha', h.keeps.trans (keeps_replace_arr ha hkeeps)⟩

end Grown

section Way
variable {conf : CString} {t s sub : Table} {way more : List Step}

def tableAt : List Step → Table → Option Table
  | [], t => some t
  | .tab key :: way, t => (t.tab.lookup key).bind (tableAt way)
  | .item key idx :: way, t =>
    (t.arr.lookup key).bind fun arr =>
      match arr.items[idx]? with
      | some (.tab sub) => tableAt way sub
      | _ => none

def putAt (s : Table) : List Step → Table → Table
  | [], _ => s
  | .tab key :: way, t =>
    match t.tab.lookup key with
    | none => t
    | some sub => t.setTab (replace key (putAt s way sub) t.tab)
  | .item key idx :: way, t =>
    match t.arr.lookup key with
    | none => t
    | some arr =>
      match arr.items[idx]? with
      | some (.tab sub) =>
        t.setArr (replace key (.mk arr.kind (arr.items.set idx (.tab (putAt s way sub)))) t.arr)
      | _ => t

theorem tableAt_cons_tab {key : CString} (h : tableAt (.tab key :: way) t = some sub) :
    ∃ next, t.tab.lookup key = some next ∧ tableAt way next = some sub :=
  Option.bind_eq_some_iff.mp h

theorem tableAt_cons_item {key : CString} {idx : ℕ}
    (h : tableAt (.item key idx :: way) t = some sub) : ∃ arr next, t.arr.lookup key = some arr ∧
      arr.items[idx]? = some (.tab next) ∧ tableAt way next = some sub := by
  obtain ⟨arr, harr, h⟩ := Option.bind_eq_some_iff.mp h
  cases hitem : arr.items[idx]? with
  | none => rw [hitem] at h; cases h
  | some item =>
    rw [hitem] at h
    cases item with
    | val raw => cases h
    | arr a => cases h
    | tab next => exact ⟨arr, next, harr, hitem, h⟩

theorem putAt_tab {key : CString} {next : Table} (hnext : t.tab.lookup key = some next) :
    putAt s (.tab key :: way) t = t.setTab (replace key (putAt s way next) t.tab) := by
  rw [putAt, hnext]

theorem putAt_item {key : CString} {idx : ℕ} {arr : Arr} {next : Table}
    (harr : t.arr.lookup key = some arr) (hitem : arr.items[idx]? = some (.tab next)) :
    putAt s (.item key idx :: way) t =
      t.setArr (replace key (.mk arr.kind (arr.items.set idx (.tab (putAt s way next)))) t.arr) := by
  rw [putAt, harr]
  simp only [hitem]

theorem TableOk.tableAt (h : TableOk conf t) (hway : tableAt way t = some sub) : TableOk conf sub := by
  induction way generalizing t with
  | nil =>
    cases hway
    exact h
  | cons step way ih =>
    cases step with
    | tab key =>
      obtain ⟨next, hnext, hway⟩ := tableAt_cons_tab hway
      exact ih (h.tab _ (mem_of_lookup hnext)) hway
    | item key idx =>
      obtain ⟨arr, next, harr, hitem, hway⟩ := tableAt_cons_item hway
      exact ih ((h.arr _ (mem_of_lookup harr)).items _ (List.mem_of_getElem? hitem)).table hway

theorem TableOk.putAt (h : TableOk conf t) (hs : TableOk conf s) (hway : Toml.tableAt way t = some sub) :
    TableOk conf (putAt s way t) := by
  induction way generalizing t with
  | nil => exact hs
  | cons step way ih =>
    cases step with
    | tab key =>
      obtain ⟨next, hnext, hway⟩ := tableAt_cons_tab hway
      rw [putAt_tab hnext]
      exact h.replace_tab (ih (h.tab _ (mem_of_lookup hnext)) hway)
    | item key idx =>
      obtain ⟨arr, next, harr, hitem, hway⟩ := tableAt_cons_item hway
      have harrOk := h.arr _ (mem_of_lookup harr)
      have hnextOk := (harrOk.items _ (List.mem_of_getElem? hitem)).table
      rw [putAt_item harr hitem]
      exact h.replace_arr (harrOk.set_table (ih hnextOk hway) hitem)

theorem keeps_putAt (hway : Toml.tableAt way t = some sub) (hs : (Item.tab sub).Keeps (.tab s)) :
    (Item.tab t).Keeps (.tab (putAt s way t)) := by
  induction way generalizing t with
  | nil =>
    cases hway
    exact hs
  | cons step way ih =>
    cases step with
    | tab key =>
      obtain ⟨next, hnext, hway⟩ := tableAt_cons_tab hway
      rw [putAt_tab hnext]
      exact keeps_replace_tab hnext (ih hway)
    | item key idx =>
      obtain ⟨arr, next, harr, hitem, hway⟩ := tableAt_cons_item hway
      rw [putAt_item harr hitem]
      exact keeps_replace_arr harr (keeps_set hitem arr.kind (ih hway))

/-- The table at the end of a way grows, and the whole with it. -/
theorem Grown.putAt (h : TableOk conf t) (hway : Toml.tableAt way t = some sub) (hs : Grown conf sub s) :
    Grown conf t (putAt s way t) := ⟨h.putAt hs.ok hway, keeps_putAt hway hs.keeps⟩

/-- From the table that was put there, the way goes on. -/
theorem tableAt_putAt (hway : tableAt way t = some sub) :
    tableAt (way ++ more) (putAt s way t) = tableAt more s := by
  induction way generalizing t with
  | nil => rfl
  | cons step way ih =>
    cases step with
    | tab key =>
      obtain ⟨next, hnext, hway⟩ := tableAt_cons_tab hway
      rw [putAt_tab hnext, List.cons_append, tableAt]
      rw [Table.setTab_tab, lookup_replace hnext, Option.bind_some]
      exact ih hway
    | item key idx =>
      obtain ⟨arr, next, harr, hitem, hway⟩ := tableAt_cons_item hway
      obtain ⟨hlt, -⟩ := List.getElem?_eq_some_iff.mp hitem
      rw [putAt_item harr hitem, List.cons_append, tableAt]
      rw [Table.setArr_arr, lookup_replace harr, Option.bind_some]
      simp only [Arr.mk_items, List.getElem?_set_self hlt]
      exact ih hway

theorem putAt_self (hway : tableAt way t = some sub) : putAt sub way t = t := by
  induction way generalizing t with
  | nil =>
    cases hway
    rfl
  | cons step way ih =>
    cases step with
    | tab key =>
      obtain ⟨next, hnext, hway⟩ := tableAt_cons_tab hway
      rw [putAt_tab hnext, ih hway, replace_self hnext]
      cases t
      rfl
    | item key idx =>
      obtain ⟨arr, next, harr, hitem, hway⟩ := tableAt_cons_item hway
      obtain ⟨hlt, hget⟩ := List.getElem?_eq_some_iff.mp hitem
      have hset : arr.items.set idx (.tab next) = arr.items := by rw [← hget, List.set_getElem_self]
      have harr' : Arr.mk arr.kind arr.items = arr := by cases arr; rfl
      rw [putAt_item harr hitem, ih hway, hset, harr', replace_self harr]
      cases t
      rfl

/-- The table that was put there last is the one that counts. -/
theorem putAt_putAt (s' : Table) (hway : tableAt way t = some sub) :
    putAt s way (putAt s' way t) = putAt s way t := by
  induction way generalizing t with
  | nil => rfl
  | cons step way ih =>
    cases step with
    | tab key =>
      obtain ⟨next, hnext, hway⟩ := tableAt_cons_tab hway
      rw [putAt_tab hnext, putAt_tab hnext, putAt_tab (lookup_replace hnext), ih hway,
        Table.setTab_tab, replace_replace]
      rfl
    | item key idx =>
      obtain ⟨arr, next, harr, hitem, hway⟩ := tableAt_cons_item hway
      obtain ⟨hlt, -⟩ := List.getElem?_eq_some_iff.mp hitem
      rw [putAt_item harr hitem, putAt_item harr hitem,
        putAt_item (lookup_replace harr) (List.getElem?_set_self hlt), ih hway, Table.setArr_arr,
        replace_replace, Arr.mk_items, List.set_set]
      rfl

/-- What is done at the end of the way is done to its table only. -/
theorem modifyAt_eq {α : Type} (f : Table → Except TomlError (α × Table))
    (hway : tableAt way t = some sub) :
    modifyAt f way t = (f sub).map fun r => (r.1, putAt r.2 way t) := by
  induction way generalizing t with
  | nil =>
    cases hway
    rw [modifyAt]
    cases f sub <;> rfl
  | cons step way ih =>
    cases step with
    | tab key =>
      obtain ⟨next, hnext, hway⟩ := tableAt_cons_tab hway
      rw [modifyAt, hnext]
      simp only [ih hway, putAt, hnext]
      cases f sub <;> rfl
    | item key idx =>
      obtain ⟨arr, next, harr, hitem, hway⟩ := tableAt_cons_item hway
      rw [modifyAt, harr]
      simp only [hitem, ih hway, putAt, harr]
      cases f sub <;> rfl

end Way

end DistillerFS.Toml
