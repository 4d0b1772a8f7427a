import DistillerFS.Foundations.Outcomes
import DistillerFS.Toml.Parser

/-!
# What is in a table

Entries by their keys, and paths of keys and indices into the tree. A tree keeps what is in
another one if every path that leads to a value there leads to the same value.
-/
namespace DistillerFS.Toml

section Entries
variable {α : Type} {key k : CString} {a b : α} {es : List (CString × α)}

theorem replace_keys (key : CString) (a : α) (es : List (CString × α)) :
    (replace key a es).map Prod.fst = es.map Prod.fst := by
  induction es with
  | nil => rfl
  | cons e es ih =>
    by_cases h : e.1 = key
    · simp [replace, h]
    · simp [replace, h, ih]

theorem mem_replace {e : CString × α} (h : e ∈ replace key a es) : e = (key, a) ∨ e ∈ es := by
  induction es with
  | nil => cases h
  | cons e' es ih =>
    rw [replace] at h
    by_cases he : e'.1 = key
    · rw [if_pos he] at h
      cases List.mem_cons.mp h with
      | inl h => exact Or.inl h
      | inr h => exact Or.inr (List.mem_cons_of_mem _ h)
    · rw [if_neg he] at h
      cases List.mem_cons.mp h with
      | inl h => exact Or.inr (h ▸ List.mem_cons_self)
      | inr h => exact (ih h).imp_right (List.mem_cons_of_mem _)

theorem lookup_replace (h : es.lookup key = some b) : (replace key a es).lookup key = some a := by
  induction es with
  | nil => cases h
  | cons e es ih =>
    by_cases he : e.1 = key
    · simp [replace, he]
    · rw [List.lookup_cons, beq_false_of_ne (Ne.symm he)] at h
      rw [replace, if_neg he, List.lookup_cons, beq_false_of_ne (Ne.symm he)]
      exact ih h

theorem replace_self (h : es.lookup key = some a) : replace key a es = es := by
  induction es with
  | nil => cases h
  | cons e es ih =>
    rw [List.lookup_cons] at h
    rw [replace]
    by_cases he : e.1 = key
    · rw [beq_iff_eq.mpr he.symm] at h
      cases h
      rw [if_pos he, ← he]
    · rw [beq_false_of_ne (Ne.symm he)] at h
      rw [if_neg he, ih h]

theorem replace_replace (key : CString) (a b : α) (es : List (CString × α)) :
    replace key a (replace key b es) = replace key a es := by
  induction es with
  | nil => rfl
  | cons e es ih =>
    by_cases he : e.1 = key
    · simp [replace, he]
    · simp [replace, he, ih]

theorem mem_of_lookup (h : es.lookup key = some a) : (key, a) ∈ es := by
  induction es with
  | nil => cases h
  | cons e es ih =>
    rw [List.lookup_cons] at h
    by_cases he : key = e.1
    · rw [beq_iff_eq.mpr he] at h
      cases h
      rw [he]
      exact List.mem_cons_self
    · rw [beq_false_of_ne he] at h
      exact List.mem_cons_of_mem _ (ih h)

theorem lookup_eq_none_iff_keys : es.lookup key = none ↔ key ∉ es.map Prod.fst := by
  rw [List.lookup_eq_none_iff]
  constructor
  · rintro h hmem
    obtain ⟨e, he, rfl⟩ := List.mem_map.mp hmem
    simpa using h e he
  · intro h e he
    rw [bne_iff_ne]
    rintro rfl
    exact h (List.mem_map_of_mem he)

theorem lookup_append_of_not_mem (h : key ∉ es.map Prod.fst) :
    (es ++ [(key, a)]).lookup key = some a := by
  rw [List.lookup_append, lookup_eq_none_iff_keys.mpr h]
  simp

theorem lookup_replace_ne {k : CString} (h : k ≠ key) (a : α) (es : List (CString × α)) :
    (replace key a es).lookup k = es.lookup k := by
  induction es with
  | nil => rfl
  | cons e es ih =>
    rw [replace]
    by_cases he : e.1 = key
    · rw [if_pos he, List.lookup_cons, List.lookup_cons, beq_false_of_ne h,
        beq_false_of_ne (he ▸ h)]
    · rw [if_neg he, List.lookup_cons, List.lookup_cons, ih]

theorem replace_append_of_not_mem (h : key ∉ es.map Prod.fst) :
    replace key a (es ++ [(key, b)]) = es ++ [(key, a)] := by
  induction es with
  | nil => simp [replace]
  | cons e es ih =>
    rw [List.map_cons, List.mem_cons, not_or] at h
    rw [List.cons_append, replace, if_neg (Ne.symm h.1), ih h.2, List.cons_append]

theorem lookup_append_singleton {α : Type} (es : List (CString × α)) (a : α) (k k' : CString) :
    (es ++ [(k, a)]).lookup k' = (es.lookup k').or (if k' = k then some a else none) := by
  rw [List.lookup_append, List.lookup_cons]
  by_cases h : k' = k
  · rw [beq_iff_eq.mpr h, if_pos h]
  · rw [beq_false_of_ne h, if_neg h]
    rfl

theorem lookup_map {α β : Type} (f : α → β) (es : List (CString × α)) (k : CString) :
    (es.map fun e => (e.1, f e.2)).lookup k = (es.lookup k).map f := by
  induction es with
  | nil => rfl
  | cons e es ih =>
    rw [List.map_cons, List.lookup_cons, List.lookup_cons]
    cases k == e.1 with
    | true => rfl
    | false => exact ih

end Entries

def Table.keys (t : Table) : List CString :=
  t.kval.map Prod.fst ++ t.arr.map Prod.fst ++ t.tab.map Prod.fst

inductive Selector where
  | key (k : CString)
  | idx (n : ℕ)

/-- `toml_raw_in`, `toml_array_in` and `toml_table_in` -/
def Table.find (t : Table) (k : CString) : Option Item :=
  ((t.kval.lookup k).map Item.val).or (((t.arr.lookup k).map Item.arr).or ((t.tab.lookup k).map Item.tab))

/-- One step into a table or an array; `toml_raw_at`, `toml_array_at` and `toml_table_at`. -/
def Item.get : Selector → Item → Option Item
  | .key k, .tab t => t.find k
  | .idx n, .arr a => a.items[n]?
  | _, _ => none

def Item.follow : List Selector → Item → Option Item
  | [], item => some item
  | s :: path, item => (item.get s).bind (Item.follow path)

def Item.raw : Item → Option CString
  | .val raw => some raw
  | _ => none

/-- The string at the end of a path, which `toml_rtos` reads from the raw value there. -/
def Item.string (path : List Selector) (item : Item) : Option CString :=
  ((item.follow path).bind Item.raw).bind tomlRtos

def addEntry (t : Table) (k : CString) : Item → Table
  | .val raw => t.setKval (t.kval ++ [(k, raw)])
  | .arr a => t.setArr (t.arr ++ [(k, a)])
  | .tab s => t.setTab (t.tab ++ [(k, s)])

section Tables
variable {t : Table} {k k' : CString} {item : Item}

/-- A key is absent when it is none of the keys. -/
theorem not_mem_keys (hkval : t.kval.lookup k = none) (harr : t.arr.lookup k = none)
    (htab : t.tab.lookup k = none) : k ∉ t.keys := by
  rw [lookup_eq_none_iff_keys] at hkval harr htab
  simp only [Table.keys, List.mem_append, not_or]
  exact ⟨⟨hkval, harr⟩, htab⟩

theorem checkKey_of_not_mem (h : k ∉ t.keys) : checkKey t k = .absent := by
  simp only [Table.keys, List.mem_append, not_or] at h
  unfold checkKey
  rw [lookup_eq_none_iff_keys.mpr h.1.1, lookup_eq_none_iff_keys.mpr h.1.2,
    lookup_eq_none_iff_keys.mpr h.2]

@[simp] theorem addEntry_readonly (t : Table) (k : CString) (item : Item) :
    (addEntry t k item).readonly = t.readonly := by
  cases item <;> rfl

theorem mem_addEntry_keys {k' : CString} : k' ∈ (addEntry t k item).keys ↔ k' = k ∨ k' ∈ t.keys := by
  cases item <;> simp [addEntry, Table.keys] <;> tauto

theorem find_eq_none (h : k ∉ t.keys) : t.find k = none := by
  simp only [Table.keys, List.mem_append, not_or] at h
  unfold Table.find
  rw [lookup_eq_none_iff_keys.mpr h.1.1, lookup_eq_none_iff_keys.mpr h.1.2,
    lookup_eq_none_iff_keys.mpr h.2]
  rfl

/-- A new entry is found under its key, and everything else as before. -/
theorem find_addEntry (hnew : k ∉ t.keys) :
    (addEntry t k item).find k' = if k' = k then some item else t.find k' := by
  by_cases h : k' = k
  · have hnone := hnew
    simp only [Table.keys, List.mem_append, not_or] at hnone
    obtain ⟨⟨hkval, harr⟩, htab⟩ := hnone
    rw [if_pos h, h]
    cases item <;>
      simp [addEntry, Table.find, lookup_append_singleton, lookup_eq_none_iff_keys.mpr hkval,
        lookup_eq_none_iff_keys.mpr harr, lookup_eq_none_iff_keys.mpr htab]
  · rw [if_neg h]
    cases item <;> simp [addEntry, Table.find, lookup_append_singleton, h]

end Tables

/-- Every path to a value leads to the same value in the second item. -/
def Item.Keeps (item item' : Item) : Prop :=
  ∀ path raw, item.follow path = some (.val raw) → item'.follow path = some (.val raw)

section Keeps
variable {t t' sub sub' : Table} {k key : CString} {item item' item'' : Item} {a a' : Arr}

theorem Item.Keeps.refl (item : Item) : item.Keeps item := fun _ _ h => h

theorem Item.Keeps.trans (h : item.Keeps item') (h' : item'.Keeps item'') : item.Keeps item'' :=
  fun path raw hraw => h' path raw (h path raw hraw)

/-- It is enough that every step leads to an item that keeps the other one. -/
theorem keeps_of_get (hval : ∀ raw, item ≠ .val raw)
    (h : ∀ s i, item.get s = some i → ∃ i', item'.get s = some i' ∧ i.Keeps i') : item.Keeps item' := by
  intro path raw hraw
  cases path with
  | nil =>
    cases hraw
    exact absurd rfl (hval raw)
  | cons s path =>
    obtain ⟨i, hi, hfollow⟩ := Option.bind_eq_some_iff.mp hraw
    obtain ⟨i', hi', hkeeps⟩ := h s i hi
    rw [Item.follow, hi']
    exact hkeeps path raw hfollow

theorem keeps_of_find (h : ∀ k i, t.find k = some i → ∃ i', t'.find k = some i' ∧ i.Keeps i') :
    (Item.tab t).Keeps (.tab t') := by
  apply keeps_of_get (by rintro raw ⟨⟩)
  intro s i hi
  cases s with
  | key k => exact h k i hi
  | idx n => cases hi

theorem keeps_of_find_eq (h : ∀ k, t'.find k = t.find k) : (Item.tab t).Keeps (.tab t') :=
  keeps_of_find fun k i hi => ⟨i, (h k).trans hi, .refl i⟩

theorem keeps_addEntry (hnew : k ∉ t.keys) (item : Item) : (Item.tab t).Keeps (.tab (addEntry t k item)) := by
  apply keeps_of_find
  intro k' i hi
  refine ⟨i, ?_, .refl i⟩
  rw [find_addEntry hnew, if_neg]
  · exact hi
  · rintro rfl
    rw [find_eq_none hnew] at hi
    cases hi

theorem keeps_replace_tab (hsub : t.tab.lookup key = some sub) (h : (Item.tab sub).Keeps (.tab sub')) :
    (Item.tab t).Keeps (.tab (t.setTab (replace key sub' t.tab))) := by
  apply keeps_of_find
  intro k i hi
  unfold Table.find at hi ⊢
  rw [Table.setTab_kval, Table.setTab_arr, Table.setTab_tab]
  by_cases hk : k = key
  · rw [hk, hsub] at hi
    rw [hk, lookup_replace hsub]
    cases hkval : t.kval.lookup key with
    | some raw =>
      rw [hkval] at hi
      exact ⟨i, hi, .refl i⟩
    | none =>
      rw [hkval] at hi
      cases harr : t.arr.lookup key with
      | some a =>
        rw [harr] at hi
        exact ⟨i, hi, .refl i⟩
      | none =>
        rw [harr] at hi
        cases hi
        exact ⟨.tab sub', rfl, h⟩
  · rw [lookup_replace_ne hk]
    exact ⟨i, hi, .refl i⟩

theorem keeps_replace_arr (ha : t.arr.lookup key = some a) (h : (Item.arr a).Keeps (.arr a')) :
    (Item.tab t).Keeps (.tab (t.setArr (replace key a' t.arr))) := by
  apply keeps_of_find
  intro k i hi
  unfold Table.find at hi ⊢
  rw [Table.setArr_kval, Table.setArr_arr, Table.setArr_tab]
  by_cases hk : k = key
  · rw [hk, ha] at hi
    rw [hk, lookup_replace ha]
    cases hkval : t.kval.lookup key with
    | some raw =>
      rw [hkval] at hi
      exact ⟨i, hi, .refl i⟩
    | none =>
      rw [hkval] at hi
      cases hi
      exact ⟨.arr a', rfl, h⟩
  · rw [lookup_replace_ne hk]
    exact ⟨i, hi, .refl i⟩

/-- An array with no items has no values to keep. -/
theorem keeps_nil (kind : ArrayKind) (item : Item) : (Item.arr (.mk kind [])).Keeps item := by
  apply keeps_of_get (by rintro raw ⟨⟩)
  intro s i hi
  cases s <;> cases hi

theorem keeps_append (a : Arr) (kind : ArrayKind) (item : Item) :
    (Item.arr a).Keeps (.arr (.mk kind (a.items ++ [item]))) := by
  apply keeps_of_get (by rintro raw ⟨⟩)
  intro s i hi
  cases s with
  | key k => cases hi
  | idx n =>
    refine ⟨i, ?_, .refl i⟩
    obtain ⟨hlt, -⟩ := List.getElem?_eq_some_iff.mp hi
    rw [Item.get, Arr.mk_items, List.getElem?_append_left hlt]
    exact hi

theorem keeps_set {idx : ℕ} (hidx : a.items[idx]? = some (.tab sub)) (kind : ArrayKind)
    (h : (Item.tab sub).Keeps (.tab sub')) :
    (Item.arr a).Keeps (.arr (.mk kind (a.items.set idx (.tab sub')))) := by
  apply keeps_of_get (by rintro raw ⟨⟩)
  intro s i hi
  cases s with
  | key k => cases hi
  | idx n =>
    rw [Item.get] at hi
    rw [Item.get, Arr.mk_items]
    by_cases hn : n = idx
    · rw [hn, hidx] at hi
      cases hi
      obtain ⟨hlt, -⟩ := List.getElem?_eq_some_iff.mp hidx
      exact ⟨.tab sub', by rw [hn, List.getElem?_set_self hlt], h⟩
    · exact ⟨i, by rw [List.getElem?_set_ne (Ne.symm hn), hi], .refl i⟩

end Keeps

end DistillerFS.Toml
