import DistillerFS.Toml.Escapes
import DistillerFS.Toml.Paths

/-!
# What holds of every file

The outcome of `toml_parse` on any text: the errors that it reports, the tree that it builds,
and the strings that can be read from the tree.
-/
namespace DistillerFS.Toml
open Foundations

section Reports

/-- An error that names a line names one of the text; the loop comes to an end and follows no
pointer that leads nowhere. -/
theorem tomlParse_reports (conf : CString) (e : TomlError) (h : tomlParse conf = .error e) :
    e ≠ .endless ∧ e ≠ .dangling ∧
      ∀ lineno, (e = .badKey lineno ∨ e = .keyExists lineno ∨ ∃ msg, e = .syntaxError lineno msg) →
        1 ≤ lineno ∧ lineno ≤ lines conf := by
  have hlocated := (tomlParse_yields conf).failure h
  refine ⟨?_, ?_, ?_⟩
  · rintro rfl
    exact hlocated
  · rintro rfl
    exact hlocated
  · rintro lineno (rfl | rfl | ⟨msg, rfl⟩) <;> exact hlocated

theorem tomlParse_reports_missing : TomlError.syntaxError 2 "missing =".toList ≠ .endless ∧
    TomlError.syntaxError 2 "missing =".toList ≠ .dangling ∧
    ∀ lineno, (TomlError.syntaxError 2 "missing =".toList = .badKey lineno ∨
        TomlError.syntaxError 2 "missing =".toList = .keyExists lineno ∨
        ∃ msg, TomlError.syntaxError 2 "missing =".toList = .syntaxError lineno msg) →
      1 ≤ lineno ∧ lineno ≤ lines "a='x'\nb\n".toList :=
  tomlParse_reports "a='x'\nb\n".toList _ rfl

end Reports

section Paths
variable {conf raw : CString} {t : Table} {item item' : Item} {path : List Selector}

theorem TableOk.find (h : TableOk conf t) {k : CString} (hitem : t.find k = some item) :
    ItemOk conf item := by
  unfold Table.find at hitem
  cases hkval : t.kval.lookup k with
  | some raw =>
    rw [hkval] at hitem
    cases hitem
    exact .val raw (h.kval _ (mem_of_lookup hkval))
  | none =>
    rw [hkval] at hitem
    cases harr : t.arr.lookup k with
    | some a =>
      rw [harr] at hitem
      cases hitem
      exact .arr a (h.arr _ (mem_of_lookup harr))
    | none =>
      rw [harr] at hitem
      cases htab : t.tab.lookup k with
      | none =>
        rw [htab] at hitem
        cases hitem
      | some sub =>
        rw [htab] at hitem
        cases hitem
        exact .tab sub (h.tab _ (mem_of_lookup htab))

theorem ItemOk.get (h : ItemOk conf item) {s : Selector} (hitem : item.get s = some item') :
    ItemOk conf item' := by
  cases h with
  | val raw h => cases s <;> cases hitem
  | arr a h =>
    cases s with
    | key k => cases hitem
    | idx n => exact h.items _ (List.mem_of_getElem? hitem)
  | tab t h =>
    cases s with
    | key k => exact h.find hitem
    | idx n => cases hitem

theorem ItemOk.follow (h : ItemOk conf item) (hitem : item.follow path = some item') :
    ItemOk conf item' := by
  induction path generalizing item with
  | nil =>
    cases hitem
    exact h
  | cons s path ih =>
    obtain ⟨next, hnext, hitem⟩ := Option.bind_eq_some_iff.mp hitem
    exact ih (h.get hnext) hitem

theorem ItemOk.value (h : ItemOk conf (.val raw)) : RawValue conf raw := by
  cases h
  assumption

/-- In every table of a parsed file no key stands twice, so it is a value, an array or a table
and not two of them; every array holds what its kind says. -/
theorem parsed_wellFormed (conf : CString) (t : Table) (h : tomlParse conf = .ok t)
    (path : List Selector) (item : Item) (hitem : (Item.tab t).follow path = some item) :
    (∀ s, item = .tab s → s.keys.Nodup) ∧
      ∀ a, item = .arr a → ∀ i ∈ a.items, a.kind.Holds i := by
  have hok := (ItemOk.tab t ((tomlParse_yields conf).value h)).follow hitem
  constructor
  · rintro s rfl
    exact hok.table.nodup
  · rintro a rfl
    cases hok with
    | arr a ha => exact ha.kind

theorem parsed_wellFormed_paths : ∃ item,
    (Item.tab sampleDocument.table).follow [.key "exclude".toList, .key "paths".toList] = some item ∧
      (∀ s, item = .tab s → s.keys.Nodup) ∧ ∀ a, item = .arr a → ∀ i ∈ a.items, a.kind.Holds i :=
  ⟨_, rfl, parsed_wellFormed sampleDocument.render _ (tomlParse_document sampleDocument_ok)
    [.key "exclude".toList, .key "paths".toList] _ rfl⟩

/-- A quoted value of a parsed file can be read as a string, unless a forbidden character or
the code of no character is in it. A multi-line string may have line breaks. -/
theorem parsed_readable (conf : CString) (t : Table) (h : tomlParse conf = .ok t)
    (path : List Selector) (raw : CString) (hraw : (Item.tab t).follow path = some (.val raw))
    (hquote : raw.head? = some '\'' ∨ raw.head? = some '"') :
    (tomlRtos raw).isSome ∨ Refused (multilineString raw) raw := by
  have hok := (ItemOk.tab t ((tomlParse_yields conf).value h)).follow hraw
  cases hread : tomlRtos raw with
  | some s => exact Or.inl rfl
  | none => exact Or.inr (hok.value.refused hquote hread)

theorem parsed_readable_quote : (tomlRtos (quote "it's".toList)).isSome ∨
    Refused (multilineString (quote "it's".toList)) (quote "it's".toList) :=
  parsed_readable sampleDocument.render _ (tomlParse_document sampleDocument_ok)
    [.key "title".toList] _ rfl (.inr rfl)

end Paths

end DistillerFS.Toml
