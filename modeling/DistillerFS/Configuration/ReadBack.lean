import DistillerFS.Configuration.Initialised
import DistillerFS.Toml.Paths

/-!
# A configuration that was written

`parse_config` with the reader of `toml.c`. A configuration can be written as a file, and
`parse_config` reads the same configuration from it.
-/
namespace DistillerFS
open Toml

namespace Toml

mutual

/-- What `parse_config` can ask a table for. -/
def Table.view : Table → TomlTable
  | .mk _ _ kval arr tab =>
    .mk kval (arr.map fun e => (e.1, ⟨e.2.items.map Item.raw⟩)) (viewTables tab)

def viewTables : List (CString × Table) → List (CString × TomlTable)
  | [] => []
  | (k, t) :: ts => (k, t.view) :: viewTables ts

end

/-- `toml_parse_file`: the content is read as a C string. -/
def tomlParseFile (content : CString) : Except TomlError Table := tomlParse (cString content)

def tomlReader : TomlReader where
  parseFile := fun content => (tomlParseFile content).toOption.map Table.view
  rtos := tomlRtos

theorem viewTables_eq (ts : List (CString × Table)) :
    viewTables ts = ts.map fun e => (e.1, e.2.view) := by
  induction ts with
  | nil => rfl
  | cons e ts ih =>
    obtain ⟨k, t⟩ := e
    rw [viewTables, ih]
    rfl

@[simp] theorem view_kval (t : Table) : t.view.kval = t.kval := by
  cases t
  rw [Table.view]
  rfl

theorem view_arr_lookup (t : Table) (k : CString) :
    t.view.arr.lookup k = (t.arr.lookup k).map fun a => ⟨a.items.map Item.raw⟩ := by
  cases t with
  | mk implicit readonly kval arr tab =>
    rw [Table.view]
    exact lookup_map (fun a : Arr => TomlArray.mk (a.items.map Item.raw)) arr k

theorem view_tab_lookup (t : Table) (k : CString) :
    t.view.tab.lookup k = (t.tab.lookup k).map Table.view := by
  cases t
  rw [Table.view, viewTables_eq]
  exact lookup_map _ _ k

end Toml

structure Configuration where
  excludePath : List CString
  includePath : List CString
  filter : Fin qnFlags → Option CString

/-- The paths have no NUL, and the words are accepted. -/
structure Configuration.Ok (c : Configuration) : Prop where
  exclude : ∀ p ∈ c.excludePath, '\x00' ∉ p
  include_ : ∀ p ∈ c.includePath, '\x00' ∉ p
  filter : ∀ i w, c.filter i = some w → (filterValue w).isSome

def pathEntries (paths : List CString) : List (CString × Value) :=
  [("paths".toList, .arr (paths.map .str))]

def filterEntries (filter : Fin qnFlags → Option CString) : List (CString × Value) :=
  (List.finRange qnFlags).filterMap fun i => (filter i).map fun w => (opNames i, .str w)

def Configuration.document (c : Configuration) : Document where
  entries := []
  sections := [("exclude".toList, pathEntries c.excludePath),
    ("include_only".toList, pathEntries c.includePath), ("filter".toList, filterEntries c.filter)]

section ReadBack
variable {t sub : Table} {k raw w : CString} {filter : Fin qnFlags → Option CString} {i : Fin qnFlags}

theorem tab_of_find (h : t.find k = some (.tab sub)) : t.tab.lookup k = some sub := by
  unfold Table.find at h
  cases hkval : t.kval.lookup k with
  | some raw => rw [hkval] at h; cases h
  | none =>
    cases harr : t.arr.lookup k with
    | some a => rw [hkval, harr] at h; cases h
    | none =>
      rw [hkval, harr] at h
      cases htab : t.tab.lookup k with
      | none => rw [htab] at h; cases h
      | some s => rw [htab] at h; cases h; rfl

/-- A value is looked up under its key, and no value under another key. -/
theorem kval_of_find : t.kval.lookup k = (t.find k).bind Item.raw := by
  unfold Table.find
  cases t.kval.lookup k with
  | some raw => rfl
  | none =>
    cases t.arr.lookup k with
    | some a => rfl
    | none => cases t.tab.lookup k <;> rfl

theorem filterValue_nul (h : (filterValue w).isSome) : '\x00' ∉ w := by
  unfold filterValue at h
  split_ifs at h with h₁ h₂ h₃ h₄
  · rw [h₁]; decide
  · rw [h₂]; decide
  · rw [h₃]; decide
  · rw [h₄]; decide
  · cases h

theorem opNames_keyOk : ∀ i : Fin qnFlags, KeyOk (opNames i) := by
  have hnul : ∀ i : Fin qnFlags, '\x00' ∉ opNames i := by decide
  have hline : ∀ i : Fin qnFlags, '\n' ∉ opNames i := by decide
  exact fun i => ⟨hnul i, hline i⟩

theorem mem_filterEntries {e : CString × Value} :
    e ∈ filterEntries filter ↔ ∃ i w, filter i = some w ∧ e = (opNames i, .str w) := by
  simp only [filterEntries, List.mem_filterMap, List.mem_finRange, true_and, Option.map_eq_some_iff]
  constructor
  · rintro ⟨i, w, hw, rfl⟩
    exact ⟨i, w, hw, rfl⟩
  · rintro ⟨i, w, hw, rfl⟩
    exact ⟨i, w, hw, rfl⟩

theorem filterEntries_nodup (filter : Fin qnFlags → Option CString) :
    ((filterEntries filter).map Prod.fst).Nodup := by
  rw [filterEntries, List.map_filterMap]
  apply List.Nodup.filterMap _ (List.nodup_finRange qnFlags)
  intro i j name hi hj
  simp only [Option.map_map, Option.mem_def, Option.map_eq_some_iff] at hi hj
  obtain ⟨v, -, hi⟩ := hi
  obtain ⟨w, -, hj⟩ := hj
  exact opNames_injective (hi.trans hj.symm)

theorem lookup_of_mem {α : Type} {es : List (CString × α)} {a : α} (hnodup : (es.map Prod.fst).Nodup)
    (h : (k, a) ∈ es) : es.lookup k = some a := by
  induction es with
  | nil => cases h
  | cons e es ih =>
    rw [List.map_cons, List.nodup_cons] at hnodup
    rw [List.lookup_cons]
    rcases List.mem_cons.mp h with rfl | h
    · rw [beq_self_eq_true]
    · have hne : k ≠ e.1 := by
        intro hk
        have hmem : k ∈ es.map Prod.fst := List.mem_map_of_mem h
        exact hnodup.1 (hk ▸ hmem)
      rw [beq_false_of_ne hne]
      exact ih hnodup.2 h

theorem lookup_filterEntries (filter : Fin qnFlags → Option CString) (i : Fin qnFlags) :
    (filterEntries filter).lookup (opNames i) = (filter i).map Value.str := by
  cases hi : filter i with
  | some w => exact lookup_of_mem (filterEntries_nodup filter) (mem_filterEntries.mpr ⟨i, w, hi, rfl⟩)
  | none =>
    rw [Option.map_none, lookup_eq_none_iff_keys]
    intro hmem
    obtain ⟨e, he, hname⟩ := List.mem_map.mp hmem
    obtain ⟨j, w, hw, rfl⟩ := mem_filterEntries.mp he
    rw [opNames_injective hname, hi] at hw
    cases hw

theorem entriesOk_paths {paths : List CString} (h : ∀ p ∈ paths, '\x00' ∉ p) :
    EntriesOk (pathEntries paths) := by
  constructor
  · exact List.nodup_singleton _
  · intro e he
    have hpaths : KeyOk "paths".toList := ⟨by decide, by decide⟩
    rw [List.mem_singleton.mp he]
    exact hpaths
  · intro e he
    rw [List.mem_singleton.mp he]
    apply Value.Ok.arr
    intro v hv
    obtain ⟨p, hp, rfl⟩ := List.mem_map.mp hv
    exact .str p (h p hp)

theorem Configuration.Ok.filterEntries {c : Configuration} (h : c.Ok) : EntriesOk (filterEntries c.filter) := by
  constructor
  · exact filterEntries_nodup c.filter
  · intro e he
    obtain ⟨i, w, -, rfl⟩ := mem_filterEntries.mp he
    exact opNames_keyOk i
  · intro e he
    obtain ⟨i, w, hw, rfl⟩ := mem_filterEntries.mp he
    exact .str w (filterValue_nul (h.filter i w hw))

theorem Configuration.Ok.document {c : Configuration} (h : c.Ok) : c.document.Ok where
  entries := ⟨List.nodup_nil, by simp [Configuration.document], by simp [Configuration.document]⟩
  names := by
    have hnames : KeyOk "exclude".toList ∧ KeyOk "include_only".toList ∧ KeyOk "filter".toList :=
      ⟨⟨by decide, by decide⟩, ⟨by decide, by decide⟩, ⟨by decide, by decide⟩⟩
    simpa [Configuration.document] using hnames
  sections := by
    have hsections := And.intro (entriesOk_paths h.exclude)
      (And.intro (entriesOk_paths h.include_) h.filterEntries)
    simpa [Configuration.document] using hsections
  nodup := by
    have hnodup : ["exclude".toList, "include_only".toList, "filter".toList].Nodup := by decide
    exact hnodup
  disjoint := by simp [Configuration.document]

/-- A section that was written is found. -/
theorem Configuration.Ok.section_lookup {c : Configuration} (h : c.Ok) {name : CString}
    {es : List (CString × Value)} (hname : c.document.sections.lookup name = some es) :
    c.document.table.view.tab.lookup name = some (entriesOf .empty es).view := by
  have hfind : c.document.table.find name = some (.tab (entriesOf .empty es)) := by
    rw [Document.table, find_sectionsOf h.document.nodup (fun _ _ => List.not_mem_nil), hname]
    rfl
  rw [view_tab_lookup, tab_of_find hfind]
  rfl

/-- The items of a path array are the strings that were written. -/
theorem pathItems_paths {conf : TomlTable} {name : CString} {paths : List CString}
    (hpaths : ∀ p ∈ paths, '\x00' ∉ p)
    (h : conf.tab.lookup name = some (entriesOf .empty (pathEntries paths)).view) :
    (pathItems conf name).map (itemString tomlReader) = paths.map some := by
  have harr : (entriesOf .empty (pathEntries paths)).arr.lookup "paths".toList =
      some (itemsOf .empty (paths.map .str)) := rfl
  rw [pathItems, h, Option.bind_some, view_arr_lookup, harr]
  simp only [Option.map_some, Option.getD_some, items_itemsOf, List.map_append, List.map_map]
  apply List.map_congr_left
  intro p hp
  have hread := tomlRtos_quote p
  rw [cString_eq (hpaths p hp)] at hread
  exact hread

theorem stringIn_filterEntries {c : Configuration} (h : c.Ok) (i : Fin qnFlags) :
    stringIn tomlReader (entriesOf .empty (DistillerFS.filterEntries c.filter)).view (opNames i) =
      c.filter i := by
  rw [stringIn, tomlRawIn, view_kval, kval_of_find,
    find_entriesOf h.filterEntries (fun _ _ => List.not_mem_nil), find_empty, Option.none_or,
    lookup_filterEntries]
  cases hi : c.filter i with
  | none => rfl
  | some w =>
    have hread := tomlRtos_quote w
    rw [cString_eq (filterValue_nul (h.filter i w hi))] at hread
    exact hread

/-- `parse_config` reads from the file what was written: the paths as they are, and for each
operation the flags of its word, or the default where it has none. -/
theorem parseConfig_readBack (c : Configuration) (hc : c.Ok) :
    ∃ flags, parseConfig tomlReader (some c.document.render) mainDefaults =
        some (0, ⟨flags, c.excludePath.map some, c.includePath.map some⟩) ∧
      ∀ i, (∀ w, c.filter i = some w → filterValue w = some (flags i)) ∧
        (c.filter i = none → flags i = logSuccess ||| logUnsuccess) := by
  have hconf : tomlReader.parseFile c.document.render = some c.document.table.view := by
    simp only [tomlReader, tomlParseFile, cString_render, tomlParse_document hc.document]
    rfl
  have hname : c.document.sections.lookup "filter".toList = some (DistillerFS.filterEntries c.filter) :=
    rfl
  have hfilter := hc.section_lookup hname
  obtain ⟨rc, flags, hparse, hrc⟩ := parseConfig_filter hconf hfilter
  have hzero : rc = 0 := by
    by_contra hne
    obtain ⟨i, s, hs, hwrong⟩ := hrc.mp hne
    rw [stringIn_filterEntries hc] at hs
    have hright := hc.filter i s hs
    rw [hwrong] at hright
    cases hright
  rw [hzero, pathItems_paths hc.exclude (hc.section_lookup rfl),
    pathItems_paths hc.include_ (hc.section_lookup rfl)] at hparse
  refine ⟨flags, hparse, fun i => ?_⟩
  have hflags := parseConfig_opFlags hparse i
  rwa [configured_filter hconf hfilter, stringIn_filterEntries hc] at hflags

/-- Two directories left out, and only the failed calls of open. -/
theorem parseConfig_readBack_sample : ∃ flags, parseConfig tomlReader
      (some (Configuration.document ⟨["/proc".toList, "/it's".toList], [],
        fun i => if opNames i = "open".toList then some "unsuccess".toList else none⟩).render) mainDefaults =
      some (0, ⟨flags, ["/proc".toList, "/it's".toList].map some, [].map some⟩) ∧
    ∀ i, (∀ w, (if opNames i = "open".toList then some "unsuccess".toList else none) = some w →
        filterValue w = some (flags i)) ∧
      ((if opNames i = "open".toList then some "unsuccess".toList else none) = none →
        flags i = logSuccess ||| logUnsuccess) := by
  apply parseConfig_readBack
  constructor
  · decide
  · decide
  · intro i w hw
    change (if opNames i = "open".toList then some "unsuccess".toList else none) = some w at hw
    by_cases hi : opNames i = "open".toList
    · rw [if_pos hi] at hw
      cases hw
      decide
    · rw [if_neg hi] at hw
      cases hw

end ReadBack

end DistillerFS
