import DistillerFS.Configuration.ParseConfig
import Mathlib.Data.List.ReduceOption

/-!
# Tables that exist and slots that are set

`parse_config` on every file: what it stores in the slots of the two path arrays, which
return code it gives, and when it follows a table that does not exist.
-/
namespace DistillerFS

def pathItems (conf : TomlTable) (section_ : CString) : List (Option CString) :=
  (((conf.tab.lookup section_).bind (fun t => t.arr.lookup "paths".toList)).map TomlArray.items).getD []

def itemString (lib : TomlReader) (raw : Option CString) : Option CString := raw.bind lib.rtos

def StringsOnly (lib : TomlReader) (conf : TomlTable) (section_ : CString) : Prop :=
  ∀ raw ∈ pathItems conf section_, (itemString lib raw).isSome

/-- The loop of `is_excluded` and `is_included` over the slots as they are. An unassigned
slot cannot be read, and the loop then has no result. -/
def prefixLoop (path : CString) : List (Option CString) → Option Bool
  | [] => some false
  | none :: _ => none
  | some d :: slots => if strncmpEq path d d.length then some true else prefixLoop path slots

def isExcludedSlots (path : CString) (exc_path : List (Option CString)) : Option Bool :=
  prefixLoop path exc_path

def isIncludedSlots (path : CString) (inc_path : List (Option CString)) : Option Bool :=
  if inc_path.length = 0 then some true else prefixLoop path inc_path

/-- `parse_config` returns, every slot holds a string, and the path filter reads these
strings for every path. -/
def ConfigurationSound (lib : TomlReader) (file : Option CString) : Prop :=
  ∃ (rc : ℤ) (st : ConfigState) (filter : FilterDesc),
    parseConfig lib file mainDefaults = some (rc, st) ∧
    st.excludePath = filter.excludePath.map some ∧
    st.includePath = filter.includePath.map some ∧
    ∀ path, isExcludedSlots path st.excludePath = some (isExcluded path filter.excludePath) ∧
      isIncludedSlots path st.includePath = some (isIncluded path filter.includePath)

/-- A file that can be opened is well formed, has a [filter] table, and has strings only
in the two path arrays. -/
def FileSafe (lib : TomlReader) (file : Option CString) : Prop :=
  ∀ content, file = some content → ∃ conf, lib.parseFile content = some conf ∧
    (conf.tab.lookup "filter".toList).isSome ∧ StringsOnly lib conf "exclude".toList ∧
      StringsOnly lib conf "include_only".toList

/-- The value of some operation is a string outside the accepted ones. -/
def WrongValue (lib : TomlReader) (filter : TomlTable) : Prop :=
  ∃ i s, stringIn lib filter (opNames i) = some s ∧ filterValue s = none

theorem prefixLoop_map_some (path : CString) (ds : List CString) :
    prefixLoop path (ds.map some) = some (ds.any (fun d => strncmpEq path d d.length)) := by
  induction ds with
  | nil => rfl
  | cons d ds ih =>
    rw [List.map_cons, prefixLoop, ih, List.any_cons]
    cases strncmpEq path d d.length <;> rfl

theorem readPaths_eq (lib : TomlReader) (conf : TomlTable) (section_ : CString) :
    readPaths lib (some conf) section_ [] =
      some ((pathItems conf section_).map (itemString lib)) := by
  simp only [readPaths, pathItems, tomlTableIn, tomlArrayIn, Option.map_some, Option.bind_eq_bind,
    Option.bind_some]
  cases conf.tab.lookup section_ with
  | none => rfl
  | some table =>
    simp only [Option.bind_some]
    cases table.arr.lookup "paths".toList with
    | none => rfl
    | some arr =>
      apply congrArg some
      apply List.ext_getElem?
      intro idx
      rw [List.getElem?_map, List.getElem?_map]
      by_cases hidx : idx < arr.items.length
      · have hrange : (List.range (tomlArrayNelem arr))[idx]? = some idx := List.getElem?_range hidx
        simp [hrange, tomlStringAt, tomlRawAt, itemString, List.getElem?_eq_getElem hidx]
      · have hle : arr.items.length ≤ idx := not_lt.mp hidx
        simp [tomlArrayNelem, hle]

/-- The loop over an existing table always ends, with a nonzero code exactly at a wrong value. -/
theorem filterLoop_total (lib : TomlReader) (t : TomlTable) (is : List (Fin qnFlags))
    (flags : OpFlags) : ∃ rc flags', filterLoop lib (some t) is flags = some (rc, flags') ∧
      (rc ≠ 0 ↔ ∃ i ∈ is, ∃ s, stringIn lib t (opNames i) = some s ∧ filterValue s = none) := by
  induction is generalizing flags with
  | nil => exact ⟨0, flags, rfl, by simp⟩
  | cons i is ih =>
    simp only [filterLoop, tomlStringIn, Option.map_some, Option.bind_eq_bind, Option.bind_some,
      List.exists_mem_cons_iff]
    cases hs : stringIn lib t (opNames i) with
    | none =>
      obtain ⟨rc, flags', hloop, hrc⟩ := ih flags
      exact ⟨rc, flags', hloop, by simp [hrc]⟩
    | some s =>
      cases hv : filterValue s with
      | none => exact ⟨3, flags, by simp [hv], by simp [hv]⟩
      | some v =>
        obtain ⟨rc, flags', hloop, hrc⟩ := ih (Function.update flags i v)
        exact ⟨rc, flags', by simp [hv, hloop], by simp [hrc, hv]⟩

/-- `parse_config` on a file that parses and has a [filter] table. -/
theorem parseConfig_filter {lib : TomlReader} {content : CString} {conf t : TomlTable}
    (hconf : lib.parseFile content = some conf) (ht : conf.tab.lookup "filter".toList = some t) :
    ∃ rc flags, parseConfig lib (some content) mainDefaults =
        some (rc, ⟨flags, (pathItems conf "exclude".toList).map (itemString lib),
          (pathItems conf "include_only".toList).map (itemString lib)⟩) ∧
      (rc ≠ 0 ↔ WrongValue lib t) := by
  obtain ⟨rc, flags, hloop, hrc⟩ :=
    filterLoop_total lib t (List.finRange qnFlags) mainDefaults.opFlags
  refine ⟨rc, flags, ?_, ?_⟩
  · simp only [parseConfig, hconf, mainDefaults, readPaths_eq, tomlTableIn, Option.map_some, ht,
      Option.bind_eq_bind, Option.bind_some] at hloop ⊢
    rw [hloop]
    rfl
  · rw [hrc, WrongValue]
    simp only [List.mem_finRange, true_and]

/-- Slots that are all set are a list of strings. -/
theorem eq_map_some_iff {slots : List (Option CString)} :
    (∀ slot ∈ slots, slot.isSome) ↔ ∃ ds : List CString, slots = ds.map some := by
  constructor
  · intro h
    refine ⟨slots.reduceOption, ?_⟩
    induction slots with
    | nil => rfl
    | cons slot slots ih =>
      obtain ⟨d, hd⟩ := Option.isSome_iff_exists.mp (h slot (by simp))
      rw [hd, List.reduceOption_cons_of_some, List.map_cons,
        ← ih (fun slot hslot => h slot (List.mem_cons_of_mem _ hslot))]
  · rintro ⟨ds, rfl⟩ slot hslot
    obtain ⟨d, _, rfl⟩ := List.mem_map.mp hslot
    rfl

theorem stringsOnly_iff {lib : TomlReader} {conf : TomlTable} {section_ : CString} :
    StringsOnly lib conf section_ ↔
      ∃ ds : List CString, (pathItems conf section_).map (itemString lib) = ds.map some := by
  rw [← eq_map_some_iff, StringsOnly, List.forall_mem_map]

theorem slots_read (path : CString) (filter : FilterDesc) :
    isExcludedSlots path (filter.excludePath.map some) = some (isExcluded path filter.excludePath) ∧
      isIncludedSlots path (filter.includePath.map some) =
        some (isIncluded path filter.includePath) := by
  constructor
  · exact prefixLoop_map_some path filter.excludePath
  · rw [isIncludedSlots, isIncluded, List.length_map, prefixLoop_map_some]
    split_ifs <;> rfl

/-- Configuration handling uses no missing table and no unset slot exactly on the files
that cannot be opened and the safe ones. -/
theorem configurationSound_iff (lib : TomlReader) (file : Option CString) :
    ConfigurationSound lib file ↔ FileSafe lib file := by
  constructor
  · rintro ⟨rc, st, filter, hparse, hexc, hinc, _⟩ content rfl
    obtain ⟨conf, t, hconf, ht, _⟩ := parseConfig_returns hparse
    obtain ⟨rc', flags, hres, _⟩ := parseConfig_filter hconf ht
    rw [hparse] at hres
    cases hres
    refine ⟨conf, hconf, Option.isSome_iff_exists.mpr ⟨t, ht⟩, ?_, ?_⟩
    · exact stringsOnly_iff.mpr ⟨_, hexc⟩
    · exact stringsOnly_iff.mpr ⟨_, hinc⟩
  · intro hsafe
    cases file with
    | none => exact ⟨0, mainDefaults, ⟨[], []⟩, rfl, rfl, rfl, fun path => slots_read path ⟨[], []⟩⟩
    | some content =>
      obtain ⟨conf, hconf, hfilter, hexc, hinc⟩ := hsafe content rfl
      obtain ⟨t, ht⟩ := Option.isSome_iff_exists.mp hfilter
      obtain ⟨excludePath, hexc⟩ := stringsOnly_iff.mp hexc
      obtain ⟨includePath, hinc⟩ := stringsOnly_iff.mp hinc
      obtain ⟨rc, flags, hres, _⟩ := parseConfig_filter hconf ht
      rw [hexc, hinc] at hres
      exact ⟨rc, _, ⟨excludePath, includePath⟩, hres, rfl, rfl,
        fun path => slots_read path ⟨excludePath, includePath⟩⟩

def basicString (raw : CString) : Option CString :=
  if raw.head? = some '"' ∧ raw.getLast? = some '"' ∧ 2 ≤ raw.length then some raw.tail.dropLast
  else none

def readerOf (content : CString) (conf : TomlTable) : TomlReader where
  parseFile := fun c => if c = content then some conf else none
  rtos := basicString

def excludeSection (items : List CString) : CString × TomlTable :=
  ("exclude".toList, .mk [] [("paths".toList, ⟨items.map some⟩)] [])

/-- Without [filter] the first lookup of an operation follows NULL, and a number among the
excluded paths leaves its slot unset. -/
theorem configuration_unsound :
    ¬ ConfigurationSound (readerOf "[exclude]\npaths=[\"/out\"]".toList
        (.mk [] [] [excludeSection ["\"/out\"".toList]]))
      (some "[exclude]\npaths=[\"/out\"]".toList) ∧
    ¬ ConfigurationSound (readerOf "[filter]\n[exclude]\npaths=[5]".toList
        (.mk [] [] [("filter".toList, .mk [] [] []), excludeSection ["5".toList]]))
      (some "[filter]\n[exclude]\npaths=[5]".toList) := by
  constructor
  · rintro ⟨rc, st, filter, hparse, _⟩
    obtain ⟨conf, t, hconf, ht, _⟩ := parseConfig_returns hparse
    cases hconf
    cases ht
  · rintro ⟨rc, st, filter, hparse, hexc, _⟩
    cases hparse
    have hset := eq_map_some_iff.mpr ⟨filter.excludePath, hexc⟩ none (List.mem_singleton_self none)
    cases hset

end DistillerFS
