import DistillerFS.Recording.AccessTable
import Mathlib.Data.List.FinRange
import Mathlib.Logic.Function.Basic

/-!
# Reading the configuration file

`parse_config` over the tables that the TOML reader delivers. A pointer that may be
NULL is an `Option`, and following NULL is the result `none` of the whole call.
-/
namespace DistillerFS

/-- The raw texts of the items; an item that is a table or an array has none. -/
structure TomlArray where
  items : List (Option CString)

inductive TomlTable where
  | mk (kval : List (CString × CString)) (arr : List (CString × TomlArray))
      (tab : List (CString × TomlTable))

def TomlTable.kval : TomlTable → List (CString × CString)
  | .mk kval _ _ => kval

def TomlTable.arr : TomlTable → List (CString × TomlArray)
  | .mk _ arr _ => arr

def TomlTable.tab : TomlTable → List (CString × TomlTable)
  | .mk _ _ tab => tab

/-- The two parts of the vendored reader that are taken as they are: `toml_parse_file`
on the content of a file, and `toml_rtos`, which reads a raw value as a string. -/
structure TomlReader where
  parseFile : CString → Option TomlTable
  rtos : CString → Option CString

def tomlRawIn (tab : TomlTable) (key : CString) : Option CString := tab.kval.lookup key

/-- `toml_array_in`; the table is followed without a test. -/
def tomlArrayIn (tab : Option TomlTable) (key : CString) : Option (Option TomlArray) :=
  tab.map (fun t => t.arr.lookup key)

def tomlTableIn (tab : Option TomlTable) (key : CString) : Option (Option TomlTable) :=
  tab.map (fun t => t.tab.lookup key)

def tomlArrayNelem (arr : TomlArray) : ℕ := arr.items.length

def tomlRawAt (arr : TomlArray) (idx : ℕ) : Option CString := (arr.items[idx]?).join

def tomlStringAt (lib : TomlReader) (arr : TomlArray) (idx : ℕ) : Option CString :=
  (tomlRawAt arr idx).bind lib.rtos

def stringIn (lib : TomlReader) (tab : TomlTable) (key : CString) : Option CString :=
  (tomlRawIn tab key).bind lib.rtos

/-- `toml_string_in`; the table is followed without a test. -/
def tomlStringIn (lib : TomlReader) (tab : Option TomlTable) (key : CString) :
    Option (Option CString) :=
  tab.map (fun t => stringIn lib t key)

/-- What `parse_config` may change: `op_flags`, and the path arrays of `g_filter`,
where `none` is a slot that was allocated and never assigned. -/
structure ConfigState where
  opFlags : OpFlags
  excludePath : List (Option CString)
  includePath : List (Option CString)

def mainDefaults : ConfigState where
  opFlags := fun _ => logSuccess ||| logUnsuccess
  excludePath := []
  includePath := []

def readPaths (lib : TomlReader) (conf : Option TomlTable) (section_ : CString)
    (old : List (Option CString)) : Option (List (Option CString)) := do
  let table ← tomlTableIn conf section_
  match table with
  | none => return old
  | some table =>
    let path_array ← tomlArrayIn (some table) "paths".toList
    match path_array with
    | none => return old
    | some path_array =>
      return (List.range (tomlArrayNelem path_array)).map (tomlStringAt lib path_array)

def filterValue (s : CString) : Option (BitVec 32) :=
  if s = "success".toList then some logSuccess
  else if s = "unsuccess".toList then some logUnsuccess
  else if s = "all".toList then some (logUnsuccess ||| logUnsuccess)
  else if s = "never".toList then some 0
  else none

/-- The loop over the operations, from the operation `is` starts at. A wrong value
ends it with return code 3. -/
def filterLoop (lib : TomlReader) (filter : Option TomlTable) :
    List (Fin qnFlags) → OpFlags → Option (ℤ × OpFlags)
  | [], op_flags => some (0, op_flags)
  | i :: is, op_flags => do
    let filter_value ← tomlStringIn lib filter (opNames i)
    match filter_value with
    | none => filterLoop lib filter is op_flags
    | some s =>
      match filterValue s with
      | some v => filterLoop lib filter is (Function.update op_flags i v)
      | none => return (3, op_flags)

/-- `file` is the content of the configuration file, or `none` when it cannot be opened. -/
def parseConfig (lib : TomlReader) (file : Option CString) (st : ConfigState) :
    Option (ℤ × ConfigState) :=
  match file with
  | none => some (0, st)
  | some content => do
    let conf := lib.parseFile content
    let excludePath ← readPaths lib conf "exclude".toList st.excludePath
    let includePath ← readPaths lib conf "include_only".toList st.includePath
    let filter ← tomlTableIn conf "filter".toList
    let res ← filterLoop lib filter (List.finRange qnFlags) st.opFlags
    return (res.1, { opFlags := res.2, excludePath := excludePath, includePath := includePath })

/-- The text the configuration gives for an operation, if it gives one. -/
def configured (lib : TomlReader) (file : Option CString) (i : Fin qnFlags) : Option CString := do
  let content ← file
  let conf ← lib.parseFile content
  let filter ← conf.tab.lookup "filter".toList
  stringIn lib filter (opNames i)

theorem configured_filter {lib : TomlReader} {content : CString} {conf t : TomlTable}
    (hconf : lib.parseFile content = some conf) (ht : conf.tab.lookup "filter".toList = some t)
    (i : Fin qnFlags) : configured lib (some content) i = stringIn lib t (opNames i) := by
  simp only [configured, Option.bind_eq_bind, Option.bind_some, hconf, ht]

/-- Inversion of the loop: it ends well exactly when every value it meets is accepted,
and then each operation has its own value and nothing else changed. -/
theorem filterLoop_accepted {lib : TomlReader} {t : TomlTable} {is : List (Fin qnFlags)}
    (hnodup : is.Nodup) {flags flags' : OpFlags}
    (h : filterLoop lib (some t) is flags = some (0, flags')) (j : Fin qnFlags) :
    (∀ s, j ∈ is → stringIn lib t (opNames j) = some s → filterValue s = some (flags' j)) ∧
      (j ∉ is ∨ stringIn lib t (opNames j) = none → flags' j = flags j) := by
  induction is generalizing flags with
  | nil =>
    simp only [filterLoop, Option.some.injEq, Prod.mk.injEq, true_and] at h
    simp [h]
  | cons i is ih =>
    obtain ⟨hi, hnodup⟩ := List.nodup_cons.mp hnodup
    simp only [filterLoop, tomlStringIn, Option.map_some, Option.bind_eq_bind,
      Option.bind_some] at h
    cases hs : stringIn lib t (opNames i) with
    | none =>
      rw [hs] at h
      obtain ⟨hin, hout⟩ := ih hnodup h
      refine ⟨fun s hj hsj => ?_, fun hj => hout ?_⟩
      · rcases List.mem_cons.mp hj with rfl | hj
        · simp [hs] at hsj
        · exact hin s hj hsj
      · exact hj.imp_left (fun hj hmem => hj (List.mem_cons_of_mem _ hmem))
    | some s =>
      rw [hs] at h
      cases hv : filterValue s with
      | none =>
        have hrc : (3 : ℤ) = 0 := by simpa [hv] using congrArg (Option.map Prod.fst) h
        exact absurd hrc (by decide)
      | some v =>
        simp only [hv] at h
        obtain ⟨hin, hout⟩ := ih hnodup h
        by_cases hji : j = i
        · subst hji
          have hflag : flags' j = v := by simpa using hout (.inl hi)
          refine ⟨fun s' _ hs' => ?_, fun hj => ?_⟩
          · rw [hs, Option.some.injEq] at hs'
            rw [← hs', hv, hflag]
          · simp [hs] at hj
        · refine ⟨fun s' hj hs' => hin s' (by simpa [hji] using hj) hs', fun hj => ?_⟩
          have hkeep : j ∉ is ∨ stringIn lib t (opNames j) = none :=
            hj.imp_left (fun hj hmem => hj (List.mem_cons_of_mem _ hmem))
          rw [hout hkeep, Function.update_of_ne hji]

/-- A file that can be opened leads to a result only with a [filter] table in it. -/
theorem parseConfig_returns {lib : TomlReader} {content : CString} {st : ConfigState}
    {res : ℤ × ConfigState} (h : parseConfig lib (some content) st = some res) :
    ∃ conf t, lib.parseFile content = some conf ∧ conf.tab.lookup "filter".toList = some t ∧
      filterLoop lib (some t) (List.finRange qnFlags) st.opFlags = some (res.1, res.2.opFlags) := by
  cases hconf : lib.parseFile content with
  | none => simp [parseConfig, hconf, readPaths, tomlTableIn] at h
  | some conf =>
    simp only [parseConfig, hconf, tomlTableIn, Option.map_some, Option.bind_eq_bind,
      Option.bind_some] at h
    obtain ⟨_, _, h⟩ := Option.bind_eq_some_iff.mp h
    obtain ⟨_, _, h⟩ := Option.bind_eq_some_iff.mp h
    obtain ⟨flags, hloop, h⟩ := Option.bind_eq_some_iff.mp h
    cases h
    cases ht : conf.tab.lookup "filter".toList with
    | some t =>
      rw [ht] at hloop
      exact ⟨conf, t, rfl, ht, hloop⟩
    | none =>
      -- the first lookup of the loop follows NULL
      rw [ht] at hloop
      cases hloop

/-- After an accepted configuration the flags of an operation are the meaning of its
own value, and the default where it has none. -/
theorem parseConfig_opFlags {lib : TomlReader} {file : Option CString} {st : ConfigState}
    (h : parseConfig lib file mainDefaults = some (0, st)) (i : Fin qnFlags) :
    (∀ s, configured lib file i = some s → filterValue s = some (st.opFlags i)) ∧
      (configured lib file i = none → st.opFlags i = logSuccess ||| logUnsuccess) := by
  cases file with
  | none =>
    cases h
    simp [configured, mainDefaults]
  | some content =>
    obtain ⟨conf, t, hconf, ht, hloop⟩ := parseConfig_returns h
    obtain ⟨hin, hout⟩ := filterLoop_accepted (List.nodup_finRange _) hloop i
    rw [configured_filter hconf ht]
    exact ⟨fun s hs => hin s (List.mem_finRange i) hs, fun hnone => hout (.inr hnone)⟩

end DistillerFS
