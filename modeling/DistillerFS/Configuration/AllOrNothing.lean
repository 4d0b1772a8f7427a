import DistillerFS.Configuration.Initialised
import DistillerFS.Mounting.Main

/-!
# What an accepted configuration stands for

The interpretation of a file says what each of its items means. `parse_config` returns
the code 0 on files that it has not interpreted.
-/
namespace DistillerFS

/-- The entry of an operation in [filter]; a value that is no string has no text. -/
def filterEntry (lib : TomlReader) (filter : TomlTable) (key : CString) : Option (Option CString) :=
  if (filter.kval.lookup key).isSome then some (stringIn lib filter key)
  else if (filter.arr.lookup key).isSome ∨ (filter.tab.lookup key).isSome then some none
  else none

/-- The entries of the whole file; without [filter] there are none. -/
def configEntry (lib : TomlReader) (conf : TomlTable) (i : Fin qnFlags) : Option (Option CString) :=
  (conf.tab.lookup "filter".toList).bind (fun t => filterEntry lib t (opNames i))

def wordMeaning (value : CString) : Option (BitVec 32) :=
  if value = "success".toList then some logSuccess
  else if value = "unsuccess".toList then some logUnsuccess
  else if value = "all".toList then some (logSuccess ||| logUnsuccess)
  else if value = "never".toList then some 0
  else none

structure Interprets (lib : TomlReader) (conf : TomlTable) (st : ConfigState) : Prop where
  excludeStrings : StringsOnly lib conf "exclude".toList
  includeStrings : StringsOnly lib conf "include_only".toList
  excludePath : st.excludePath = (pathItems conf "exclude".toList).map (itemString lib)
  includePath : st.includePath = (pathItems conf "include_only".toList).map (itemString lib)
  present : ∀ i e, configEntry lib conf i = some e → e.bind wordMeaning = some (st.opFlags i)
  absent : ∀ i, configEntry lib conf i = none → st.opFlags i = mainDefaults.opFlags i

/-- `parse_config` returns a nonzero code, or the file was read and interpreted. -/
def AllOrNothing (lib : TomlReader) (file : Option CString) : Prop :=
  ∃ rc st, parseConfig lib file mainDefaults = some (rc, st) ∧
    (rc ≠ 0 ∨ ∃ content conf, file = some content ∧ lib.parseFile content = some conf ∧
      Interprets lib conf st)

/-- The words for which `parse_config` stores what they mean. -/
def SoundWord (e : Option CString) : Prop :=
  e = some "success".toList ∨ e = some "unsuccess".toList ∨ e = some "never".toList

/-- The file is readable and well formed with a [filter] table, and either some value there
is a wrong string, or the path arrays hold strings only and every entry of an operation
is one of the three words that are stored as they are meant. -/
def FaithfulFile (lib : TomlReader) (file : Option CString) : Prop :=
  ∃ content conf t, file = some content ∧ lib.parseFile content = some conf ∧
    conf.tab.lookup "filter".toList = some t ∧
    (WrongValue lib t ∨
      (StringsOnly lib conf "exclude".toList ∧ StringsOnly lib conf "include_only".toList ∧
        ∀ i e, filterEntry lib t (opNames i) = some e → SoundWord e))

theorem filterEntry_of_stringIn {lib : TomlReader} {t : TomlTable} {key s : CString}
    (h : stringIn lib t key = some s) : filterEntry lib t key = some (some s) := by
  obtain ⟨raw, hraw, _⟩ := Option.bind_eq_some_iff.mp h
  have hkval : t.kval.lookup key = some raw := hraw
  rw [filterEntry, hkval, Option.isSome_some, if_pos rfl, h]

theorem stringIn_of_filterEntry {lib : TomlReader} {t : TomlTable} {key s : CString}
    (h : filterEntry lib t key = some (some s)) : stringIn lib t key = some s := by
  unfold filterEntry at h
  split_ifs at h
  · exact Option.some.inj h
  · cases h

/-- The stored bits are the meaning of the word, but for "all". -/
theorem soundWord_iff {s : CString} {v : BitVec 32} (h : filterValue s = some v) :
    SoundWord (some s) ↔ wordMeaning s = some v := by
  unfold filterValue at h
  split_ifs at h with hs hu ha hn
  · cases h
    exact iff_of_true (.inl (congrArg some hs)) (by rw [hs]; rfl)
  · cases h
    exact iff_of_true (.inr (.inl (congrArg some hu))) (by rw [hu]; rfl)
  · cases h
    apply iff_of_false
    · rw [ha, SoundWord]
      decide
    · rw [ha]
      decide
  · cases h
    exact iff_of_true (.inr (.inr (congrArg some hn))) (by rw [hn]; rfl)

/-- An accepted state is the interpretation when the arrays hold strings only and no entry
is skipped or misread. -/
theorem interprets_iff {lib : TomlReader} {content : CString} {conf t : TomlTable} {st : ConfigState}
    (hconf : lib.parseFile content = some conf) (ht : conf.tab.lookup "filter".toList = some t)
    (h : parseConfig lib (some content) mainDefaults = some (0, st)) :
    Interprets lib conf st ↔
      StringsOnly lib conf "exclude".toList ∧ StringsOnly lib conf "include_only".toList ∧
        ∀ i e, filterEntry lib t (opNames i) = some e → SoundWord e := by
  have hentry (i) : configEntry lib conf i = filterEntry lib t (opNames i) := by
    rw [configEntry, ht, Option.bind_some]
  have hflags (i) := parseConfig_opFlags h i
  simp only [configured_filter hconf ht] at hflags
  constructor
  · intro hint
    refine ⟨hint.excludeStrings, hint.includeStrings, ?_⟩
    intro i e he
    have hmean := hint.present i e ((hentry i).trans he)
    cases e with
    | none => cases hmean
    | some s => exact (soundWord_iff ((hflags i).1 s (stringIn_of_filterEntry he))).mpr hmean
  · rintro ⟨hexc, hinc, hwords⟩
    obtain ⟨rc, flags, hres, _⟩ := parseConfig_filter hconf ht
    rw [h] at hres
    cases hres
    refine ⟨hexc, hinc, rfl, rfl, ?_, ?_⟩
    · intro i e he
      rw [hentry] at he
      have hsound := hwords i e he
      obtain ⟨s, rfl⟩ : ∃ s, e = some s := by
        rcases hsound with h | h | h <;> exact ⟨_, h⟩
      exact (soundWord_iff ((hflags i).1 s (stringIn_of_filterEntry he))).mp hsound
    · intro i he
      rw [hentry] at he
      apply (hflags i).2
      by_contra hset
      obtain ⟨s, hs⟩ := Option.ne_none_iff_exists'.mp hset
      rw [filterEntry_of_stringIn hs] at he
      cases he

theorem allOrNothing_iff_faithful (lib : TomlReader) (file : Option CString) :
    AllOrNothing lib file ↔ FaithfulFile lib file := by
  constructor
  · rintro ⟨rc, st, hparse, hrc⟩
    cases file with
    | none =>
      -- a file that cannot be opened is accepted with the code 0
      cases hparse
      obtain hne | ⟨content, _, hfile, _⟩ := hrc
      · exact absurd rfl hne
      · cases hfile
    | some content =>
      obtain ⟨conf, t, hconf, ht, _⟩ := parseConfig_returns hparse
      refine ⟨content, conf, t, rfl, hconf, ht, ?_⟩
      by_cases hzero : rc = 0
      · subst hzero
        obtain ⟨content', conf', hfile, hconf', hint⟩ := hrc.resolve_left (not_not.mpr rfl)
        cases hfile
        rw [hconf] at hconf'
        cases hconf'
        exact .inr ((interprets_iff hconf ht hparse).mp hint)
      · obtain ⟨rc', flags, hres, hwrong⟩ := parseConfig_filter hconf ht
        rw [hparse] at hres
        cases hres
        exact .inl (hwrong.mp hzero)
  · rintro ⟨content, conf, t, rfl, hconf, ht, hgood⟩
    obtain ⟨rc, flags, hres, hwrong⟩ := parseConfig_filter hconf ht
    refine ⟨rc, _, hres, ?_⟩
    by_cases hzero : rc = 0
    · subst hzero
      refine .inr ⟨content, conf, rfl, hconf, ?_⟩
      exact (interprets_iff hconf ht hres).mpr (hgood.resolve_left (fun hw => hwrong.mpr hw rfl))
    · exact .inl hzero

/-- `parse_config` is all or nothing exactly on the faithful files; a nonzero code always
keeps `main` from mounting. -/
theorem allOrNothing_iff (lib : TomlReader) (file : Option CString) :
    (AllOrNothing lib file ↔ FaithfulFile lib file) ∧
    ∀ (host : Host) (argv : List CString) (m : Mount), main host argv = .mounted m →
      ∀ name, m.args.configFilename = some (some name) →
        parseConfig host.toml (host.readFile name) mainDefaults = some (0, m.config) :=
  ⟨allOrNothing_iff_faithful lib file, fun _ _ _ h => (main_mounted h).2.2.2⟩

/-- A configuration file that does not exist is accepted with the default settings, and so
is a setting without quotes. -/
theorem config_accepted_silently :
    ¬ AllOrNothing openHost.toml none ∧
    ¬ AllOrNothing (readerOf "[filter]\nread=success".toList
        (.mk [] [] [("filter".toList, .mk [("read".toList, "success".toList)] [] [])]))
      (some "[filter]\nread=success".toList) := by
  constructor
  · rintro ⟨rc, st, hparse, hrc⟩
    cases hparse
    obtain hne | ⟨content, _, hfile, _⟩ := hrc
    · exact hne rfl
    · cases hfile
  · rintro ⟨rc, st, hparse, hrc⟩
    cases hparse
    obtain hne | ⟨content, conf, hfile, hconf, hint⟩ := hrc
    · exact hne rfl
    · cases hfile
      cases hconf
      have hmean := hint.present FuseOps.opRead.index none rfl
      cases hmean

end DistillerFS
