import DistillerFS.Distillation.Completeness

/-!
# Phantom files

A path that only failed is a phantom when the script creates it. The default of `main`
logs failures too, so a failing lookup of a missing file is enough for a `touch`.
-/
namespace DistillerFS
open Foundations

def Command.target : Command → Option CString
  | .cp _ dst => some dst
  | .touch path => some path
  | .mkdirPath path => some path
  | _ => none

def LogLine.target : LogLine → Option CString
  | .entry flags path =>
    if '/' ∈ path ∧ (opensFile flags = true ∨ stringFind flags 'G' = true) then some path else none
  | _ => none

theorem Command.isEcho_of_target {c : Command} {p : CString} (h : c.target = some p) :
    c.isEcho = false := by
  cases c <;> first | rfl | cases h

theorem processPath_target {path flags fromPrefix toPrefix p : CString} :
    (∃ c ∈ processPath path flags fromPrefix toPrefix, c.target = some (toPrefix ++ p)) ↔
      (LogLine.entry flags path).target = some p := by
  by_cases hslash : '/' ∈ path
  · obtain ⟨dir, hdir⟩ := exists_getDir hslash
    unfold processPath
    simp only [hdir, LogLine.target, hslash, true_and, if_pos (take_ne_prebuilts dir)]
    by_cases ho : opensFile flags = true
    · by_cases hd : 1 < dir.length <;> simp [ho, hd, Command.target]
    · by_cases hG : stringFind flags 'G' = true
      · by_cases hd : stringFind flags 'd' = true <;> simp [ho, hG, hd, Command.target]
      · simp [ho, hG]
  · simp [processPath, getDir_none hslash, LogLine.target, hslash]

theorem lineCommands_target {fromPrefix toPrefix line p : CString} :
    (∃ c ∈ lineCommands fromPrefix toPrefix line, c.target = some (toPrefix ++ p)) ↔
      (readLine line).target = some p := by
  unfold lineCommands
  cases readLine line with
  | comment => simp [LogLine.target]
  | wrongFormat line => simp [LogLine.target, Command.target]
  | entry flags path => exact processPath_target

/-- What a stored name puts on its own line, and the lines its newlines add. -/
def ownLine (name : CString) : CString := (name.splitOn '\n').headD []
def addedLines (name : CString) : List CString := (name.splitOn '\n').tail

theorem splitOn_newline (name : CString) : name.splitOn '\n' = ownLine name :: addedLines name := by
  unfold ownLine addedLines
  cases h : name.splitOn '\n' with
  | nil => exact absurd h (List.splitOn_ne_nil _ _)
  | cons p ps => rfl

theorem ownLine_plain {name : CString} (h : '\n' ∉ name) :
    ownLine name = name ∧ addedLines name = [] := by
  have hsplit := splitOn_newline name
  rw [List.splitOn_eq_singleton h] at hsplit
  exact ⟨(List.cons.inj hsplit).1.symm, (List.cons.inj hsplit).2.symm⟩

theorem entryLine_splitOn (k : CString) (v : LfsCount) :
    (entryLine k v).splitOn '\n' = entryLine (ownLine k) v :: addedLines k := by
  rw [entryLine_eq, splitOn_append_of_not_mem (newline_not_mem_entryHead v), splitOn_newline,
    List.modifyHead_cons, ← entryLine_eq]

def visibleOps : List FuseOps := .opGetattr :: copyingOps

/-- The reader accepts a line with this path, and the path has a directory. -/
def Accepted (path : CString) : Prop := '/' ∈ path ∧ ':' ∉ path

theorem entryLine_target {k p : CString} {v : LfsCount} :
    (readLine (entryLine k v)).target = some p ↔
      k = p ∧ Accepted p ∧ ∃ op ∈ visibleOps, v.flags.getLsbD op.index.val = true := by
  have hG : stringFind (maskField v.flags) 'G' = v.flags.getLsbD FuseOps.opGetattr.index.val :=
    stringFind_maskField v.flags FuseOps.opGetattr.index
  have hvisible : (opensFile (maskField v.flags) = true ∨ stringFind (maskField v.flags) 'G' = true) ↔
      ∃ op ∈ visibleOps, v.flags.getLsbD op.index.val = true := by
    rw [opensFile_maskField, hG]
    simp only [visibleOps, List.mem_cons, or_and_right, exists_or, exists_eq_left]
    exact or_comm
  rw [readLine_entryLine, ← hvisible]
  unfold Accepted
  split_ifs with hcolon
  · simp only [LogLine.target, reduceCtorEq, false_iff]
    rintro ⟨rfl, hk, _⟩
    exact hk.2 hcolon
  · simp only [LogLine.target]
    split_ifs with hshown
    · simp only [Option.some.injEq]
      exact ⟨fun h => h ▸ ⟨rfl, ⟨hshown.1, hcolon⟩, hshown.2⟩, And.left⟩
    · simp only [false_iff]
      rintro ⟨rfl, hk, hv⟩
      exact hshown ⟨hk.1, hv⟩

/-- The targets of the script, entry by entry. -/
theorem processLog_target (op_flags : OpFlags) {h : Hash} (it : Iteration h)
    (fromPrefix toPrefix : CString) {p : CString} :
    (∃ c ∈ processLog (report op_flags it) fromPrefix toPrefix, c.target = some (toPrefix ++ p)) ↔
      ∃ k v, h.lookup k = some v ∧
        ((readLine (entryLine (ownLine k) v)).target = some p ∨
          ∃ line ∈ addedLines k, (readLine line).target = some p) := by
  have hlines : (∃ c ∈ processLog (report op_flags it) fromPrefix toPrefix,
      c.target = some (toPrefix ++ p)) ↔
        ∃ line ∈ ioLines (report op_flags it), (readLine line).target = some p := by
    simp only [← @lineCommands_target fromPrefix toPrefix]
    constructor
    · rintro ⟨c, hc, htarget⟩
      obtain ⟨line, hline, hc⟩ :=
        (mem_mainLoop fromPrefix toPrefix (Command.isEcho_of_target htarget) 0 _).mp hc
      exact ⟨line, hline, c, hc, htarget⟩
    · rintro ⟨line, hline, c, hc, htarget⟩
      exact ⟨c, (mem_mainLoop fromPrefix toPrefix (Command.isEcho_of_target htarget) 0 _).mpr
        ⟨line, hline, hc⟩, htarget⟩
  rw [hlines, ioLines_report]
  simp only [List.mem_append, List.mem_flatMap, entryLine_splitOn, List.mem_cons]
  constructor
  · rintro ⟨line, hline | ⟨e, he, hline⟩, htarget⟩
    · rw [(headerLines_comment hline).2] at htarget
      cases htarget
    · refine ⟨e.1, e.2, it.mem_order.mp he, ?_⟩
      rcases hline with rfl | hline
      · exact .inl htarget
      · exact .inr ⟨line, hline, htarget⟩
  · rintro ⟨k, v, hk, htarget | ⟨line, hline, htarget⟩⟩
    · exact ⟨_, .inr ⟨⟨k, v⟩, it.mem_order.mpr hk, .inl rfl⟩, htarget⟩
    · exact ⟨line, .inr ⟨⟨k, v⟩, it.mem_order.mpr hk, .inr hline⟩, htarget⟩

namespace Session
variable {cfg : Settings} (S : Session cfg)

/-- The path was an operand of a call of the run whose handler took the branch of a success. -/
def Succeeded (p : CString) : Prop :=
  ∃ c ∈ S.calls, p ∈ c.req.operands ∧ c.branch cfg = .success

/-- Whatever the script creates was an operand of a successful call. -/
def NoPhantoms (it : Iteration S.table) (fromPrefix toPrefix : CString) : Prop :=
  ∀ c ∈ processLog (report cfg.opFlags it) fromPrefix toPrefix,
    ∀ p, c.target = some (toPrefix ++ p) → S.Succeeded p

theorem mem_table_iff_records {p : CString} :
    p ∈ S.table ↔ ∃ c ∈ S.calls, c.records cfg p := by
  simp only [S.mem_table, Call.records_iff_names]
  constructor
  · rintro ⟨ha, c, hc, hn, hgate⟩
    exact ⟨c, hc, ha, hn, hgate⟩
  · rintro ⟨c, hc, ha, hn, hgate⟩
    exact ⟨ha, c, hc, hn, hgate⟩

theorem flag_iff_records {p : CString} {v : LfsCount} (h : S.table.lookup p = some v)
    (op : FuseOps) : v.flags.getLsbD op.index.val = true ↔
      ∃ c ∈ S.calls, c.req.op = op ∧ c.records cfg p := by
  simp only [S.table_flag_iff h, Call.records_iff_names]
  constructor
  · rintro ⟨ha, c, hc, rfl, hn, hgate⟩
    exact ⟨c, hc, rfl, ha, hn, hgate⟩
  · rintro ⟨c, hc, rfl, ha, hn, hgate⟩
    exact ⟨ha, c, hc, rfl, hn, hgate⟩

/-- No phantoms, call by call: each recorded name is checked with the lines it adds. -/
theorem noPhantoms_iff_records (it : Iteration S.table) (fromPrefix toPrefix : CString) :
    S.NoPhantoms it fromPrefix toPrefix ↔ ∀ c ∈ S.calls, ∀ n, c.records cfg n →
      (c.req.op ∈ visibleOps → Accepted (ownLine n) → S.Succeeded (ownLine n)) ∧
      (∀ line ∈ addedLines n, ∀ p, (readLine line).target = some p → S.Succeeded p) := by
  have htargets : S.NoPhantoms it fromPrefix toPrefix ↔
      ∀ p k v, S.table.lookup k = some v →
        ((readLine (entryLine (ownLine k) v)).target = some p ∨
          ∃ line ∈ addedLines k, (readLine line).target = some p) → S.Succeeded p := by
    unfold NoPhantoms
    constructor
    · intro h p k v hk htarget
      obtain ⟨c, hc, hp⟩ :=
        (processLog_target cfg.opFlags it fromPrefix toPrefix).mpr ⟨k, v, hk, htarget⟩
      exact h c hc p hp
    · intro h c hc p hp
      obtain ⟨k, v, hk, htarget⟩ :=
        (processLog_target cfg.opFlags it fromPrefix toPrefix).mp ⟨c, hc, hp⟩
      exact h p k v hk htarget
  rw [htargets]
  constructor
  · intro h c hc n hn
    obtain ⟨v, hv⟩ := Finmap.mem_iff.mp (S.mem_table_iff_records.mpr ⟨c, hc, hn⟩)
    refine ⟨fun hop haccepted => ?_, fun line hline p hp => h p n v hv (.inr ⟨line, hline, hp⟩)⟩
    have hbit := (S.flag_iff_records hv c.req.op).mpr ⟨c, hc, rfl, hn⟩
    exact h _ n v hv (.inl (entryLine_target.mpr ⟨rfl, haccepted, c.req.op, hop, hbit⟩))
  · rintro h p k v hk (htarget | ⟨line, hline, htarget⟩)
    · obtain ⟨rfl, haccepted, op, hop, hbit⟩ := entryLine_target.mp htarget
      obtain ⟨c, hc, rfl, hn⟩ := (S.flag_iff_records hk op).mp hbit
      exact (h c hc k hn).1 hop haccepted
    · obtain ⟨c, hc, hn⟩ := S.mem_table_iff_records.mp (Finmap.mem_of_lookup_eq_some hk)
      exact (h c hc k hn).2 line hline p htarget

end Session

def SuccessOnly (lib : TomlReader) (file : Option CString) : Prop :=
  ∀ i : Fin qnFlags, configured lib file i = none ∨ configured lib file i = some "success".toList

/-- Under such a configuration an operation left at the default records every call. -/
theorem Call.records_successOnly {lib : TomlReader} {file : Option CString} {st : ConfigState}
    (h : parseConfig lib file mainDefaults = some (0, st)) (hsuccess : SuccessOnly lib file)
    (filter : FilterDesc) (c : Call) (p : CString) :
    c.records ⟨st.opFlags, filter⟩ p ↔ p ∈ c.req.names ∧ filter.admits p = true ∧
      (c.branch ⟨st.opFlags, filter⟩ = .success ∨ configured lib file c.req.op.index = none) := by
  have hgate : (consultsShouldLog c.req.op = true →
      shouldLog st.opFlags c.req.op (c.branch ⟨st.opFlags, filter⟩).bit = true) ↔
        (c.branch ⟨st.opFlags, filter⟩ = .success ∨ configured lib file c.req.op.index = none) := by
    obtain ⟨hset, hdefault⟩ := parseConfig_opFlags h c.req.op.index
    cases hc : consultsShouldLog c.req.op with
    | false =>
      have houtcome : c.branch ⟨st.opFlags, filter⟩ = .success := by
        rw [Call.branch, Call.exec, (dispatch_ungated _ hc _ _).2]
        rfl
      simp [houtcome]
    | true =>
      simp only [forall_const, shouldLog_eq_true]
      rcases hsuccess c.req.op.index with hnone | hvalue
      · rw [hdefault hnone]
        simp only [hnone, or_true, iff_true]
        cases c.branch ⟨st.opFlags, filter⟩ <;> decide
      · have hflags : st.opFlags c.req.op.index = logSuccess :=
          (Option.some.inj (hset _ hvalue)).symm
        rw [hflags, hvalue]
        cases c.branch ⟨st.opFlags, filter⟩ <;> decide
  rw [Call.records_iff_names, hgate]
  exact and_left_comm

theorem Request.names_eq_operands {req : Request} (h : req.op ∈ visibleOps) :
    req.names = req.operands := by
  cases req with
  | symlink text newName => simp [visibleOps, copyingOps, Request.op] at h
  | _ => rfl

/-- When every setting is "success", the script creates no phantoms exactly when the
failures that the default still logs are harmless: a failing getattr, open, read or
readlink of a path that the reader accepts has a successful call on the same path. A
stored name with a newline must not spell lines about other paths either. -/
theorem noPhantoms_iff (lib : TomlReader) (file : Option CString) (st : ConfigState)
    (h : parseConfig lib file mainDefaults = some (0, st)) (hsuccess : SuccessOnly lib file)
    (filter : FilterDesc) (S : Session ⟨st.opFlags, filter⟩) (it : Iteration S.table)
    (fromPrefix toPrefix : CString) :
    S.NoPhantoms it fromPrefix toPrefix ↔
      (∀ c ∈ S.calls, c.req.op ∈ visibleOps → configured lib file c.req.op.index = none →
        c.branch ⟨st.opFlags, filter⟩ = .failure → ∀ p ∈ c.req.operands, filter.admits p = true →
          '\n' ∉ p → Accepted p → S.Succeeded p) ∧
      (∀ c ∈ S.calls, c.branch ⟨st.opFlags, filter⟩ = .success ∨
          configured lib file c.req.op.index = none →
        ∀ n ∈ c.req.names, filter.admits n = true → '\n' ∈ n →
          (c.req.op ∈ visibleOps → Accepted (ownLine n) → S.Succeeded (ownLine n)) ∧
          (∀ line ∈ addedLines n, ∀ p, (readLine line).target = some p → S.Succeeded p)) := by
  rw [S.noPhantoms_iff_records]
  simp only [Call.records_successOnly h hsuccess]
  constructor
  · intro hrecords
    refine ⟨?_, fun c hc hlogged n hn ha _ => hrecords c hc n ⟨hn, ha, hlogged⟩⟩
    intro c hc hop hdefault _ p hp ha hplain haccepted
    have hown := (ownLine_plain hplain).1
    have hn : p ∈ c.req.names := Request.names_eq_operands hop ▸ hp
    exact hown ▸ (hrecords c hc p ⟨hn, ha, .inr hdefault⟩).1 hop (hown.symm ▸ haccepted)
  · rintro ⟨hfailing, hnewline⟩ c hc n ⟨hn, ha, hlogged⟩
    by_cases hplain : '\n' ∈ n
    · exact hnewline c hc hlogged n hn ha hplain
    · obtain ⟨hown, hadded⟩ := ownLine_plain hplain
      rw [hown, hadded]
      refine ⟨fun hop haccepted => ?_, by simp⟩
      have hp : n ∈ c.req.operands := Request.names_eq_operands hop ▸ hn
      cases houtcome : c.branch ⟨st.opFlags, filter⟩ with
      | success => exact ⟨c, hc, hp, houtcome⟩
      | failure =>
        have hdefault := hlogged.resolve_left (by simp [houtcome])
        exact hfailing c hc hop hdefault houtcome n hp ha hplain haccepted

def missingHeader : Call where
  req := .getattr "/usr/include/absent.h".toList
  uid := 0
  gid := 0
  answers := fun _ _ => .error enoent
  errno := default
  libErrno := fun _ e => e

theorem noPhantoms_getattr_success : ∃ st,
    parseConfig (sampleReader [("getattr".toList, "\"success\"".toList)]) (some []) mainDefaults =
      some (0, st) ∧
    ∃ it : Iteration (Session.single ⟨st.opFlags, ⟨[], []⟩⟩ missingHeader).table,
      (Session.single ⟨st.opFlags, ⟨[], []⟩⟩ missingHeader).NoPhantoms it "/".toList "/out".toList := by
  refine ⟨_, rfl, ⟨[], rfl⟩, (noPhantoms_iff
    (sampleReader [("getattr".toList, "\"success\"".toList)]) (some []) _ rfl ?_ _ _ _ _ _).mpr
      ⟨?_, ?_⟩⟩
  · intro i
    revert i
    decide
  · intro c hc _ hdefault
    obtain rfl := List.mem_singleton.mp hc
    exact absurd hdefault (by decide)
  · intro c hc hlogged
    obtain rfl := List.mem_singleton.mp hc
    exact absurd hlogged (by decide)

/-- Without a configuration a single failing lookup creates an empty file. -/
theorem noPhantoms_default_getattr :
    parseConfig (sampleReader []) none mainDefaults = some (0, mainDefaults) ∧
      SuccessOnly (sampleReader []) none ∧
      ¬ (Session.single defaultSettings missingHeader).NoPhantoms
        (Iteration.single ⟨[], []⟩ "/usr/include/absent.h".toList rfl (flag .opGetattr))
        "/".toList "/out".toList := by
  refine ⟨rfl, fun _ => .inl rfl, fun hnone => ?_⟩
  have hrecorded : missingHeader.records defaultSettings "/usr/include/absent.h".toList :=
    ⟨List.mem_singleton_self _, rfl⟩
  have hcalls := (Session.noPhantoms_iff_records _ _ _ _).mp hnone missingHeader
    (List.mem_singleton_self _) _ hrecorded
  obtain ⟨c, hc, _, houtcome⟩ := hcalls.1 (by decide) (by unfold Accepted; decide)
  obtain rfl := List.mem_singleton.mp hc
  exact absurd houtcome (by decide)

end DistillerFS
