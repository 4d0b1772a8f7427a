import DistillerFS.Configuration.FilterSettings
import DistillerFS.Distillation.Commands

/-!
# Completeness of the distillation

From the handler calls of a session to the printed copies: a file that was opened, read
or read as a link has one copy line in the script, and every copy line has such a call
behind it.
-/
namespace DistillerFS
open Foundations

def copyingOps : List FuseOps := [.opOpen, .opRead, .opReadlink]

theorem opensFile_maskField (flags : BitVec 32) :
    opensFile (maskField flags) = true ↔
      ∃ op ∈ copyingOps, flags.getLsbD op.index.val = true := by
  have hO : stringFind (maskField flags) 'O' = flags.getLsbD FuseOps.opOpen.index.val :=
    stringFind_maskField flags FuseOps.opOpen.index
  have hR : stringFind (maskField flags) 'R' = flags.getLsbD FuseOps.opRead.index.val :=
    stringFind_maskField flags FuseOps.opRead.index
  have hr : stringFind (maskField flags) 'r' = flags.getLsbD FuseOps.opReadlink.index.val :=
    stringFind_maskField flags FuseOps.opReadlink.index
  rw [opensFile, hO, hR, hr]
  simp [copyingOps, or_assoc]

/-- The event of `op` on `p` was handed to `Store_In_Hash`. -/
def Session.hands {cfg : Settings} (S : Session cfg) (op : FuseOps) (p : CString) : Prop :=
  (⟨some p, flag op⟩ : Event) ∈ S.schedule

namespace Session
variable {cfg : Settings} (S : Session cfg)

theorem flag_iff_hands {p : CString} {v : LfsCount} (h : S.table.lookup p = some v)
    (op : FuseOps) : v.flags.getLsbD op.index.val = true ↔
      cfg.gFilter.admits p = true ∧ S.hands op p := by
  rw [S.table_flag_iff h, hands, mem_schedule]
  refine and_congr_right fun _ => exists_congr fun c => and_congr_right fun _ => ?_
  rw [Call.mem_events_name]
  constructor
  · rintro ⟨rfl, hn, hgate⟩
    exact ⟨rfl, hn, hgate⟩
  · rintro ⟨rfl, hn, hgate⟩
    exact ⟨rfl, hn, hgate⟩

theorem mem_table_of_hands {op : FuseOps} {p : CString} (ha : cfg.gFilter.admits p = true)
    (h : S.hands op p) : p ∈ S.table :=
  mem_recordAll.mpr ⟨_, h, rfl, ha⟩

theorem handed_of_mem_table {p : CString} (h : p ∈ S.table) : ∃ e ∈ S.schedule, e.path = some p := by
  obtain ⟨e, he, hp, _⟩ := mem_recordAll.mp h
  exact ⟨e, he, hp⟩

end Session

/-- Among the entries only the one of `p` prints the copy of `p`. -/
theorem entry_of_cpText {fromPrefix toPrefix k p : CString} {v : LfsCount}
    (h : cpText fromPrefix toPrefix p ∈
      (lineCommands fromPrefix toPrefix (entryLine k v)).map Command.render) :
    k = p ∧ opensFile (maskField v.flags) = true := by
  rw [render_mem_lineCommands, readLine_entryLine] at h
  obtain ⟨flags, hread, _, hopens⟩ := h
  split_ifs at hread
  injection hread with hflags hpath
  exact ⟨hpath, hflags ▸ hopens⟩

theorem cpText_not_mem_header {op_flags : OpFlags} {h : Hash} {fromPrefix toPrefix p line : CString}
    (hl : line ∈ headerLines op_flags h) :
    cpText fromPrefix toPrefix p ∉ (lineCommands fromPrefix toPrefix line).map Command.render := by
  simp [lineCommands, (headerLines_comment hl).2]

def mkdirText (toPrefix p : CString) : List CString :=
  match getDir p with
  | none => []
  | some dir => if 1 < dir.length then [(Command.mkdirDir (toPrefix ++ dir)).render] else []

/-- The block of an opened file: its directory, unless that is the root, and its copy. -/
theorem lineCommands_opened {fromPrefix toPrefix p : CString} {v : LfsCount}
    (hcolon : ':' ∉ p) (hslash : '/' ∈ p) (ho : opensFile (maskField v.flags) = true) :
    (lineCommands fromPrefix toPrefix (entryLine p v)).map Command.render =
      mkdirText toPrefix p ++ [cpText fromPrefix toPrefix p] := by
  obtain ⟨dir, hdir⟩ := exists_getDir hslash
  simp only [lineCommands, readLine_entryLine, if_neg hcolon, processPath, mkdirText, hdir, ho,
    if_true]
  split_ifs <;> rfl

theorem cpText_not_mem_mkdirText (fromPrefix toPrefix p : CString) :
    cpText fromPrefix toPrefix p ∉ mkdirText toPrefix p := by
  intro h
  unfold mkdirText at h
  split at h
  · exact List.not_mem_nil h
  · split_ifs at h
    · obtain ⟨src, dst, heq⟩ := render_eq_cpText (List.mem_singleton.mp h).symm
      cases heq
    · exact List.not_mem_nil h

/-- What the script prints for a report, as lines of text. -/
def printed (content fromPrefix toPrefix : CString) : List CString :=
  (processLog content fromPrefix toPrefix).map Command.render

/-- The entries of other paths do not copy `p`. -/
theorem cpText_not_mem_entries {entries : List ((_ : CString) × LfsCount)} {p : CString}
    (h : p ∉ entries.map Sigma.fst) (fromPrefix toPrefix : CString) :
    ∀ line ∈ entries.map (fun e => entryLine e.1 e.2),
      cpText fromPrefix toPrefix p ∉ (lineCommands fromPrefix toPrefix line).map Command.render := by
  intro line hline hmem
  obtain ⟨e, he, rfl⟩ := List.mem_map.mp hline
  obtain ⟨rfl, _⟩ := entry_of_cpText hmem
  exact h (List.mem_map_of_mem he)

/-- The output around the line of one entry. No line outside the entry's own block
copies its path. -/
theorem printed_around (op_flags : OpFlags) {h : Hash} (it : Iteration h)
    (hplain : ∀ k ∈ h, '\n' ∉ k) {p : CString} {v : LfsCount} (hp : h.lookup p = some v)
    (fromPrefix toPrefix : CString) : ∃ pre post,
      printed (report op_flags it) fromPrefix toPrefix = pre ++
        (lineCommands fromPrefix toPrefix (entryLine p v)).map Command.render ++ post ∧
      cpText fromPrefix toPrefix p ∉ pre ∧ cpText fromPrefix toPrefix p ∉ post := by
  obtain ⟨before, after, horder⟩ := List.append_of_mem (it.mem_order.mpr hp)
  -- every path stands in the order once
  have hother : p ∉ before.map Sigma.fst ∧ p ∉ after.map Sigma.fst := by
    have hnodup := it.nodup
    rw [horder, List.map_append, List.map_cons, List.nodup_middle, List.nodup_cons,
      List.mem_append, not_or] at hnodup
    exact hnodup.1
  let text := fun e : (_ : CString) × LfsCount => entryLine e.1 e.2
  have hlines : ioLines (report op_flags it) =
      (headerLines op_flags h ++ before.map text) ++ entryLine p v :: after.map text := by
    rw [ioLines_report_plain op_flags it hplain, horder, List.map_append, List.map_cons,
      List.append_assoc]
  obtain ⟨count, happend⟩ := mainLoop_append fromPrefix toPrefix 0
    (headerLines op_flags h ++ before.map text) (entryLine p v :: after.map text)
  obtain ⟨messages, count', hmessages, hcons⟩ :=
    mainLoop_cons fromPrefix toPrefix count (entryLine p v) (after.map text)
  refine ⟨(mainLoop fromPrefix toPrefix 0
      (headerLines op_flags h ++ before.map text)).map Command.render,
    (messages ++ mainLoop fromPrefix toPrefix count' (after.map text)).map Command.render,
    ?_, ?_, ?_⟩
  · rw [printed, processLog, hlines, happend, hcons]
    simp only [List.map_append, List.append_assoc]
  · rw [render_mem_mainLoop]
    rintro ⟨line, hline, hmem⟩
    rcases List.mem_append.mp hline with hline | hline
    · exact cpText_not_mem_header hline hmem
    · exact cpText_not_mem_entries hother.1 fromPrefix toPrefix line hline hmem
  · rw [List.map_append, List.mem_append, render_mem_mainLoop]
    rintro (hmem | ⟨line, hline, hmem⟩)
    · obtain ⟨c, hc, hrender⟩ := List.mem_map.mp hmem
      obtain ⟨src, dst, rfl⟩ := render_eq_cpText hrender
      exact absurd (hmessages _ hc) (by simp [Command.isEcho])
    · exact cpText_not_mem_entries hother.2 fromPrefix toPrefix line hline hmem

theorem cpText_mem_printed {op_flags : OpFlags} {h : Hash} (it : Iteration h)
    (hplain : ∀ k ∈ h, '\n' ∉ k) {fromPrefix toPrefix p : CString}
    (hmem : cpText fromPrefix toPrefix p ∈ printed (report op_flags it) fromPrefix toPrefix) :
    ∃ v, h.lookup p = some v ∧ opensFile (maskField v.flags) = true := by
  rw [printed, processLog, render_mem_mainLoop, ioLines_report_plain op_flags it hplain] at hmem
  obtain ⟨line, hline, hmem⟩ := hmem
  rcases List.mem_append.mp hline with hline | hline
  · exact absurd hmem (cpText_not_mem_header hline)
  · obtain ⟨e, he, rfl⟩ := List.mem_map.mp hline
    obtain ⟨rfl, hopens⟩ := entry_of_cpText hmem
    exact ⟨e.2, it.mem_order.mp he, hopens⟩

/-- End to end: when no path that was handed over holds a colon or a newline, an
admitted open, read or readlink of `p` gives one copy of `p`, right behind its
directory, and a copy of `p` stands for such a call. -/
theorem distillation_complete (cfg : Settings) (S : Session cfg) (it : Iteration S.table)
    (fromPrefix toPrefix : CString)
    (hplain : ∀ e ∈ S.schedule, ∀ p, e.path = some p → ':' ∉ p ∧ '\n' ∉ p) :
    ∀ p : CString, p.head? = some '/' →
      ((∃ op ∈ copyingOps, S.hands op p) → isIncluded p cfg.gFilter.includePath = true →
        isExcluded p cfg.gFilter.excludePath = false →
        ∃ pre post, printed (report cfg.opFlags it) fromPrefix toPrefix =
            pre ++ mkdirText toPrefix p ++ [cpText fromPrefix toPrefix p] ++ post ∧
          cpText fromPrefix toPrefix p ∉ pre ++ mkdirText toPrefix p ∧
          cpText fromPrefix toPrefix p ∉ post) ∧
      (cpText fromPrefix toPrefix p ∈ printed (report cfg.opFlags it) fromPrefix toPrefix →
        ∃ op ∈ copyingOps, S.hands op p ∧ cfg.gFilter.admits p = true) := by
  have hkeys : ∀ k ∈ S.table, ':' ∉ k ∧ '\n' ∉ k := by
    intro k hk
    obtain ⟨e, he, hpath⟩ := S.handed_of_mem_table hk
    exact hplain e he k hpath
  have hnewline : ∀ k ∈ S.table, '\n' ∉ k := fun k hk => (hkeys k hk).2
  intro p habs
  constructor
  · rintro ⟨op, hop, hhands⟩ hincluded hexcluded
    have hadmits : cfg.gFilter.admits p = true := by
      simp [FilterDesc.admits, hincluded, hexcluded]
    have hmem := S.mem_table_of_hands hadmits hhands
    obtain ⟨v, hv⟩ := Finmap.mem_iff.mp hmem
    have hopens : opensFile (maskField v.flags) = true :=
      (opensFile_maskField v.flags).mpr ⟨op, hop, (S.flag_iff_hands hv op).mpr ⟨hadmits, hhands⟩⟩
    obtain ⟨pre, post, hprinted, hpre, hpost⟩ :=
      printed_around cfg.opFlags it hnewline hv fromPrefix toPrefix
    rw [lineCommands_opened (hkeys p hmem).1 (List.mem_of_mem_head? habs) hopens] at hprinted
    refine ⟨pre, post, ?_, ?_, hpost⟩
    · simp only [hprinted, List.append_assoc]
    · rw [List.mem_append, not_or]
      exact ⟨hpre, cpText_not_mem_mkdirText fromPrefix toPrefix p⟩
  · intro hprinted
    obtain ⟨v, hv, hopens⟩ := cpText_mem_printed it hnewline hprinted
    obtain ⟨op, hop, hbit⟩ := (opensFile_maskField v.flags).mp hopens
    obtain ⟨hadmits, hhands⟩ := (S.flag_iff_hands hv op).mp hbit
    exact ⟨op, hop, hhands, hadmits⟩

def defaultSettings : Settings := ⟨mainDefaults.opFlags, ⟨[], []⟩⟩

theorem distillation_complete_open : ∃ pre post,
    printed (report defaultSettings.opFlags
        (Iteration.single ⟨[], []⟩ "/etc/hosts".toList rfl (flag .opOpen)))
      "/".toList "/out".toList =
        pre ++ mkdirText "/out".toList "/etc/hosts".toList ++
          [cpText "/".toList "/out".toList "/etc/hosts".toList] ++ post := by
  let S := Session.single defaultSettings (sampleCall "/etc/hosts".toList .opOpen)
  have hplain : ∀ e ∈ S.schedule, ∀ p, e.path = some p → ':' ∉ p ∧ '\n' ∉ p := by
    decide
  have hhands : S.hands .opOpen "/etc/hosts".toList := List.mem_singleton_self _
  obtain ⟨pre, post, h, _⟩ := (distillation_complete defaultSettings S
    (Iteration.single ⟨[], []⟩ "/etc/hosts".toList rfl (flag .opOpen)) "/".toList "/out".toList hplain
    "/etc/hosts".toList rfl).1 ⟨.opOpen, by decide, hhands⟩ rfl rfl
  exact ⟨pre, post, h⟩

end DistillerFS
