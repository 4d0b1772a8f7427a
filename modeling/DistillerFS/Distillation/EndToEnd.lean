import DistillerFS.Distillation.Completeness
import DistillerFS.Distillation.OrderIndependence
import DistillerFS.Distillation.ScriptEffect
import DistillerFS.Report.LogFile

/-!
# From a session to the distilled tree

The handler calls of a session, the buckets they leave, the log file that is written from the
buckets, the script that is made of the log, and the tree that the script builds. The tree is
told from the calls alone.
-/
namespace DistillerFS
open Foundations

namespace Session
variable {cfg : Settings} (S : Session cfg)

def opens (p : CString) : Prop := ∃ op ∈ copyingOps, S.hands op p

/-- The session looked the path up and did no more with it than to list it. -/
def looksUp (p : CString) : Prop := S.hands .opGetattr p ∧ ¬ S.opens p

/-- The recorded paths are paths of the tree, in one piece on their lines of the report, and
the tree has not become another one by the time the script runs. -/
structure Distillable (src : FileTree) : Prop where
  plain : ∀ p ∈ S.table, Canonical p ∧ ':' ∉ p ∧ '\n' ∉ p
  existing : ∀ p ∈ S.table, src.node (components p) ≠ none
  opened : ∀ p ∈ S.table, S.opens p → src.node (components p) ≠ some .dir
  listed : ∀ p ∈ S.table, S.looksUp p → S.hands .opReaddir p → src.node (components p) = some .dir
  unlisted : ∀ p ∈ S.table, S.looksUp p → ¬ S.hands .opReaddir p →
    components p = [] ∨ ∃ content, src.node (components p) = some (.leaf (.file content))

/-- What the tree is to have at a path: copies of what was opened, the directories that were
listed, empty files for what was only looked up, and the directories above all of these. -/
inductive Wanted (src : FileTree) : List CString → Node Leaf → Prop
  | root : Wanted src [] .dir
  | copy {p : CString} {x : Node Leaf} (hp : p ∈ S.table) (ho : S.opens p)
      (hx : src.node (components p) = some x) : Wanted src (components p) x
  | aboveCopy {p : CString} {q : List CString} (hp : p ∈ S.table) (ho : S.opens p)
      (hq : q <+: (components p).dropLast) : Wanted src q .dir
  | listed {p : CString} {q : List CString} (hp : p ∈ S.table) (hl : S.looksUp p)
      (hd : S.hands .opReaddir p) (hq : q <+: components p) : Wanted src q .dir
  | placeholder {p : CString} (hp : p ∈ S.table) (hl : S.looksUp p) (hd : ¬ S.hands .opReaddir p)
      (hroot : components p ≠ []) : Wanted src (components p) (.leaf (.file []))
  | abovePlaceholder {p : CString} {q : List CString} (hp : p ∈ S.table) (hl : S.looksUp p)
      (hd : ¬ S.hands .opReaddir p) (hq : q <+: (components p).dropLast) : Wanted src q .dir

section Entry
variable {S} {p : CString} {v : LfsCount} (hv : S.table.lookup p = some v)
include hv

theorem admits_of_lookup : cfg.gFilter.admits p = true :=
  (S.mem_table.mp (Finmap.mem_of_lookup_eq_some hv)).1

theorem shows_iff (op : FuseOps) :
    stringFind (maskField v.flags) (symbols op.index) = true ↔ S.hands op p := by
  rw [stringFind_maskField, S.flag_iff_hands hv op, and_iff_right (admits_of_lookup hv)]

theorem opensFile_iff : opensFile (maskField v.flags) = true ↔ S.opens p := by
  rw [opensFile_maskField]
  refine exists_congr fun op => and_congr_right fun _ => ?_
  rw [S.flag_iff_hands hv op, and_iff_right (admits_of_lookup hv)]

theorem shows_getattr : stringFind (maskField v.flags) 'G' = true ↔ S.hands .opGetattr p :=
  shows_iff hv .opGetattr

theorem shows_readdir : stringFind (maskField v.flags) 'd' = true ↔ S.hands .opReaddir p :=
  shows_iff hv .opReaddir

theorem Distillable.sound {src : FileTree} (hd : S.Distillable src) :
    Sound src (maskField v.flags) (components p) := by
  have hp : p ∈ S.table := Finmap.mem_of_lookup_eq_some hv
  refine ⟨hd.existing p hp, fun ho => hd.opened p hp ((opensFile_iff hv).mp ho), ?_⟩
  intro ho hG
  have hl : S.looksUp p := by
    refine ⟨(shows_getattr hv).mp hG, fun hopens => ?_⟩
    rw [(opensFile_iff hv).mpr hopens] at ho
    cases ho
  by_cases hlist : stringFind (maskField v.flags) 'd' = true
  · rw [if_pos hlist]
    exact hd.listed p hp hl ((shows_readdir hv).mp hlist)
  · rw [if_neg hlist]
    exact hd.unlisted p hp hl (fun hr => hlist ((shows_readdir hv).mpr hr))

theorem wanted_of_makes {src : FileTree} {q : List CString} {x : Node Leaf}
    (h : Makes src (maskField v.flags) (components p) q x) : S.Wanted src q x := by
  have hp : p ∈ S.table := Finmap.mem_of_lookup_eq_some hv
  unfold Makes at h
  split_ifs at h with ho hG hr
  · have hopens := (opensFile_iff hv).mp ho
    rcases h with ⟨hq, rfl⟩ | ⟨rfl, hx⟩
    · exact .aboveCopy hp hopens hq
    · exact .copy hp hopens hx
  · have hl : S.looksUp p := ⟨(shows_getattr hv).mp hG, mt (opensFile_iff hv).mpr ho⟩
    obtain ⟨hq, rfl⟩ := h
    exact .listed hp hl ((shows_readdir hv).mp hr) hq
  · have hl : S.looksUp p := ⟨(shows_getattr hv).mp hG, mt (opensFile_iff hv).mpr ho⟩
    have hd := mt (shows_readdir hv).mpr hr
    rcases h with ⟨hq, rfl⟩ | ⟨rfl, hroot, rfl⟩
    · exact .abovePlaceholder hp hl hd hq
    · exact .placeholder hp hl hd hroot

end Entry

/-- What is wanted is made by the line of some entry, but for the root. -/
theorem makes_of_wanted {src : FileTree} {q : List CString} {x : Node Leaf} (h : S.Wanted src q x) :
    q = [] ∧ x = .dir ∨ ∃ p v, S.table.lookup p = some v ∧
      Makes src (maskField v.flags) (components p) q x := by
  cases h with
  | root => exact .inl ⟨rfl, rfl⟩
  | @copy p _ hp ho hx =>
    obtain ⟨v, hv⟩ := Finmap.mem_iff.mp hp
    refine .inr ⟨p, v, hv, ?_⟩
    rw [Makes, if_pos ((opensFile_iff hv).mpr ho)]
    exact .inr ⟨rfl, hx⟩
  | @aboveCopy p _ hp ho hq =>
    obtain ⟨v, hv⟩ := Finmap.mem_iff.mp hp
    refine .inr ⟨p, v, hv, ?_⟩
    rw [Makes, if_pos ((opensFile_iff hv).mpr ho)]
    exact .inl ⟨hq, rfl⟩
  | @listed p _ hp hl hd hq =>
    obtain ⟨v, hv⟩ := Finmap.mem_iff.mp hp
    refine .inr ⟨p, v, hv, ?_⟩
    rw [Makes, if_neg (mt (opensFile_iff hv).mp hl.2), if_pos ((shows_getattr hv).mpr hl.1),
      if_pos ((shows_readdir hv).mpr hd)]
    exact ⟨hq, rfl⟩
  | @placeholder p hp hl hd hroot =>
    obtain ⟨v, hv⟩ := Finmap.mem_iff.mp hp
    refine .inr ⟨p, v, hv, ?_⟩
    rw [Makes, if_neg (mt (opensFile_iff hv).mp hl.2), if_pos ((shows_getattr hv).mpr hl.1),
      if_neg (mt (shows_readdir hv).mp hd)]
    exact .inr ⟨rfl, hroot, rfl⟩
  | @abovePlaceholder p _ hp hl hd hq =>
    obtain ⟨v, hv⟩ := Finmap.mem_iff.mp hp
    refine .inr ⟨p, v, hv, ?_⟩
    rw [Makes, if_neg (mt (opensFile_iff hv).mp hl.2), if_pos ((shows_getattr hv).mpr hl.1),
      if_neg (mt (shows_readdir hv).mp hd)]
    exact .inl ⟨hq, rfl⟩

end Session

/-- The accepted lines of a report without newlines and separators are its entries. -/
theorem logEntries_report (op_flags : OpFlags) {h : Hash} (it : Iteration h)
    (hplain : ∀ k ∈ h, ':' ∉ k ∧ '\n' ∉ k) : logEntries (ioLines (report op_flags it)) =
      it.order.map (fun e => (maskField e.2.flags, e.1)) := by
  have hheader : logEntries (headerLines op_flags h) = [] := by
    rw [logEntries, List.filterMap_eq_nil_iff]
    intro line hline
    rw [(headerLines_comment hline).2]
  rw [ioLines_report_plain op_flags it (fun k hk => (hplain k hk).2), logEntries_append, hheader,
    List.nil_append, logEntries, List.filterMap_map, ← List.filterMap_eq_map]
  apply List.filterMap_congr
  intro e he
  have hk := (hplain e.1 (Finmap.mem_of_lookup_eq_some (it.mem_order.mp he))).1
  simp only [Function.comp_apply, readLine_entryLine, if_neg hk]

/-- The report of a session that can be distilled is a log of the tree. -/
theorem Session.Distillable.logOf {src : FileTree} {cfg : Settings} {S : Session cfg}
    (hd : S.Distillable src) (it : Iteration S.table) :
    LogOf src (ioLines (report cfg.opFlags it)) := by
  have hplain : ∀ k ∈ S.table, ':' ∉ k ∧ '\n' ∉ k := fun k hk => (hd.plain k hk).2
  have hentries := logEntries_report cfg.opFlags it hplain
  have hentry : ∀ e ∈ logEntries (ioLines (report cfg.opFlags it)), ∃ v,
      S.table.lookup e.2 = some v ∧ e.1 = maskField v.flags := by
    intro e he
    rw [hentries] at he
    obtain ⟨entry, hentry, rfl⟩ := List.mem_map.mp he
    exact ⟨entry.2, it.mem_order.mp hentry, rfl⟩
  refine ⟨?_, ?_, ?_, ?_, ?_⟩
  · intro line hline text hread
    rw [ioLines_report_plain cfg.opFlags it (fun k hk => (hplain k hk).2), List.mem_append] at hline
    rcases hline with hheader | hline
    · rw [(headerLines_comment hheader).2] at hread
      cases hread
    · obtain ⟨e, he, rfl⟩ := List.mem_map.mp hline
      have hk := (hplain e.1 (Finmap.mem_of_lookup_eq_some (it.mem_order.mp he))).1
      rw [readLine_entryLine, if_neg hk] at hread
      cases hread
  · intro e he
    obtain ⟨v, hv, -⟩ := hentry e he
    exact (hd.plain e.2 (Finmap.mem_of_lookup_eq_some hv)).1
  · intro e he
    obtain ⟨v, hv, -⟩ := hentry e he
    exact hd.existing e.2 (Finmap.mem_of_lookup_eq_some hv)
  · rw [hentries, List.map_map]
    exact it.nodup
  · intro e he ho
    obtain ⟨v, hv, hflags⟩ := hentry e he
    rw [hflags] at ho
    exact hd.opened e.2 (Finmap.mem_of_lookup_eq_some hv) ((Session.opensFile_iff hv).mp ho)

/-- The script of a report builds the tree that the session wants. -/
theorem Session.Distillable.builds {src : FileTree} {cfg : Settings} {S : Session cfg}
    (hd : S.Distillable src) (it : Iteration S.table) (fromPrefix toPrefix : CString) :
    ∃ tree, execAll src fromPrefix toPrefix
        (processLog (report cfg.opFlags it) fromPrefix toPrefix) .empty = some tree ∧
      ∀ q x, tree.node q = some x ↔ S.Wanted src q x := by
  have hlog := hd.logOf it
  have hpaths : logPaths (ioLines (report cfg.opFlags it)) =
      it.order.map (fun e => (maskField e.2.flags, components e.1)) := by
    rw [logPaths, logEntries_report cfg.opFlags it (fun k hk => (hd.plain k hk).2), List.map_map]
    rfl
  have hsound : ∀ e ∈ logPaths (ioLines (report cfg.opFlags it)), Sound src e.1 e.2 := by
    intro e he
    rw [hpaths] at he
    obtain ⟨entry, hentry, rfl⟩ := List.mem_map.mp he
    exact Session.Distillable.sound (it.mem_order.mp hentry) hd
  obtain ⟨tree, hrun, hb⟩ := distilAll_built hsound hlog.paths_nodup
  refine ⟨tree, ?_, fun q x => ?_⟩
  · rw [processLog, execAll_mainLoop fromPrefix toPrefix hlog.accepted hlog.canonical, hrun]
  · rw [hb q x, hpaths]
    constructor
    · rintro (⟨rfl, rfl⟩ | ⟨e, he, hmakes⟩)
      · exact .root
      · obtain ⟨entry, hentry, rfl⟩ := List.mem_map.mp he
        exact Session.wanted_of_makes (it.mem_order.mp hentry) hmakes
    · intro hwanted
      refine (S.makes_of_wanted hwanted).imp_right ?_
      rintro ⟨p, v, hv, hmakes⟩
      exact ⟨_, List.mem_map_of_mem (it.mem_order.mpr hv), hmakes⟩

/-- The shell reads the paths as they are. -/
def Session.Quoted {cfg : Settings} (S : Session cfg) (fromPrefix toPrefix : CString) : Prop :=
  ∀ p ∈ S.table, Shell.quotable (fromPrefix ++ p) = true ∧ Shell.quotable (toPrefix ++ p) = true

theorem Session.Distillable.lineSafe {src : FileTree} {cfg : Settings} {S : Session cfg}
    (hd : S.Distillable src) {fromPrefix toPrefix : CString} (hq : S.Quoted fromPrefix toPrefix)
    (it : Iteration S.table) :
    ∀ line ∈ ioLines (report cfg.opFlags it), LineSafe fromPrefix toPrefix line := by
  intro line hline
  rw [ioLines_report_plain cfg.opFlags it (fun k hk => (hd.plain k hk).2.2), List.mem_append] at hline
  rcases hline with hheader | hline
  · rw [LineSafe, (headerLines_comment hheader).2]
    trivial
  · obtain ⟨e, he, rfl⟩ := List.mem_map.mp hline
    have hk : e.1 ∈ S.table := Finmap.mem_of_lookup_eq_some (it.mem_order.mp he)
    rw [LineSafe, readLine_entryLine, if_neg (hd.plain e.1 hk).2.1]
    exact fun _ => ⟨fun _ => (hq e.1 hk).1, fun _ => (hq e.1 hk).2⟩

/-- The order in which the threads come to the critical section leaves no trace. -/
theorem Session.schedule_perm {cfg : Settings} {S S' : Session cfg} (hcalls : S'.calls.Perm S.calls) :
    S'.schedule.Perm S.schedule := by
  have hevents : ∀ S : Session cfg, S.schedule.Perm (S.calls.flatMap (Call.events cfg)) := by
    intro S
    have hsame : S.calls.flatMap (Call.events cfg) =
        (S.threads.map (fun t => t.flatMap (Call.events cfg))).flatten := by
      rw [Session.calls, List.flatMap_def, List.map_flatten, List.flatten_flatten, List.map_map]
      rfl
    rw [hsame]
    exact S.interleaved.perm_flatten
  exact (hevents S').trans ((hcalls.flatMap_right _).trans (hevents S).symm)

/-- End to end: the same calls, by any threads in any order, over any hash function, leave
buckets whose log file gives a script with which the shell builds one tree, and this tree is
what the calls want of the source. -/
theorem distilled_tree {src : FileTree} {cfg : Settings} (S : Session cfg) (hd : S.Distillable src)
    (hlength : S.schedule.length ≤ 2 ^ 31) {fromPrefix toPrefix : CString}
    (hq : S.Quoted fromPrefix toPrefix) : ∃ tree : FileTree,
      (∀ q x, tree.node q = some x ↔ S.Wanted src q x) ∧
      ∀ (S' : Session cfg) (hashFunc : CString → BitVec 32), S'.calls.Perm S.calls → ∃ t,
        recordAllAt hashFunc cfg.gFilter (S'.schedule.map (fun e => (e, .ample))) = .ok t ∧
        runText src fromPrefix toPrefix
          (scriptText (writeLog cfg.opFlags t) fromPrefix toPrefix) .empty = some tree := by
  obtain ⟨t₀, -, hr₀⟩ := @recordAllAt_represents acX31HashString cfg.gFilter _ hlength
  obtain ⟨tree, -, hnode⟩ := hd.builds hr₀.iteration fromPrefix toPrefix
  refine ⟨tree, hnode, fun S' hashFunc hcalls => ?_⟩
  have hperm := Session.schedule_perm hcalls
  obtain ⟨t, ht, hr⟩ := @recordAllAt_represents hashFunc cfg.gFilter _ (hperm.length_eq.trans_le hlength)
  rw [recordAll_perm cfg.gFilter hperm] at hr
  have hr : Represents hashFunc t S.table := hr
  obtain ⟨tree', hrun, hnode'⟩ := hd.builds hr.iteration fromPrefix toPrefix
  have hsame : tree' = tree := by
    ext1
    funext q
    apply Option.ext
    intro x
    rw [hnode', hnode]
  refine ⟨t, ht, ?_⟩
  rw [hr.writeLog_eq, runText_scriptText (runsOnlyIntended_of_lineSafe (hd.lineSafe hq hr.iteration)),
    ← hsame]
  exact hrun

def sampleSession : Session defaultSettings :=
  Session.single defaultSettings (sampleCall "/usr/a".toList .opOpen)

theorem sampleSession_hands {op : FuseOps} {p : CString} :
    sampleSession.hands op p ↔ p = "/usr/a".toList ∧ op = .opOpen := by
  have hschedule : sampleSession.schedule = [⟨some "/usr/a".toList, flag .opOpen⟩] := by decide
  rw [Session.hands, hschedule, List.mem_singleton, Event.mk.injEq, Option.some.injEq]
  exact and_congr_right fun _ => ⟨fun h => flag_injective h, fun h => h ▸ rfl⟩

theorem sampleSession_table {p : CString} (hp : p ∈ sampleSession.table) : p = "/usr/a".toList := by
  obtain ⟨e, he, hpath⟩ := sampleSession.handed_of_mem_table hp
  have hschedule : sampleSession.schedule = [⟨some "/usr/a".toList, flag .opOpen⟩] := by decide
  rw [hschedule, List.mem_singleton] at he
  rw [he] at hpath
  exact (Option.some.inj hpath).symm

theorem sampleSession_distillable : sampleSession.Distillable sampleSource := by
  have hnever : ∀ p, ¬ sampleSession.looksUp p := by
    intro p hl
    cases (sampleSession_hands.mp hl.1).2
  refine ⟨?_, ?_, ?_, fun p _ hl => absurd hl (hnever p), fun p _ hl => absurd hl (hnever p)⟩
  · intro p hp
    rw [sampleSession_table hp]
    decide
  · intro p hp
    rw [sampleSession_table hp]
    decide
  · intro p hp _
    rw [sampleSession_table hp]
    decide

theorem sampleSession_quoted : sampleSession.Quoted "/".toList "/out".toList := by
  intro p hp
  rw [sampleSession_table hp]
  decide

theorem distilled_tree_open : ∃ tree : FileTree,
    tree.node ["usr".toList, "a".toList] = some (.leaf (.file ['x'])) ∧
    ∃ t, recordAllAt acX31HashString defaultSettings.gFilter
        (sampleSession.schedule.map (fun e => (e, .ample))) = .ok t ∧
      runText sampleSource "/".toList "/out".toList
        (scriptText (writeLog defaultSettings.opFlags t) "/".toList "/out".toList) .empty =
          some tree := by
  obtain ⟨tree, hnode, hruns⟩ :=
    distilled_tree sampleSession sampleSession_distillable (by decide) sampleSession_quoted
  obtain ⟨t, ht, hrun⟩ := hruns sampleSession acX31HashString (List.Perm.refl _)
  have hhands : sampleSession.hands .opOpen "/usr/a".toList := sampleSession_hands.mpr ⟨rfl, rfl⟩
  have hopens : sampleSession.opens "/usr/a".toList := ⟨.opOpen, by decide, hhands⟩
  refine ⟨tree, ?_, t, ht, hrun⟩
  exact (hnode _ _).mpr (.copy (sampleSession.mem_table_of_hands rfl hhands) hopens (by decide))

end DistillerFS
