import DistillerFS.Distillation.TreeOrder

/-!
# The order of the lines

The lines of a log in any order build one tree, a part of the source tree, as long as
every node that is only looked up gets the command of its kind. A directory that was
only looked up is touched, and then its place is taken by a file.
-/
namespace DistillerFS
open Foundations

/-- The flags and paths of the accepted lines. -/
def logEntries (log : List CString) : List (CString × CString) :=
  log.filterMap (fun line => match readLine line with
    | .entry flags path => some (flags, path)
    | _ => none)

theorem line_of_mem_logEntries {log : List CString} {e : CString × CString}
    (he : e ∈ logEntries log) : ∃ line ∈ log, readLine line = .entry e.1 e.2 := by
  obtain ⟨line, hline, hentry⟩ := List.mem_filterMap.mp he
  refine ⟨line, hline, ?_⟩
  cases hread : readLine line with
  | entry flags path =>
    rw [hread] at hentry
    cases hentry
    rfl
  | comment => simp [hread] at hentry
  | wrongFormat text => simp [hread] at hentry

/-- The lines of the log are about distinct nodes of the source, and those that were
opened, read or read as a link are no directories. -/
structure LogOf (src : FileTree) (log : List CString) : Prop where
  accepted : ∀ line ∈ log, ∀ text, readLine line ≠ .wrongFormat text
  canonical : ∀ e ∈ logEntries log, Canonical e.2
  existing : ∀ e ∈ logEntries log, src.node (components e.2) ≠ none
  distinct : ((logEntries log).map Prod.snd).Nodup
  opened : ∀ e ∈ logEntries log, opensFile e.1 = true → src.node (components e.2) ≠ some .dir

/-- Every order of the lines runs without a failure and builds `t`, the opened paths are
copies, and no node has changed its kind. -/
structure Distills (src : FileTree) (fromPrefix toPrefix : CString) (log : List CString)
    (t : FileTree) : Prop where
  runs : ∀ log', log'.Perm log →
    execAll src fromPrefix toPrefix (mainLoop fromPrefix toPrefix 0 log') .empty = some t
  copies : ∀ e ∈ logEntries log, opensFile e.1 = true →
    t.node (components e.2) = src.node (components e.2)
  kinds : ∀ p x, t.node p = some x → ∃ y, src.node p = some y ∧ nodeKind x = nodeKind y

def logPaths (log : List CString) : List (CString × List CString) :=
  (logEntries log).map (fun e => (e.1, components e.2))

theorem logEntries_append (log log' : List CString) :
    logEntries (log ++ log') = logEntries log ++ logEntries log' :=
  List.filterMap_append

theorem logPaths_append (log log' : List CString) :
    logPaths (log ++ log') = logPaths log ++ logPaths log' := by
  rw [logPaths, logEntries_append, List.map_append]
  rfl

theorem logEntries_entry {line flags path : CString} (h : readLine line = .entry flags path) :
    logEntries [line] = [(flags, path)] := by
  simp [logEntries, h]

/-- The output of the main loop does what its lines do, whatever the counter. -/
theorem execAll_mainLoop {src : FileTree} (fromPrefix toPrefix : CString) {log : List CString}
    (haccepted : ∀ line ∈ log, ∀ text, readLine line ≠ .wrongFormat text)
    (hcanonical : ∀ e ∈ logEntries log, Canonical e.2) (count : ℕ) (t : FileTree) :
    execAll src fromPrefix toPrefix (mainLoop fromPrefix toPrefix count log) t =
      distilAll src (logPaths log) t := by
  induction log generalizing count t with
  | nil => rfl
  | cons line log ih =>
    obtain ⟨messages, count', hmessages, hloop⟩ := mainLoop_cons fromPrefix toPrefix count line log
    have hentries : logEntries (line :: log) = logEntries [line] ++ logEntries log :=
      logEntries_append [line] log
    have hpaths : logPaths (line :: log) = logPaths [line] ++ logPaths log :=
      logPaths_append [line] log
    rw [hentries] at hcanonical
    have hrest := ih (fun l hl => haccepted l (List.mem_cons_of_mem _ hl))
      (fun e he => hcanonical e (List.mem_append_right _ he)) count'
    have hblock : execAll src fromPrefix toPrefix (lineCommands fromPrefix toPrefix line) t =
        distilAll src (logPaths [line]) t := by
      unfold lineCommands
      cases hread : readLine line with
      | comment => simp [logPaths, logEntries, hread, execAll, distilAll]
      | wrongFormat text => exact absurd hread (haccepted line (by simp) text)
      | entry flags path =>
        have hpath : Canonical path :=
          hcanonical (flags, path) (by simp [logEntries_entry hread])
        simp [execAll_processPath src fromPrefix toPrefix hpath, distilAll, logPaths,
          logEntries_entry hread]
    rw [hloop, execAll_append, execAll_append, hblock, hpaths, distilAll_append]
    cases distilAll src (logPaths [line]) t with
    | none => rfl
    | some t₁ => simp [execAll_messages src fromPrefix toPrefix hmessages, hrest]

theorem LogOf.perm {src : FileTree} {log log' : List CString} (h : LogOf src log)
    (hperm : log'.Perm log) : LogOf src log' := by
  have hentries : (logEntries log').Perm (logEntries log) := hperm.filterMap _
  exact {
    accepted := fun line hl => h.accepted line (hperm.mem_iff.mp hl)
    canonical := fun e he => h.canonical e (hentries.mem_iff.mp he)
    existing := fun e he => h.existing e (hentries.mem_iff.mp he)
    distinct := (hentries.map Prod.snd).nodup_iff.mpr h.distinct
    opened := fun e he => h.opened e (hentries.mem_iff.mp he) }

theorem LogOf.paths_nodup {src : FileTree} {log : List CString} (h : LogOf src log) :
    ((logPaths log).map Prod.snd).Nodup := by
  have hmap : (logPaths log).map Prod.snd = ((logEntries log).map Prod.snd).map components := by
    simp [logPaths, Function.comp_def]
  rw [hmap]
  apply h.distinct.map_on
  intro p hp q hq heq
  obtain ⟨e, he, rfl⟩ := List.mem_map.mp hp
  obtain ⟨e', he', rfl⟩ := List.mem_map.mp hq
  rw [h.canonical e he, h.canonical e' he', heq]

theorem LogOf.sound {src : FileTree} {log : List CString} (h : LogOf src log)
    (hfits : ∀ e ∈ logEntries log, LookupFits src e.1 (components e.2)) :
    ∀ e ∈ logPaths log, Sound src e.1 e.2 := by
  intro e he
  obtain ⟨entry, hentry, rfl⟩ := List.mem_map.mp he
  exact ⟨h.existing entry hentry, h.opened entry hentry, hfits entry hentry⟩

/-- When every lookup fits, all orders build the same part of the source tree. -/
theorem LogOf.distills {src : FileTree} {log : List CString} (hlog : LogOf src log)
    (hfits : ∀ e ∈ logEntries log, LookupFits src e.1 (components e.2))
    (fromPrefix toPrefix : CString) : ∃ t, Distills src fromPrefix toPrefix log t := by
  have hsound := hlog.sound hfits
  obtain ⟨t, _, hb⟩ := distilAll_built hsound hlog.paths_nodup
  refine ⟨t, ?_, ?_, fun p x hx => hb.kinds hsound hx⟩
  · intro log' hperm
    have hlog' := hlog.perm hperm
    have hpaths : (logPaths log').Perm (logPaths log) := (hperm.filterMap _).map _
    obtain ⟨t', hrun, hb'⟩ :=
      distilAll_built (fun e he => hsound e (hpaths.mem_iff.mp he)) hlog'.paths_nodup
    rw [execAll_mainLoop fromPrefix toPrefix hlog'.accepted hlog'.canonical, hrun,
      hb'.unique hb hpaths]
  · intro e he ho
    obtain ⟨x, hx⟩ := Option.ne_none_iff_exists'.mp (hlog.existing e he)
    rw [hx]
    refine (hb _ x).mpr (.inr ⟨_, List.mem_map_of_mem he, ?_⟩)
    simp [Makes, ho, hx]

/-- Later blocks keep a directory, and a leaf whose path is not theirs. -/
theorem distil_keeps {src t t' : FileTree} {flags : CString} {p r : List CString}
    {x : Node Leaf} (h : distil src flags r t = some t') (hx : t.node p = some x)
    (hp : r ≠ p ∧ src.node p ≠ none ∨ x = .dir) : t'.node p = some x := by
  unfold distil at h
  split_ifs at h
  · obtain ⟨t₁, hmkdir, hcopy⟩ := Option.bind_eq_some_iff.mp h
    refine PathTree.copyLeaf_keeps hcopy (PathTree.mkdirP_keeps hmkdir hx) ?_
    refine hp.imp_left (fun ⟨hne, hexists⟩ => ⟨hne.symm, ?_⟩)
    -- a copy into a directory of its own name would need a child of a leaf
    rintro rfl
    obtain ⟨a, ha⟩ := PathTree.leaf_of_copyLeaf hcopy
    cases hlast : r.getLast? with
    | none =>
      rw [List.getLast?_eq_none_iff.mp hlast, src.root] at ha
      cases ha
    | some n =>
      rw [hlast] at hexists
      have hdir := src.closed r n hexists
      rw [ha] at hdir
      cases hdir
  · exact PathTree.mkdirP_keeps h hx
  · obtain ⟨t₁, hmkdir, htouch⟩ := Option.bind_eq_some_iff.mp h
    exact PathTree.touch_keeps htouch (PathTree.mkdirP_keeps hmkdir hx)
  · cases h
    exact hx

theorem distilAll_keeps {src : FileTree} {es : List (CString × List CString)} {t t' : FileTree}
    {p : List CString} {x : Node Leaf} (h : distilAll src es t = some t') (hx : t.node p = some x)
    (hp : p ∉ es.map Prod.snd ∧ src.node p ≠ none ∨ x = .dir) : t'.node p = some x := by
  induction es generalizing t with
  | nil =>
    cases h
    exact hx
  | cons e es ih =>
    rw [distilAll, List.foldlM_cons] at h
    obtain ⟨t₁, hstep, hrest⟩ := Option.bind_eq_some_iff.mp h
    rw [List.map_cons, List.mem_cons, not_or] at hp
    have hx₁ := distil_keeps hstep hx (hp.imp_left (fun h => ⟨Ne.symm h.1.1, h.2⟩))
    exact ih hrest hx₁ (hp.imp_left (fun h => ⟨h.1.2, h.2⟩))

/-- What a lookup alone makes of its own path on the empty destination. -/
theorem distil_lookup_empty {src t : FileTree} {flags : CString} {p : List CString}
    (ho : opensFile flags = false) (hG : stringFind flags 'G' = true)
    (h : distil src flags p .empty = some t) :
    if stringFind flags 'd' = true then t.node p = some .dir
    else p = [] ∨ t.node p = some (.leaf (.file [])) := by
  simp only [distil, ho, hG, Bool.false_eq_true, if_false, if_true] at h
  split_ifs with hd
  · rw [if_pos hd] at h
    obtain ⟨_, rfl⟩ := PathTree.mkdirP_eq_some.mp h
    simp
  · rw [if_neg hd] at h
    by_cases hroot : p = []
    · exact .inl hroot
    · obtain ⟨t₁, hmkdir, htouch⟩ := Option.bind_eq_some_iff.mp h
      obtain ⟨_, rfl⟩ := PathTree.mkdirP_eq_some.mp hmkdir
      have hplace : (PathTree.withDirs .empty p.dropLast : FileTree).node p = none := by
        simp [PathTree.not_prefix_dropLast hroot, hroot]
      rw [PathTree.touch, hplace] at htouch
      rw [(PathTree.put_eq_some.mp htouch).2, Function.update_self]
      exact .inr rfl

/-- An order-independent distillation. All orders of the lines build one tree exactly
when every node that was only looked up gets a command that fits it. For the converse a
lookup that does not fit is run first, and what it makes stays. -/
theorem distills_iff (src : FileTree) (fromPrefix toPrefix : CString) (log : List CString)
    (hlog : LogOf src log) : (∃ t, Distills src fromPrefix toPrefix log t) ↔
      ∀ e ∈ logEntries log, LookupFits src e.1 (components e.2) := by
  refine ⟨?_, fun hfits => hlog.distills hfits fromPrefix toPrefix⟩
  rintro ⟨t, ht⟩ e he ho hG
  obtain ⟨line, hline, hread⟩ := line_of_mem_logEntries he
  obtain ⟨before, after, rfl⟩ := List.append_of_mem hline
  have hperm : (line :: (before ++ after)).Perm (before ++ line :: after) := List.perm_middle.symm
  have hlog' := hlog.perm hperm
  have hrun := ht.runs _ hperm
  have hpaths : logPaths (line :: (before ++ after)) =
      (e.1, components e.2) :: logPaths (before ++ after) := by
    simp [logPaths, logEntries, hread]
  rw [execAll_mainLoop fromPrefix toPrefix hlog'.accepted hlog'.canonical, hpaths, distilAll,
    List.foldlM_cons] at hrun
  obtain ⟨t₁, hfirst, hrest⟩ := Option.bind_eq_some_iff.mp hrun
  have hnew : components e.2 ∉ (logPaths (before ++ after)).map Prod.snd := by
    have hnodup := hlog'.paths_nodup
    rw [hpaths, List.map_cons, List.nodup_cons] at hnodup
    exact hnodup.1
  have hexists := hlog.existing e he
  have hmade := distil_lookup_empty ho hG hfirst
  split_ifs with hd
  · rw [if_pos hd] at hmade
    obtain ⟨y, hy, hkind⟩ := ht.kinds _ _ (distilAll_keeps hrest hmade (.inr rfl))
    rw [hy, nodeKind_directory.mp hkind.symm]
  · rw [if_neg hd] at hmade
    refine hmade.imp_right (fun hfile => ?_)
    obtain ⟨y, hy, hkind⟩ :=
      ht.kinds _ _ (distilAll_keeps hrest hfile (.inl ⟨hnew, hexists⟩))
    obtain ⟨content, rfl⟩ := nodeKind_regular.mp hkind.symm
    exact ⟨content, hy⟩

def sampleSource : FileTree :=
  ((PathTree.empty.withDirs ["usr".toList]).put ["usr".toList, "a".toList] (.file ['x'])).getD .empty

def sampleLine (path : CString) (flags : BitVec 32) : CString :=
  entryLine path { path := path, count := 1, flags := flags }

def sampleLog (flags : BitVec 32) : List CString :=
  [sampleLine "/usr".toList flags, sampleLine "/usr/a".toList (flag .opOpen)]

theorem readLine_sampleLine (path : CString) (h : ':' ∉ path) (flags : BitVec 32) :
    readLine (sampleLine path flags) = .entry (maskField flags) path := by
  rw [sampleLine, readLine_entryLine, if_neg h]

theorem logEntries_sampleLog (flags : BitVec 32) : logEntries (sampleLog flags) =
    [(maskField flags, "/usr".toList), (maskField (flag .opOpen), "/usr/a".toList)] := by
  have husr := readLine_sampleLine "/usr".toList (by decide) flags
  have hfile := readLine_sampleLine "/usr/a".toList (by decide) (flag .opOpen)
  simp only [sampleLog, logEntries, List.filterMap_cons, husr, hfile, List.filterMap_nil]

theorem sampleLog_of {flags : BitVec 32} (h : opensFile (maskField flags) = false) :
    LogOf sampleSource (sampleLog flags) := by
  refine ⟨?_, ?_, ?_, ?_, ?_⟩
  · intro line hline text
    simp only [sampleLog, List.mem_cons, List.not_mem_nil, or_false] at hline
    rcases hline with rfl | rfl <;> rw [readLine_sampleLine _ (by decide)] <;> exact nofun
  all_goals rw [logEntries_sampleLog]
  · intro e he
    simp only [List.mem_cons, List.not_mem_nil, or_false] at he
    rcases he with rfl | rfl
    · exact (by decide : Canonical "/usr".toList)
    · exact (by decide : Canonical "/usr/a".toList)
  · intro e he
    simp only [List.mem_cons, List.not_mem_nil, or_false] at he
    rcases he with rfl | rfl
    · exact (by decide : sampleSource.node (components "/usr".toList) ≠ none)
    · exact (by decide : sampleSource.node (components "/usr/a".toList) ≠ none)
  · exact (by decide : ["/usr".toList, "/usr/a".toList].Nodup)
  · intro e he ho
    simp only [List.mem_cons, List.not_mem_nil, or_false] at he
    rcases he with rfl | rfl
    · rw [h] at ho
      cases ho
    · decide

theorem distills_listed : ∃ t, Distills sampleSource "/".toList "/out".toList
    (sampleLog (flag .opGetattr ||| flag .opReaddir)) t := by
  apply (distills_iff _ _ _ _ (sampleLog_of (by decide))).mpr
  intro e he ho hG
  rw [logEntries_sampleLog] at he
  simp only [List.mem_cons, List.not_mem_nil, or_false] at he
  rcases he with rfl | rfl
  · rw [if_pos (by decide)]
    decide
  · exact absurd ho (by decide)

/-- A directory that was looked up and never listed: a file takes its place, and the
directory of the file below it cannot be made. -/
theorem distills_lookup : LogOf sampleSource (sampleLog (flag .opGetattr)) ∧
    ¬ ∃ t, Distills sampleSource "/".toList "/out".toList (sampleLog (flag .opGetattr)) t := by
  refine ⟨sampleLog_of (by decide), ?_⟩
  rintro ⟨t, ht⟩
  have hrun := ht.runs _ (List.Perm.refl _)
  have hfails : (execAll sampleSource "/".toList "/out".toList
      (mainLoop "/".toList "/out".toList 0 (sampleLog (flag .opGetattr))) .empty).isNone = true := by
    decide
  rw [hrun] at hfails
  cases hfails

end DistillerFS
