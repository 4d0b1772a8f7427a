import DistillerFS.Configuration.ParseConfig
import DistillerFS.Mounting.Arguments
import DistillerFS.Report.Printing

/-!
# From the command line to the mounted file system

`main` up to `fuse_main`, and the report it writes to `hash_log` when `fuse_main` has
returned. The host decides which files can be opened.
-/
namespace DistillerFS

/-- `staleString` and `staleInt` are what an unassigned field of the allocated structure
happens to hold. -/
structure Host where
  posixlyCorrect : Bool
  opensForWriting : CString → Bool
  readFile : CString → Option CString
  toml : TomlReader
  staleString : Option CString
  staleInt : ℤ

inductive Sink where
  | stderr
  | file (name : CString)
  deriving DecidableEq, Repr

/-- What `main` has set up when it calls `fuse_main`; `hashLog` is `none` for NULL. -/
structure Mount where
  args : LoggedFSArgs
  hashLog : Option Sink
  config : ConfigState

inductive Started where
  | returned (rc : ℤ)
  | aborted
  | crashed
  | mounted (m : Mount)

def Host.fopenLog (host : Host) (name : CString) : Option Sink :=
  if host.opensForWriting name then some (.file name) else none

/-- The choice of `hash_log`; without a log file it keeps the NULL it starts with. -/
def openHashLog (host : Host) (args : LoggedFSArgs) : Option Sink :=
  if args.isDaemon.getD host.staleInt = 1 then
    (args.logFilename.getD host.staleString).bind host.fopenLog
  else some .stderr

/-- An assertion that fails aborts; a NULL table that `parse_config` follows crashes. -/
def main (host : Host) (argv : List CString) : Started :=
  match processArgs host.posixlyCorrect argv .allocated with
  | none => .aborted
  | some (false, _) => .returned 0
  | some (true, args) =>
    match args.configFilename.getD host.staleString with
    | none => .mounted ⟨args, openHashLog host args, mainDefaults⟩
    | some name =>
      match parseConfig host.toml (host.readFile name) mainDefaults with
      | none => .crashed
      | some (rc, config) =>
        if rc ≠ 0 then .returned rc else .mounted ⟨args, openHashLog host args, config⟩

/-- The report after unmounting; the result is `none` when it is printed to NULL. -/
def writeReport (m : Mount) {h : Hash} (it : Iteration h) : Option (Sink × CString) :=
  m.hashLog.map (fun sink => (sink, report m.config.opFlags it))

/-- The fields of the structure that `main` reads hold what `processArgs` put there. -/
structure LoggedFSArgs.ReadsAssigned (args : LoggedFSArgs) : Prop where
  logToSyslog : args.logToSyslog.isSome
  isDaemon : args.isDaemon.isSome
  logFilename : args.isDaemon = some 1 → args.logFilename.isSome
  configFilename : args.configFilename.isSome
  mountPoint : args.mountPoint.isSome

/-- The report has a sink, and it is the one that the options ask for. -/
structure SinkKept (opts : List Opt) (m : Mount) : Prop where
  assigned : m.args.ReadsAssigned
  written : ∀ (h : Hash) (it : Iteration h), writeReport m it ≠ none
  logFile : ∀ name, lastLogFile opts = some name → m.hashLog = some (.file name)
  standard : lastLogFile opts = none → Opt.f ∈ opts → m.hashLog = some .stderr

/-- Either `-f` is given without `-l`, or `-l` without `-f` and its last file can be opened. -/
def SinkAvailable (host : Host) (opts : List Opt) : Prop :=
  (Opt.f ∈ opts ∧ lastLogFile opts = none) ∨
    (Opt.f ∉ opts ∧ ∃ name, lastLogFile opts = some name ∧ host.opensForWriting name = true)

theorem main_mounted {host : Host} {argv : List CString} {m : Mount} (h : main host argv = .mounted m) :
    processArgs host.posixlyCorrect argv .allocated = some (true, m.args) ∧
      m.hashLog = openHashLog host m.args ∧
      (m.args.configFilename = some none → m.config = mainDefaults) ∧
      ∀ name, m.args.configFilename = some (some name) →
        parseConfig host.toml (host.readFile name) mainDefaults = some (0, m.config) := by
  unfold main at h
  split at h
  · cases h
  · cases h
  · rename_i args hargs
    split at h
    · rename_i hname
      cases h
      refine ⟨hargs, rfl, fun _ => rfl, ?_⟩
      intro name hsome
      rw [hsome] at hname
      cases hname
    · rename_i name hname
      split at h
      · cases h
      · rename_i rc config hparse
        split_ifs at h with hrc
        cases h
        refine ⟨hargs, rfl, ?_, ?_⟩
        · intro hnone
          rw [hnone] at hname
          cases hname
        · intro name' hsome
          rw [hsome] at hname
          cases hname
          rw [hparse, not_not.mp hrc]

theorem main_hashLog {host : Host} {argv : List CString} {m : Mount} (h : main host argv = .mounted m) :
    m.hashLog =
      if Opt.f ∈ givenOptions host.posixlyCorrect argv then some .stderr
      else ((lastLogFile (givenOptions host.posixlyCorrect argv)).or host.staleString).bind
        host.fopenLog := by
  obtain ⟨hargs, hlog, _⟩ := main_mounted h
  obtain ⟨hdaemon, hname, _⟩ := processArgs_fields hargs
  rw [hlog, openHashLog, hdaemon, hname]
  by_cases hf : Opt.f ∈ givenOptions host.posixlyCorrect argv
  · simp [hf]
  · simp only [hf, if_false, Option.getD_some, if_true]
    cases lastLogFile (givenOptions host.posixlyCorrect argv) <;> rfl

theorem main_readsAssigned {host : Host} {argv : List CString} {m : Mount}
    (h : main host argv = .mounted m)
    (hset : Opt.f ∈ givenOptions host.posixlyCorrect argv ∨
      lastLogFile (givenOptions host.posixlyCorrect argv) ≠ none) : m.args.ReadsAssigned := by
  obtain ⟨hdaemon, hname, hsyslog, hconfig, hmount⟩ := processArgs_fields (main_mounted h).1
  refine ⟨hsyslog, by simp [hdaemon], ?_, hconfig, hmount⟩
  intro hone
  rw [hdaemon] at hone
  have hf : Opt.f ∉ givenOptions host.posixlyCorrect argv := by
    intro hf
    simp [hf] at hone
  rw [hname, Option.isSome_map]
  exact Option.isSome_iff_ne_none.mpr (hset.resolve_left hf)

theorem writeReport_ne_none {m : Mount} :
    (∀ (h : Hash) (it : Iteration h), writeReport m it ≠ none) ↔ m.hashLog ≠ none := by
  constructor
  · intro hwritten hnull
    apply hwritten ∅ ⟨[], rfl⟩
    rw [writeReport, hnull]
    rfl
  · intro hne h it hnull
    exact hne (Option.map_eq_none_iff.mp hnull)

/-- In the foreground the report goes to the standard error, and a file of `-l` is not opened. -/
theorem sinkKept_foreground {host : Host} {argv : List CString} {m : Mount}
    (h : main host argv = .mounted m) (hf : Opt.f ∈ givenOptions host.posixlyCorrect argv) :
    SinkKept (givenOptions host.posixlyCorrect argv) m ↔
      lastLogFile (givenOptions host.posixlyCorrect argv) = none := by
  have hsink := main_hashLog h
  rw [if_pos hf] at hsink
  constructor
  · intro hkept
    by_contra hlast
    obtain ⟨name, hname⟩ := Option.ne_none_iff_exists'.mp hlast
    have hfile := hkept.logFile name hname
    rw [hsink] at hfile
    cases hfile
  · intro hlast
    refine ⟨main_readsAssigned h (.inl hf), ?_, ?_, fun _ _ => hsink⟩
    · exact writeReport_ne_none.mpr (by simp [hsink])
    · intro name hname
      rw [hlast] at hname
      cases hname

/-- As a daemon the program needs the file of `-l`. -/
theorem sinkKept_daemon {host : Host} {argv : List CString} {m : Mount}
    (h : main host argv = .mounted m) (hf : Opt.f ∉ givenOptions host.posixlyCorrect argv) :
    SinkKept (givenOptions host.posixlyCorrect argv) m ↔
      ∃ name, lastLogFile (givenOptions host.posixlyCorrect argv) = some name ∧
        host.opensForWriting name = true := by
  have hsink := main_hashLog h
  rw [if_neg hf] at hsink
  constructor
  · intro hkept
    obtain ⟨hdaemon, hname, _⟩ := processArgs_fields (main_mounted h).1
    have hset := hkept.assigned.logFilename (by simp [hdaemon, hf])
    rw [hname, Option.isSome_map] at hset
    obtain ⟨name, hlast⟩ := Option.isSome_iff_exists.mp hset
    refine ⟨name, hlast, ?_⟩
    have hfile := hkept.logFile name hlast
    rw [hsink, hlast, Option.some_or, Option.bind_some, Host.fopenLog] at hfile
    by_contra hopen
    rw [if_neg hopen] at hfile
    cases hfile
  · rintro ⟨name, hlast, hopen⟩
    have hfile : m.hashLog = some (.file name) := by
      rw [hsink, hlast, Option.some_or, Option.bind_some, Host.fopenLog, if_pos hopen]
    refine ⟨main_readsAssigned h (.inr (by simp [hlast])), ?_, ?_, fun _ hff => absurd hff hf⟩
    · exact writeReport_ne_none.mpr (by simp [hfile])
    · intro name' hname'
      rw [hlast] at hname'
      cases hname'
      exact hfile

/-- Whenever the file system is mounted, the report has the sink that the options ask
for exactly when `-f` comes without `-l`, or `-l` without `-f` and the file can be opened. -/
theorem sinkKept_iff {host : Host} {argv : List CString} {m : Mount}
    (h : main host argv = .mounted m) :
    SinkKept (givenOptions host.posixlyCorrect argv) m ↔
      SinkAvailable host (givenOptions host.posixlyCorrect argv) := by
  unfold SinkAvailable
  by_cases hf : Opt.f ∈ givenOptions host.posixlyCorrect argv
  · rw [sinkKept_foreground h hf]
    simp [hf]
  · rw [sinkKept_daemon h hf]
    simp [hf]

def openHost : Host where
  posixlyCorrect := false
  opensForWriting := fun _ => true
  readFile := fun _ => some []
  toml := ⟨fun _ => some (.mk [] [] [("filter".toList, .mk [] [] [])]), fun _ => none⟩
  staleString := none
  staleInt := 0

def commandLine (words : List CString) : List CString := "distillerfs".toList :: words

theorem sinkKept_logFile : ∃ m,
    main openHost (commandLine ["-l".toList, "log.txt".toList, "/mnt".toList]) = .mounted m ∧
      SinkKept (givenOptions false (commandLine ["-l".toList, "log.txt".toList, "/mnt".toList])) m :=
  ⟨_, rfl, (@sinkKept_iff openHost _ _ rfl).mpr (.inr ⟨by decide, "log.txt".toList, rfl, rfl⟩)⟩

/-- With `-f` the log file of `-l` is never opened, and with neither option there is no
sink at all. -/
theorem sink_lost :
    (∃ m, main openHost (commandLine ["-f".toList, "-l".toList, "log.txt".toList, "/mnt".toList]) =
        .mounted m ∧ ¬ SinkKept (givenOptions false
          (commandLine ["-f".toList, "-l".toList, "log.txt".toList, "/mnt".toList])) m) ∧
    (∃ m, main openHost (commandLine ["/mnt".toList]) = .mounted m ∧
      ¬ SinkKept (givenOptions false (commandLine ["/mnt".toList])) m) := by
  constructor
  · refine ⟨_, rfl, fun hkept => ?_⟩
    exact absurd (hkept.logFile "log.txt".toList rfl) (by decide)
  · refine ⟨_, rfl, fun hkept => ?_⟩
    exact hkept.written ∅ ⟨[], rfl⟩ rfl

end DistillerFS
