import DistillerFS.Recording.Operations
import Mathlib.Logic.Function.Basic

/-!
# The command line

`getopt` over the option string "hpfec:l:", and `processArgs` over what it delivers.
A field that has not been assigned since the structure was allocated is `none`.
-/
namespace DistillerFS

/-- What one call of `getopt` returns; `other` is '?'. -/
inductive Opt where
  | h | f | p | e
  | c (optarg : CString)
  | l (optarg : CString)
  | other
  deriving DecidableEq, Repr

def flagOpt (c : Char) : Opt :=
  if c = 'h' then .h else if c = 'p' then .p else if c = 'f' then .f else if c = 'e' then .e
  else .other

def argOpt (c : Char) : Option (CString → Opt) :=
  if c = 'c' then some .c else if c = 'l' then some .l else none

/-- The options in one word, and the option at its end that still lacks its argument. -/
def getoptWord : CString → List Opt × Option (CString → Opt)
  | [] => ([], none)
  | c :: rest =>
    match argOpt c with
    | some opt => if rest = [] then ([], some opt) else ([opt rest], none)
    | none => (flagOpt c :: (getoptWord rest).1, (getoptWord rest).2)

/-- All that `getopt` delivers on the words, and the words it leaves from `optind` on.
Words that are no options are moved behind the options, unless POSIXLY_CORRECT is set. -/
def getopt (posixlyCorrect : Bool) : Option (CString → Opt) → List CString → List Opt × List CString
  | none, [] => ([], [])
  | some _, [] => ([.other], [])
  | some opt, optarg :: argv =>
    (opt optarg :: (getopt posixlyCorrect none argv).1, (getopt posixlyCorrect none argv).2)
  | none, word :: argv =>
    if word = "--".toList then ([], argv)
    else if word.head? = some '-' ∧ 1 < word.length then
      let opts := getoptWord word.tail
      let rest := getopt posixlyCorrect opts.2 argv
      (opts.1 ++ rest.1, rest.2)
    else if posixlyCorrect then ([], word :: argv)
    else ((getopt posixlyCorrect none argv).1, word :: (getopt posixlyCorrect none argv).2)

abbrev maxFuseArgs : ℕ := 32

structure LoggedFSArgs where
  mountPoint : Option CString
  configFilename : Option (Option CString)
  logFilename : Option (Option CString)
  isDaemon : Option ℤ
  logToSyslog : Option ℤ
  fuseArgv : Fin maxFuseArgs → Option CString
  fuseArgc : ℕ

/-- The structure as `main` passes it: allocated, with `fuseArgv` set to NULL. -/
def LoggedFSArgs.allocated : LoggedFSArgs where
  mountPoint := none
  configFilename := none
  logFilename := none
  isDaemon := none
  logToSyslog := none
  fuseArgv := fun _ => none
  fuseArgc := 0

/-- `PUSHARG`; the result is `none` when its assertion fails. -/
def LoggedFSArgs.pushArg (out : LoggedFSArgs) (arg : CString) : Option LoggedFSArgs :=
  if h : out.fuseArgc < maxFuseArgs then
    some { out with
      fuseArgv := Function.update out.fuseArgv ⟨out.fuseArgc, h⟩ (some arg)
      fuseArgc := out.fuseArgc + 1 }
  else none

def LoggedFSArgs.pushArgs (out : LoggedFSArgs) (args : List CString) : Option LoggedFSArgs :=
  args.foldlM LoggedFSArgs.pushArg out

def commonOpts : CString :=
  "nonempty,use_ino,attr_timeout=0,entry_timeout=0,negative_timeout=0".toList

/-- The loop over the options, with `got_p`; `-h` returns from the function at once. -/
def optionLoop : List Opt → Bool → LoggedFSArgs → Option (Option Bool × LoggedFSArgs)
  | [], got_p, out => some (some got_p, out)
  | .h :: _, _, out => some (none, out)
  | .f :: opts, got_p, out => do
    let out ← { out with isDaemon := some 0, logToSyslog := some 0 }.pushArgs ["-f".toList]
    optionLoop opts got_p out
  | .p :: opts, _, out => do
    let out ← out.pushArgs ["-o".toList, "allow_other,default_permissions,".toList ++ commonOpts]
    optionLoop opts true out
  | .e :: opts, got_p, out => do
    let out ← out.pushArgs ["-o".toList, "nonempty".toList]
    optionLoop opts got_p out
  | .c optarg :: opts, got_p, out =>
    optionLoop opts got_p { out with configFilename := some (some optarg) }
  | .l optarg :: opts, got_p, out =>
    optionLoop opts got_p { out with logToSyslog := some 0, logFilename := some (some optarg) }
  | .other :: opts, got_p, out => optionLoop opts got_p out

def isAbsolutePath (fileName : CString) : Bool := fileName.head? == some '/'

/-- The defaults, with the executable name in front and a free place behind it. -/
def LoggedFSArgs.defaults (out : LoggedFSArgs) (argv0 : Option CString) : LoggedFSArgs :=
  { out with
    isDaemon := some 1
    logToSyslog := some 1
    configFilename := some none
    fuseArgv := Function.update (Function.update out.fuseArgv 0 argv0) 1 none
    fuseArgc := 2 }

/-- The words from `optind` on: the mount point, and what is passed on to FUSE. -/
def takeOperands (rest : List CString) (out : LoggedFSArgs) : Option (Bool × LoggedFSArgs) :=
  match rest with
  | [] => some (false, out)
  | mountPoint :: extra => do
    let out ← { out with
      mountPoint := some mountPoint
      fuseArgv := Function.update out.fuseArgv 1 (some mountPoint) }.pushArgs extra
    return (isAbsolutePath mountPoint, out)

/-- The result is `none` when an assertion fails. -/
def processArgs (posixlyCorrect : Bool) (argv : List CString) (out : LoggedFSArgs) :
    Option (Bool × LoggedFSArgs) := do
  let scanned := getopt posixlyCorrect none argv.tail
  let looped ← optionLoop scanned.1 false (out.defaults argv.head?)
  match looped.1 with
  | none => return (false, looped.2)
  | some got_p =>
    let out ← looped.2.pushArgs (if got_p then [] else ["-o".toList, commonOpts])
    takeOperands scanned.2 out

def givenOptions (posixlyCorrect : Bool) (argv : List CString) : List Opt :=
  (getopt posixlyCorrect none argv.tail).1

def Opt.logFile : Opt → Option CString
  | .l optarg => some optarg
  | _ => none

def lastLogFile (opts : List Opt) : Option CString := (opts.filterMap Opt.logFile).getLast?

structure SameFields (out out' : LoggedFSArgs) : Prop where
  mountPoint : out'.mountPoint = out.mountPoint
  configFilename : out'.configFilename = out.configFilename
  logFilename : out'.logFilename = out.logFilename
  isDaemon : out'.isDaemon = out.isDaemon
  logToSyslog : out'.logToSyslog = out.logToSyslog

theorem SameFields.refl (out : LoggedFSArgs) : SameFields out out := ⟨rfl, rfl, rfl, rfl, rfl⟩

theorem LoggedFSArgs.pushArgs_same {args : List CString} {out out' : LoggedFSArgs}
    (h : out.pushArgs args = some out') : SameFields out out' := by
  induction args generalizing out with
  | nil => exact Option.some.inj h ▸ .refl out
  | cons arg args ih =>
    obtain ⟨mid, hmid, hrest⟩ := Option.bind_eq_some_iff.mp h
    unfold pushArg at hmid
    split_ifs at hmid
    cases hmid
    have hsame := ih hrest
    exact ⟨hsame.1, hsame.2, hsame.3, hsame.4, hsame.5⟩

/-- What the options of the loop make of the fields that `main` reads. -/
structure LoopFields (opts : List Opt) (out out' : LoggedFSArgs) : Prop where
  isDaemon : out'.isDaemon = if Opt.f ∈ opts then some 0 else out.isDaemon
  logFilename : out'.logFilename = ((lastLogFile opts).map some).or out.logFilename
  logToSyslog : out.logToSyslog.isSome → out'.logToSyslog.isSome
  configFilename : out.configFilename.isSome → out'.configFilename.isSome

theorem LoopFields.of_same {opts : List Opt} {out mid out' : LoggedFSArgs} (hsame : SameFields out mid)
    (h : LoopFields opts mid out') : LoopFields opts out out' where
  isDaemon := hsame.isDaemon ▸ h.isDaemon
  logFilename := hsame.logFilename ▸ h.logFilename
  logToSyslog := hsame.logToSyslog ▸ h.logToSyslog
  configFilename := hsame.configFilename ▸ h.configFilename

/-- One more option in front that is neither `-f` nor `-l`. -/
theorem LoopFields.cons {opts : List Opt} {o : Opt} {out out' : LoggedFSArgs}
    (hf : o ≠ .f) (hl : o.logFile = none) (h : LoopFields opts out out') :
    LoopFields (o :: opts) out out' where
  isDaemon := by simpa [hf.symm] using h.isDaemon
  logFilename := by simpa [lastLogFile, hl] using h.logFilename
  logToSyslog := h.logToSyslog
  configFilename := h.configFilename

theorem lastLogFile_cons (name : CString) (opts : List Opt) :
    lastLogFile (.l name :: opts) = (lastLogFile opts).or (some name) := by
  simp only [lastLogFile, List.filterMap_cons, Opt.logFile, List.getLast?_cons]
  cases (List.filterMap Opt.logFile opts).getLast? <;> rfl

theorem optionLoop_fields {opts : List Opt} {got_p got_p' : Bool} {out out' : LoggedFSArgs}
    (h : optionLoop opts got_p out = some (some got_p', out')) : LoopFields opts out out' := by
  induction opts generalizing got_p out with
  | nil =>
    cases h
    exact ⟨rfl, rfl, id, id⟩
  | cons o opts ih =>
    cases o with
    | h => cases h
    | f =>
      obtain ⟨mid, hmid, hrest⟩ := Option.bind_eq_some_iff.mp h
      have hfields := (ih hrest).of_same (LoggedFSArgs.pushArgs_same hmid)
      exact ⟨by simpa using hfields.isDaemon, hfields.logFilename, fun _ => hfields.logToSyslog rfl,
        hfields.configFilename⟩
    | p | e =>
      obtain ⟨mid, hmid, hrest⟩ := Option.bind_eq_some_iff.mp h
      have hfields := (ih hrest).of_same (LoggedFSArgs.pushArgs_same hmid)
      exact hfields.cons (by simp) rfl
    | c optarg =>
      have hfields : LoopFields (.c optarg :: opts) _ out' := (ih h).cons (by simp) rfl
      exact ⟨hfields.isDaemon, hfields.logFilename, hfields.logToSyslog,
        fun _ => hfields.configFilename rfl⟩
    | l optarg =>
      have hfields := ih h
      refine ⟨by simpa using hfields.isDaemon, ?_, fun _ => hfields.logToSyslog rfl,
        hfields.configFilename⟩
      rw [hfields.logFilename, lastLogFile_cons]
      cases lastLogFile opts <;> rfl
    | other => exact (ih h).cons (by simp) rfl

/-- Where `processArgs` returns 1, every field that `main` reads has been assigned,
except for `logFilename` when no `-l` is given. -/
theorem processArgs_fields {posixlyCorrect : Bool} {argv : List CString} {out : LoggedFSArgs}
    (h : processArgs posixlyCorrect argv .allocated = some (true, out)) :
    out.isDaemon = some (if Opt.f ∈ givenOptions posixlyCorrect argv then 0 else 1) ∧
    out.logFilename = (lastLogFile (givenOptions posixlyCorrect argv)).map some ∧
    out.logToSyslog.isSome ∧ out.configFilename.isSome ∧ out.mountPoint.isSome := by
  obtain ⟨⟨got_p, out₁⟩, hloop, h⟩ := Option.bind_eq_some_iff.mp h
  cases got_p with
  | none => cases h
  | some got_p =>
    have hfields := optionLoop_fields hloop
    obtain ⟨out₂, hcommon, h⟩ := Option.bind_eq_some_iff.mp h
    have hsame := LoggedFSArgs.pushArgs_same hcommon
    cases hrest : (getopt posixlyCorrect none argv.tail).2 with
    | nil =>
      rw [hrest] at h
      cases h
    | cons mountPoint extra =>
      rw [hrest] at h
      obtain ⟨out₃, hextra, h⟩ := Option.bind_eq_some_iff.mp h
      have hout : out₃ = out := congrArg Prod.snd (Option.some.inj h)
      subst hout
      have hlast := LoggedFSArgs.pushArgs_same hextra
      refine ⟨?_, ?_, ?_, ?_, ?_⟩
      · rw [hlast.isDaemon, hsame.isDaemon, hfields.isDaemon, givenOptions]
        simp only [LoggedFSArgs.defaults]
        split_ifs <;> rfl
      · rw [hlast.logFilename, hsame.logFilename, hfields.logFilename, givenOptions]
        exact Option.or_none
      · rw [hlast.logToSyslog, hsame.logToSyslog]
        exact hfields.logToSyslog rfl
      · rw [hlast.configFilename, hsame.configFilename]
        exact hfields.configFilename rfl
      · rw [hlast.mountPoint]
        rfl

end DistillerFS
