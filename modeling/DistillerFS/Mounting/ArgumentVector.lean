import DistillerFS.Mounting.Arguments
import Mathlib.Data.List.GetD
import Mathlib.Data.List.TakeWhile

/-!
# The argument vector for FUSE

`fuseArgv` holds 32 entries, and FUSE looks for a NULL behind the last one. Options may
be repeated and operands are unbounded, so the entries that a command line asks for are
counted first.
-/
namespace DistillerFS

/-- The entries of `fuseArgv` up to `fuseArgc`; the array is NULL behind them. -/
structure LoggedFSArgs.Lists (out : LoggedFSArgs) (entries : List (Option CString)) : Prop where
  fuseArgc : out.fuseArgc = entries.length
  fuseArgv : ∀ i : Fin maxFuseArgs, out.fuseArgv i = entries.getD i none

def Opt.fuseArgs : Opt → List CString
  | .f => ["-f".toList]
  | .p => ["-o".toList, "allow_other,default_permissions,".toList ++ commonOpts]
  | .e => ["-o".toList, "nonempty".toList]
  | _ => []

/-- The options that `processArgs` looks at: it leaves at the first `-h`. -/
def readOptions (opts : List Opt) : List Opt := opts.takeWhile (· ≠ .h)

def loopArgs (opts : List Opt) : List CString := (readOptions opts).flatMap Opt.fuseArgs

def commonArgs (opts : List Opt) : List CString :=
  if Opt.p ∈ opts then [] else ["-o".toList, commonOpts]

namespace LoggedFSArgs
variable {out : LoggedFSArgs} {entries : List (Option CString)}

theorem Lists.pushArg (h : out.Lists entries) (arg : CString) (hfits : entries.length < maxFuseArgs) :
    ∃ out', out.pushArg arg = some out' ∧ out'.Lists (entries ++ [some arg]) := by
  have hargc : out.fuseArgc < maxFuseArgs := h.fuseArgc ▸ hfits
  refine ⟨_, dif_pos hargc, ?_, fun i => ?_⟩
  · simp [h.fuseArgc]
  · simp only [Function.update_apply, Fin.ext_iff]
    by_cases hi : i.val = out.fuseArgc
    · rw [if_pos hi, hi, h.fuseArgc]
      simp
    · rw [if_neg hi, h.fuseArgv i]
      rw [h.fuseArgc] at hi
      by_cases hlt : i.val < entries.length
      · rw [List.getD_append _ _ _ _ hlt]
      · rw [List.getD_eq_default _ _ (by omega), List.getD_eq_default _ _ (by simp; omega)]

theorem pushArg_full (h : out.Lists entries) (arg : CString) (hfull : maxFuseArgs ≤ entries.length) :
    out.pushArg arg = none := by
  apply dif_neg
  rw [h.fuseArgc]
  omega

theorem Lists.pushArgs {args : List CString} (h : out.Lists entries)
    (hfits : entries.length + args.length ≤ maxFuseArgs) :
    ∃ out', out.pushArgs args = some out' ∧ out'.Lists (entries ++ args.map some) := by
  induction args generalizing out entries with
  | nil => exact ⟨out, rfl, by simpa using h⟩
  | cons arg args ih =>
    rw [List.length_cons] at hfits
    obtain ⟨mid, hmid, hlists⟩ := h.pushArg arg (by omega)
    obtain ⟨out', hout, hlists'⟩ := ih hlists (by simp; omega)
    refine ⟨out', ?_, by simpa using hlists'⟩
    rw [LoggedFSArgs.pushArgs, List.foldlM_cons, hmid]
    exact hout

/-- One entry too many fails the assertion. -/
theorem Lists.pushArgs_full {args : List CString} (h : out.Lists entries)
    (hlength : entries.length ≤ maxFuseArgs)
    (hfull : maxFuseArgs < entries.length + args.length) : out.pushArgs args = none := by
  induction args generalizing out entries with
  | nil => exact absurd hfull (by simp; omega)
  | cons arg args ih =>
    rw [LoggedFSArgs.pushArgs, List.foldlM_cons]
    by_cases hfits : entries.length < maxFuseArgs
    · obtain ⟨mid, hmid, hlists⟩ := h.pushArg arg hfits
      rw [hmid]
      apply ih hlists
      · simp; omega
      · simp at hfull ⊢; omega
    · rw [pushArg_full h arg (by omega)]
      rfl

theorem Lists.of_eq {out' : LoggedFSArgs} (h : out.Lists entries) (hargc : out'.fuseArgc = out.fuseArgc)
    (hargv : out'.fuseArgv = out.fuseArgv) : out'.Lists entries :=
  ⟨hargc ▸ h.fuseArgc, hargv ▸ h.fuseArgv⟩

theorem defaults_lists (argv0 : Option CString) :
    (LoggedFSArgs.allocated.defaults argv0).Lists [argv0, none] := by
  refine ⟨rfl, fun i => ?_⟩
  unfold defaults allocated
  simp only [Function.update_apply]
  match i with
  | 0 | 1 => rfl
  | ⟨n + 2, hn⟩ => rfl

theorem Lists.setMountPoint {argv0 : Option CString} {mountPoint : CString}
    (h : out.Lists (argv0 :: none :: entries)) :
    { out with
      mountPoint := some mountPoint
      fuseArgv := Function.update out.fuseArgv 1 (some mountPoint) : LoggedFSArgs }.Lists
      (argv0 :: some mountPoint :: entries) := by
  refine ⟨h.fuseArgc, fun i => ?_⟩
  simp only [Function.update_apply, h.fuseArgv]
  match i with
  | 0 | 1 => rfl
  | ⟨n + 2, hn⟩ => rfl

end LoggedFSArgs

open LoggedFSArgs

section OptionLoop
variable {out : LoggedFSArgs} {entries : List (Option CString)}

theorem loopArgs_h (opts : List Opt) : loopArgs (.h :: opts) = [] := rfl

theorem loopArgs_cons {o : Opt} (h : o ≠ .h) (opts : List Opt) :
    loopArgs (o :: opts) = o.fuseArgs ++ loopArgs opts := by
  simp [loopArgs, readOptions, h]

/-- What the loop reports: nothing after `-h`, else whether `-p` was given. -/
def loopResult (opts : List Opt) (got_p : Bool) : Option Bool :=
  if Opt.h ∈ opts then none else some (got_p || decide (Opt.p ∈ opts))

theorem optionLoop_cons {o : Opt} (h : o ≠ .h) (opts : List Opt) (got_p : Bool)
    (hout : out.Lists entries) :
    ∃ mid : LoggedFSArgs, mid.Lists entries ∧
      optionLoop (o :: opts) got_p out =
        (mid.pushArgs o.fuseArgs).bind (optionLoop opts (got_p || decide (o = .p))) := by
  cases o with
  | h => exact absurd rfl h
  | f =>
    refine ⟨{ out with isDaemon := some 0, logToSyslog := some 0 }, hout.of_eq rfl rfl, ?_⟩
    simp [optionLoop, Opt.fuseArgs]
  | p | e =>
    refine ⟨out, hout, ?_⟩
    simp [optionLoop, Opt.fuseArgs]
  | c optarg =>
    refine ⟨{ out with configFilename := some (some optarg) }, hout.of_eq rfl rfl, ?_⟩
    simp [optionLoop, Opt.fuseArgs, LoggedFSArgs.pushArgs]
  | l optarg =>
    refine ⟨{ out with logToSyslog := some 0, logFilename := some (some optarg) },
      hout.of_eq rfl rfl, ?_⟩
    simp [optionLoop, Opt.fuseArgs, LoggedFSArgs.pushArgs]
  | other =>
    refine ⟨out, hout, ?_⟩
    simp [optionLoop, Opt.fuseArgs, LoggedFSArgs.pushArgs]

theorem loopResult_cons {o : Opt} (h : o ≠ .h) (opts : List Opt) (got_p : Bool) :
    loopResult (o :: opts) got_p = loopResult opts (got_p || decide (o = .p)) := by
  simp only [loopResult, List.mem_cons, h.symm, false_or, Bool.or_assoc, Bool.decide_or,
    @eq_comm _ o]

/-- The loop appends what the options before `-h` hand on. -/
theorem optionLoop_fits {opts : List Opt} {got_p : Bool} (h : out.Lists entries)
    (hfits : entries.length + (loopArgs opts).length ≤ maxFuseArgs) :
    ∃ out', optionLoop opts got_p out = some (loopResult opts got_p, out') ∧
      out'.Lists (entries ++ (loopArgs opts).map some) := by
  induction opts generalizing got_p out entries with
  | nil => exact ⟨out, by simp [optionLoop, loopResult], by simpa [loopArgs, readOptions] using h⟩
  | cons o opts ih =>
    by_cases ho : o = .h
    · subst ho
      exact ⟨out, by simp [optionLoop, loopResult], by simpa [loopArgs_h] using h⟩
    · rw [loopArgs_cons ho, List.length_append] at hfits
      obtain ⟨mid, hmid, hstep⟩ := optionLoop_cons ho opts got_p h
      have hroom : entries.length + o.fuseArgs.length ≤ maxFuseArgs := by omega
      obtain ⟨pushed, hpush, hpushed⟩ := hmid.pushArgs hroom
      obtain ⟨out', hout', hlists⟩ := @ih pushed _ (got_p || decide (o = .p)) hpushed (by
        rw [List.length_append, List.length_map]
        omega)
      refine ⟨out', ?_, ?_⟩
      · rw [hstep, hpush, Option.bind_some, hout', loopResult_cons ho]
      · simpa [loopArgs_cons ho] using hlists

theorem optionLoop_full {opts : List Opt} {got_p : Bool} (h : out.Lists entries)
    (hlength : entries.length ≤ maxFuseArgs)
    (hfull : maxFuseArgs < entries.length + (loopArgs opts).length) :
    optionLoop opts got_p out = none := by
  induction opts generalizing got_p out entries with
  | nil =>
    change maxFuseArgs < entries.length + 0 at hfull
    omega
  | cons o opts ih =>
    by_cases ho : o = .h
    · subst ho
      rw [loopArgs_h, List.length_nil] at hfull
      omega
    · rw [loopArgs_cons ho, List.length_append] at hfull
      obtain ⟨mid, hmid, hstep⟩ := optionLoop_cons ho opts got_p h
      rw [hstep]
      by_cases hfits : entries.length + o.fuseArgs.length ≤ maxFuseArgs
      · obtain ⟨pushed, hpush, hpushed⟩ := hmid.pushArgs hfits
        rw [hpush, Option.bind_some]
        apply ih hpushed
        · simpa using hfits
        · rw [List.length_append, List.length_map]
          omega
      · rw [hmid.pushArgs_full hlength (by omega), Option.bind_none]

end OptionLoop

section TakeOperands
variable {rest : List CString} {out : LoggedFSArgs} {argv0 : Option CString} {args : List CString}

/-- The mount point is put into its place and the other operands behind the options. -/
theorem takeOperands_fits (h : out.Lists (argv0 :: none :: args.map some))
    (hfits : 2 + args.length + rest.tail.length ≤ maxFuseArgs) :
    ∃ out', takeOperands rest out = some (rest.head?.any isAbsolutePath, out') ∧
      (rest ≠ [] → out'.mountPoint = rest.head? ∧
        out'.Lists (argv0 :: rest.head? :: (args ++ rest.tail).map some)) := by
  cases rest with
  | nil => exact ⟨out, rfl, fun hne => absurd rfl hne⟩
  | cons mountPoint extra =>
    have hroom : (argv0 :: some mountPoint :: args.map some).length + extra.length ≤ maxFuseArgs := by
      simp only [List.length_cons, List.length_map, List.tail_cons] at hfits ⊢
      omega
    obtain ⟨out', hout, hlists⟩ := h.setMountPoint.pushArgs hroom
    refine ⟨out', ?_, fun _ => ⟨?_, by simpa using hlists⟩⟩
    · rw [takeOperands, hout]
      rfl
    · exact (LoggedFSArgs.pushArgs_same hout).mountPoint

theorem takeOperands_full (h : out.Lists (argv0 :: none :: args.map some))
    (hlength : 2 + args.length ≤ maxFuseArgs)
    (hfull : maxFuseArgs < 2 + args.length + rest.tail.length) : takeOperands rest out = none := by
  cases rest with
  | nil => exact absurd hfull (by simpa using hlength)
  | cons mountPoint extra =>
    have hroom : (argv0 :: some mountPoint :: args.map some).length ≤ maxFuseArgs := by
      simp only [List.length_cons, List.length_map]
      omega
    have hover : maxFuseArgs <
        (argv0 :: some mountPoint :: args.map some).length + extra.length := by
      simp only [List.length_cons, List.length_map, List.tail_cons] at hfull ⊢
      omega
    rw [takeOperands, h.setMountPoint.pushArgs_full hroom hover]
    rfl

end TakeOperands

section ProcessArgs
variable (posixlyCorrect : Bool) (argv : List CString)

def operands : List CString := (getopt posixlyCorrect none argv.tail).2

/-- The entries that the command line asks for. With `-h` only the options before it count. -/
def entriesNeeded : ℕ :=
  let given := givenOptions posixlyCorrect argv
  let read := readOptions given
  2 + read.count .f + 2 * read.count .p + 2 * read.count .e +
    if Opt.h ∈ given then 0
    else (if Opt.p ∈ given then 0 else 2) + (operands posixlyCorrect argv).tail.length

def mounts : Bool :=
  !(givenOptions posixlyCorrect argv).contains .h &&
    (operands posixlyCorrect argv).head?.any isAbsolutePath

def passedOn : List CString :=
  (givenOptions posixlyCorrect argv).flatMap Opt.fuseArgs ++
    commonArgs (givenOptions posixlyCorrect argv) ++ (operands posixlyCorrect argv).tail

structure GoodVector (out : LoggedFSArgs) : Prop where
  mountPoint : ∃ first, (operands posixlyCorrect argv).head? = some first ∧
    out.mountPoint = some first ∧ isAbsolutePath first = true
  lists : out.Lists (argv.head? :: out.mountPoint :: (passedOn posixlyCorrect argv).map some)
  terminated : ∃ h : out.fuseArgc < maxFuseArgs, out.fuseArgv ⟨out.fuseArgc, h⟩ = none

/-- No assertion fails, and where the result is 1 the vector is good. -/
def PassesVector : Prop :=
  ∃ res out, processArgs posixlyCorrect argv .allocated = some (res, out) ∧
    (res = true → GoodVector posixlyCorrect argv out)

theorem flatMap_fuseArgs_length (opts : List Opt) : (opts.flatMap Opt.fuseArgs).length =
    opts.count .f + 2 * opts.count .p + 2 * opts.count .e := by
  induction opts with
  | nil => rfl
  | cons o opts ih =>
    rw [List.flatMap_cons, List.length_append, ih]
    cases o <;> simp [Opt.fuseArgs] <;> omega

theorem readOptions_of_not_mem {opts : List Opt} (h : Opt.h ∉ opts) : readOptions opts = opts := by
  apply List.takeWhile_eq_self_iff.mpr
  intro o ho
  have hne : o ≠ .h := fun heq => h (heq ▸ ho)
  simpa using hne

theorem loopResult_some {opts : List Opt} (h : Opt.h ∉ opts) :
    loopResult opts false = some (decide (Opt.p ∈ opts)) := by
  simp [loopResult, h]

variable {posixlyCorrect argv}

theorem entriesNeeded_help (hh : Opt.h ∈ givenOptions posixlyCorrect argv) :
    entriesNeeded posixlyCorrect argv = 2 + (loopArgs (givenOptions posixlyCorrect argv)).length := by
  rw [loopArgs, flatMap_fuseArgs_length]
  simp only [entriesNeeded, if_pos hh]
  omega

theorem entriesNeeded_operands (hh : Opt.h ∉ givenOptions posixlyCorrect argv) :
    entriesNeeded posixlyCorrect argv =
      2 + (loopArgs (givenOptions posixlyCorrect argv)).length +
        (commonArgs (givenOptions posixlyCorrect argv)).length +
        (operands posixlyCorrect argv).tail.length := by
  have hcommon : (commonArgs (givenOptions posixlyCorrect argv)).length =
      if Opt.p ∈ givenOptions posixlyCorrect argv then 0 else 2 := by
    unfold commonArgs
    split_ifs <;> rfl
  rw [loopArgs, flatMap_fuseArgs_length, hcommon]
  simp only [entriesNeeded, if_neg hh]
  omega

theorem passedOn_eq (hh : Opt.h ∉ givenOptions posixlyCorrect argv) :
    passedOn posixlyCorrect argv = loopArgs (givenOptions posixlyCorrect argv) ++
      commonArgs (givenOptions posixlyCorrect argv) ++ (operands posixlyCorrect argv).tail := by
  rw [passedOn, loopArgs, readOptions_of_not_mem hh]

theorem processArgs_loop_full
    (hfull : maxFuseArgs < 2 + (loopArgs (givenOptions posixlyCorrect argv)).length) :
    processArgs posixlyCorrect argv .allocated = none := by
  have hloop := @optionLoop_full _ _ _ false (defaults_lists argv.head?)
    (show 2 ≤ maxFuseArgs by decide) hfull
  rw [givenOptions] at hloop
  rw [processArgs, hloop]
  rfl

/-- With `-h` nothing is handed on. -/
theorem processArgs_help (hh : Opt.h ∈ givenOptions posixlyCorrect argv)
    (hfits : 2 + (loopArgs (givenOptions posixlyCorrect argv)).length ≤ maxFuseArgs) :
    ∃ out, processArgs posixlyCorrect argv .allocated = some (false, out) := by
  obtain ⟨out, hout, -⟩ := @optionLoop_fits _ _ _ false (defaults_lists argv.head?) hfits
  refine ⟨out, ?_⟩
  rw [loopResult, if_pos hh, givenOptions] at hout
  rw [processArgs, hout]
  rfl

theorem processArgs_operands (hh : Opt.h ∉ givenOptions posixlyCorrect argv)
    (hfits : 2 + (loopArgs (givenOptions posixlyCorrect argv)).length ≤ maxFuseArgs) :
    ∃ looped : LoggedFSArgs,
      looped.Lists (argv.head? :: none :: (loopArgs (givenOptions posixlyCorrect argv)).map some) ∧
      processArgs posixlyCorrect argv .allocated =
        (looped.pushArgs (commonArgs (givenOptions posixlyCorrect argv))).bind
          (takeOperands (operands posixlyCorrect argv)) := by
  obtain ⟨looped, hlooped, hlists⟩ := @optionLoop_fits _ _ _ false (defaults_lists argv.head?) hfits
  refine ⟨looped, hlists, ?_⟩
  rw [loopResult_some hh, givenOptions] at hlooped
  rw [processArgs, hlooped]
  simp only [Option.bind_eq_bind, Option.bind_some, decide_eq_true_eq]
  rfl

/-- The same when the common arguments fit, too. -/
theorem processArgs_common (hh : Opt.h ∉ givenOptions posixlyCorrect argv)
    (hfits : 2 + (loopArgs (givenOptions posixlyCorrect argv)).length +
      (commonArgs (givenOptions posixlyCorrect argv)).length ≤ maxFuseArgs) :
    ∃ pushed : LoggedFSArgs,
      pushed.Lists (argv.head? :: none :: (loopArgs (givenOptions posixlyCorrect argv) ++
        commonArgs (givenOptions posixlyCorrect argv)).map some) ∧
      processArgs posixlyCorrect argv .allocated =
        takeOperands (operands posixlyCorrect argv) pushed := by
  obtain ⟨looped, hlooped, heq⟩ := processArgs_operands hh (by omega)
  obtain ⟨pushed, hpushed, hlists⟩ :=
    @Lists.pushArgs _ _ (commonArgs (givenOptions posixlyCorrect argv)) hlooped (by
      simp only [List.length_cons, List.length_map]
      omega)
  refine ⟨pushed, by simpa using hlists, ?_⟩
  rw [heq, hpushed, Option.bind_some]

theorem processArgs_full (hfull : maxFuseArgs < entriesNeeded posixlyCorrect argv) :
    processArgs posixlyCorrect argv .allocated = none := by
  by_cases hloop : maxFuseArgs < 2 + (loopArgs (givenOptions posixlyCorrect argv)).length
  · exact processArgs_loop_full hloop
  have hh : Opt.h ∉ givenOptions posixlyCorrect argv :=
    fun hh => hloop (entriesNeeded_help hh ▸ hfull)
  rw [entriesNeeded_operands hh] at hfull
  by_cases hcommon : maxFuseArgs < 2 + (loopArgs (givenOptions posixlyCorrect argv)).length +
      (commonArgs (givenOptions posixlyCorrect argv)).length
  · obtain ⟨looped, hlooped, heq⟩ := processArgs_operands hh (by omega)
    rw [heq, hlooped.pushArgs_full, Option.bind_none]
    · simp only [List.length_cons, List.length_map]
      omega
    · simp only [List.length_cons, List.length_map]
      omega
  · obtain ⟨pushed, hpushed, heq⟩ := processArgs_common hh (by omega)
    rw [heq]
    apply takeOperands_full hpushed
    · rw [List.length_append]
      omega
    · rw [List.length_append]
      omega

/-- A command line that fits is read to its end. -/
theorem processArgs_fits (hfits : entriesNeeded posixlyCorrect argv ≤ maxFuseArgs) :
    ∃ out, processArgs posixlyCorrect argv .allocated = some (mounts posixlyCorrect argv, out) ∧
      (mounts posixlyCorrect argv = true →
        out.mountPoint = (operands posixlyCorrect argv).head? ∧
        out.Lists (argv.head? :: out.mountPoint :: (passedOn posixlyCorrect argv).map some)) := by
  by_cases hh : Opt.h ∈ givenOptions posixlyCorrect argv
  · obtain ⟨out, hout⟩ := processArgs_help hh (entriesNeeded_help hh ▸ hfits)
    have hmounts : mounts posixlyCorrect argv = false := by simp [mounts, hh]
    refine ⟨out, hmounts ▸ hout, fun h => ?_⟩
    rw [hmounts] at h
    cases h
  · rw [entriesNeeded_operands hh] at hfits
    obtain ⟨pushed, hpushed, heq⟩ := processArgs_common hh (by omega)
    obtain ⟨out, hout, hgood⟩ := @takeOperands_fits (operands posixlyCorrect argv) _ _ _ hpushed (by
      rw [List.length_append]
      omega)
    have hmounts : mounts posixlyCorrect argv =
        (operands posixlyCorrect argv).head?.any isAbsolutePath := by
      simp [mounts, hh]
    refine ⟨out, by rw [heq, hout, hmounts], fun h => ?_⟩
    have hne : operands posixlyCorrect argv ≠ [] := by
      intro hnil
      rw [hmounts, hnil] at h
      cases h
    obtain ⟨hmount, hlists⟩ := hgood hne
    rw [passedOn_eq hh]
    exact ⟨hmount, hmount ▸ hlists⟩

theorem passedOn_length (hmounts : mounts posixlyCorrect argv = true) :
    2 + (passedOn posixlyCorrect argv).length = entriesNeeded posixlyCorrect argv := by
  have hh : Opt.h ∉ givenOptions posixlyCorrect argv := by
    intro hh
    simp [mounts, hh] at hmounts
  rw [entriesNeeded_operands hh, passedOn_eq hh, List.length_append, List.length_append]
  omega

/-- The assertions hold exactly when the entries fit into the array, and the vector
ends with a NULL exactly when one entry is left over. -/
theorem passesVector_iff (posixlyCorrect : Bool) (argv : List CString) :
    PassesVector posixlyCorrect argv ↔
      entriesNeeded posixlyCorrect argv ≤ maxFuseArgs ∧
      (mounts posixlyCorrect argv = true → entriesNeeded posixlyCorrect argv < maxFuseArgs) := by
  constructor
  · rintro ⟨res, out, hout, hgood⟩
    have hfits : entriesNeeded posixlyCorrect argv ≤ maxFuseArgs := by
      by_contra hfull
      rw [processArgs_full (by omega)] at hout
      cases hout
    refine ⟨hfits, fun hmounts => ?_⟩
    obtain ⟨out', hout', -⟩ := processArgs_fits hfits
    rw [hout] at hout'
    cases hout'
    obtain ⟨-, hlists, hlt, -⟩ := hgood hmounts
    rw [hlists.fuseArgc, List.length_cons, List.length_cons, List.length_map] at hlt
    have hlength := passedOn_length hmounts
    omega
  · rintro ⟨hfits, hroom⟩
    obtain ⟨out, hout, hgood⟩ := processArgs_fits hfits
    refine ⟨_, out, hout, fun hmounts => ?_⟩
    obtain ⟨hmount, hlists⟩ := hgood hmounts
    have hlt : out.fuseArgc < maxFuseArgs := by
      have hlength := passedOn_length hmounts
      have hneeded := hroom hmounts
      rw [hlists.fuseArgc, List.length_cons, List.length_cons, List.length_map]
      omega
    refine ⟨?_, hlists, hlt, ?_⟩
    · have habsolute := hmounts
      simp only [mounts, Bool.and_eq_true, Option.any_eq_true] at habsolute
      obtain ⟨-, first, hfirst, habsolute⟩ := habsolute
      exact ⟨first, hfirst, hmount.trans hfirst, habsolute⟩
    · rw [hlists.fuseArgv]
      exact List.getD_eq_default _ _ hlists.fuseArgc.ge

def manyOptions : List CString :=
  "distillerfs".toList :: List.replicate 16 "-e".toList ++ ["/mnt".toList]

/-- As many operands behind the mount point as the assertions let through. -/
def manyOperands : List CString :=
  "distillerfs".toList :: "/mnt".toList :: List.replicate 28 "x".toList

/-- The options overflow the array; the operands fill it and leave no place for the NULL. -/
theorem passesVector_overflow :
    ¬ PassesVector false manyOptions ∧ ¬ PassesVector false manyOperands := by
  constructor
  · rintro ⟨res, out, hout, -⟩
    have hnone : processArgs false manyOptions .allocated = none := processArgs_full (by decide)
    rw [hnone] at hout
    cases hout
  · rintro ⟨res, out, hout, hgood⟩
    have hmounts : mounts false manyOperands = true := by decide
    obtain ⟨out', hout', -⟩ := @processArgs_fits false manyOperands (by decide)
    rw [hout] at hout'
    cases hout'
    obtain ⟨-, hlists, hlt, -⟩ := hgood hmounts
    rw [hlists.fuseArgc, List.length_cons, List.length_cons, List.length_map] at hlt
    exact absurd hlt (by decide)

end ProcessArgs

end DistillerFS
