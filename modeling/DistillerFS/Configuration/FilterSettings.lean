import DistillerFS.Configuration.ParseConfig
import DistillerFS.Daemon.Gating
import DistillerFS.Daemon.Transparency

/-!
# The meaning of the [filter] settings

The value of an operation, the bits that `parse_config` stores for it and the test in
`should_log` agree for "success", "unsuccess" and "never". The value "all" stores the
bit of failures alone.
-/
namespace DistillerFS

def namesOutcome (value : CString) (o : Outcome) : Prop :=
  value = "all".toList ∨ (value = "success".toList ∧ o = .success) ∨
    (value = "unsuccess".toList ∧ o = .failure)

/-- The call hands over an event for `p` that the path filter lets through. -/
def Call.records (cfg : Settings) (c : Call) (p : CString) : Prop :=
  (⟨some p, flag c.req.op⟩ : Event) ∈ c.events cfg ∧ cfg.gFilter.admits p = true

/-- The settings mean what they say about the branches of the handlers, in every run under any
path filter; and what is recorded of an operation depends on the setting of this operation
alone. -/
def FilterMeaning (lib : TomlReader) (file : Option CString) (st : ConfigState) : Prop :=
  (∀ (filter : FilterDesc) (S : Session ⟨st.opFlags, filter⟩), ∀ c ∈ S.calls,
    consultsShouldLog c.req.op = true → ∀ p ∈ c.req.names, filter.admits p = true →
      ∀ value, configured lib file c.req.op.index = some value →
        (c.records ⟨st.opFlags, filter⟩ p ↔
          namesOutcome value (c.branch ⟨st.opFlags, filter⟩))) ∧
  (∀ (file' : Option CString) (st' : ConfigState),
    parseConfig lib file' mainDefaults = some (0, st') → ∀ (filter : FilterDesc) (c : Call),
      configured lib file c.req.op.index = configured lib file' c.req.op.index →
        c.events ⟨st.opFlags, filter⟩ = c.events ⟨st'.opFlags, filter⟩)

theorem Call.records_iff_names {cfg : Settings} {c : Call} {p : CString} :
    c.records cfg p ↔ cfg.gFilter.admits p = true ∧ p ∈ c.req.names ∧
      (consultsShouldLog c.req.op = true →
        shouldLog cfg.opFlags c.req.op (c.branch cfg).bit = true) := by
  rw [records, Call.mem_events_name, and_comm]
  simp only [true_and]

theorem Call.records_iff {cfg : Settings} {c : Call} (h : consultsShouldLog c.req.op = true)
    {p : CString} (hp : p ∈ c.req.names) (ha : cfg.gFilter.admits p = true) :
    c.records cfg p ↔ shouldLog cfg.opFlags c.req.op (c.branch cfg).bit = true := by
  rw [Call.records_iff_names]
  constructor
  · rintro ⟨_, _, hlog⟩
    exact hlog h
  · intro hlog
    exact ⟨ha, hp, fun _ => hlog⟩

/-- The stored bits admit the outcomes that the value names, for every accepted value
but "all". -/
theorem filterValue_meaning {value : CString} {v : BitVec 32} (hv : filterValue value = some v)
    (hall : value ≠ "all".toList) (o : Outcome) : v &&& o.bit ≠ 0 ↔ namesOutcome value o := by
  unfold filterValue at hv
  unfold namesOutcome
  split_ifs at hv with hs hu <;> cases hv
  · subst hs
    cases o <;> decide
  · subst hu
    cases o <;> decide
  · rename_i hn
    subst hn
    cases o <;> decide

theorem parseConfig_sameSetting {lib : TomlReader} {file file' : Option CString}
    {st st' : ConfigState} (h : parseConfig lib file mainDefaults = some (0, st))
    (h' : parseConfig lib file' mainDefaults = some (0, st')) {i : Fin qnFlags}
    (hsame : configured lib file i = configured lib file' i) : st.opFlags i = st'.opFlags i := by
  obtain ⟨hset, hdefault⟩ := parseConfig_opFlags h i
  obtain ⟨hset', hdefault'⟩ := parseConfig_opFlags h' i
  cases hc : configured lib file i with
  | none => rw [hdefault hc, hdefault' (hsame ▸ hc)]
  | some value => exact Option.some.inj ((hset value hc).symm.trans (hset' value (hsame ▸ hc)))

theorem Call.events_sameFlags {flags flags' : OpFlags} (filter : FilterDesc) {c : Call}
    (h : flags c.req.op.index = flags' c.req.op.index) :
    c.events ⟨flags, filter⟩ = c.events ⟨flags', filter⟩ := by
  have hlog (o : Outcome) : shouldLog flags c.req.op o.bit = shouldLog flags' c.req.op o.bit := by
    rw [shouldLog, shouldLog, h]
  rw [Call.events_eq, Call.events_eq, Call.branch_settings ⟨flags, filter⟩ ⟨flags', filter⟩]
  exact if_congr (by rw [hlog]) rfl rfl

def Session.single (cfg : Settings) (c : Call) : Session cfg where
  threads := [[c]]
  schedule := c.events cfg
  interleaved := by simpa using Foundations.Interleaving.single (c.events cfg)

def sampleRequest (p : CString) : FuseOps → Request
  | .opGetattr => .getattr p
  | .opAccess => .access p 0
  | .opReadlink => .readlink p 1
  | .opReaddir => .readdir p (fun _ _ => false)
  | .opMknod => .mknod p 0 0
  | .opMkdir => .mkdir p 0
  | .opSymlink => .symlink p p
  | .opUnlink => .unlink p
  | .opRmdir => .rmdir p
  | .opRename => .rename p p
  | .opLink => .link p p
  | .opChmod => .chmod p 0
  | .opChown => .chown p none none
  | .opTruncate => .truncate p 0
  | .opUtime => .utime p []
  | .opUtimens => .utimens p []
  | .opOpen => .open p 0
  | .opRead => .read p 0 0 0
  | .opWrite => .write p [] 0 0
  | .opStatfs => .statfs p
  | .opRelease => .release p 0
  | .opFsync => .fsync p 0 0
  | .opSetxattr => .setxattr p [] [] 0
  | .opGetxattr => .getxattr p [] 0
  | .opListxattr => .listxattr p 0
  | .opRemovexattr => .removexattr p []

theorem sampleRequest_op (p : CString) (op : FuseOps) : (sampleRequest p op).op = op := by
  cases op <;> rfl

theorem sampleRequest_mem (p : CString) (op : FuseOps) : p ∈ (sampleRequest p op).names := by
  cases op <;> simp [sampleRequest, Request.names]

/-- A kernel on which every call succeeds. -/
def willingAnswers : Answers := fun _ c => .ok <|
  match c with
  | .lstat _ | .statvfs _ => ([] : StatBuf)
  | .readlink _ _ => ([] : CString)
  | .opendir _ => { dp := 3, entries := [], error := none }
  | .open _ _ _ => (3 : ℕ)
  | .pread _ _ _ => ([] : CString)
  | .pwrite _ _ _ => (0 : ℕ)
  | .lgetxattr _ _ _ | .llistxattr _ _ => { len := 0, data := [] }
  | .access _ _ | .closedir _ | .close _ | .mkfifo _ _ | .mknod _ _ _ | .lchown _ _ _
  | .mkdir _ _ | .unlink _ | .rmdir _ | .symlink _ _ | .rename _ _ | .link _ _ | .chmod _ _
  | .truncate _ _ | .utime _ _ | .utimensat _ _ | .lsetxattr _ _ _ _ | .lremovexattr _ _ => ()

def sampleCall (p : CString) (op : FuseOps) : Call where
  req := sampleRequest p op
  uid := 0
  gid := 0
  answers := willingAnswers
  errno := default
  libErrno := fun _ e => e

theorem sampleCall_outcome (cfg : Settings) (p : CString) (op : FuseOps) :
    (sampleCall p op).branch cfg = .success := by
  rw [Call.branch_settings cfg ⟨fun _ => 0, ⟨[], []⟩⟩]
  cases op <;> rfl

/-- For an accepted configuration the settings mean what they say exactly when no
operation whose handler asks `should_log` is set to "all". -/
theorem filterMeaning_iff (lib : TomlReader) (file : Option CString) (st : ConfigState)
    (h : parseConfig lib file mainDefaults = some (0, st)) :
    FilterMeaning lib file st ↔ ∀ op : FuseOps, consultsShouldLog op = true →
      configured lib file op.index ≠ some "all".toList := by
  constructor
  · intro hmean op hop hall
    -- one successful call of the operation is not recorded
    let cfg : Settings := ⟨st.opFlags, ⟨[], []⟩⟩
    let c := sampleCall "/a".toList op
    have hreq : c.req.op = op := sampleRequest_op _ op
    have hmem : "/a".toList ∈ c.req.names := sampleRequest_mem _ op
    have hconsults : consultsShouldLog c.req.op = true := by rwa [hreq]
    have hadmits : cfg.gFilter.admits "/a".toList = true := rfl
    have hrec := (hmean.1 ⟨[], []⟩ (Session.single cfg c) c (List.mem_singleton_self c)
      hconsults _ hmem hadmits _ (by rw [hreq]; exact hall)).mpr (.inl rfl)
    rw [Call.records_iff hconsults hmem hadmits, hreq, sampleCall_outcome, shouldLog] at hrec
    have hflags : st.opFlags op.index = logUnsuccess ||| logUnsuccess := by
      have hv := (parseConfig_opFlags h op.index).1 _ hall
      exact (Option.some.inj hv).symm
    rw [show cfg.opFlags op.index = logUnsuccess ||| logUnsuccess from hflags] at hrec
    exact absurd hrec (by decide)
  · intro hall
    refine ⟨?_, ?_⟩
    · intro filter S c _ hop p hp ha value hvalue
      have hne : value ≠ "all".toList := fun he => hall c.req.op hop (he ▸ hvalue)
      have hv := (parseConfig_opFlags h c.req.op.index).1 value hvalue
      rw [Call.records_iff hop hp ha, shouldLog_eq_true, filterValue_meaning hv hne]
    · intro file' st' h' filter c hsame
      exact Call.events_sameFlags filter (parseConfig_sameSetting h h' hsame)

/-- A reader that delivers one [filter] table and reads basic strings without escapes. -/
def sampleReader (filter : List (CString × CString)) : TomlReader where
  parseFile := fun _ => some (.mk [] [] [("filter".toList, .mk filter [] [])])
  rtos := fun raw =>
    if raw.head? = some '"' ∧ raw.getLast? = some '"' ∧ 2 ≤ raw.length then some raw.tail.dropLast
    else none

theorem filterMeaning_open_success : ∃ st,
    parseConfig (sampleReader [("open".toList, "\"success\"".toList)]) (some []) mainDefaults =
      some (0, st) ∧
    FilterMeaning (sampleReader [("open".toList, "\"success\"".toList)]) (some []) st := by
  refine ⟨_, rfl, (filterMeaning_iff _ _ _ rfl).mpr ?_⟩
  intro op _
  cases op <;> decide

/-- The line read="all" of the sample configuration drops the successful reads. -/
theorem filterMeaning_read_all : ∃ st,
    parseConfig (sampleReader [("read".toList, "\"all\"".toList)]) (some []) mainDefaults =
      some (0, st) ∧
    ¬ FilterMeaning (sampleReader [("read".toList, "\"all\"".toList)]) (some []) st := by
  refine ⟨_, rfl, fun hmean => ?_⟩
  have hrec := (hmean.1 ⟨[], []⟩ (Session.single _ (sampleCall "/a".toList .opRead)) _
    (List.mem_singleton_self _) rfl "/a".toList (by decide) rfl "all".toList (by decide)).mpr
      (.inl rfl)
  exact absurd hrec.1 (by decide)

end DistillerFS
