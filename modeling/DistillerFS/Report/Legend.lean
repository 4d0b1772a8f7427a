import DistillerFS.Configuration.FilterSettings
import DistillerFS.Report.Printing

/-!
# The legend and what was recorded

The legend character of an operation is compared with the outcomes that are recorded of
its calls. The bits 3 of the default and the bits 0 of "never" share the character '.'.
-/
namespace DistillerFS

def legendOf (op_flags : OpFlags) : CString :=
  (List.finRange qnFlags).map (fun i => legendChar (op_flags i))

theorem headerLines_legend (op_flags : OpFlags) (h : Hash) :
    (headerLines op_flags h)[2]? = some ('#' :: legendOf op_flags ++ "####".toList) := rfl

/-- In every run, the calls whose handler takes the branch of this outcome are recorded. -/
def RecordsOutcome (op_flags : OpFlags) (op : FuseOps) (o : Outcome) : Prop :=
  ∀ (filter : FilterDesc) (S : Session ⟨op_flags, filter⟩), ∀ c ∈ S.calls,
    c.req.op = op → c.branch ⟨op_flags, filter⟩ = o → ∀ p ∈ c.req.names,
      filter.admits p = true → c.records ⟨op_flags, filter⟩ p

/-- In every run, no call whose handler takes the branch of this outcome is recorded. -/
def OmitsOutcome (op_flags : OpFlags) (op : FuseOps) (o : Outcome) : Prop :=
  ∀ (filter : FilterDesc) (S : Session ⟨op_flags, filter⟩), ∀ c ∈ S.calls,
    c.req.op = op → c.branch ⟨op_flags, filter⟩ = o → ∀ p, ¬ c.records ⟨op_flags, filter⟩ p

/-- The legend character of the operation says which outcomes are recorded. -/
structure LegendTells (op_flags : OpFlags) (op : FuseOps) : Prop where
  all : (legendOf op_flags)[op.index.val]? = some 'a' ↔
    RecordsOutcome op_flags op .success ∧ RecordsOutcome op_flags op .failure
  success : (legendOf op_flags)[op.index.val]? = some 's' ↔
    RecordsOutcome op_flags op .success ∧ OmitsOutcome op_flags op .failure
  unsuccess : (legendOf op_flags)[op.index.val]? = some 'u' ↔
    OmitsOutcome op_flags op .success ∧ RecordsOutcome op_flags op .failure
  never : (legendOf op_flags)[op.index.val]? = some '.' ↔
    OmitsOutcome op_flags op .success ∧ OmitsOutcome op_flags op .failure

/-- Equal legends stand for the same recorded outcomes. -/
def LegendSeparates (op_flags op_flags' : OpFlags) : Prop :=
  legendOf op_flags = legendOf op_flags' → ∀ op, consultsShouldLog op = true → ∀ o,
    (RecordsOutcome op_flags op o ↔ RecordsOutcome op_flags' op o)

/-- The values that the legend cannot tell apart. -/
def ShownAlike (v v' : Option CString) : Prop :=
  v = v' ∨ (v ∈ [some "unsuccess".toList, some "all".toList] ∧
      v' ∈ [some "unsuccess".toList, some "all".toList]) ∨
    (v ∈ [none, some "never".toList] ∧ v' ∈ [none, some "never".toList])

theorem legendOf_getElem? (op_flags : OpFlags) (i : Fin qnFlags) :
    (legendOf op_flags)[i.val]? = some (legendChar (op_flags i)) := by
  simp [legendOf]

theorem legendOf_eq_iff {op_flags op_flags' : OpFlags} :
    legendOf op_flags = legendOf op_flags' ↔
      ∀ i, legendChar (op_flags i) = legendChar (op_flags' i) := by
  constructor
  · intro h i
    apply Option.some.inj
    rw [← legendOf_getElem?, ← legendOf_getElem?, h]
  · intro h
    exact List.map_congr_left fun i _ => h i

def refusingAnswers : Answers := fun _ _ => .error eperm

section Refused
variable {σ : Type} {K : Kernel σ} (hK : ∀ c k, ∃ e, (K.call c k).1 = .error e)
include hK

theorem pathHandler_refused (op : FuseOps) (f : BitVec 32) (p : CString) (call : CString → SysCall)
    (done : (path : CString) → (call path).Out → Reply) (env : Env) (s : Daemon σ) :
    (pathHandler K op f p call done env s).1.branch = .failure := by
  obtain ⟨e, he⟩ := hK (call (getRelativePath p)) s.kernel
  simp [pathHandler, he]

theorem directHandler_refused (op : FuseOps) (f : BitVec 32) (p : CString) (call : SysCall)
    (done : call.Out → Reply) (env : Env) (s : Daemon σ) :
    (directHandler K op f p call done env s).1.branch = .failure := by
  obtain ⟨e, he⟩ := hK call s.kernel
  simp [directHandler, he]

theorem createNode_refused (path : CString) (mode rdev : ℕ) (env : Env) (s : Daemon σ) :
    ∃ e, (createNode K path mode rdev env s).1 = .error e := by
  obtain ⟨e, he⟩ := hK (.open path (oCreat ||| oExcl ||| oWronly) mode) s.kernel
  obtain ⟨e', he'⟩ := hK (.mkfifo path mode) s.kernel
  obtain ⟨e'', he''⟩ := hK (.mknod path mode rdev) s.kernel
  unfold createNode
  by_cases hreg : sIsreg mode = true
  · exact ⟨e, by simp [hreg, he]⟩
  · by_cases hfifo : sIsfifo mode = true
    · exact ⟨e', by simp [hreg, hfifo, he']⟩
    · exact ⟨e'', by simp [hreg, hfifo, he'']⟩

/-- Where the kernel refuses every call, every operation that makes one fails. -/
theorem dispatch_refused {req : Request} (h : consultsShouldLog req.op = true) (env : Env)
    (s : Daemon σ) : (dispatch K req env s).1.branch = .failure := by
  cases req with
  | readdir p filler =>
    obtain ⟨e, he⟩ := hK (.opendir (getRelativePath p)) s.kernel
    simp [dispatch, loggedFSReaddir, he]
  | mknod p mode rdev =>
    obtain ⟨e, he⟩ := createNode_refused hK (getRelativePath p) mode rdev env (libCall env s).2
    simp [dispatch, loggedFSMknod, he]
  | mkdir p mode =>
    obtain ⟨e, he⟩ := hK (.mkdir (getRelativePath p) mode) s.kernel
    simp [dispatch, loggedFSMkdir, he]
  | symlink text p =>
    obtain ⟨e, he⟩ := hK (.symlink text (getRelativePath p)) s.kernel
    simp [dispatch, loggedFSSymlink, he]
  | rename p q =>
    obtain ⟨e, he⟩ := hK (.rename (getRelativePath p) (getRelativePath q)) s.kernel
    simp [dispatch, loggedFSRename, he]
  | link p q =>
    obtain ⟨e, he⟩ := hK (.link (getRelativePath p) (getRelativePath q)) s.kernel
    simp [dispatch, loggedFSLink, he]
  | write p buf offset fh =>
    obtain ⟨e, he⟩ := hK (.open (getRelativePath p) oWronly 0) s.kernel
    simp [dispatch, loggedFSWrite, he]
  | release | fsync => cases h
  | read | setxattr | getxattr | listxattr | removexattr => exact directHandler_refused hK _ _ _ _ _ _ _
  | _ => exact pathHandler_refused hK _ _ _ _ _ _ _

end Refused

def sampleOutcome (p : CString) (op : FuseOps) : Outcome → Call
  | .success => sampleCall p op
  | .failure => { sampleCall p op with answers := refusingAnswers }

theorem sampleOutcome_op (p : CString) (op : FuseOps) (o : Outcome) :
    (sampleOutcome p op o).req.op = op := by
  cases o <;> exact sampleRequest_op p op

theorem sampleOutcome_mem (p : CString) (op : FuseOps) (o : Outcome) :
    p ∈ (sampleOutcome p op o).req.names := by
  cases o <;> exact sampleRequest_mem p op

theorem sampleOutcome_outcome (cfg : Settings) (p : CString) {op : FuseOps}
    (hop : consultsShouldLog op = true) (o : Outcome) : (sampleOutcome p op o).branch cfg = o := by
  cases o with
  | success => exact sampleCall_outcome cfg p op
  | failure =>
    apply dispatch_refused
    · exact fun _ _ => ⟨eperm, rfl⟩
    · rwa [sampleOutcome_op]

section Recorded
variable {op_flags : OpFlags} {op : FuseOps} {o : Outcome}

/-- What is recorded of an outcome shows on any one call with it. -/
theorem records_sampleOutcome (hop : consultsShouldLog op = true) :
    (sampleOutcome "/a".toList op o).records ⟨op_flags, ⟨[], []⟩⟩ "/a".toList ↔
      op_flags op.index &&& o.bit ≠ 0 := by
  have hreq := sampleOutcome_op "/a".toList op o
  have hconsults : consultsShouldLog (sampleOutcome "/a".toList op o).req.op = true := by rwa [hreq]
  rw [Call.records_iff hconsults (sampleOutcome_mem _ op o) rfl, hreq, shouldLog_eq_true,
    sampleOutcome_outcome _ _ hop]

theorem recordsOutcome_iff (hop : consultsShouldLog op = true) :
    RecordsOutcome op_flags op o ↔ op_flags op.index &&& o.bit ≠ 0 := by
  constructor
  · intro h
    apply (records_sampleOutcome hop).mp
    exact h ⟨[], []⟩ (Session.single _ (sampleOutcome "/a".toList op o)) _
      (List.mem_singleton_self _) (sampleOutcome_op _ op o) (sampleOutcome_outcome _ _ hop o) _
      (sampleOutcome_mem _ op o) rfl
  · intro hbit filter S c _ hreq hout p hp ha
    rw [Call.records_iff (by rwa [hreq]) hp ha, hreq, hout, shouldLog_eq_true]
    exact hbit

theorem omitsOutcome_iff (hop : consultsShouldLog op = true) :
    OmitsOutcome op_flags op o ↔ ¬ op_flags op.index &&& o.bit ≠ 0 := by
  constructor
  · intro h hbit
    exact h ⟨[], []⟩ (Session.single _ (sampleOutcome "/a".toList op o)) _
      (List.mem_singleton_self _) (sampleOutcome_op _ op o) (sampleOutcome_outcome _ _ hop o) _
      ((records_sampleOutcome hop).mpr hbit)
  · intro hbit filter S c _ hreq hout p hrec
    have hlog := (Call.records_iff_names.mp hrec).2.2 (by rwa [hreq])
    rw [hreq, hout, shouldLog_eq_true] at hlog
    exact hbit hlog

end Recorded

def storedBits (v : Option CString) : BitVec 32 :=
  if v = none then logSuccess ||| logUnsuccess
  else if v = some "success".toList then logSuccess
  else if v = some "never".toList then 0
  else logUnsuccess

abbrev AcceptedValue (v : Option CString) : Prop :=
  v = none ∨ v = some "success".toList ∨ v = some "unsuccess".toList ∨ v = some "all".toList ∨
    v = some "never".toList

/-- One configuration leaves the operation at its default, the other sets it to "never". -/
abbrev DefaultAgainstNever (v v' : Option CString) : Prop :=
  (v = none ∧ v' = some "never".toList) ∨ (v = some "never".toList ∧ v' = none)

theorem parseConfig_stored {lib : TomlReader} {file : Option CString} {st : ConfigState}
    (h : parseConfig lib file mainDefaults = some (0, st)) (i : Fin qnFlags) :
    st.opFlags i = storedBits (configured lib file i) ∧ AcceptedValue (configured lib file i) := by
  obtain ⟨hset, hdefault⟩ := parseConfig_opFlags h i
  cases hc : configured lib file i with
  | none => exact ⟨hdefault hc, .inl rfl⟩
  | some value =>
    have hv := hset value hc
    unfold filterValue at hv
    split_ifs at hv with hs hu ha hn <;> rw [← Option.some.inj hv]
    · exact ⟨by rw [hs]; rfl, by simp [AcceptedValue, hs]⟩
    · exact ⟨by rw [hu]; rfl, by simp [AcceptedValue, hu]⟩
    · exact ⟨by rw [ha]; rfl, by simp [AcceptedValue, ha]⟩
    · exact ⟨by rw [hn]; rfl, by simp [AcceptedValue, hn]⟩

theorem legendChar_storedBits {v v' : Option CString} (hv : AcceptedValue v)
    (hv' : AcceptedValue v') :
    legendChar (storedBits v) = legendChar (storedBits v') ↔ ShownAlike v v' := by
  unfold ShownAlike
  rcases hv with rfl | rfl | rfl | rfl | rfl <;>
    rcases hv' with rfl | rfl | rfl | rfl | rfl <;> decide

theorem Outcome.forall_iff {P : Outcome → Prop} : (∀ o, P o) ↔ P .success ∧ P .failure := by
  constructor
  · exact fun h => ⟨h .success, h .failure⟩
  · rintro ⟨hs, hf⟩ o
    cases o with
    | success => exact hs
    | failure => exact hf

theorem storedBits_outcomes {v v' : Option CString} (hv : AcceptedValue v)
    (hv' : AcceptedValue v') (halike : ShownAlike v v') :
    (∀ o : Outcome, storedBits v &&& o.bit ≠ 0 ↔ storedBits v' &&& o.bit ≠ 0) ↔
      ¬ DefaultAgainstNever v v' := by
  rw [Outcome.forall_iff]
  revert halike
  unfold ShownAlike
  rcases hv with rfl | rfl | rfl | rfl | rfl <;>
    rcases hv' with rfl | rfl | rfl | rfl | rfl <;> decide

/-- The legend character of a word says which outcomes its bits admit. -/
def BitsTell (w : BitVec 32) : Prop :=
  (legendChar w = 'a' ↔ w &&& logSuccess ≠ 0 ∧ w &&& logUnsuccess ≠ 0) ∧
  (legendChar w = 's' ↔ w &&& logSuccess ≠ 0 ∧ ¬ w &&& logUnsuccess ≠ 0) ∧
  (legendChar w = 'u' ↔ ¬ w &&& logSuccess ≠ 0 ∧ w &&& logUnsuccess ≠ 0) ∧
  (legendChar w = '.' ↔ ¬ w &&& logSuccess ≠ 0 ∧ ¬ w &&& logUnsuccess ≠ 0)

theorem legendTells_bits {op_flags : OpFlags} {op : FuseOps} (hop : consultsShouldLog op = true) :
    LegendTells op_flags op ↔ BitsTell (op_flags op.index) := by
  have hchar (c : Char) : (legendOf op_flags)[op.index.val]? = some c ↔
      legendChar (op_flags op.index) = c := by
    rw [legendOf_getElem?, Option.some.injEq]
  have hrec (o : Outcome) : RecordsOutcome op_flags op o ↔ op_flags op.index &&& o.bit ≠ 0 :=
    recordsOutcome_iff hop
  have homit (o : Outcome) : OmitsOutcome op_flags op o ↔ ¬ op_flags op.index &&& o.bit ≠ 0 :=
    omitsOutcome_iff hop
  constructor
  · rintro ⟨hall, hsuccess, hunsuccess, hnever⟩
    simp only [hchar, hrec, homit, Outcome.bit] at hall hsuccess hunsuccess hnever
    exact ⟨hall, hsuccess, hunsuccess, hnever⟩
  · rintro ⟨hall, hsuccess, hunsuccess, hnever⟩
    apply LegendTells.mk
    all_goals simpa only [hchar, hrec, homit, Outcome.bit]

theorem legendTells_iff {lib : TomlReader} {file : Option CString} {st : ConfigState}
    (h : parseConfig lib file mainDefaults = some (0, st)) {op : FuseOps}
    (hop : consultsShouldLog op = true) :
    LegendTells st.opFlags op ↔ configured lib file op.index = some "success".toList ∨
      configured lib file op.index = some "never".toList := by
  obtain ⟨hbits, haccepted⟩ := parseConfig_stored h op.index
  rw [legendTells_bits hop, hbits]
  unfold BitsTell
  rcases haccepted with hv | hv | hv | hv | hv <;> rw [hv] <;> decide

theorem legendSeparates_iff {lib lib' : TomlReader} {file file' : Option CString}
    {st st' : ConfigState} (h : parseConfig lib file mainDefaults = some (0, st))
    (h' : parseConfig lib' file' mainDefaults = some (0, st')) :
    LegendSeparates st.opFlags st'.opFlags ↔
      ((∀ i, ShownAlike (configured lib file i) (configured lib' file' i)) →
        ∀ op, consultsShouldLog op = true →
          ¬ DefaultAgainstNever (configured lib file op.index) (configured lib' file' op.index)) := by
  have hshown : legendOf st.opFlags = legendOf st'.opFlags ↔
      ∀ i, ShownAlike (configured lib file i) (configured lib' file' i) := by
    rw [legendOf_eq_iff]
    apply forall_congr'
    intro i
    obtain ⟨hbits, hv⟩ := parseConfig_stored h i
    obtain ⟨hbits', hv'⟩ := parseConfig_stored h' i
    rw [hbits, hbits', legendChar_storedBits hv hv']
  rw [LegendSeparates, hshown]
  apply imp_congr_right
  intro halike
  apply forall₂_congr
  intro op hop
  obtain ⟨hbits, hv⟩ := parseConfig_stored h op.index
  obtain ⟨hbits', hv'⟩ := parseConfig_stored h' op.index
  rw [← storedBits_outcomes hv hv' (halike op.index)]
  simp only [recordsOutcome_iff hop, hbits, hbits']

/-- For accepted configurations: the legend tells what is recorded of every operation that
asks `should_log` exactly when all of these are set to "success" or "never"; and equal
legends stand for equal recordings exactly when no operation has its default in one
configuration and "never" in the other. -/
theorem legend_exact (lib lib' : TomlReader) (file file' : Option CString) (st st' : ConfigState)
    (h : parseConfig lib file mainDefaults = some (0, st))
    (h' : parseConfig lib' file' mainDefaults = some (0, st')) :
    ((∀ op, consultsShouldLog op = true → LegendTells st.opFlags op) ↔
      ∀ op, consultsShouldLog op = true → configured lib file op.index = some "success".toList ∨
        configured lib file op.index = some "never".toList) ∧
    (LegendSeparates st.opFlags st'.opFlags ↔
      ((∀ i, ShownAlike (configured lib file i) (configured lib' file' i)) →
        ∀ op, consultsShouldLog op = true →
          ¬ DefaultAgainstNever (configured lib file op.index) (configured lib' file' op.index))) := by
  constructor
  · exact forall₂_congr fun op hop => legendTells_iff h hop
  · exact legendSeparates_iff h h'

def successReader : TomlReader :=
  sampleReader (opNamesArray.map (fun name => (name, "\"success\"".toList)))

theorem legend_success : ∃ st, parseConfig successReader (some []) mainDefaults = some (0, st) ∧
    (∀ op, consultsShouldLog op = true → LegendTells st.opFlags op) ∧
    LegendSeparates st.opFlags mainDefaults.opFlags := by
  refine ⟨_, rfl, ?_⟩
  have hexact := legend_exact successReader successReader (some []) none _ mainDefaults rfl rfl
  have hvalue : ∀ i, configured successReader (some []) i = some "success".toList := by decide
  constructor
  · exact hexact.1.mpr fun op _ => .inl (hvalue op.index)
  · apply hexact.2.mpr
    rintro _ op _ (⟨hdefault, _⟩ | ⟨hnever, _⟩)
    · rw [hvalue] at hdefault
      cases hdefault
    · rw [hvalue] at hnever
      exact absurd hnever (by decide)

/-- Without a configuration every operation is recorded with both outcomes under '.', and
opens that are never recorded print the same legend. -/
theorem legend_default_ambiguous :
    (parseConfig successReader none mainDefaults = some (0, mainDefaults) ∧
      ¬ LegendTells mainDefaults.opFlags .opOpen) ∧
    ∃ st, parseConfig (sampleReader [("open".toList, "\"never\"".toList)]) (some []) mainDefaults =
        some (0, st) ∧ ¬ LegendSeparates mainDefaults.opFlags st.opFlags := by
  refine ⟨⟨rfl, ?_⟩, _, rfl, ?_⟩
  · rw [legendTells_bits rfl, BitsTell]
    decide
  · intro hsep
    have hsame := hsep (by decide) .opOpen rfl .success
    rw [recordsOutcome_iff rfl, recordsOutcome_iff rfl] at hsame
    exact absurd hsame (by decide)

end DistillerFS
