import DistillerFS.Daemon.Branches
import DistillerFS.Daemon.Session

/-!
# Gating of the handlers by `op_flags`

Twenty-four of the twenty-six handlers ask `should_log` before they store, and all but that of
readdir ask it about the outcome of their system calls. The handlers of release and fsync store
their path whatever `op_flags` says.
-/
namespace DistillerFS

/-- The call hands over one event for each name, with the bit of its own operation,
when `op_flags[op]` has the bit of the outcome of its system calls, and none otherwise. -/
def UniformlyGated {σ : Type} (K : Kernel σ) (env : Env) (s : Daemon σ) (req : Request) : Prop :=
  ∃ new, (dispatch K req env s).2.handed = s.handed ++ new ∧
    new.Perm (if env.opFlags req.op.index &&&
        (passthrough K env.uid env.gid s.kernel req).outcome.bit ≠ 0
      then req.names.map (fun n => ⟨some n, flag req.op⟩) else [])

/-- Of release and fsync, the outcome of their calls is to be logged. Of the others, an error
that goes unnoticed is to be logged if and only if a success is. -/
def GateRespected {σ : Type} (K : Kernel σ) (env : Env) (k : σ) (req : Request) : Prop :=
  if consultsShouldLog req.op = true then
    Unnoticed K k req →
      (env.opFlags req.op.index &&& logSuccess ≠ 0 ↔ env.opFlags req.op.index &&& logUnsuccess ≠ 0)
  else env.opFlags req.op.index &&& (passthrough K env.uid env.gid k req).outcome.bit ≠ 0

theorem shouldLog_eq_true {op_flags : OpFlags} {op : FuseOps} {state : BitVec 32} :
    shouldLog op_flags op state = true ↔ op_flags op.index &&& state ≠ 0 := by
  simp [shouldLog]

theorem Request.names_ne_nil (req : Request) : req.names ≠ [] := by
  cases req <;> simp [names]

section Exact
variable {σ : Type} (K : Kernel σ) {env : Env} {s : Daemon σ} {req : Request}

/-- What has been handed over is all names or none, so the gate is a matter of that alone. -/
theorem uniformlyGated_of_handed {stored : Prop} [Decidable stored]
    (hhanded : (dispatch K req env s).2.handed = s.handed ++ if stored then req.events else []) :
    UniformlyGated K env s req ↔ (stored ↔
      env.opFlags req.op.index &&& (passthrough K env.uid env.gid s.kernel req).outcome.bit ≠ 0) := by
  have hnil : req.names.map (fun n => (⟨some n, flag req.op⟩ : Event)) ≠ [] :=
    fun h => req.names_ne_nil (List.map_eq_nil_iff.mp h)
  constructor
  · rintro ⟨new, hnew, hperm⟩
    rw [hhanded, List.append_cancel_left_eq] at hnew
    subst hnew
    by_cases hstored : stored
    · rw [if_pos hstored] at hperm
      refine ⟨fun _ => ?_, fun _ => hstored⟩
      intro hbit
      rw [if_neg (not_not.mpr hbit)] at hperm
      exact hnil (req.events_perm.symm.trans hperm).eq_nil
    · rw [if_neg hstored] at hperm
      refine ⟨fun h => absurd h hstored, fun hbit => ?_⟩
      rw [if_pos hbit] at hperm
      exact absurd hperm.symm.eq_nil hnil
  · intro h
    refine ⟨_, hhanded, ?_⟩
    by_cases hstored : stored
    · rw [if_pos hstored, if_pos (h.mp hstored)]
      exact req.events_perm
    · rw [if_neg hstored, if_neg (fun hbit => hstored (h.mpr hbit))]

/-- The gate of the handlers that ask: right unless an unnoticed error makes a difference. -/
theorem uniformlyGated_asking (h : consultsShouldLog req.op = true) : UniformlyGated K env s req ↔
    (Unnoticed K s.kernel req →
      (env.opFlags req.op.index &&& logSuccess ≠ 0 ↔
        env.opFlags req.op.index &&& logUnsuccess ≠ 0)) := by
  rw [uniformlyGated_of_handed K (dispatch_gated K h env s), shouldLog_eq_true]
  by_cases hunnoticed : Unnoticed K s.kernel req
  · obtain ⟨hbranch, houtcome⟩ := dispatch_unnoticed K hunnoticed env
    rw [hbranch, houtcome]
    exact ⟨fun h _ => h, fun h => h hunnoticed⟩
  · rw [dispatch_branches K hunnoticed env]
    exact ⟨fun _ h => absurd h hunnoticed, fun _ => Iff.rfl⟩

theorem uniformlyGated_iff (K : Kernel σ) (env : Env) (s : Daemon σ) (req : Request) :
    UniformlyGated K env s req ↔ GateRespected K env s.kernel req := by
  unfold GateRespected
  by_cases h : consultsShouldLog req.op = true
  · rw [if_pos h]
    exact uniformlyGated_asking K h
  · rw [if_neg h]
    have hhanded : (dispatch K req env s).2.handed = s.handed ++ if True then req.events else [] := by
      rw [if_pos trivial]
      exact (dispatch_ungated K (Bool.eq_false_of_not_eq_true h) env s).1
    rw [uniformlyGated_of_handed K hhanded, true_iff]

end Exact

/-- In a session whose calls respect the gate, an operation that logs no outcome
has its bit in no entry. -/
theorem Session.silent_operation {cfg : Settings} (S : Session cfg)
    (hgate : ∀ c ∈ S.calls, GateRespected (oracleKernel c.answers) (c.env cfg) [] c.req)
    {op : FuseOps} (hop : cfg.opFlags op.index = 0) {p : CString} {v : LfsCount}
    (hv : S.table.lookup p = some v) : v.flags.getLsbD op.index.val = false := by
  rw [← Bool.not_eq_true, S.table_flag_iff hv op]
  rintro ⟨_, c, hc, rfl, _, hlog⟩
  have hzero : (c.env cfg).opFlags c.req.op.index = 0 := hop
  have hconsults : consultsShouldLog c.req.op = true := by
    by_contra hasks
    have hbit := hgate c hc
    rw [GateRespected, if_neg hasks, hzero] at hbit
    simp at hbit
  have hset := shouldLog_eq_true.mp (hlog hconsults)
  simp [hop] at hset

/-- The gate holds of exactly the calls that respect it, in every state, and in every
session of such calls the silent operations leave no bit. -/
theorem gating_exact {σ : Type} (K : Kernel σ) (env : Env) (s : Daemon σ) (req : Request) :
    (UniformlyGated K env s req ↔ GateRespected K env s.kernel req) ∧
    (∀ (cfg : Settings) (S : Session cfg),
      (∀ c ∈ S.calls, GateRespected (oracleKernel c.answers) (c.env cfg) [] c.req) →
      ∀ op : FuseOps, cfg.opFlags op.index = 0 → ∀ p v, S.table.lookup p = some v →
        v.flags.getLsbD op.index.val = false) := by
  refine ⟨uniformlyGated_iff K env s req, ?_⟩
  intro cfg S hgate op hop p v hv
  exact S.silent_operation hgate hop hv

/-- Releasing a file with every operation set to "never" still stores its path. -/
theorem gating_release_ungated :
    ¬ UniformlyGated (oracleKernel (fun _ _ => .error eio))
      { opFlags := fun _ => 0, gFilter := ⟨[], []⟩, uid := 0, gid := 0, libErrno := fun _ e => e }
      (Daemon.idle [] default) (.release "/a".toList 3) := by
  rintro ⟨new, hnew, hperm⟩
  have hnil : new = [] := hperm.eq_nil
  subst hnil
  exact absurd hnew (by decide)

end DistillerFS
