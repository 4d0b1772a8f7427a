import DistillerFS.Configuration.FilterSettings

/-!
# The keys of the access table

A key should be an operand of some call and be counted once for each such call. The
handlers of symlink, rename and link store two strings each; the text of a symbolic link
is no operand, and one path named twice is counted twice.
-/
namespace DistillerFS
open Foundations

def Call.logged (cfg : Settings) (c : Call) : Bool :=
  !consultsShouldLog c.req.op || shouldLog cfg.opFlags c.req.op (c.branch cfg).bit

def Session.operandCalls {cfg : Settings} (S : Session cfg) (p : CString) : ℕ :=
  S.calls.countP (fun c => c.logged cfg && decide (p ∈ c.req.operands))

/-- At every moment each key is an absolute operand of some call, and at the end each
entry has been counted once for each recorded call with this operand. -/
structure KeysRelative {cfg : Settings} (S : Session cfg) : Prop where
  operand : ∀ es, es <+: S.schedule → ∀ p ∈ recordAll cfg.gFilter es,
    p.head? = some '/' ∧ ∃ c ∈ S.calls, p ∈ c.req.operands
  once : ∀ p v, S.table.lookup p = some v →
    (admittedEvents cfg.gFilter p S.schedule).length = S.operandCalls p ∧
      v.count = BitVec.ofNat 32 (S.operandCalls p)

/-- The request makes a handler store `p` as the text of a link, or twice. -/
def Request.Misfiles (req : Request) (p : CString) : Prop :=
  (∃ newName, req = .symlink p newName) ∨ req = .rename p p ∨ req = .link p p

theorem Request.operands_subset (req : Request) : req.operands ⊆ req.names := by
  cases req with
  | symlink text newName => exact List.subset_cons_self text [newName]
  | _ => exact List.Subset.refl _

theorem Request.operand_le_count (req : Request) (p : CString) :
    (if p ∈ req.operands then 1 else 0) ≤ req.names.count p := by
  split_ifs with h
  · exact List.count_pos_iff.mpr (req.operands_subset h)
  · exact Nat.zero_le _

/-- A name is handed over once for each operand it is, unless the request misfiles it. -/
theorem Request.count_eq_iff (req : Request) (p : CString) :
    req.names.count p = (if p ∈ req.operands then 1 else 0) ↔ ¬ req.Misfiles p := by
  cases req with
  | symlink text newName =>
    have hmis : (Request.symlink text newName).Misfiles p ↔ text = p := by
      simp [Misfiles]
    rw [hmis]
    by_cases htext : text = p
    · by_cases hnew : newName = p <;> simp [names, operands, htext, hnew, @eq_comm _ p]
    · simp [names, operands, List.count_cons, htext, @eq_comm _ p]
  | rename orig_from orig_to | link orig_from orig_to =>
    simp only [Misfiles, names, operands, List.count_cons, List.count_nil, beq_iff_eq,
      List.mem_cons, List.not_mem_nil]
    by_cases hfrom : orig_from = p <;> by_cases hto : orig_to = p <;>
      simp [hfrom, hto, @eq_comm _ p]
  | _ => simp [Misfiles, names, operands, List.count_cons, @eq_comm _ p]

theorem Call.events_logged (cfg : Settings) (c : Call) :
    c.events cfg = if c.logged cfg = true then c.req.events else [] := by
  have hlogged : c.logged cfg = true ↔ (consultsShouldLog c.req.op = true →
      shouldLog cfg.opFlags c.req.op (c.branch cfg).bit = true) := by
    cases h : consultsShouldLog c.req.op <;> simp [logged, h]
  rw [Call.events_eq]
  exact if_congr hlogged.symm rfl rfl

/-- How often one call counts an admitted path. -/
theorem Call.countP_events {cfg : Settings} {p : CString} (ha : cfg.gFilter.admits p = true)
    (c : Call) : (c.events cfg).countP (Event.admitted cfg.gFilter p) =
      if c.logged cfg = true then c.req.names.count p else 0 := by
  rw [Call.events_logged]
  split_ifs
  · rw [c.req.events_perm.countP_eq, List.countP_map]
    apply List.countP_congr
    intro n _
    simp [Event.admitted, ha, @eq_comm _ n]
  · rfl

theorem Call.operand_le_countP {cfg : Settings} {p : CString} (ha : cfg.gFilter.admits p = true)
    (c : Call) : (if (c.logged cfg && decide (p ∈ c.req.operands)) = true then 1 else 0) ≤
      (c.events cfg).countP (Event.admitted cfg.gFilter p) := by
  rw [Call.countP_events ha]
  have hle := c.req.operand_le_count p
  cases c.logged cfg with
  | true => simpa using hle
  | false => simp

section Session
variable {cfg : Settings} (S : Session cfg)

/-- An entry has been counted once for each operand when no recorded call misfiles its path. -/
theorem Session.counted_iff {p : CString} (ha : cfg.gFilter.admits p = true) :
    (admittedEvents cfg.gFilter p S.schedule).length = S.operandCalls p ↔
      ∀ c ∈ S.calls, c.logged cfg = true → ¬ c.req.Misfiles p := by
  have hperm : S.schedule.Perm (S.calls.flatMap (Call.events cfg)) := by
    have hflat := S.interleaved.perm_flatten
    rw [calls, List.flatten_eq_flatMap, List.flatMap_assoc]
    rwa [← List.flatMap_def] at hflat
  rw [admittedEvents, ← List.countP_eq_length_filter, hperm.countP_eq, operandCalls,
    countP_flatMap_eq_iff (fun c _ => Call.operand_le_countP ha c)]
  apply forall₂_congr
  intro c _
  rw [Call.countP_events ha]
  cases c.logged cfg with
  | true => simpa using c.req.count_eq_iff p
  | false => simp

/-- The keys are mount-relative operands, each counted once, exactly when no recorded call
misfiles an admitted path: no link text passes the filter, and no rename or link names one
admitted path twice. -/
theorem keysRelative_iff (habs : ∀ c ∈ S.calls, ∀ o ∈ c.req.operands, o.head? = some '/') :
    KeysRelative S ↔ ∀ c ∈ S.calls, c.logged cfg = true →
      ∀ p, cfg.gFilter.admits p = true → ¬ c.req.Misfiles p := by
  constructor
  · intro hkeys c hc hlogged p ha hmis
    have hname : p ∈ c.req.names := by
      rcases hmis with ⟨newName, hreq⟩ | hreq | hreq <;> simp [hreq, Request.names]
    have hkey : p ∈ S.table := by
      refine S.mem_table.mpr ⟨ha, c, hc, hname, ?_⟩
      intro hop
      simpa [Call.logged, hop] using hlogged
    obtain ⟨v, hv⟩ := Finmap.mem_iff.mp hkey
    exact (S.counted_iff ha).mp (hkeys.once p v hv).1 c hc hlogged hmis
  · intro hgood
    constructor
    · intro es hes p hp
      obtain ⟨e, he, hpath, ha⟩ := mem_recordAll.mp hp
      obtain ⟨c, hc, hce⟩ := S.mem_schedule.mp (hes.subset he)
      have hlogged : c.logged cfg = true := by
        rw [Call.events_logged] at hce
        by_contra hnot
        rw [if_neg hnot] at hce
        cases hce
      obtain ⟨_, n, hn, rfl⟩ := Call.mem_events.mp hce
      cases hpath
      have hcount := (c.req.count_eq_iff p).mpr (hgood c hc hlogged p ha)
      have hoperand : p ∈ c.req.operands := by
        by_contra hnot
        rw [if_neg hnot] at hcount
        exact List.count_eq_zero.mp hcount hn
      exact ⟨habs c hc p hoperand, c, hc, hoperand⟩
    · intro p v hv
      obtain ⟨e, he, hpath, ha⟩ := mem_recordAll.mp (Finmap.mem_iff.mpr ⟨v, hv⟩)
      have hcounted := (S.counted_iff ha).mpr fun c hc hlogged => hgood c hc hlogged p ha
      refine ⟨hcounted, ?_⟩
      rw [(recordAll_lookup_some hv).2.1, hcounted]

end Session

theorem keysRelative_open : KeysRelative
    (Session.single ⟨fun _ => logSuccess, ⟨[], []⟩⟩ (sampleCall "/a".toList .opOpen)) := by
  apply (keysRelative_iff _ _).mpr
  · intro c hc _ p _
    rw [List.mem_singleton.mp hc]
    rintro (⟨newName, hreq⟩ | hreq | hreq) <;> cases hreq
  · intro c hc o ho
    rw [List.mem_singleton.mp hc] at ho
    rw [List.mem_singleton.mp ho]
    rfl

/-- The link of the repository's own test: "ln -s ./normal/punda.txt punda.txt". -/
def pundaLink : Call :=
  { sampleCall [] .opSymlink with req := .symlink "./normal/punda.txt".toList "/punda.txt".toList }

theorem keys_symlink :
    (∀ c ∈ (Session.single ⟨fun _ => logSuccess, ⟨[], []⟩⟩ pundaLink).calls,
      ∀ o ∈ c.req.operands, o.head? = some '/') ∧
    ¬ KeysRelative (Session.single ⟨fun _ => logSuccess, ⟨[], []⟩⟩ pundaLink) := by
  constructor
  · intro c hc o ho
    rw [List.mem_singleton.mp hc] at ho
    rw [List.mem_singleton.mp ho]
    rfl
  · intro hkeys
    have hkey : "./normal/punda.txt".toList ∈
        recordAll ⟨[], []⟩ (pundaLink.events ⟨fun _ => logSuccess, ⟨[], []⟩⟩) := by
      apply mem_recordAll.mpr
      exact ⟨⟨some "./normal/punda.txt".toList, flag .opSymlink⟩, by decide, rfl, rfl⟩
    have hhead := (hkeys.operand _ (List.prefix_refl _) _ hkey).1
    exact absurd hhead (by decide)

end DistillerFS
