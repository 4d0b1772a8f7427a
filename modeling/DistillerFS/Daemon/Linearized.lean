import DistillerFS.Daemon.Workers

/-!
# Threads as sequences of calls

The steps of the handlers mix, and the kernel and `errno` are different every time. Still the
threads do nothing that sequences of calls do not do whose events interleave: every run of the
daemon is a session. What is proved about the sessions holds for the running threads.
-/
namespace DistillerFS
open Foundations

abbrev Trace := List (Σ a : Action, a.Result)

def stored : (Σ a : Action, a.Result) → Option Event
  | ⟨.store path flag, _⟩ => some ⟨some path, flag⟩
  | _ => none

section Recorded
variable {σ α : Type} {K : Kernel σ} {filter : FilterDesc}

theorem step_recorded {pool pool₁ : Pool Action.Result (Shared σ) Errno α}
    {label : Label Action.Result} (h : Step (workers K filter) pool label pool₁) :
    pool₁.shared.handed = pool.shared.handed ++ (stored label.event).toList ∧
      pool₁.shared.table =
        (stored label.event).toList.foldl (record filter) pool.shared.table := by
  cases h with
  | @act s s' l l' before after a next r heffect =>
    obtain ⟨-, hchanges⟩ := heffect
    cases a with
    | sys c =>
      obtain ⟨rfl, rfl⟩ := hchanges
      exact ⟨(List.append_nil _).symm, rfl⟩
    | store path flag =>
      cases hchanges
      exact ⟨rfl, rfl⟩
    | lib | errno | endOfStream =>
      cases hchanges
      exact ⟨(List.append_nil _).symm, rfl⟩

/-- The table follows the events, in the order in which the threads hand them over. -/
theorem run_recorded {pool pool₁ : Pool Action.Result (Shared σ) Errno α}
    {labels : List (Label Action.Result)} (h : Run (workers K filter) pool labels pool₁) :
    pool₁.shared.handed = pool.shared.handed ++ (labels.map Label.event).filterMap stored ∧
      pool₁.shared.table =
        ((labels.map Label.event).filterMap stored).foldl (record filter) pool.shared.table := by
  induction h with
  | nil pool => exact ⟨(List.append_nil _).symm, rfl⟩
  | @cons pool pool₁ pool₂ label labels hstep hrun ih =>
    obtain ⟨hhanded, htable⟩ := step_recorded hstep
    rw [hhanded, htable] at ih
    rw [List.map_cons, List.filterMap_cons]
    cases hstored : stored label.event with
    | none => simpa [hstored] using ih
    | some e => simpa [hstored] using ih

end Recorded

section Replay
variable {α : Type} {filter : FilterDesc}

/-- A kernel that gives these results, one after the other. -/
def replay (results : List (Σ c : SysCall, Except Errno c.Out)) : Answers := fun issued c =>
  match results[issued.length]? with
  | some ⟨c', r⟩ => if h : c' = c then h ▸ r else .error eio
  | none => .error eio

theorem replay_append (results after : List (Σ c : SysCall, Except Errno c.Out)) (c : SysCall)
    (r : Except Errno c.Out) {issued : List SysCall} (h : results.length = issued.length) :
    replay (results ++ ⟨c, r⟩ :: after) issued c = r := by
  simp [replay, ← h]

def leaving (values : List Errno) : ℕ → Errno → Errno := fun n old => values[n]?.getD old

theorem leaving_append (values after : List Errno) (e old : Errno) {n : ℕ}
    (h : values.length = n) : leaving (values ++ e :: after) n old = e := by
  simp [leaving, ← h]

/-- With these results of the kernel and values of the library, behind any others, the body comes
to this value alone and hands over these events. -/
def Replayed (filter : FilterDesc) (p : Steps α) (l : Errno) (events : List Event) (value : α)
    (results : List (Σ c : SysCall, Except Errno c.Out)) (values : List Errno) : Prop :=
  ∀ results₀ values₀ (env : Env) (s : Daemon (List SysCall)), results₀.length = s.kernel.length →
    values₀.length = s.libCalls → env.gFilter = filter →
    env.libErrno = leaving (values₀ ++ values) → s.errno = l →
    (exec (oracleKernel (replay (results₀ ++ results))) p env s).1 = value ∧
      (exec (oracleKernel (replay (results₀ ++ results))) p env s).2.handed = s.handed ++ events

namespace Replayed
variable {l l₁ : Errno} {events : List Event} {value : α} {values : List Errno}
  {results : List (Σ c : SysCall, Except Errno c.Out)}

theorem sys {c : SysCall} {next : Except Errno c.Out → Steps α} {r : Except Errno c.Out}
    (hleaves : l₁ = errnoAfter r l) (h : Replayed filter (next r) l₁ events value results values) :
    Replayed filter (.act (.sys c) next) l events value (⟨c, r⟩ :: results) values := by
  intro results₀ values₀ env s hkernel hlib hfilter herrno hl
  have hcall : ((oracleKernel (replay (results₀ ++ ⟨c, r⟩ :: results))).call c s.kernel).1 = r :=
    replay_append results₀ results c r hkernel
  have hrest := h (results₀ ++ [⟨c, r⟩]) values₀ env
    (DistillerFS.sys (oracleKernel (replay (results₀ ++ ⟨c, r⟩ :: results))) c env s).2
    (by simp [hkernel, oracleKernel]) hlib hfilter herrno
    (by rw [sys_errno, hcall, hl]; exact hleaves.symm)
  rw [List.append_assoc, List.singleton_append] at hrest
  rw [exec_act, execAction, sys_result, hcall]
  exact hrest

theorem lib {next : Unit → Steps α} (h : Replayed filter (next ()) l₁ events value results values) :
    Replayed filter (.act .lib next) l events value results (l₁ :: values) := by
  intro results₀ values₀ env s hkernel hlib hfilter herrno hl
  exact h results₀ (values₀ ++ [l₁]) env (libCall env s).2 hkernel (by simp [hlib, libCall]) hfilter
    (by simpa using herrno) (by rw [libCall_errno, herrno, leaving_append _ _ _ _ hlib])

/-- The library is entered only behind the path filter. -/
theorem store {path : CString} {flag : BitVec 32} {next : Unit → Steps α}
    (hleaves : filter.admits path = false → l₁ = l)
    (h : Replayed filter (next ()) l₁ events value results values) :
    Replayed filter (.act (.store path flag) next) l (⟨some path, flag⟩ :: events) value results
      (if filter.admits path = true then l₁ :: values else values) := by
  intro results₀ values₀ env s hkernel hlib hfilter herrno hl
  have hrest : (exec (oracleKernel (replay (results₀ ++ results))) (next ()) env
        (DistillerFS.store path flag env s).2).1 = value ∧
      (exec (oracleKernel (replay (results₀ ++ results))) (next ()) env
        (DistillerFS.store path flag env s).2).2.handed =
          (DistillerFS.store path flag env s).2.handed ++ events := by
    cases hadmits : filter.admits path with
    | true =>
      rw [if_pos hadmits] at herrno
      exact h results₀ (values₀ ++ [l₁]) env _ hkernel
        (by simp [hlib, DistillerFS.store, hfilter, hadmits]) hfilter (by simpa using herrno)
        (by simp [DistillerFS.store, hfilter, hadmits, herrno, leaving_append _ _ _ _ hlib])
    | false =>
      rw [if_neg (by simp [hadmits])] at herrno
      exact h results₀ values₀ env _ hkernel (by simp [hlib, DistillerFS.store, hfilter, hadmits])
        hfilter herrno (by simp [DistillerFS.store, hfilter, hadmits, hl, hleaves hadmits])
  rw [store_handed, List.append_assoc] at hrest
  exact hrest

theorem errno {next : Errno → Steps α} (h : Replayed filter (next l) l events value results values) :
    Replayed filter (.act .errno next) l events value results values := by
  intro results₀ values₀ env s hkernel hlib hfilter herrno hl
  have hread : exec (oracleKernel (replay (results₀ ++ results))) (.act Action.errno next) env s =
      exec (oracleKernel (replay (results₀ ++ results))) (next l) env s := by
    rw [← hl]
    rfl
  rw [hread]
  exact h results₀ values₀ env s hkernel hlib hfilter herrno hl

theorem endOfStream {error : Option Errno} {next : Unit → Steps α} (hleaves : l₁ = error.getD l)
    (h : Replayed filter (next ()) l₁ events value results values) :
    Replayed filter (.act (.endOfStream error) next) l events value results values := by
  intro results₀ values₀ env s hkernel hlib hfilter herrno hl
  exact h results₀ values₀ env (DistillerFS.endOfStream error env s).2 hkernel hlib hfilter herrno
    (by rw [hleaves, ← hl]; rfl)

end Replayed

/-- What the body did among the others it does alone, when kernel and library give it what
they gave it there. The induction is on the steps. -/
theorem performs_replayed {p : Steps α} {l l' : Errno} {trace : Trace} {value : α}
    (h : p.Performs (Action.Leaves filter) l trace value l') : ∃ results values,
      Replayed filter p l (trace.filterMap stored) value results values := by
  induction h with
  | done value l => exact ⟨[], [], fun _ _ _ _ _ _ _ _ _ => ⟨rfl, (List.append_nil _).symm⟩⟩
  | @act a next l l₁ l₂ r trace value hleaves hnext ih =>
    obtain ⟨results, values, ih⟩ := ih
    cases a with
    | sys c => exact ⟨_, _, ih.sys hleaves⟩
    | lib => exact ⟨_, _, ih.lib⟩
    | store path flag => exact ⟨_, _, ih.store hleaves⟩
    | errno =>
      obtain ⟨rfl, rfl⟩ := hleaves
      exact ⟨_, _, ih.errno⟩
    | endOfStream error => exact ⟨_, _, ih.endOfStream hleaves⟩

end Replay

def Call.incoming (c : Call) : Incoming := ⟨c.req, c.uid, c.gid⟩

variable (cfg : Settings)

/-- A request that was handled among others is a call. -/
theorem call_of_performs {i : Incoming} {l l' : Errno} {trace : Trace} {reply : Reply}
    (h : (Steps.dispatch cfg.opFlags i.uid i.gid i.req).Performs (Action.Leaves cfg.gFilter) l
      trace reply l') : ∃ c : Call, c.incoming = i ∧ (c.exec cfg).1 = reply ∧
        c.events cfg = trace.filterMap stored := by
  obtain ⟨results, values, hexec⟩ := performs_replayed h
  let c : Call := ⟨i.req, i.uid, i.gid, replay results, l, leaving values⟩
  obtain ⟨hreply, hevents⟩ := hexec [] [] (c.env cfg) (Daemon.idle [] l) rfl rfl rfl rfl rfl
  have hdispatch : exec (oracleKernel (replay results)) (Steps.dispatch cfg.opFlags i.uid i.gid i.req)
      (c.env cfg) (Daemon.idle [] l) = c.exec cfg :=
    exec_dispatch (oracleKernel (replay results)) i.req (c.env cfg) (Daemon.idle [] l)
  rw [List.nil_append, hdispatch] at hreply hevents
  exact ⟨c, rfl, hreply, hevents⟩

theorem calls_of_performs {reqs : List Incoming} {l l' : Errno} {trace : Trace}
    {replies : List Reply} (h : (serve cfg.opFlags reqs).Performs (Action.Leaves cfg.gFilter) l
      trace replies l') : ∃ t : List Call, t.map Call.incoming = reqs ∧
        t.map (fun c => (c.exec cfg).1) = replies ∧
        t.flatMap (Call.events cfg) = trace.filterMap stored := by
  induction reqs generalizing l trace replies with
  | nil =>
    cases h
    exact ⟨[], rfl, rfl, rfl⟩
  | cons i reqs ih =>
    obtain ⟨trace₁, reply, l₁, trace', hhead, htail, rfl⟩ := h.bind_inv
    obtain ⟨trace₂, rest, l₂, trace₃, hrest, hdone, rfl⟩ := htail.bind_inv
    cases hdone
    obtain ⟨c, hincoming, hreply, hevents⟩ := call_of_performs cfg hhead
    obtain ⟨t, hreqs, hreplies, htrace⟩ := ih hrest
    refine ⟨c :: t, ?_, ?_, ?_⟩
    · rw [List.map_cons, hincoming, hreqs]
    · rw [List.map_cons, hreply, hreplies]
    · rw [List.flatMap_cons, hevents, htrace, List.append_nil, List.filterMap_append]

theorem threads_of_performs {threads : List (Errno × List Incoming)}
    {performed : List (Trace × List Reply)}
    (h : List.Forall₂ (fun x v => ∃ l, x.2.Performs (Action.Leaves cfg.gFilter) x.1 v.1 v.2 l)
      (threads.map (fun t => (t.1, serve cfg.opFlags t.2))) performed) :
    ∃ ts : List (List Call), ts.map (List.map Call.incoming) = threads.map Prod.snd ∧
      ts.map (List.map (fun c => (c.exec cfg).1)) = performed.map Prod.snd ∧
      ts.map (List.flatMap (Call.events cfg)) = (performed.map Prod.fst).map (List.filterMap stored) := by
  induction threads generalizing performed with
  | nil =>
    cases h
    exact ⟨[], rfl, rfl, rfl⟩
  | cons thread threads ih =>
    cases h with
    | cons hthread hrest =>
      obtain ⟨l, hthread⟩ := hthread
      obtain ⟨t, hreqs, hreplies, hevents⟩ := calls_of_performs cfg hthread
      obtain ⟨ts, hreqs', hreplies', hevents'⟩ := ih hrest
      refine ⟨t :: ts, ?_, ?_, ?_⟩
      · rw [List.map_cons, hreqs, hreqs', List.map_cons]
      · rw [List.map_cons, hreplies, hreplies', List.map_cons]
      · rw [List.map_cons, hevents, hevents', List.map_cons, List.map_cons]

variable {σ : Type} (K : Kernel σ)

/-- Whatever the threads do to their ends, on whatever kernel: there is a session with the same
requests, replies, events and table. -/
theorem workers_session {kernel : σ} {threads : List (Errno × List Incoming)}
    {labels : List (Label Action.Result)} {pool : Pool Action.Result (Shared σ) Errno (List Reply)}
    {answers : List (List Reply)}
    (hrun : Run (workers K cfg.gFilter) (mounted cfg kernel threads) labels pool)
    (hdone : pool.Finished answers) : ∃ S : Session cfg,
      S.threads.map (List.map Call.incoming) = threads.map Prod.snd ∧
      S.threads.map (List.map (fun c => (c.exec cfg).1)) = answers ∧
      S.schedule = pool.shared.handed ∧ S.table = pool.shared.table := by
  have hlocal : ∀ {a : Action} {s : Shared σ} {l : Errno} {r : a.Result} {s' : Shared σ} {l' : Errno},
      (workers K cfg.gFilter).effect a s l r s' l' → a.Leaves cfg.gFilter l r l' := fun h => h.1
  obtain ⟨performed, hanswers, hperformed, hinterleaving⟩ := hrun.interleaves hlocal hdone
  obtain ⟨ts, hreqs, hreplies, hevents⟩ := threads_of_performs cfg hperformed
  obtain ⟨hhanded, htable⟩ := run_recorded hrun
  have hschedule := hinterleaving.filterMap stored
  rw [← hevents] at hschedule
  refine ⟨⟨ts, _, hschedule⟩, hreqs, hreplies.trans hanswers, hhanded.symm, htable.symm⟩

end DistillerFS
