import DistillerFS.Daemon.Workers

/-!
# Logging does not interfere

Whatever the threads of the daemon do to the file system, they can do it under every other
configuration of the log as well: the same calls in the same order with the same results.
Their clients see the same answers then, up to the codes of failures.
-/
namespace DistillerFS
open Foundations

/-- The steps that the file system does not see. -/
def Action.silent : Action → Bool
  | .sys _ => false
  | _ => true

/-- The replies are the same, or both are failures. -/
def SameButError (r r' : Reply) : Prop :=
  r = r' ∨ ∃ e e' : Errno, r = ⟨-((e : ℕ) : ℤ), .nothing⟩ ∧ r' = ⟨-((e' : ℕ) : ℤ), .nothing⟩

namespace Steps

theorem store_quiet (path : CString) (flag : BitVec 32) : (store path flag).Quiet Action.silent :=
  .act rfl fun _ => .done _

theorem store₂_quiet (path path' : CString) (flag : BitVec 32) :
    (do store path flag; store path' flag : Steps Unit).Quiet Action.silent :=
  .act rfl fun _ => store_quiet path' flag

theorem ifLogged_quiet {opFlags : OpFlags} {op : FuseOps} {state : BitVec 32} {body : Steps Unit}
    (h : body.Quiet Action.silent) : (ifLogged opFlags op state body).Quiet Action.silent := by
  unfold ifLogged
  split_ifs
  · exact h
  · exact .done ()

variable {α β : Type} {Related : α → β → Prop}

theorem agrees_lib {p : Steps α} {q : Steps β} (h : p.Agrees Action.silent Related q) :
    Program.Agrees Action.silent Related (.act Action.lib fun _ => p) (.act Action.lib fun _ => q) :=
  .left rfl fun _ => .right rfl fun _ => h

theorem agrees_logged {opFlags opFlags' : OpFlags} {op : FuseOps} {state : BitVec 32}
    {body : Steps Unit} (hbody : body.Quiet Action.silent) {p : Steps α} {q : Steps β}
    (h : p.Agrees Action.silent Related q) :
    Program.Agrees Action.silent Related (ifLogged opFlags op state body >>= fun _ => p)
      (ifLogged opFlags' op state body >>= fun _ => q) :=
  .quiet (ifLogged_quiet hbody) (ifLogged_quiet hbody) fun _ _ => h

theorem returnErrno_agrees : returnErrno.Agrees Action.silent SameButError returnErrno :=
  .left rfl fun e => .right rfl fun e' => .done (.inr ⟨e, e', rfl, rfl⟩)

theorem agrees_done (r : Reply) :
    Program.Agrees Action.silent SameButError (.done r : Steps Reply) (.done r) :=
  .done (.inl rfl)

variable (opFlags opFlags' : OpFlags) (uid gid : ℕ)

theorem pathHandler_agrees (op : FuseOps) (f : BitVec 32) (p : CString) (call : CString → SysCall)
    (done : (path : CString) → (call path).Out → Reply) :
    (pathHandler opFlags op f p call done).Agrees Action.silent SameButError
      (pathHandler opFlags' op f p call done) := by
  apply agrees_lib
  apply Program.Agrees.both rfl
  intro res
  apply agrees_lib
  cases res with
  | error e => exact agrees_logged (store_quiet p f) returnErrno_agrees
  | ok out => exact agrees_logged (store_quiet p f) (agrees_done _)

theorem directHandler_agrees (op : FuseOps) (f : BitVec 32) (p : CString) (call : SysCall)
    (done : call.Out → Reply) :
    (directHandler opFlags op f p call done).Agrees Action.silent SameButError
      (directHandler opFlags' op f p call done) := by
  apply Program.Agrees.both rfl
  intro res
  cases res with
  | error e => exact agrees_logged (store_quiet p f) returnErrno_agrees
  | ok out => exact agrees_logged (store_quiet p f) (agrees_done _)

theorem loggedFSReaddir_agrees (p : CString)
    (filler : List (CString × StatBuf) → CString × StatBuf → Bool) :
    (loggedFSReaddir opFlags p filler).Agrees Action.silent SameButError
      (loggedFSReaddir opFlags' p filler) := by
  apply agrees_lib
  apply Program.Agrees.both rfl
  intro res
  cases res with
  | error e =>
    apply Program.Agrees.bind returnErrno_agrees
    intro r r' hr
    exact agrees_lib (agrees_logged (store_quiet p _) (.done hr))
  | ok dir =>
    apply Program.Agrees.left rfl
    intro _
    apply Program.Agrees.right rfl
    intro _
    apply Program.Agrees.both rfl
    intro _
    exact agrees_lib (agrees_logged (store_quiet p _) (agrees_done _))

theorem createNode_agrees (path : CString) (mode rdev : ℕ) :
    (createNode path mode rdev).Agrees Action.silent Eq (createNode path mode rdev) := by
  have hcall : ∀ c : SysCall, (sys c).Agrees Action.silent Eq (sys c) :=
    fun c => .both rfl fun r => .done rfl
  unfold createNode
  split_ifs
  · apply Program.Agrees.both rfl
    intro res
    cases res with
    | error e => exact .done rfl
    | ok fd => exact hcall (.close fd)
  · exact hcall (.mkfifo path mode)
  · exact hcall (.mknod path mode rdev)

theorem loggedFSMknod_agrees (p : CString) (mode rdev : ℕ) :
    (loggedFSMknod opFlags uid gid p mode rdev).Agrees Action.silent SameButError
      (loggedFSMknod opFlags' uid gid p mode rdev) := by
  apply agrees_lib
  apply Program.Agrees.bind (createNode_agrees _ mode rdev)
  rintro res _ rfl
  cases res with
  | error e => exact agrees_lib (agrees_logged (store_quiet p _) returnErrno_agrees)
  | ok _ =>
    apply Program.Agrees.both rfl
    intro _
    exact agrees_lib (agrees_logged (store_quiet p _) (agrees_done _))

theorem loggedFSMkdir_agrees (p : CString) (mode : ℕ) :
    (loggedFSMkdir opFlags uid gid p mode).Agrees Action.silent SameButError
      (loggedFSMkdir opFlags' uid gid p mode) := by
  apply agrees_lib
  apply Program.Agrees.both rfl
  intro res
  cases res with
  | error e => exact agrees_lib (agrees_logged (store_quiet p _) returnErrno_agrees)
  | ok _ =>
    apply Program.Agrees.both rfl
    intro _
    exact agrees_lib (agrees_logged (store_quiet p _) (agrees_done _))

theorem loggedFSSymlink_agrees (text p : CString) :
    (loggedFSSymlink opFlags uid gid text p).Agrees Action.silent SameButError
      (loggedFSSymlink opFlags' uid gid text p) := by
  apply agrees_lib
  apply Program.Agrees.both rfl
  intro res
  cases res with
  | error e => exact agrees_lib (agrees_logged (store₂_quiet p text _) returnErrno_agrees)
  | ok _ =>
    apply Program.Agrees.both rfl
    intro _
    exact agrees_logged (store₂_quiet p text _) (agrees_lib (agrees_done _))

theorem loggedFSRename_agrees (p q : CString) :
    (loggedFSRename opFlags p q).Agrees Action.silent SameButError (loggedFSRename opFlags' p q) := by
  apply agrees_lib
  apply agrees_lib
  apply Program.Agrees.both rfl
  intro res
  apply agrees_lib
  apply agrees_lib
  cases res with
  | error e => exact agrees_logged (store₂_quiet p q _) returnErrno_agrees
  | ok _ => exact agrees_logged (store₂_quiet p q _) (agrees_done _)

theorem loggedFSLink_agrees (p q : CString) :
    (loggedFSLink opFlags uid gid p q).Agrees Action.silent SameButError
      (loggedFSLink opFlags' uid gid p q) := by
  apply agrees_lib
  apply agrees_lib
  apply Program.Agrees.both rfl
  intro res
  apply agrees_lib
  cases res with
  | error e => exact agrees_lib (agrees_logged (store₂_quiet p q _) returnErrno_agrees)
  | ok _ =>
    apply Program.Agrees.both rfl
    intro _
    exact agrees_logged (store₂_quiet p q _) (agrees_lib (agrees_done _))

theorem loggedFSWrite_agrees (p buf : CString) (offset : ℕ) :
    (loggedFSWrite opFlags p buf offset).Agrees Action.silent SameButError
      (loggedFSWrite opFlags' p buf offset) := by
  apply agrees_lib
  apply Program.Agrees.both rfl
  intro res
  cases res with
  | error e => exact agrees_logged (store_quiet p _) returnErrno_agrees
  | ok fd =>
    apply Program.Agrees.both rfl
    intro res
    cases res with
    | error e =>
      apply Program.Agrees.bind returnErrno_agrees
      intro r r' hr
      apply agrees_logged (store_quiet p _)
      apply Program.Agrees.both rfl
      intro _
      exact agrees_lib (.done hr)
    | ok n =>
      apply agrees_logged (store_quiet p _)
      apply Program.Agrees.both rfl
      intro _
      exact agrees_lib (agrees_done _)

/-- A handler calls and answers the same under every configuration of the log. -/
theorem dispatch_agrees (req : Request) :
    (dispatch opFlags uid gid req).Agrees Action.silent SameButError
      (dispatch opFlags' uid gid req) := by
  cases req with
  | readdir p filler => exact loggedFSReaddir_agrees opFlags opFlags' p filler
  | mknod p mode rdev => exact loggedFSMknod_agrees opFlags opFlags' uid gid p mode rdev
  | mkdir p mode => exact loggedFSMkdir_agrees opFlags opFlags' uid gid p mode
  | symlink text p => exact loggedFSSymlink_agrees opFlags opFlags' uid gid text p
  | rename p q => exact loggedFSRename_agrees opFlags opFlags' p q
  | link p q => exact loggedFSLink_agrees opFlags opFlags' uid gid p q
  | write p buf offset fh => exact loggedFSWrite_agrees opFlags opFlags' p buf offset
  | release p fh =>
    exact .quiet (store_quiet p _) (store_quiet p _) fun _ _ => .both rfl fun _ => agrees_done _
  | fsync p d fh => exact .quiet (store_quiet p _) (store_quiet p _) fun _ _ => agrees_done _
  | read | setxattr | getxattr | listxattr | removexattr =>
    exact directHandler_agrees opFlags opFlags' _ _ _ _ _
  | _ => exact pathHandler_agrees opFlags opFlags' _ _ _ _ _

end Steps

theorem serve_agrees (opFlags opFlags' : OpFlags) (reqs : List Incoming) :
    (serve opFlags reqs).Agrees Action.silent (List.Forall₂ SameButError) (serve opFlags' reqs) := by
  induction reqs with
  | nil => exact .done .nil
  | cons i reqs ih =>
    apply Program.Agrees.bind (Steps.dispatch_agrees opFlags opFlags' i.uid i.gid i.req)
    intro r r' hr
    apply Program.Agrees.bind ih
    intro rs rs' hrs
    exact .done (.cons hr hrs)

variable {σ : Type} (K : Kernel σ)

/-- The steps that the file system does not see leave it as it is, and a system call depends
on nothing else. -/
theorem workers_follow (filter filter' : FilterDesc) :
    Follows Action.silent (workers K filter) (workers K filter')
      (fun s t => s.kernel = t.kernel) := by
  have hsilent : ∀ (filter : FilterDesc) {a : Action} {s s' : Shared σ} {l l' : Errno} {r : a.Result},
      a.silent = true → (workers K filter).effect a s l r s' l' → s'.kernel = s.kernel := by
    intro filter a s s' l l' r ha h
    obtain ⟨-, h⟩ := h
    cases a with
    | sys c => cases ha
    | lib | errno | store | endOfStream =>
      cases h
      rfl
  constructor
  · intro a s l r s₁ l₁ t ha h hsame
    rw [hsilent filter ha h, hsame]
  · intro a s t m r t₁ m₁ ha h hsame
    rw [hsilent filter' ha h, hsame]
  · exact workers_total K filter'
  · intro a s l r s₁ l₁ t ha h hsame m
    cases a with
    | sys c =>
      obtain ⟨-, rfl, rfl⟩ := h
      refine ⟨_, _, ⟨rfl, by rw [hsame], rfl⟩, ?_⟩
      rw [hsame]
    | lib | errno | store | endOfStream => cases ha

/-- Any run of the threads to their ends has a counterpart under any other settings: the same
calls with the same results in the same order, the same file system in the end and the same
answers to the clients, up to the codes of failures. -/
theorem logging_noninterference (cfg cfg' : Settings) {kernel : σ}
    {threads : List (Errno × List Incoming)} {labels : List (Label Action.Result)}
    {pool : Pool Action.Result (Shared σ) Errno (List Reply)} {answers : List (List Reply)}
    (hrun : Run (workers K cfg.gFilter) (mounted cfg kernel threads) labels pool)
    (hdone : pool.Finished answers) : ∃ labels' pool' answers',
      Run (workers K cfg'.gFilter) (mounted cfg' kernel threads) labels' pool' ∧
      pool'.Finished answers' ∧ visible Action.silent labels' = visible Action.silent labels ∧
      pool'.shared.kernel = pool.shared.kernel ∧
      List.Forall₂ (List.Forall₂ SameButError) answers answers' := by
  have hagree : List.Forall₂ (fun x y => x.2.Agrees Action.silent (List.Forall₂ SameButError) y.2)
      (mounted cfg kernel threads).threads (mounted cfg' kernel threads).threads := by
    apply List.forall₂_map_left_iff.mpr
    apply List.forall₂_map_right_iff.mpr
    exact List.forall₂_same.mpr fun t _ => serve_agrees cfg.opFlags cfg'.opFlags t.2
  have hsame : (mounted cfg kernel threads).shared.kernel = (mounted cfg' kernel threads).shared.kernel :=
    rfl
  obtain ⟨labels', pool', answers', hrun', hdone', hvisible, hkernel, hanswers⟩ :=
    hrun.agrees (workers_follow K cfg.gFilter cfg'.gFilter) hdone hsame hagree
  exact ⟨labels', pool', answers', hrun', hdone', hvisible, hkernel.symm, hanswers⟩

theorem logging_noninterference_two : ∃ labels pool answers labels' pool' answers',
    Run (workers denying failuresLogged.gFilter) (mounted failuresLogged [] twoThreads) labels pool ∧
    pool.Finished answers ∧
    Run (workers denying ⟨[], ["/a".toList]⟩) (mounted ⟨fun _ => 0, ⟨[], ["/a".toList]⟩⟩ [] twoThreads)
      labels' pool' ∧
    pool'.Finished answers' ∧ visible Action.silent labels' = visible Action.silent labels ∧
    pool'.shared.kernel = pool.shared.kernel ∧
    List.Forall₂ (List.Forall₂ SameButError) answers answers' := by
  obtain ⟨labels, pool, answers, hrun, hdone⟩ := Pool.completes
    (workers_total denying failuresLogged.gFilter) (mounted failuresLogged [] twoThreads)
  obtain ⟨labels', pool', answers', h⟩ := logging_noninterference denying failuresLogged
    ⟨fun _ => 0, ⟨[], ["/a".toList]⟩⟩ hrun hdone
  exact ⟨labels, pool, answers, labels', pool', answers', hrun, hdone, h⟩

end DistillerFS
