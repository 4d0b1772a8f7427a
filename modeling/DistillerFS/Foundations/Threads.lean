import DistillerFS.Foundations.Interleaving
import Mathlib.Data.List.Forall2

/-!
# Threads of actions

A program performs actions and goes on with their results. Threads share a state, and at
every moment one of them performs its next action. Two pools whose programs differ in silent
actions only can do the same to what is visible of their states.
-/
namespace DistillerFS.Foundations

/-- `R a` are the results that the action `a` may have. -/
inductive Program {A : Type} (R : A → Type) (α : Type) : Type where
  | done (value : α)
  | act (a : A) (next : R a → Program R α)

section Programs
variable {A : Type} {R : A → Type} {α β : Type}

namespace Program

def bind : Program R α → (α → Program R β) → Program R β
  | done value, f => f value
  | act a next, f => act a (fun r => (next r).bind f)

instance : Monad (Program R) where
  pure := done
  bind := bind

def perform (a : A) : Program R (R a) := act a done

@[simp] theorem pure_eq (value : α) : (pure value : Program R α) = done value := rfl

@[simp] theorem done_bind (value : α) (f : α → Program R β) : (done value >>= f) = f value := rfl

@[simp] theorem act_bind (a : A) (next : R a → Program R α) (f : α → Program R β) :
    (act a next >>= f) = act a (fun r => next r >>= f) := rfl

@[simp] theorem perform_bind (a : A) (f : R a → Program R β) : (perform a >>= f) = act a f := rfl

end Program

/-- What an action may do to the shared state and to that of its thread. Where it may do
nothing, its thread has to wait. -/
structure Machine (R : A → Type) (S L : Type) where
  effect : (a : A) → S → L → R a → S → L → Prop

def Machine.Total {S L : Type} (M : Machine R S L) : Prop :=
  ∀ a s l, ∃ r s' l', M.effect a s l r s' l'

structure Pool (R : A → Type) (S L α : Type) where
  shared : S
  threads : List (L × Program R α)

structure Label (R : A → Type) where
  thread : ℕ
  action : A
  result : R action

section Runs
variable {S L : Type} (M : Machine R S L)

inductive Step : Pool R S L α → Label R → Pool R S L α → Prop
  | act {s s' : S} {l l' : L} {before after : List (L × Program R α)} {a : A}
      {next : R a → Program R α} {r : R a} (h : M.effect a s l r s' l') :
      Step ⟨s, before ++ (l, .act a next) :: after⟩ ⟨before.length, a, r⟩
        ⟨s', before ++ (l', next r) :: after⟩

inductive Run : Pool R S L α → List (Label R) → Pool R S L α → Prop
  | nil (pool : Pool R S L α) : Run pool [] pool
  | cons {pool pool₁ pool₂ : Pool R S L α} {label : Label R} {labels : List (Label R)}
      (hstep : Step M pool label pool₁) (hrun : Run pool₁ labels pool₂) :
      Run pool (label :: labels) pool₂

variable {M}

theorem Step.inv {pool pool₁ : Pool R S L α} {label : Label R} (h : Step M pool label pool₁) :
    ∃ before l a next after r l', pool.threads = before ++ (l, .act a next) :: after ∧
      M.effect a pool.shared l r pool₁.shared l' ∧ label = ⟨before.length, a, r⟩ ∧
      pool₁.threads = before ++ (l', next r) :: after := by
  cases h with
  | act h => exact ⟨_, _, _, _, _, _, _, rfl, h, rfl, rfl⟩

theorem Run.append {pool pool₁ pool₂ : Pool R S L α} {labels labels' : List (Label R)}
    (h : Run M pool labels pool₁) (h' : Run M pool₁ labels' pool₂) :
    Run M pool (labels ++ labels') pool₂ := by
  induction h with
  | nil => exact h'
  | cons hstep _ ih => exact .cons hstep (ih h')

/-- A machine that can do with its own state what the other one does. -/
theorem Run.simulate {S' : Type} {M' : Machine R S' L} {Same : S → S' → Prop}
    (hsim : ∀ {a s l r s₁ l₁ t}, M.effect a s l r s₁ l₁ → Same s t →
      ∃ t₁, M'.effect a t l r t₁ l₁ ∧ Same s₁ t₁)
    {pool pool₁ : Pool R S L α} {labels : List (Label R)} (hrun : Run M pool labels pool₁) {t : S'}
    (hsame : Same pool.shared t) :
    ∃ t₁, Run M' ⟨t, pool.threads⟩ labels ⟨t₁, pool₁.threads⟩ ∧ Same pool₁.shared t₁ := by
  induction hrun generalizing t with
  | nil pool => exact ⟨t, .nil _, hsame⟩
  | cons hstep hrun ih =>
    cases hstep with
    | act heffect =>
      obtain ⟨t₁, heffect₁, hsame₁⟩ := hsim heffect hsame
      obtain ⟨t₂, hrun₂, hsame₂⟩ := ih hsame₁
      exact ⟨t₂, .cons (.act heffect₁) hrun₂, hsame₂⟩

/-- The threads have come to their ends, with these values. -/
def Pool.Finished (pool : Pool R S L α) (values : List α) : Prop :=
  pool.threads.map Prod.snd = values.map .done

/-- Threads that can go on to their ends one after the other: a rule for programs of one kind
and for states of one kind. -/
theorem Pool.completes_of {P : Program R α → Prop} {Q : S → Prop}
    (h : ∀ p s l before after, P p → Q s → ∃ labels s' l' value, Q s' ∧
      Run M ⟨s, before ++ (l, p) :: after⟩ labels ⟨s', before ++ (l', .done value) :: after⟩)
    {pool : Pool R S L α} (hthreads : ∀ x ∈ pool.threads, P x.2) (hshared : Q pool.shared) :
    ∃ labels pool₁ values, Run M pool labels pool₁ ∧ pool₁.Finished values ∧ Q pool₁.shared := by
  have hrest : ∀ (rest before : List (L × Program R α)) (s : S) (values : List α),
      (∀ x ∈ rest, P x.2) → Q s → before.map Prod.snd = values.map .done →
        ∃ labels pool₁ values, Run M ⟨s, before ++ rest⟩ labels pool₁ ∧ pool₁.Finished values ∧
          Q pool₁.shared := by
    intro rest
    induction rest with
    | nil =>
      intro before s values _ hs hbefore
      refine ⟨[], _, values, .nil _, ?_, hs⟩
      rwa [Pool.Finished, List.append_nil]
    | cons x rest ih =>
      intro before s values hrest hs hbefore
      obtain ⟨labels, s₁, l₁, value, hs₁, hrun⟩ := h x.2 s x.1 before rest (hrest x (by simp)) hs
      obtain ⟨labels', pool₁, values', hrun', hdone, hend⟩ :=
        ih (before ++ [(l₁, .done value)]) s₁ (values ++ [value])
          (fun y hy => hrest y (List.mem_cons_of_mem x hy)) hs₁ (by simp [hbefore])
      rw [List.append_assoc, List.singleton_append] at hrun'
      exact ⟨labels ++ labels', pool₁, values', hrun.append hrun', hdone, hend⟩
  exact hrest pool.threads [] pool.shared [] hthreads hshared rfl

/-- Where no action has to wait, no thread keeps the others from their ends. -/
theorem Pool.completes (hM : M.Total) (pool : Pool R S L α) : ∃ labels pool₁ values,
    Run M pool labels pool₁ ∧ pool₁.Finished values := by
  have hall := @Pool.completes_of _ _ _ _ _ M (fun _ => True) (fun _ => True) ?_ pool
    (fun _ _ => trivial) trivial
  · obtain ⟨labels, pool₁, values, hrun, hdone, -⟩ := hall
    exact ⟨labels, pool₁, values, hrun, hdone⟩
  intro p s l before after _ _
  induction p generalizing s l with
  | done value => exact ⟨[], s, l, value, trivial, .nil _⟩
  | act a next ih =>
    obtain ⟨r, s₁, l₁, heffect⟩ := hM a s l
    obtain ⟨labels, s', l', value, -, hrun⟩ := ih r s₁ l₁
    exact ⟨_, s', l', value, trivial, .cons (.act heffect) hrun⟩

end Runs

end Programs

section Split
variable {α β : Type*} {P : α → β → Prop}

theorem forall₂_split {before after : List α} {a : α} {l : List β}
    (h : List.Forall₂ P (before ++ a :: after) l) : ∃ before' b after', l = before' ++ b :: after' ∧
      List.Forall₂ P before before' ∧ P a b ∧ List.Forall₂ P after after' := by
  induction before generalizing l with
  | nil =>
    cases h with
    | cons hab hafter => exact ⟨[], _, _, rfl, .nil, hab, hafter⟩
  | cons c before ih =>
    cases h with
    | cons hc hrest =>
      obtain ⟨before', b, after', rfl, hbefore, hab, hafter⟩ := ih hrest
      exact ⟨_ :: before', b, after', rfl, .cons hc hbefore, hab, hafter⟩

theorem forall₂_imp {Q : α → β → Prop} {l : List α} {l' : List β} (h : List.Forall₂ P l l')
    (himp : ∀ a, ∀ b ∈ l', P a b → Q a b) : List.Forall₂ Q l l' := by
  induction h with
  | nil => exact .nil
  | cons hab _ ih =>
    exact .cons (himp _ _ List.mem_cons_self hab)
      (ih fun a b hb => himp a b (List.mem_cons_of_mem _ hb))

theorem forall₂_const {l : List α} {l' : List β} {b : β} (h : List.Forall₂ P l l')
    (hl : ∀ b' ∈ l', b' = b) : ∀ a ∈ l, P a b := by
  induction h with
  | nil => exact fun a ha => absurd ha List.not_mem_nil
  | cons hab _ ih =>
    intro a ha
    rcases List.mem_cons.mp ha with rfl | ha
    · rwa [hl _ List.mem_cons_self] at hab
    · exact ih (fun b' hb' => hl b' (List.mem_cons_of_mem _ hb')) a ha

theorem forall₂_join {before after : List α} {a : α} {before' after' : List β} {b : β}
    (hbefore : List.Forall₂ P before before') (hab : P a b) (hafter : List.Forall₂ P after after') :
    List.Forall₂ P (before ++ a :: after) (before' ++ b :: after') :=
  List.rel_append hbefore (.cons hab hafter)

end Split

section Simulation
variable {A : Type} {R : A → Type} {α β : Type} (silent : A → Bool) (Related : α → β → Prop)

/-- The programs perform the same visible actions, whatever the results are, and give
related values. -/
inductive Program.Agrees : Program R α → Program R β → Prop
  | done {a : α} {b : β} (h : Related a b) : Agrees (.done a) (.done b)
  | left {a : A} {next : R a → Program R α} {q : Program R β} (ha : silent a = true)
      (h : ∀ r, Agrees (next r) q) : Agrees (.act a next) q
  | right {a : A} {p : Program R α} {next : R a → Program R β} (ha : silent a = true)
      (h : ∀ r, Agrees p (next r)) : Agrees p (.act a next)
  | both {a : A} {next : R a → Program R α} {next' : R a → Program R β} (ha : silent a = false)
      (h : ∀ r, Agrees (next r) (next' r)) : Agrees (.act a next) (.act a next')

/-- A program without visible actions. -/
inductive Program.Quiet {α : Type} : Program R α → Prop
  | done (a : α) : Quiet (.done a)
  | act {a : A} {next : R a → Program R α} (ha : silent a = true) (h : ∀ r, Quiet (next r)) :
      Quiet (.act a next)

def visible (labels : List (Label R)) : List (Label R) :=
  labels.filter (fun label => !silent label.action)

variable {silent Related} {S S' L L' : Type} {M : Machine R S L} {M' : Machine R S' L'}
  {Same : S → S' → Prop}

theorem Program.Agrees.quiet_left {γ : Type} {p : Program R γ} (hp : p.Quiet silent)
    {f : γ → Program R α} {q : Program R β} (h : ∀ c, (f c).Agrees silent Related q) :
    (p >>= f).Agrees silent Related q := by
  induction hp with
  | done c => exact h c
  | act ha _ ih => exact .left ha ih

theorem Program.Agrees.quiet_right {γ : Type} {p : Program R γ} (hp : p.Quiet silent)
    {f : γ → Program R β} {q : Program R α} (h : ∀ c, q.Agrees silent Related (f c)) :
    q.Agrees silent Related (p >>= f) := by
  induction hp with
  | done c => exact h c
  | act ha _ ih => exact .right ha ih

theorem Program.Agrees.bind {γ δ : Type} {Before : γ → δ → Prop} {p : Program R γ}
    {q : Program R δ} (hpq : p.Agrees silent Before q) {f : γ → Program R α} {g : δ → Program R β}
    (h : ∀ c d, Before c d → (f c).Agrees silent Related (g d)) :
    (p >>= f).Agrees silent Related (q >>= g) := by
  induction hpq with
  | done hcd => exact h _ _ hcd
  | left ha _ ih => exact .left ha ih
  | right ha _ ih => exact .right ha ih
  | both ha _ ih => exact .both ha ih

/-- Silent parts may be replaced by others. -/
theorem Program.Agrees.quiet {γ δ : Type} {p : Program R γ} {p' : Program R δ} (hp : p.Quiet silent)
    (hp' : p'.Quiet silent) {f : γ → Program R α} {f' : δ → Program R β}
    (h : ∀ c d, (f c).Agrees silent Related (f' d)) :
    (p >>= f).Agrees silent Related (p' >>= f') :=
  .quiet_left hp (fun c => .quiet_right hp' (h c))

/-- Silent actions do not wait and leave what is visible as it is, and the visible ones can
follow each other. -/
structure Follows (silent : A → Bool) (M : Machine R S L) (M' : Machine R S' L')
    (Same : S → S' → Prop) : Prop where
  left : ∀ {a s l r s₁ l₁ t}, silent a = true → M.effect a s l r s₁ l₁ → Same s t → Same s₁ t
  right : ∀ {a s t m r t₁ m₁}, silent a = true → M'.effect a t m r t₁ m₁ → Same s t → Same s t₁
  total : M'.Total
  both : ∀ {a s l r s₁ l₁ t}, silent a = false → M.effect a s l r s₁ l₁ → Same s t →
    ∀ m, ∃ t₁ m₁, M'.effect a t m r t₁ m₁ ∧ Same s₁ t₁

/-- One action of a thread and what the other thread does meanwhile. -/
theorem Program.Agrees.follow (hM : Follows silent M M' Same) {p : Program R α} {q : Program R β}
    (hp : p.Agrees silent Related q) {a : A} {next : R a → Program R α} (heq : p = .act a next)
    {s s₁ : S} {l l₁ : L} {r : R a} (heffect : M.effect a s l r s₁ l₁) {t : S'} (hsame : Same s t)
    (before after : List (L' × Program R β)) (m : L') : ∃ labels t₁ m₁ q₁,
      Run M' ⟨t, before ++ (m, q) :: after⟩ labels ⟨t₁, before ++ (m₁, q₁) :: after⟩ ∧
      visible silent labels = visible silent [⟨before.length, a, r⟩] ∧ Same s₁ t₁ ∧
      (next r).Agrees silent Related q₁ := by
  induction hp generalizing t m with
  | done h => cases heq
  | left ha h =>
    cases heq
    exact ⟨[], t, m, _, .nil _, by simp [visible, ha], hM.left ha heffect hsame, h r⟩
  | right hb h ih =>
    obtain ⟨r', t₁, m₁, hright⟩ := hM.total _ t m
    obtain ⟨labels, t₂, m₂, q₂, hrun, hvisible, hsame₂, hagrees⟩ :=
      ih r' heq (hM.right hb hright hsame) m₁
    refine ⟨_, t₂, m₂, q₂, .cons (.act hright) hrun, ?_, hsame₂, hagrees⟩
    rw [← hvisible]
    simp [visible, hb]
  | both ha h =>
    cases heq
    obtain ⟨t₁, m₁, hright, hsame₁⟩ := hM.both ha heffect hsame m
    exact ⟨_, t₁, m₁, _, .cons (.act hright) (.nil _), rfl, hsame₁, h r⟩

/-- A run of one pool and the run of the other that looks like it. The induction is on the
first run. -/
theorem Run.follow (hM : Follows silent M M' Same) {pool pool₁ : Pool R S L α}
    {labels : List (Label R)} (hrun : Run M pool labels pool₁) {pool' : Pool R S' L' β}
    (hsame : Same pool.shared pool'.shared)
    (hagree : List.Forall₂ (fun x y => x.2.Agrees silent Related y.2) pool.threads pool'.threads) :
    ∃ labels' pool'₁, Run M' pool' labels' pool'₁ ∧
      visible silent labels' = visible silent labels ∧ Same pool₁.shared pool'₁.shared ∧
      List.Forall₂ (fun x y => x.2.Agrees silent Related y.2) pool₁.threads pool'₁.threads := by
  induction hrun generalizing pool' with
  | nil pool => exact ⟨[], pool', .nil _, rfl, hsame, hagree⟩
  | @cons pool pool₁ pool₂ label labels hstep hrun ih =>
    cases hstep with
    | @act s s₁ l l₁ before after a next r heffect =>
      obtain ⟨t, threads⟩ := pool'
      obtain ⟨before', ⟨m, q⟩, after', rfl, hbefore, hpq, hafter⟩ := forall₂_split hagree
      obtain ⟨labels₁, t₁, m₁, q₁, hrun₁, hvisible₁, hsame₁, hagree₁⟩ :=
        hpq.follow hM rfl heffect hsame before' after' m
      obtain ⟨labels₂, pool'₂, hrun₂, hvisible₂, hsame₂, hagree₂⟩ :=
        @ih ⟨t₁, before' ++ (m₁, q₁) :: after'⟩ hsame₁ (forall₂_join hbefore hagree₁ hafter)
      refine ⟨labels₁ ++ labels₂, pool'₂, hrun₁.append hrun₂, ?_, hsame₂, hagree₂⟩
      rw [← hbefore.length_eq] at hvisible₁
      rw [visible, List.filter_append]
      change visible silent labels₁ ++ visible silent labels₂ = _
      rw [hvisible₁, hvisible₂, visible, visible, visible, ← List.filter_append]
      rfl

/-- When a thread is done, the other one has silent actions left at most. -/
theorem Program.Agrees.finish (hM : Follows silent M M' Same) {p : Program R α} {q : Program R β}
    (hp : p.Agrees silent Related q) {a : α} (heq : p = .done a) {s : S} {t : S'} (hsame : Same s t)
    (before after : List (L' × Program R β)) (m : L') : ∃ labels t₁ m₁ b,
      Run M' ⟨t, before ++ (m, q) :: after⟩ labels ⟨t₁, before ++ (m₁, .done b) :: after⟩ ∧
      visible silent labels = [] ∧ Same s t₁ ∧ Related a b := by
  induction hp generalizing t m with
  | done h =>
    cases heq
    exact ⟨[], t, m, _, .nil _, rfl, hsame, h⟩
  | left | both => cases heq
  | right hb h ih =>
    obtain ⟨r', t₁, m₁, hright⟩ := hM.total _ t m
    obtain ⟨labels, t₂, m₂, b, hrun, hvisible, hsame₂, hrelated⟩ :=
      ih r' heq (hM.right hb hright hsame) m₁
    refine ⟨_, t₂, m₂, b, .cons (.act hright) hrun, ?_, hsame₂, hrelated⟩
    rw [← hvisible]
    simp [visible, hb]

theorem finish_all (hM : Follows silent M M' Same) {values : List α} {threads : List (L × Program R α)}
    {threads' : List (L' × Program R β)} (hdone : threads.map Prod.snd = values.map .done)
    (hagree : List.Forall₂ (fun x y => x.2.Agrees silent Related y.2) threads threads') {s : S}
    {t : S'} (hsame : Same s t) (before : List (L' × Program R β)) :
    ∃ labels t₁ threads'₁ values',
      Run M' ⟨t, before ++ threads'⟩ labels ⟨t₁, before ++ threads'₁⟩ ∧
      visible silent labels = [] ∧ Same s t₁ ∧ threads'₁.map Prod.snd = values'.map .done ∧
      List.Forall₂ Related values values' := by
  induction hagree generalizing values t before with
  | nil =>
    obtain rfl : values = [] := by simpa using hdone.symm
    exact ⟨[], t, [], [], .nil _, rfl, hsame, rfl, .nil⟩
  | @cons x y xs ys hxy _ ih =>
    cases values with
    | nil => cases hdone
    | cons a values =>
      rw [List.map_cons, List.map_cons, List.cons.injEq] at hdone
      obtain ⟨m, q⟩ := y
      obtain ⟨labels₁, t₁, m₁, b, hrun₁, hvisible₁, hsame₁, hrelated⟩ :=
        hxy.finish hM hdone.1 hsame before ys m
      obtain ⟨labels₂, t₂, ys₂, values', hrun₂, hvisible₂, hsame₂, hdone₂, hrelated₂⟩ :=
        ih hdone.2 hsame₁ (before ++ [(m₁, .done b)])
      refine ⟨labels₁ ++ labels₂, t₂, (m₁, .done b) :: ys₂, b :: values', ?_, ?_, hsame₂, ?_,
        .cons hrelated hrelated₂⟩
      · simp only [List.append_assoc, List.cons_append, List.nil_append] at hrun₂
        exact hrun₁.append hrun₂
      · rw [visible, List.filter_append]
        change visible silent labels₁ ++ visible silent labels₂ = []
        rw [hvisible₁, hvisible₂]
        rfl
      · rw [List.map_cons, hdone₂]
        rfl

/-- A run to the end of all threads has a counterpart that looks the same, leaves the same
behind and gives related values. -/
theorem Run.agrees (hM : Follows silent M M' Same) {pool pool₁ : Pool R S L α}
    {labels : List (Label R)} (hrun : Run M pool labels pool₁) {values : List α}
    (hdone : pool₁.Finished values) {pool' : Pool R S' L' β} (hsame : Same pool.shared pool'.shared)
    (hagree : List.Forall₂ (fun x y => x.2.Agrees silent Related y.2) pool.threads pool'.threads) :
    ∃ labels' pool'₁ values', Run M' pool' labels' pool'₁ ∧ pool'₁.Finished values' ∧
      visible silent labels' = visible silent labels ∧ Same pool₁.shared pool'₁.shared ∧
      List.Forall₂ Related values values' := by
  obtain ⟨labels₁, pool'₁, hrun₁, hvisible₁, hsame₁, hagree₁⟩ := hrun.follow hM hsame hagree
  obtain ⟨labels₂, t₂, threads₂, values', hrun₂, hvisible₂, hsame₂, hdone₂, hrelated⟩ :=
    finish_all hM hdone hagree₁ hsame₁ []
  refine ⟨labels₁ ++ labels₂, ⟨t₂, threads₂⟩, values', hrun₁.append hrun₂, hdone₂, ?_, hsame₂, hrelated⟩
  rw [visible, List.filter_append]
  change visible silent labels₁ ++ visible silent labels₂ = _
  rw [hvisible₁, hvisible₂, List.append_nil]

end Simulation

section Local
variable {A : Type} {R : A → Type} {α β L : Type} (onLocal : (a : A) → L → R a → L → Prop)

/-- What a program may do on its own, when the other threads decide about the results as far
as its own state allows. -/
inductive Program.Performs : Program R α → L → List (Σ a, R a) → α → L → Prop
  | done (value : α) (l : L) : Performs (.done value) l [] value l
  | act {a : A} {next : R a → Program R α} {l l₁ l₂ : L} {r : R a} {trace : List (Σ a, R a)}
      {value : α} (h : onLocal a l r l₁) (hnext : Performs (next r) l₁ trace value l₂) :
      Performs (.act a next) l (⟨a, r⟩ :: trace) value l₂

variable {onLocal}

theorem Program.Performs.bind_inv {p : Program R α} {f : α → Program R β} {l l₂ : L}
    {trace : List (Σ a, R a)} {value : β} (h : (p >>= f).Performs onLocal l trace value l₂) :
    ∃ trace₁ a l₁ trace₂, p.Performs onLocal l trace₁ a l₁ ∧
      (f a).Performs onLocal l₁ trace₂ value l₂ ∧ trace = trace₁ ++ trace₂ := by
  induction p generalizing l trace with
  | done a => exact ⟨[], a, l, trace, .done a l, h, rfl⟩
  | act a next ih =>
    cases h with
    | @act _ _ _ l₁ _ r trace _ hlocal hnext =>
      obtain ⟨trace₁, b, l₂, trace₂, hp, hf, rfl⟩ := ih r hnext
      exact ⟨⟨a, r⟩ :: trace₁, b, l₂, trace₂, .act hlocal hp, hf, rfl⟩

def Label.event (label : Label R) : Σ a, R a := ⟨label.action, label.result⟩

theorem performs_finished {threads : List (L × Program R α)} {values : List α}
    (hdone : threads.map Prod.snd = values.map .done) :
    List.Forall₂ (fun x v => ∃ l, x.2.Performs onLocal x.1 v.1 v.2 l) threads
      (values.map (fun v => ([], v))) := by
  induction threads generalizing values with
  | nil =>
    obtain rfl : values = [] := by simpa using hdone.symm
    exact .nil
  | cons x threads ih =>
    cases values with
    | nil => cases hdone
    | cons v values =>
      rw [List.map_cons, List.map_cons, List.cons.injEq] at hdone
      refine .cons ⟨x.1, ?_⟩ (ih hdone.2)
      rw [hdone.1]
      exact .done v x.1

variable {S : Type} {M : Machine R S L}

/-- A run to the end of all threads interleaves what each of them performs on its own. -/
theorem Run.interleaves (hlocal : ∀ {a s l r s' l'}, M.effect a s l r s' l' → onLocal a l r l')
    {pool pool₁ : Pool R S L α} {labels : List (Label R)} (hrun : Run M pool labels pool₁)
    {values : List α} (hdone : pool₁.Finished values) :
    ∃ performed : List (List (Σ a, R a) × α), performed.map Prod.snd = values ∧
      List.Forall₂ (fun x v => ∃ l, x.2.Performs onLocal x.1 v.1 v.2 l) pool.threads performed ∧
      Interleaving (performed.map Prod.fst) (labels.map Label.event) := by
  induction hrun with
  | nil pool =>
    refine ⟨values.map (fun v => ([], v)), by simp [Function.comp_def], performs_finished hdone,
      .done _ ?_⟩
    intro trace htrace
    obtain ⟨v, hv, rfl⟩ := List.mem_map.mp htrace
    obtain ⟨w, -, rfl⟩ := List.mem_map.mp hv
    rfl
  | @cons pool pool₁ pool₂ label labels hstep hrun ih =>
    cases hstep with
    | @act s s₁ l l₁ before after a next r heffect =>
      obtain ⟨performed, hvalues, hperforms, hinterleaving⟩ := ih hdone
      obtain ⟨before', ⟨trace, v⟩, after', rfl, hbefore, ⟨l₂, hv⟩, hafter⟩ := forall₂_split hperforms
      refine ⟨before' ++ (⟨a, r⟩ :: trace, v) :: after', ?_,
        forall₂_join hbefore ⟨l₂, .act (hlocal heffect) hv⟩ hafter, ?_⟩
      · rw [← hvalues]
        simp
      · rw [List.map_append, List.map_cons] at hinterleaving ⊢
        exact .step _ _ _ _ _ hinterleaving

end Local

end DistillerFS.Foundations
