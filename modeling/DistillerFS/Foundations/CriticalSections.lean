import DistillerFS.Foundations.Threads

/-!
# Critical sections

Threads take a mutex, work on what is behind it and give it back. If the code of each of them
keeps this discipline, no two are behind the mutex at once and none waits forever. Where an
action of a program stands for code with one such section, a machine that performs the code step
by step does nothing that a machine does not do for which the code is one action.
-/
namespace DistillerFS.Foundations

/-- An action that is performed as it is, or a step of code with a mutex. -/
inductive Fine (A I : Type) : Type where
  | outer (a : A)
  | lock
  | inner (i : I)
  | unlock

@[reducible] def Fine.Result {A I : Type} (R : A → Type) (RI : I → Type) : Fine A I → Type
  | .outer a => R a
  | .inner i => RI i
  | _ => Unit

structure Locked (S D : Type) where
  outside : S
  inside : D
  held : Bool

/-- Actions and the code that some of them stand for. The steps behind the mutex work on `D`,
all other actions on `S`. -/
structure Sections {A I : Type} (R : A → Type) (RI : I → Type) (S D L : Type) where
  outer : (a : A) → S → L → R a → S → L → Prop
  inner : (i : I) → D → L → RI i → D → L → Prop
  code : (a : A) → Option (Program (Fine.Result (A := A) (I := I) R RI) (R a))

variable {A I : Type} {R : A → Type} {RI : I → Type} {S D L α β : Type}

/-- One step. The mutex makes who wants it wait while it is held; nothing else does. -/
def Sections.Effect (C : Sections R RI S D L) :
    (x : Fine A I) → Locked S D → L → Fine.Result R RI x → Locked S D → L → Prop
  | .outer a, y, l, r, y', l' => C.outer a y.outside l r y'.outside l' ∧ y'.inside = y.inside ∧
      y'.held = y.held
  | .lock, y, l, _, y', l' => y.held = false ∧ y' = { y with held := true } ∧ l' = l
  | .inner i, y, l, r, y', l' => C.inner i y.inside l r y'.inside l' ∧ y'.outside = y.outside ∧
      y'.held = y.held
  | .unlock, y, l, _, y', l' => y' = { y with held := false } ∧ l' = l

def Sections.fine (C : Sections R RI S D L) :
    Machine (Fine.Result (A := A) (I := I) R RI) (Locked S D) L := ⟨C.Effect⟩

section Discipline

/-- The code takes the mutex only while it does not hold it, works on what is behind it only
while it does, and ends without it. The flag says whether it holds the mutex now. -/
inductive Disciplined : Bool → Program (Fine.Result (A := A) (I := I) R RI) α → Prop
  | done (value : α) : Disciplined false (.done value)
  | outer {a : A} {next : R a → Program (Fine.Result R RI) α} (h : ∀ r, Disciplined false (next r)) :
      Disciplined false (.act (.outer a) next)
  | lock {next : Unit → Program (Fine.Result R RI) α} (h : Disciplined true (next ())) :
      Disciplined false (.act .lock next)
  | inner {i : I} {next : RI i → Program (Fine.Result R RI) α} (h : ∀ r, Disciplined true (next r)) :
      Disciplined true (.act (.inner i) next)
  | unlock {next : Unit → Program (Fine.Result R RI) α} (h : Disciplined false (next ())) :
      Disciplined true (.act .unlock next)

theorem Disciplined.bind {b : Bool} {p : Program (Fine.Result (A := A) (I := I) R RI) α}
    (hp : Disciplined b p) {f : α → Program (Fine.Result R RI) β}
    (hf : ∀ a, Disciplined false (f a)) : Disciplined b (p >>= f) := by
  induction hp with
  | done value => exact hf value
  | outer _ ih => exact .outer ih
  | lock _ ih => exact .lock ih
  | inner _ ih => exact .inner ih
  | unlock _ ih => exact .unlock ih

variable {C : Sections R RI S D L}

/-- What a step does to the mutex, it does to its thread. -/
theorem Disciplined.step {b : Bool} {x : Fine A I}
    {next : Fine.Result R RI x → Program (Fine.Result R RI) α} (hp : Disciplined b (.act x next))
    {y y' : Locked S D} {l l' : L} {r : Fine.Result R RI x} (h : C.Effect x y l r y' l')
    (hb : b = true → y.held = true) :
    ∃ b', Disciplined b' (next r) ∧ y'.held.toNat + b.toNat = y.held.toNat + b'.toNat := by
  cases hp with
  | outer hnext => exact ⟨false, hnext r, by rw [h.2.2]⟩
  | lock hnext =>
    obtain ⟨hfree, rfl, -⟩ := h
    exact ⟨true, hnext, by simp [hfree]⟩
  | inner hnext => exact ⟨true, hnext r, by rw [h.2.2]⟩
  | unlock hnext =>
    obtain ⟨rfl, -⟩ := h
    exact ⟨false, hnext, by simp [hb rfl]⟩

/-- All threads keep the discipline, and as many of them are behind the mutex as hold it. -/
def Pool.Owned (pool : Pool (Fine.Result (A := A) (I := I) R RI) (Locked S D) L α) : Prop :=
  ∃ holds : List Bool, List.Forall₂ (fun x b => Disciplined b x.2) pool.threads holds ∧
    holds.count true = pool.shared.held.toNat

theorem Pool.owned_free {y : Locked S D} (hy : y.held = false)
    {threads : List (L × Program (Fine.Result (A := A) (I := I) R RI) α)}
    (h : ∀ x ∈ threads, Disciplined false x.2) : Pool.Owned ⟨y, threads⟩ := by
  refine ⟨threads.map (fun _ => false), ?_, ?_⟩
  · rw [List.forall₂_map_right_iff, List.forall₂_same]
    exact h
  · rw [hy]
    apply List.count_eq_zero.mpr
    simp

theorem count_cons_true (b : Bool) (l : List Bool) : (b :: l).count true = b.toNat + l.count true := by
  cases b <;> simp [Nat.add_comm]

/-- A thread that is behind the mutex holds it, and no other one is there. -/
theorem held_alone {before after : List Bool} {held : Bool}
    (h : (before ++ true :: after).count true = held.toNat) :
    held = true ∧ ∀ b ∈ before ++ after, b = false := by
  have hle := Bool.toNat_le held
  rw [List.count_append, count_cons_true, Bool.toNat_true] at h
  constructor
  · by_contra hfree
    rw [Bool.not_eq_true] at hfree
    rw [hfree, Bool.toNat_false] at h
    omega
  · have hnone : (before ++ after).count true = 0 := by
      rw [List.count_append]
      omega
    intro b hb
    by_contra htrue
    rw [Bool.not_eq_false] at htrue
    exact List.count_eq_zero.mp hnone (htrue ▸ hb)

theorem Pool.Owned.step {pool pool₁ : Pool (Fine.Result (A := A) (I := I) R RI) (Locked S D) L α}
    (h : pool.Owned) {label : Label (Fine.Result (A := A) (I := I) R RI)}
    (hstep : Step C.fine pool label pool₁) : pool₁.Owned := by
  obtain ⟨holds, hthreads, hcount⟩ := h
  cases hstep with
  | @act y _ _ _ _ _ _ _ _ heffect =>
    obtain ⟨before, b, after, rfl, hbefore, hb, hafter⟩ := forall₂_split hthreads
    have hheld : b = true → y.held = true := by
      rintro rfl
      exact (held_alone hcount).1
    obtain ⟨b', hb', hmutex⟩ := hb.step heffect hheld
    refine ⟨before ++ b' :: after, forall₂_join hbefore hb' hafter, ?_⟩
    rw [List.count_append, count_cons_true] at hcount ⊢
    dsimp only at hcount ⊢
    omega

theorem Pool.Owned.run {pool pool₁ : Pool (Fine.Result (A := A) (I := I) R RI) (Locked S D) L α}
    {labels : List (Label (Fine.Result (A := A) (I := I) R RI))} (hrun : Run C.fine pool labels pool₁)
    (h : pool.Owned) : pool₁.Owned := by
  induction hrun with
  | nil => exact h
  | cons hstep _ ih => exact ih (h.step hstep)

/-- A thread whose next step is behind the mutex holds it, and the next step of no other thread
is there. -/
def Pool.Exclusive (pool : Pool (Fine.Result (A := A) (I := I) R RI) (Locked S D) L α) : Prop :=
  ∀ before l i next after, pool.threads = before ++ (l, .act (.inner i) next) :: after →
    pool.shared.held = true ∧ ∀ x ∈ before ++ after, ∀ j next', x.2 ≠ .act (.inner j) next'

theorem Pool.Owned.exclusive {pool : Pool (Fine.Result (A := A) (I := I) R RI) (Locked S D) L α}
    (h : pool.Owned) : pool.Exclusive := by
  intro before l i next after hthreads
  obtain ⟨holds, hholds, hcount⟩ := h
  rw [hthreads] at hholds
  obtain ⟨before', b, after', rfl, hbefore, hb, hafter⟩ := forall₂_split hholds
  cases hb with
  | inner =>
    obtain ⟨hheld, hothers⟩ := held_alone hcount
    refine ⟨hheld, ?_⟩
    rintro ⟨l', p⟩ hx j next' rfl
    cases forall₂_const (List.rel_append hbefore hafter) hothers _ hx

variable (houter : ∀ a s l, ∃ r s' l', C.outer a s l r s' l')
  (hinner : ∀ i d l, ∃ r d' l', C.inner i d l r d' l')
include houter hinner

/-- A thread that holds the mutex, or finds it free, can go on to its end and leaves it free. -/
theorem Disciplined.completes {b : Bool} {p : Program (Fine.Result (A := A) (I := I) R RI) α}
    (hp : Disciplined b p) (s : S) (d : D) (l : L)
    (before after : List (L × Program (Fine.Result R RI) α)) : ∃ labels s' d' l' value,
      Run C.fine ⟨⟨s, d, b⟩, before ++ (l, p) :: after⟩ labels
        ⟨⟨s', d', false⟩, before ++ (l', .done value) :: after⟩ := by
  induction hp generalizing s d l with
  | done value => exact ⟨[], s, d, l, value, .nil _⟩
  | @outer a next _ ih =>
    obtain ⟨r, s₁, l₁, h⟩ := houter a s l
    obtain ⟨labels, s', d', l', value, hrun⟩ := ih r s₁ d l₁
    have heffect : C.Effect (.outer a) ⟨s, d, false⟩ l r ⟨s₁, d, false⟩ l₁ := ⟨h, rfl, rfl⟩
    exact ⟨_, s', d', l', value, .cons (.act heffect) hrun⟩
  | lock _ ih =>
    obtain ⟨labels, s', d', l', value, hrun⟩ := ih s d l
    have heffect : C.Effect .lock ⟨s, d, false⟩ l () ⟨s, d, true⟩ l := ⟨rfl, rfl, rfl⟩
    exact ⟨_, s', d', l', value, .cons (.act heffect) hrun⟩
  | @inner i next _ ih =>
    obtain ⟨r, d₁, l₁, h⟩ := hinner i d l
    obtain ⟨labels, s', d', l', value, hrun⟩ := ih r s d₁ l₁
    have heffect : C.Effect (.inner i) ⟨s, d, true⟩ l r ⟨s, d₁, true⟩ l₁ := ⟨h, rfl, rfl⟩
    exact ⟨_, s', d', l', value, .cons (.act heffect) hrun⟩
  | unlock _ ih =>
    obtain ⟨labels, s', d', l', value, hrun⟩ := ih s d l
    have heffect : C.Effect .unlock ⟨s, d, true⟩ l () ⟨s, d, false⟩ l := ⟨rfl, rfl⟩
    exact ⟨_, s', d', l', value, .cons (.act heffect) hrun⟩

theorem free_completes {y : Locked S D} (hy : y.held = false)
    {threads : List (L × Program (Fine.Result (A := A) (I := I) R RI) α)}
    (h : ∀ x ∈ threads, Disciplined false x.2) : ∃ labels pool₁ values,
      Run C.fine ⟨y, threads⟩ labels pool₁ ∧ pool₁.Finished values ∧ pool₁.shared.held = false := by
  refine @Pool.completes_of _ _ _ _ _ C.fine (Disciplined false) (fun y => y.held = false) ?_
    ⟨y, threads⟩ h hy
  rintro p ⟨s, d, held⟩ l before after hp rfl
  obtain ⟨labels, s', d', l', value, hrun⟩ := hp.completes houter hinner s d l before after
  exact ⟨labels, ⟨s', d', false⟩, l', value, rfl, hrun⟩

/-- Progress: the threads never wait for each other in a circle. -/
theorem Pool.Owned.completes {pool : Pool (Fine.Result (A := A) (I := I) R RI) (Locked S D) L α}
    (h : pool.Owned) : ∃ labels pool₁ values, Run C.fine pool labels pool₁ ∧
      pool₁.Finished values ∧ pool₁.shared.held = false := by
  obtain ⟨⟨s, d, held⟩, threads⟩ := pool
  obtain ⟨holds, hthreads, hcount⟩ := h
  by_cases hbusy : true ∈ holds
  · obtain ⟨before', after', rfl⟩ := List.append_of_mem hbusy
    obtain ⟨rfl, hothers⟩ := held_alone hcount
    obtain ⟨before, ⟨l, p⟩, after, rfl, hbefore, hp, hafter⟩ := forall₂_split hthreads.flip
    obtain ⟨labels₁, s', d', l', value, hrun₁⟩ := hp.completes houter hinner s d l before after
    have hrest := forall₂_const (List.rel_append hbefore.flip hafter.flip) hothers
    have hall : ∀ x ∈ before ++ (l', .done value) :: after, Disciplined false x.2 := by
      intro x hx
      rcases List.mem_append.mp hx with hx | hx
      · exact hrest x (List.mem_append_left _ hx)
      · rcases List.mem_cons.mp hx with rfl | hx
        · exact .done value
        · exact hrest x (List.mem_append_right _ hx)
    obtain ⟨labels₂, pool₁, values, hrun₂, hdone, hfree⟩ :=
      @free_completes _ _ _ _ _ _ _ _ C houter hinner ⟨s', d', false⟩ rfl _ hall
    exact ⟨_, pool₁, values, hrun₁.append hrun₂, hdone, hfree⟩
  · have hfree : held = false := by
      rw [List.count_eq_zero.mpr hbusy] at hcount
      cases held with
      | false => rfl
      | true => cases hcount
    apply free_completes houter hinner hfree
    apply forall₂_const hthreads
    intro b hb
    by_contra htrue
    rw [Bool.not_eq_false] at htrue
    exact hbusy (htrue ▸ hb)

end Discipline

section Code

/-- The code is behind the mutex. It works on what is there, gives the mutex back and ends. -/
inductive Behind : Program (Fine.Result (A := A) (I := I) R RI) α → Prop
  | inner {i : I} {next : RI i → Program (Fine.Result R RI) α} (h : ∀ r, Behind (next r)) :
      Behind (.act (.inner i) next)
  | unlock {next : Unit → Program (Fine.Result R RI) α} (value : α) (h : next () = .done value) :
      Behind (.act .unlock next)

/-- The code ends without the mutex, or takes it once. -/
inductive OneSection : Program (Fine.Result (A := A) (I := I) R RI) α → Prop
  | done (value : α) : OneSection (.done value)
  | lock {next : Unit → Program (Fine.Result R RI) α} (h : Behind (next ())) :
      OneSection (.act .lock next)

theorem Behind.disciplined {p : Program (Fine.Result (A := A) (I := I) R RI) α} (hp : Behind p) :
    Disciplined true p := by
  induction hp with
  | inner _ ih => exact .inner ih
  | unlock value h =>
    apply Disciplined.unlock
    rw [h]
    exact .done value

theorem OneSection.disciplined {p : Program (Fine.Result (A := A) (I := I) R RI) α}
    (hp : OneSection p) : Disciplined false p := by
  cases hp with
  | done value => exact .done value
  | lock h => exact .lock h.disciplined

theorem Behind.map {p : Program (Fine.Result (A := A) (I := I) R RI) α} (hp : Behind p) (f : α → β) :
    Behind (p >>= fun value => pure (f value)) := by
  induction hp with
  | inner _ ih => exact .inner ih
  | @unlock next value h => exact .unlock (f value) (by simp only [h]; rfl)

theorem OneSection.map {p : Program (Fine.Result (A := A) (I := I) R RI) α} (hp : OneSection p)
    (f : α → β) : OneSection (p >>= fun value => pure (f value)) := by
  cases hp with
  | done value => exact .done (f value)
  | lock h => exact .lock (h.map f)

inductive Alone (inner : (i : I) → D → L → RI i → D → L → Prop) :
    Program (Fine.Result (A := A) (I := I) R RI) α → D → L → α → D → L → Prop
  | done (value : α) (d : D) (l : L) : Alone inner (.done value) d l value d l
  | lock {next : Unit → Program (Fine.Result R RI) α} {d d' : D} {l l' : L} {value : α}
      (h : Alone inner (next ()) d l value d' l') : Alone inner (.act .lock next) d l value d' l'
  | unlock {next : Unit → Program (Fine.Result R RI) α} {d d' : D} {l l' : L} {value : α}
      (h : Alone inner (next ()) d l value d' l') : Alone inner (.act .unlock next) d l value d' l'
  | inner {i : I} {next : RI i → Program (Fine.Result R RI) α} {d d₁ d₂ : D} {l l₁ l₂ : L}
      {r : RI i} {value : α} (h : inner i d l r d₁ l₁) (hnext : Alone inner (next r) d₁ l₁ value d₂ l₂) :
      Alone inner (.act (.inner i) next) d l value d₂ l₂

theorem Alone.bind_inv {inner : (i : I) → D → L → RI i → D → L → Prop}
    {p : Program (Fine.Result (A := A) (I := I) R RI) α} {f : α → Program (Fine.Result R RI) β}
    {d d₂ : D} {l l₂ : L} {value : β} (h : Alone inner (p >>= f) d l value d₂ l₂) :
    ∃ a d₁ l₁, Alone inner p d l a d₁ l₁ ∧ Alone inner (f a) d₁ l₁ value d₂ l₂ := by
  induction p generalizing d l with
  | done a => exact ⟨a, d, l, .done a d l, h⟩
  | act x next ih =>
    cases h with
    | lock h =>
      obtain ⟨a, d₁, l₁, hp, hf⟩ := ih _ h
      exact ⟨a, d₁, l₁, .lock hp, hf⟩
    | unlock h =>
      obtain ⟨a, d₁, l₁, hp, hf⟩ := ih _ h
      exact ⟨a, d₁, l₁, .unlock hp, hf⟩
    | inner hinner hnext =>
      obtain ⟨a, d₁, l₁, hp, hf⟩ := ih _ hnext
      exact ⟨a, d₁, l₁, .inner hinner hp, hf⟩

end Code

namespace Sections
variable (C : Sections R RI S D L)

def expand : Program R α → Program (Fine.Result (A := A) (I := I) R RI) α
  | .done value => .done value
  | .act a next =>
    match C.code a with
    | none => .act (.outer a) (fun r => expand (next r))
    | some q => q >>= fun r => expand (next r)

abbrev expanded (t : L × Program R α) : L × Program (Fine.Result (A := A) (I := I) R RI) α :=
  (t.1, C.expand t.2)

def OneEach : Prop := ∀ a q, C.code a = some q → OneSection q

inductive Whole : (a : A) → S × D → L → R a → S × D → L → Prop
  | outer {a : A} {s s' : S} {d : D} {l l' : L} {r : R a} (hcode : C.code a = none)
      (h : C.outer a s l r s' l') : Whole a (s, d) l r (s', d) l'
  | code {a : A} {s : S} {d d' : D} {l l' : L} {r : R a} {q : Program (Fine.Result R RI) (R a)}
      (hcode : C.code a = some q) (h : Alone C.inner q d l r d' l') : Whole a (s, d) l r (s, d') l'

def coarse : Machine R (S × D) L := ⟨C.Whole⟩

def outerLabel : Label (Fine.Result (A := A) (I := I) R RI) → Option (Label R)
  | ⟨thread, .outer a, r⟩ => some ⟨thread, a, r⟩
  | ⟨_, .lock, _⟩ | ⟨_, .inner _, _⟩ | ⟨_, .unlock, _⟩ => none

def seen (labels : List (Label R)) : List (Label R) :=
  labels.filter (fun label => (C.code label.action).isNone)

theorem seen_append (labels labels' : List (Label R)) :
    C.seen (labels ++ labels') = C.seen labels ++ C.seen labels' :=
  List.filter_append ..

variable {C}

theorem seen_outer {n : ℕ} {a : A} {r : R a} (hcode : C.code a = none) :
    C.seen [⟨n, a, r⟩] = [⟨n, a, r⟩] := by
  simp [seen, hcode]

theorem seen_code {n : ℕ} {a : A} {r : R a} {q : Program (Fine.Result (A := A) (I := I) R RI) (R a)}
    (hcode : C.code a = some q) : C.seen [⟨n, a, r⟩] = [] := by
  simp [seen, hcode]

theorem expand_disciplined (hC : C.OneEach) (p : Program R α) : Disciplined false (C.expand p) := by
  induction p with
  | done value => exact .done value
  | act a next ih =>
    rw [expand]
    cases hcode : C.code a with
    | none => exact .outer ih
    | some q => exact (hC a q hcode).disciplined.bind ih

/-- The coarse machine can go from one program to the other by code that does nothing. -/
def Skips (C : Sections R RI S D L) (p p' : Program R α) : Prop :=
  ∀ (x : S × D) (l : L) (before after : List (L × Program R α)), ∃ labels,
    Run C.coarse ⟨x, before ++ (l, p) :: after⟩ labels ⟨x, before ++ (l, p') :: after⟩ ∧
      C.seen labels = []

theorem Skips.refl (p : Program R α) : C.Skips p p :=
  fun _ _ _ _ => ⟨[], .nil _, rfl⟩

theorem Skips.cons {a : A} {next : R a → Program R α} {r : R a} {p' : Program R α}
    (hcode : C.code a = some (.done r)) (h : C.Skips (next r) p') : C.Skips (.act a next) p' := by
  intro x l before after
  obtain ⟨labels, hrun, hseen⟩ := h x l before after
  have hwhole : C.Whole a (x.1, x.2) l r (x.1, x.2) l := .code hcode (.done r x.2 l)
  refine ⟨⟨before.length, a, r⟩ :: labels, .cons (.act hwhole) hrun, ?_⟩
  rw [← List.singleton_append, seen_append, seen_code hcode, hseen]
  rfl

/-- A thread that is not in its code does an action outside of all code next, or takes the
mutex. -/
theorem expand_act (hC : C.OneEach) {p : Program R α} {x : Fine A I}
    {nx : Fine.Result R RI x → Program (Fine.Result R RI) α} (hp : C.expand p = .act x nx) :
    ∃ a next, C.Skips p (.act a next) ∧
      (C.code a = none ∧ C.expand (.act a next) = .act x nx ∧ x = .outer a ∨
        ∃ nq, C.code a = some (.act .lock nq) ∧ Behind (nq ()) ∧ C.expand (.act a next) = .act x nx ∧
          x = .lock) := by
  induction p with
  | done value => cases hp
  | act a next ih =>
    cases hcode : C.code a with
    | none =>
      refine ⟨a, next, .refl _, .inl ⟨hcode, hp, ?_⟩⟩
      rw [expand, hcode] at hp
      cases hp
      rfl
    | some q =>
      cases hC a q hcode with
      | done r =>
        have hskip : C.expand (.act a next) = C.expand (next r) := by
          rw [expand, hcode]
          rfl
        rw [hskip] at hp
        obtain ⟨a', next', hskips, hact⟩ := ih r hp
        exact ⟨a', next', .cons hcode hskips, hact⟩
      | @lock nq hbehind =>
        refine ⟨a, next, .refl _, .inr ⟨nq, hcode, hbehind, hp, ?_⟩⟩
        rw [expand, hcode] at hp
        cases hp
        rfl

theorem expand_done (hC : C.OneEach) {p : Program R α} {value : α} (hp : C.expand p = .done value) :
    C.Skips p (.done value) := by
  induction p with
  | done v =>
    cases hp
    exact .refl _
  | act a next ih =>
    rw [expand] at hp
    cases hcode : C.code a with
    | none =>
      rw [hcode] at hp
      cases hp
    | some q =>
      rw [hcode] at hp
      cases hC a q hcode with
      | done r => exact .cons hcode (ih r hp)
      | lock => cases hp

/-- A thread of the fine machine and one of the coarse machine. The one that is in its code has
not begun it on the coarse machine; `d₀` is what was behind the mutex when it took it. -/
inductive Counterpart (C : Sections R RI S D L) (d d₀ : D) :
    L × Program (Fine.Result (A := A) (I := I) R RI) α → Bool × L × Program R α → Prop
  | free (l : L) (p : Program R α) : Counterpart C d d₀ (l, C.expand p) (false, l, p)
  | inside {l l₀ : L} {a : A} {next : R a → Program R α} {q rest : Program (Fine.Result R RI) (R a)}
      (hcode : C.code a = some q) (hrest : Behind rest)
      (halone : ∀ r d' l', Alone C.inner rest d l r d' l' → Alone C.inner q d₀ l₀ r d' l') :
      Counterpart C d d₀ (l, rest >>= fun r => C.expand (next r)) (true, l₀, .act a next)

theorem Counterpart.inv {d d₀ : D} {l m : L} {prog : Program (Fine.Result (A := A) (I := I) R RI) α}
    {b : Bool} {p : Program R α} (h : Counterpart C d d₀ (l, prog) (b, m, p)) :
    (b = false ∧ m = l ∧ prog = C.expand p) ∨ (b = true ∧ ∃ a next q rest, p = .act a next ∧
      C.code a = some q ∧ Behind rest ∧ prog = (rest >>= fun r => C.expand (next r)) ∧
      ∀ r d' l', Alone C.inner rest d l r d' l' → Alone C.inner q d₀ m r d' l') := by
  cases h with
  | free => exact .inl ⟨rfl, rfl, rfl⟩
  | inside hcode hrest halone => exact .inr ⟨rfl, _, _, _, _, rfl, hcode, hrest, rfl, halone⟩

/-- What is behind the mutex does not matter for a thread that is not there. -/
theorem Counterpart.move {d d₀ : D} {x : L × Program (Fine.Result (A := A) (I := I) R RI) α}
    {t : Bool × L × Program R α} (h : Counterpart C d d₀ x t) (ht : t.1 = false) (d' d₀' : D) :
    Counterpart C d' d₀' x t := by
  cases h with
  | free l p => exact .free l p
  | inside => cases ht

/-- What the counterpart of a thread does while the thread does one step: an action outside of
all code, the code as a whole when the thread gives the mutex back, or nothing. -/
structure Mirrored (C : Sections R RI S D L) (before after : List (L × Program R α)) (y y' : Locked S D)
    (d₀ : D) (t : Bool × L × Program R α) (x' : L × Program (Fine.Result (A := A) (I := I) R RI) α)
    (label : Option (Label R)) (labels : List (Label R)) (d₁ : D) (t' : Bool × L × Program R α) :
    Prop where
  run : Run C.coarse ⟨(y.outside, d₀), before ++ t.2 :: after⟩ labels
    ⟨(y'.outside, d₁), before ++ t'.2 :: after⟩
  seen : C.seen labels = label.toList
  counterpart : Counterpart C y'.inside d₁ x' t'
  mutex : y'.held.toNat + t.1.toNat = y.held.toNat + t'.1.toNat
  free : y'.held = false → d₁ = y'.inside
  others : t.1 = false → y'.inside = y.inside ∧ d₁ = d₀

theorem mirrored_free (hC : C.OneEach) {y y' : Locked S D} {d₀ : D} (hfree : y.held = false → d₀ = y.inside)
    {x : Fine A I} {nx : Fine.Result R RI x → Program (Fine.Result R RI) α} {p : Program R α}
    (hp : C.expand p = .act x nx) {l l' : L} {r : Fine.Result R RI x}
    (heffect : C.Effect x y l r y' l') (before after : List (L × Program R α)) : ∃ labels d₁ t',
      Mirrored C before after y y' d₀ (false, l, p) (l', nx r) (outerLabel ⟨before.length, x, r⟩)
        labels d₁ t' := by
  obtain ⟨a, next, hskips, ⟨hcode, hact, rfl⟩ | ⟨nq, hcode, hbehind, hact, rfl⟩⟩ := expand_act hC hp
  · obtain ⟨hout, hinside, hheld⟩ := heffect
    obtain ⟨labels, hrun, hseen⟩ := hskips (y.outside, d₀) l before after
    rw [expand, hcode] at hact
    cases hact
    refine ⟨labels ++ [⟨before.length, a, r⟩], d₀, (false, l', next r), ?_, ?_, .free l' (next r), ?_,
      ?_, fun _ => ⟨hinside, rfl⟩⟩
    · exact hrun.append (.cons (.act (.outer hcode hout)) (.nil _))
    · rw [seen_append, hseen, seen_outer hcode]
      rfl
    · rw [hheld]
    · rw [hheld, hinside]
      exact hfree
  · obtain ⟨hheld, rfl, rfl⟩ := heffect
    obtain rfl := hfree hheld
    obtain ⟨labels, hrun, hseen⟩ := hskips (y.outside, y.inside) l' before after
    rw [expand, hcode] at hact
    cases hact
    refine ⟨labels, y.inside, (true, l', .act a next), hrun, hseen, ?_, ?_, nofun, fun _ => ⟨rfl, rfl⟩⟩
    · exact .inside hcode hbehind fun _ _ _ h => .lock h
    · rw [hheld]
      rfl

theorem mirrored_inside {y y' : Locked S D} {d₀ : D} (hheld : y.held = true) {a : A}
    {next : R a → Program R α} {q rest : Program (Fine.Result (A := A) (I := I) R RI) (R a)} {l m : L}
    (hcode : C.code a = some q) (hrest : Behind rest)
    (halone : ∀ r d' l', Alone C.inner rest y.inside l r d' l' → Alone C.inner q d₀ m r d' l')
    {x : Fine A I} {nx : Fine.Result R RI x → Program (Fine.Result R RI) α}
    (hp : (rest >>= fun r => C.expand (next r)) = .act x nx) {l' : L} {r : Fine.Result R RI x}
    (heffect : C.Effect x y l r y' l') (before after : List (L × Program R α)) : ∃ labels d₁ t',
      Mirrored C before after y y' d₀ (true, m, .act a next) (l', nx r)
        (outerLabel ⟨before.length, x, r⟩) labels d₁ t' := by
  cases hrest with
  | inner hnext =>
    cases hp
    obtain ⟨hinner, hout, hmutex⟩ := heffect
    refine ⟨[], d₀, (true, m, .act a next), ?_, rfl, ?_, by rw [hmutex], ?_, nofun⟩
    · rw [hout]
      exact .nil _
    · exact .inside hcode (hnext r) fun r' d' l' h => halone r' d' l' (.inner hinner h)
    · intro hnot
      rw [hmutex, hheld] at hnot
      cases hnot
  | @unlock nq value hvalue =>
    cases hp
    obtain ⟨rfl, rfl⟩ := heffect
    have hwhole : C.Whole a (y.outside, d₀) m value (y.outside, y.inside) l' := by
      apply Whole.code hcode (halone value y.inside l' (.unlock _))
      rw [hvalue]
      exact .done value y.inside l'
    refine ⟨[⟨before.length, a, value⟩], y.inside, (false, l', next value),
      .cons (.act hwhole) (.nil _), seen_code hcode, ?_, ?_, fun _ => rfl, nofun⟩
    · change Counterpart C _ _ (l', nq () >>= fun r => C.expand (next r)) _
      rw [hvalue]
      exact .free l' (next value)
    · rw [hheld]
      rfl

/-- The pool of the coarse machine that stands for a pool of the fine one. -/
def Mirrors (C : Sections R RI S D L) (pool : Pool (Fine.Result (A := A) (I := I) R RI) (Locked S D) L α)
    (mirror : Pool R (S × D) L α) : Prop :=
  ∃ marked : List (Bool × L × Program R α), mirror.threads = marked.map Prod.snd ∧
    List.Forall₂ (Counterpart C pool.shared.inside mirror.shared.2) pool.threads marked ∧
    (marked.map Prod.fst).count true = pool.shared.held.toNat ∧
    mirror.shared.1 = pool.shared.outside ∧
    (pool.shared.held = false → mirror.shared.2 = pool.shared.inside)

theorem mirrors_start (s : S) (d : D) (threads : List (L × Program R α)) :
    C.Mirrors ⟨⟨s, d, false⟩, threads.map C.expanded⟩ ⟨(s, d), threads⟩ := by
  refine ⟨threads.map (fun t => (false, t)), ?_, ?_, ?_, rfl, fun _ => rfl⟩
  · rw [List.map_map]
    exact (List.map_id threads).symm
  · rw [List.forall₂_map_left_iff, List.forall₂_map_right_iff, List.forall₂_same]
    exact fun t _ => .free t.1 t.2
  · apply List.count_eq_zero.mpr
    simp

theorem Mirrors.step (hC : C.OneEach)
    {pool pool₁ : Pool (Fine.Result (A := A) (I := I) R RI) (Locked S D) L α}
    {mirror : Pool R (S × D) L α} (hm : C.Mirrors pool mirror)
    {label : Label (Fine.Result (A := A) (I := I) R RI)} (hstep : Step C.fine pool label pool₁) :
    ∃ labels mirror₁, Run C.coarse mirror labels mirror₁ ∧ C.Mirrors pool₁ mirror₁ ∧
      C.seen labels = (outerLabel label).toList := by
  obtain ⟨⟨s, d₀⟩, threads⟩ := mirror
  obtain ⟨marked, rfl, hcounterparts, hcount, hs, hfree⟩ := hm
  cases hstep with
  | @act y y' l l' before after x nx r heffect =>
    cases hs
    obtain ⟨before', ⟨b, m, p⟩, after', rfl, hbefore, hthread, hafter⟩ := forall₂_split hcounterparts
    have hlength : (before'.map Prod.snd).length = before.length := by
      rw [List.length_map, hbefore.length_eq]
    rw [List.map_append, List.map_cons] at hcount
    have hmirrored : ∃ labels d₁ t', Mirrored C (before'.map Prod.snd) (after'.map Prod.snd) y y' d₀
        (b, m, p) (l', nx r) (outerLabel ⟨before.length, x, r⟩) labels d₁ t' := by
      rw [← hlength]
      rcases hthread.inv with ⟨rfl, rfl, hp⟩ |
        ⟨rfl, a, next, q, rest, rfl, hcode, hrest, hp, halone⟩
      · exact mirrored_free hC hfree hp.symm heffect _ _
      · exact mirrored_inside (held_alone hcount).1 hcode hrest halone hp.symm heffect _ _
    obtain ⟨labels, d₁, t', hrun, hseen, hcounterpart, hmutex, hfree', hothers⟩ := hmirrored
    have hmove : ∀ (u : L × Program (Fine.Result R RI) α) (v : Bool × L × Program R α),
        v ∈ before' ++ after' → Counterpart C y.inside d₀ u v → Counterpart C y'.inside d₁ u v := by
      intro u v hv h
      cases b with
      | false =>
        obtain ⟨hinside, rfl⟩ := hothers rfl
        rwa [hinside]
      | true =>
        apply h.move ((held_alone hcount).2 v.1 _)
        rw [← List.map_append]
        exact List.mem_map_of_mem hv
    refine ⟨labels, ⟨(y'.outside, d₁), (before' ++ t' :: after').map Prod.snd⟩, ?_,
      ⟨before' ++ t' :: after', rfl, ?_, ?_, rfl, hfree'⟩, hseen⟩
    · rw [List.map_append, List.map_append]
      exact hrun
    · exact forall₂_join (forall₂_imp hbefore fun u v hv => hmove u v (List.mem_append_left _ hv))
        hcounterpart (forall₂_imp hafter fun u v hv => hmove u v (List.mem_append_right _ hv))
    · rw [List.map_append, List.map_cons]
      rw [List.count_append, count_cons_true] at hcount ⊢
      dsimp only at hcount hmutex ⊢
      omega

theorem Mirrors.run (hC : C.OneEach)
    {pool pool₁ : Pool (Fine.Result (A := A) (I := I) R RI) (Locked S D) L α}
    {labels : List (Label (Fine.Result (A := A) (I := I) R RI))} (hrun : Run C.fine pool labels pool₁)
    {mirror : Pool R (S × D) L α} (hm : C.Mirrors pool mirror) :
    ∃ labels' mirror₁, Run C.coarse mirror labels' mirror₁ ∧ C.Mirrors pool₁ mirror₁ ∧
      C.seen labels' = labels.filterMap outerLabel := by
  induction hrun generalizing mirror with
  | nil pool => exact ⟨[], mirror, .nil _, hm, rfl⟩
  | @cons pool pool₁ pool₂ label labels hstep hrun ih =>
    obtain ⟨labels₁, mirror₁, hrun₁, hm₁, hseen₁⟩ := hm.step hC hstep
    obtain ⟨labels₂, mirror₂, hrun₂, hm₂, hseen₂⟩ := ih hm₁
    refine ⟨labels₁ ++ labels₂, mirror₂, hrun₁.append hrun₂, hm₂, ?_⟩
    rw [seen_append, hseen₁, hseen₂, List.filterMap_cons]
    cases outerLabel label <;> rfl

/-- Threads whose code is done on the fine machine can be done on the coarse one. -/
theorem skips_all {x : S × D} {threads : List (L × Program R α)} {values : List α}
    (h : List.Forall₂ (fun t value => C.Skips t.2 (.done value)) threads values)
    (before : List (L × Program R α)) : ∃ labels rest, Run C.coarse ⟨x, before ++ threads⟩ labels
      ⟨x, before ++ rest⟩ ∧ rest.map Prod.snd = values.map .done ∧ C.seen labels = [] := by
  induction h generalizing before with
  | nil => exact ⟨[], [], .nil _, rfl, rfl⟩
  | @cons t value threads values hskips _ ih =>
    obtain ⟨labels₁, hrun₁, hseen₁⟩ := hskips x t.1 before threads
    obtain ⟨labels₂, rest, hrun₂, hdone, hseen₂⟩ := ih (before ++ [(t.1, .done value)])
    rw [List.append_assoc, List.append_assoc] at hrun₂
    refine ⟨labels₁ ++ labels₂, (t.1, .done value) :: rest, hrun₁.append hrun₂, ?_, ?_⟩
    · rw [List.map_cons, List.map_cons, hdone]
    · rw [seen_append, hseen₁, hseen₂]
      rfl

theorem Counterpart.done (hC : C.OneEach) {d d₀ : D}
    {x : L × Program (Fine.Result (A := A) (I := I) R RI) α} {t : Bool × L × Program R α}
    (h : Counterpart C d d₀ x t) {value : α} (hx : x.2 = .done value) :
    t.1 = false ∧ C.Skips t.2.2 (.done value) := by
  cases h with
  | free l p => exact ⟨rfl, expand_done hC hx⟩
  | inside _ hrest _ => cases hrest <;> cases hx

theorem counterparts_done (hC : C.OneEach) {d d₀ : D}
    {threads : List (L × Program (Fine.Result (A := A) (I := I) R RI) α)}
    {marked : List (Bool × L × Program R α)} (h : List.Forall₂ (Counterpart C d d₀) threads marked)
    {values : List α} (hdone : threads.map Prod.snd = values.map .done) :
    (∀ b ∈ marked.map Prod.fst, b = false) ∧
      List.Forall₂ (fun t value => C.Skips t.2 (.done value)) (marked.map Prod.snd) values := by
  induction h generalizing values with
  | nil =>
    cases values with
    | nil => exact ⟨fun b hb => absurd hb List.not_mem_nil, .nil⟩
    | cons => cases hdone
  | cons hthread _ ih =>
    cases values with
    | nil => cases hdone
    | cons value values =>
      rw [List.map_cons, List.map_cons, List.cons.injEq] at hdone
      obtain ⟨hfree, hskips⟩ := hthread.done hC hdone.1
      obtain ⟨hrest, hall⟩ := ih hdone.2
      refine ⟨?_, .cons hskips hall⟩
      intro b hb
      rcases List.mem_cons.mp hb with rfl | hb
      · exact hfree
      · exact hrest b hb

/-- At the end nobody holds the mutex, and the coarse machine can come to the same. -/
theorem Mirrors.finished (hC : C.OneEach)
    {pool : Pool (Fine.Result (A := A) (I := I) R RI) (Locked S D) L α}
    {mirror : Pool R (S × D) L α} (hm : C.Mirrors pool mirror) {values : List α}
    (hdone : pool.Finished values) : ∃ labels mirror₁, Run C.coarse mirror labels mirror₁ ∧
      mirror₁.Finished values ∧ mirror₁.shared = (pool.shared.outside, pool.shared.inside) ∧
      C.seen labels = [] := by
  obtain ⟨⟨s, d₀⟩, threads⟩ := mirror
  obtain ⟨marked, rfl, hcounterparts, hcount, rfl, hfree⟩ := hm
  obtain ⟨hnone, hskips⟩ := counterparts_done hC hcounterparts hdone
  have hheld : pool.shared.held = false := by
    have hzero : (marked.map Prod.fst).count true = 0 :=
      List.count_eq_zero.mpr fun h => absurd (hnone true h) (by decide)
    rw [hzero] at hcount
    cases hmutex : pool.shared.held with
    | false => rfl
    | true => simp [hmutex] at hcount
  obtain ⟨labels, rest, hrun, hvalues, hseen⟩ := skips_all (x := (pool.shared.outside, d₀)) hskips []
  refine ⟨labels, ⟨(pool.shared.outside, d₀), rest⟩, hrun, hvalues, ?_, hseen⟩
  rw [← hfree hheld]

/-- Atomicity: whatever the steps of the code do among those of the other threads, the code
does it as one action. -/
theorem atomic (hC : C.OneEach) {s : S} {d : D} {threads : List (L × Program R α)}
    {labels : List (Label (Fine.Result (A := A) (I := I) R RI))}
    {pool : Pool (Fine.Result (A := A) (I := I) R RI) (Locked S D) L α} {values : List α}
    (hrun : Run C.fine ⟨⟨s, d, false⟩, threads.map C.expanded⟩ labels pool)
    (hdone : pool.Finished values) : ∃ labels' mirror,
      Run C.coarse ⟨(s, d), threads⟩ labels' mirror ∧ mirror.Finished values ∧
      mirror.shared = (pool.shared.outside, pool.shared.inside) ∧
      C.seen labels' = labels.filterMap outerLabel := by
  obtain ⟨labels₁, mirror₁, hrun₁, hm, hseen₁⟩ := Mirrors.run hC hrun (mirrors_start s d threads)
  obtain ⟨labels₂, mirror₂, hrun₂, hdone₂, hshared, hseen₂⟩ := hm.finished hC hdone
  refine ⟨labels₁ ++ labels₂, mirror₂, hrun₁.append hrun₂, hdone₂, hshared, ?_⟩
  rw [seen_append, hseen₁, hseen₂, List.append_nil]

end Sections

end DistillerFS.Foundations
