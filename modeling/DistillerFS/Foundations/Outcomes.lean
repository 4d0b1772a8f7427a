import Mathlib.Data.List.Induction

/-!
# Values or errors

What a computation gives if it succeeds, and what it gives if it fails. The rules follow
the way in which it is put together.
-/
namespace DistillerFS.Foundations

universe u

section Bind
variable {ε : Type*} {α β : Type u}

@[simp] theorem ok_bind (a : α) (f : α → Except ε β) : (Except.ok a >>= f) = f a := rfl

@[simp] theorem pure_eq_ok (a : α) : (pure a : Except ε α) = .ok a := rfl

end Bind

section Yields
variable {ε : Type*} {α β : Type u} {P Q : α → Prop} {R : β → Prop} {E F : ε → Prop}

/-- A value has the one property, an error the other. -/
def Yields (x : Except ε α) (Q : α → Prop) (E : ε → Prop) : Prop :=
  (∀ a, x = .ok a → Q a) ∧ ∀ e, x = .error e → E e

theorem Yields.value {x : Except ε α} (h : Yields x Q E) {a : α} (ha : x = .ok a) : Q a := h.1 a ha

theorem Yields.failure {x : Except ε α} (h : Yields x Q E) {e : ε} (he : x = .error e) : E e := h.2 e he

theorem yields_ok {a : α} : Yields (.ok a : Except ε α) Q E ↔ Q a := by
  constructor
  · intro h
    exact h.value rfl
  · intro ha
    constructor
    · intro b hb
      cases hb
      exact ha
    · intro e he
      cases he

theorem yields_error {e : ε} : Yields (.error e : Except ε α) Q E ↔ E e := by
  constructor
  · intro h
    exact h.failure rfl
  · intro he
    constructor
    · intro a ha
      cases ha
    · intro f hf
      cases hf
      exact he

theorem yields_pure {a : α} : Yields (pure a : Except ε α) Q E ↔ Q a := yields_ok

theorem Yields.mono {x : Except ε α} (h : Yields x P E) (hQ : ∀ a, P a → Q a)
    (hF : ∀ e, E e → F e) : Yields x Q F :=
  ⟨fun a ha => hQ a (h.value ha), fun e he => hF e (h.failure he)⟩

theorem Yields.weaken {x : Except ε α} (h : Yields x P E) (hQ : ∀ a, P a → Q a) : Yields x Q E :=
  h.mono hQ (fun _ he => he)

/-- The second computation starts from what the first one gives. -/
theorem Yields.bind {x : Except ε α} {f : α → Except ε β} (h : Yields x P E)
    (hf : ∀ a, P a → Yields (f a) R E) : Yields (x >>= f) R E := by
  cases x with
  | error e => exact yields_error.mpr (h.failure rfl)
  | ok a => exact hf a (h.value rfl)

theorem Yields.map {x : Except ε α} {f : α → β} (h : Yields x (fun a => R (f a)) E) :
    Yields (x.map f) R E := by
  cases x with
  | error e => exact yields_error.mpr (h.failure rfl)
  | ok a => exact yields_ok.mpr (h.value rfl)

theorem yields_ite {c : Prop} [Decidable c] {x y : Except ε α} (hx : c → Yields x Q E)
    (hy : ¬ c → Yields y Q E) : Yields (if c then x else y) Q E := by
  by_cases h : c
  · rw [if_pos h]
    exact hx h
  · rw [if_neg h]
    exact hy h

end Yields

section Pairs
variable {ε α β γ δ : Type u} {R : α → β → Prop} {Q : γ → δ → Prop}

/-- Two computations that end alike: with related values, or with the same error. -/
def Matches (R : α → β → Prop) : Except ε α → Except ε β → Prop
  | .ok a, .ok b => R a b
  | .error e, .error e' => e = e'
  | .ok _, .error _ | .error _, .ok _ => False

theorem Matches.value {x : Except ε α} {y : Except ε β} (h : Matches R x y) {b : β}
    (hy : y = .ok b) : ∃ a, x = .ok a ∧ R a b := by
  subst hy
  cases x with
  | error e => exact h.elim
  | ok a => exact ⟨a, rfl, h⟩

theorem Matches.bind {x : Except ε α} {y : Except ε β} (h : Matches R x y) {f : α → Except ε γ}
    {g : β → Except ε δ} (hf : ∀ a b, R a b → Matches Q (f a) (g b)) :
    Matches Q (x >>= f) (y >>= g) := by
  cases x with
  | error e => cases y with
    | error e' => exact h
    | ok b => exact h.elim
  | ok a => cases y with
    | error e' => exact h.elim
    | ok b => exact hf a b h

/-- Two loops over one list, related in every round. -/
theorem Matches.foldlM {l : List γ} {step : α → γ → Except ε α} {step' : β → γ → Except ε β}
    (hstep : ∀ a b c, R a b → Matches R (step a c) (step' b c)) {a : α} {b : β} (h : R a b) :
    Matches R (l.foldlM step a) (l.foldlM step' b) := by
  induction l generalizing a b with
  | nil => exact h
  | cons c l ih =>
    rw [List.foldlM_cons, List.foldlM_cons]
    exact (hstep a b c h).bind fun _ _ => ih

end Pairs

section Runs
variable {ε α σ : Type u} {step : σ → α → Except ε σ} {init : σ}

/-- What holds at the start and what every step of a run gives, about the part of the run
that is done. -/
theorem foldlM_runs {R : List α → σ → Prop} (l : List α) (hinit : R [] init)
    (hstep : ∀ before a s, before ++ [a] <+: l → R before s →
      ∃ s', step s a = .ok s' ∧ R (before ++ [a]) s') :
    ∃ s, l.foldlM step init = .ok s ∧ R l s := by
  induction l using List.reverseRecOn with
  | nil => exact ⟨init, rfl, hinit⟩
  | append_singleton l a ih =>
    obtain ⟨s, hs, hr⟩ := ih (fun before b s hle => hstep before b s (hle.trans (List.prefix_append l [a])))
    obtain ⟨s', hs', hr'⟩ := hstep l a s List.prefix_rfl hr
    refine ⟨s', ?_, hr'⟩
    rw [List.foldlM_append, hs, ok_bind, List.foldlM_cons, hs', ok_bind]
    rfl

/-- A run whose every step appends something appends all of it. -/
theorem foldlM_appends {β : Type u} {l : List α} {step : List β → α → Except ε (List β)}
    {f : α → List β} (h : ∀ a ∈ l, ∀ dest, step dest a = .ok (dest ++ f a)) (dest : List β) :
    l.foldlM step dest = .ok (dest ++ l.flatMap f) := by
  induction l generalizing dest with
  | nil => simp
  | cons a l ih =>
    rw [List.foldlM_cons, h a (by simp), ok_bind, ih (fun b hb => h b (List.mem_cons_of_mem _ hb)),
      List.append_assoc, List.flatMap_cons]

end Runs

end DistillerFS.Foundations
