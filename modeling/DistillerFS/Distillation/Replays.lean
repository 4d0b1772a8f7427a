import DistillerFS.Distillation.OrderIndependence

/-!
# Replayed logs

Scripts of several logs, or of one log more than once, on one destination. What is there at
the end depends on nothing but the set of the lines: a placeholder never replaces a copy, and
a copy always replaces a placeholder.
-/
namespace DistillerFS
open Foundations

/-- Every line that opened the path `q` wants the node `x` there. -/
def Agreed (src : FileTree) (done : List (CString × List CString)) (q : List CString)
    (x : Node Leaf) : Prop :=
  ∀ e ∈ done, e.2 = q → opensFile e.1 = true → src.node q = some x

/-- The destination has the root and what the lines done so far are there to make, with the
copies before the placeholders. -/
def Filled (src : FileTree) (done : List (CString × List CString)) (t : FileTree) : Prop :=
  ∀ q x, t.node q = some x ↔
    q = [] ∧ x = .dir ∨ (∃ e ∈ done, Makes src e.1 e.2 q x) ∧ Agreed src done q x

theorem Filled.empty (src : FileTree) : Filled src [] .empty := by
  intro q x
  simp [eq_comm]

theorem Filled.unique {src : FileTree} {done done' : List (CString × List CString)}
    {t t' : FileTree} (h : Filled src done t) (h' : Filled src done' t')
    (hsame : ∀ e, e ∈ done ↔ e ∈ done') : t = t' := by
  ext1
  funext q
  apply Option.ext
  intro x
  rw [h q x, h' q x]
  simp only [Agreed, hsame]

section Step
variable {src t t' : FileTree} {done : List (CString × List CString)} {flags : CString}
  {p q : List CString} {x : Node Leaf}

theorem agreed_of_source (h : src.node q = some x) : Agreed src done q x :=
  fun _ _ _ _ => h

theorem agreed_concat : Agreed src (done ++ [(flags, p)]) q x ↔
    Agreed src done q x ∧ (p = q → opensFile flags = true → src.node q = some x) := by
  simp only [Agreed, List.mem_append, List.mem_singleton, or_imp, forall_and, forall_eq]

theorem Filled.within (hf : Filled src done t) (hs : ∀ e ∈ done, Sound src e.1 e.2) : Within src t := by
  intro q x hx
  rcases (hf q x).mp hx with ⟨rfl, rfl⟩ | ⟨⟨e, he, hmakes⟩, -⟩
  · exact ⟨.dir, src.root, rfl⟩
  · exact hmakes.kinds (hs e he)

theorem Makes.leaf {a : Leaf} (h : Makes src flags p q (.leaf a)) :
    (p = q ∧ opensFile flags = true ∧ src.node q = some (.leaf a)) ∨ a = .file [] := by
  unfold Makes at h
  split_ifs at h with ho
  · rcases h with ⟨-, hx⟩ | ⟨rfl, hx⟩
    · cases hx
    · exact .inl ⟨rfl, ho, hx⟩
  · cases h.2
  · rcases h with ⟨-, hx⟩ | ⟨-, -, hx⟩
    · cases hx
    · cases hx
      exact .inr rfl

theorem Filled.concat (hf : Filled src done t)
    (hother : ∀ q x, q ≠ p → (t'.node q = some x ↔ t.node q = some x ∨ Makes src flags p q x))
    (hdirs : ∀ q x, q ≠ p → Makes src flags p q x → src.node q = some x)
    (hself : ∀ x, t'.node p = some x ↔ p = [] ∧ x = .dir ∨
      ((∃ e ∈ done, Makes src e.1 e.2 p x) ∨ Makes src flags p p x) ∧
        Agreed src (done ++ [(flags, p)]) p x) :
    Filled src (done ++ [(flags, p)]) t' := by
  intro q x
  simp only [List.mem_append, List.mem_singleton, or_and_right, exists_or, exists_eq_left]
  by_cases hq : q = p
  · rw [hq, hself, or_and_right]
  · have hagreed : Agreed src (done ++ [(flags, p)]) q x ↔ Agreed src done q x := by
      rw [agreed_concat, and_iff_left_iff_imp]
      intro _ hp
      exact absurd hp.symm hq
    rw [hother q x hq, hf, hagreed, or_assoc]
    refine or_congr_right (or_congr_right ?_)
    rw [iff_self_and]
    exact fun hmakes => agreed_of_source (hdirs q x hq hmakes)

/-- Above its own path a sound line makes directories of the source only. -/
theorem Sound.dirs (hsound : Sound src flags p) (hq : q ≠ p) (h : Makes src flags p q x) :
    src.node q = some x := by
  have hx := h.dir hq
  obtain ⟨y, hy, hkind⟩ := h.kinds hsound
  rw [hx] at hkind ⊢
  rw [hy, nodeKind_directory.mp hkind.symm]

/-- The directory part of a line, and what is left at its own place. -/
theorem Filled.parents (hf : Filled src done t) (hs : ∀ e ∈ done, Sound src e.1 e.2)
    (hexists : src.node p ≠ none) (hleaf : src.node p ≠ some .dir) :
    ∃ t₁, t.mkdirP p.dropLast = some t₁ ∧ t₁.node p = t.node p ∧ t₁.node p ≠ some .dir ∧
      t₁.node p.dropLast = some .dir ∧
      ∀ q x, t₁.node q = some x ↔ t.node q = some x ∨ q <+: p.dropLast ∧ x = .dir := by
  have hw := hf.within hs
  have hroot : p ≠ [] := by
    rintro rfl
    exact hleaf src.root
  have hself : ¬ p <+: p.dropLast := PathTree.not_prefix_dropLast hroot
  obtain ⟨t₁, hmkdir, ht₁⟩ := hw.mkdirP (fun q hq => dir_of_prefix_dropLast hexists hq)
  have hsame : t₁.node p = t.node p := by
    apply Option.ext
    intro x
    rw [ht₁]
    simp [hself]
  refine ⟨t₁, hmkdir, hsame, ?_, (ht₁ _ _).mpr (.inr ⟨List.prefix_rfl, rfl⟩), ht₁⟩
  rw [hsame]
  intro hdir
  obtain ⟨y, hy, hkind⟩ := hw p .dir hdir
  rw [nodeKind_directory.mp hkind.symm] at hy
  exact hleaf hy

theorem Filled.distil_opened (hf : Filled src done t) (hs : ∀ e ∈ done, Sound src e.1 e.2)
    (hsound : Sound src flags p) (ho : opensFile flags = true) :
    ∃ t', distil src flags p t = some t' ∧ Filled src (done ++ [(flags, p)]) t' := by
  obtain ⟨y, hy⟩ := Option.ne_none_iff_exists'.mp hsound.existing
  cases y with
  | dir => exact absurd hy (hsound.opened ho)
  | leaf a =>
    obtain ⟨t₁, hmkdir, -, hplace, hparent, ht₁⟩ := hf.parents hs hsound.existing (hsound.opened ho)
    have hroot : p ≠ [] := by
      rintro rfl
      exact hsound.opened ho src.root
    obtain ⟨t', hput⟩ := PathTree.exists_put hroot hparent hplace a
    have hcopy : src.copyLeaf t₁ p p = t₁.put p a := by
      unfold PathTree.copyLeaf
      rw [hy]
      cases hnode : t₁.node p with
      | none => rfl
      | some z =>
        cases z with
        | dir => exact absurd hnode hplace
        | leaf b => rfl
    have ht' := (PathTree.put_eq_some.mp hput).2
    refine ⟨t', by simp [distil, ho, hmkdir, hcopy, hput], hf.concat ?_ ?_ ?_⟩
    · intro q x hq
      rw [ht', Function.update_of_ne hq, ht₁]
      simp [Makes, ho, hq]
    · exact fun q x hq => hsound.dirs hq
    · intro x
      rw [ht', Function.update_self, agreed_concat]
      have hmakes : Makes src flags p p x ↔ src.node p = some x := by
        simp [Makes, ho, PathTree.not_prefix_dropLast hroot]
      rw [hmakes, hy]
      simp only [hroot, false_and, false_or, Option.some.injEq, forall_const, ho]
      constructor
      · rintro rfl
        exact ⟨.inr rfl, agreed_of_source hy, rfl⟩
      · exact fun h => h.2.2

theorem Filled.distil_listed (hf : Filled src done t) (hs : ∀ e ∈ done, Sound src e.1 e.2)
    (hsound : Sound src flags p) (ho : opensFile flags = false)
    (hG : stringFind flags 'G' = true) (hd : stringFind flags 'd' = true) :
    ∃ t', distil src flags p t = some t' ∧ Filled src (done ++ [(flags, p)]) t' := by
  have hfits := hsound.fits ho hG
  rw [if_pos hd] at hfits
  have hdirs : ∀ q, q <+: p → src.node q = some .dir := by
    intro q hq
    by_cases hne : q = p
    · rw [hne, hfits]
    · exact src.node_of_prefix hq hne hsound.existing
  obtain ⟨t', hmkdir, ht'⟩ := (hf.within hs).mkdirP hdirs
  have hmakes : ∀ q x, Makes src flags p q x ↔ q <+: p ∧ x = .dir := by
    simp [Makes, ho, hG, hd]
  refine ⟨t', by simp [distil, ho, hG, hd, hmkdir], hf.concat ?_ ?_ ?_⟩
  · intro q x _
    rw [ht', hmakes]
  · exact fun q x hq => hsound.dirs hq
  · intro x
    rw [ht', hf p x, hmakes, agreed_concat]
    simp only [ho, Bool.false_eq_true, false_implies, implies_true, and_true, List.prefix_rfl, true_and,
      or_assoc, or_and_right]
    refine or_congr_right (or_congr_right ?_)
    rw [iff_self_and]
    rintro rfl
    exact agreed_of_source hfits

theorem agreed_unopened (ho : opensFile flags = false) :
    Agreed src (done ++ [(flags, p)]) q x ↔ Agreed src done q x := by
  simp [agreed_concat, ho]

theorem Filled.node_iff (hf : Filled src done t) (hroot : p ≠ []) :
    t.node p = some x ↔ (∃ e ∈ done, Makes src e.1 e.2 p x) ∧ Agreed src done p x := by
  rw [hf]
  simp [hroot]

section Placeholder
variable (ho : opensFile flags = false) (hG : stringFind flags 'G' = true)
  (hd : stringFind flags 'd' = false)
include ho hG hd

theorem makes_placeholder (hroot : p ≠ []) : Makes src flags p p x ↔ x = .leaf (.file []) := by
  simp [Makes, ho, hG, hd, PathTree.not_prefix_dropLast hroot, hroot]

theorem makes_above_placeholder (hq : q ≠ p) :
    Makes src flags p q x ↔ q <+: p.dropLast ∧ x = .dir := by
  simp [Makes, ho, hG, hd, hq]

theorem Filled.distil_touched_root (hf : Filled src done t) (hsound : Sound src flags []) :
    ∃ t', distil src flags [] t = some t' ∧ Filled src (done ++ [(flags, [])]) t' := by
  refine ⟨t, by simp [distil, ho, hG, hd, mkdirP_nil, PathTree.touch, t.root], hf.concat ?_ ?_ ?_⟩
  · intro q x hq
    simp [Makes, ho, hG, hd, hq]
  · exact fun q x hq => hsound.dirs hq
  · intro x
    rw [hf, agreed_unopened ho]
    simp only [Makes, ho, hG, hd, Bool.false_eq_true, if_false, if_true, List.dropLast_nil,
      List.prefix_rfl, true_and, ne_eq, not_true_eq_false, false_and, or_false, or_and_right]
    rw [← or_assoc, iff_self_or]
    exact fun h => .inl h.1

/-- What is there at the place of the placeholder stays: it is a copy, or a placeholder itself. -/
theorem Filled.touch_kept {t₁ : FileTree} {a : Leaf} (hf : Filled src done t)
    (hsound : Sound src flags p) (hroot : p ≠ []) (hold : t.node p = some (.leaf a))
    (hsame : t₁.node p = t.node p)
    (ht₁ : ∀ q x, t₁.node q = some x ↔ t.node q = some x ∨ q <+: p.dropLast ∧ x = .dir) :
    Filled src (done ++ [(flags, p)]) t₁ := by
  refine hf.concat ?_ (fun q x hq => hsound.dirs hq) ?_
  · intro q x hq
    rw [ht₁, makes_above_placeholder ho hG hd hq]
  · intro x
    rw [hsame, agreed_unopened ho, makes_placeholder ho hG hd hroot, or_and_right, ← hf.node_iff hroot]
    simp only [hroot, false_and, false_or, iff_self_or]
    rintro ⟨rfl, hagreed⟩
    obtain ⟨⟨e, he, hmade⟩, -⟩ := (hf.node_iff hroot).mp hold
    rcases hmade.leaf with ⟨hpath, hopens, hcopy⟩ | rfl
    · rw [hold, ← hcopy]
      exact hagreed e he hpath hopens
    · exact hold

/-- Where nothing is, the placeholder is put; an earlier copy would be there. -/
theorem Filled.touch_put {t₁ : FileTree} {content : CString} (hf : Filled src done t)
    (hsound : Sound src flags p) (hroot : p ≠ []) (hold : t.node p = none)
    (hfile : src.node p = some (.leaf (.file content)))
    (ht' : t'.node = Function.update t₁.node p (some (.leaf (.file []))))
    (ht₁ : ∀ q x, t₁.node q = some x ↔ t.node q = some x ∨ q <+: p.dropLast ∧ x = .dir) :
    Filled src (done ++ [(flags, p)]) t' := by
  refine hf.concat ?_ (fun q x hq => hsound.dirs hq) ?_
  · intro q x hq
    rw [ht', Function.update_of_ne hq, ht₁, makes_above_placeholder ho hG hd hq]
  · intro x
    rw [ht', Function.update_self, agreed_unopened ho, makes_placeholder ho hG hd hroot, or_and_right,
      ← hf.node_iff hroot, hold]
    simp only [hroot, false_and, false_or, reduceCtorEq, Option.some.injEq]
    constructor
    · rintro rfl
      refine ⟨rfl, ?_⟩
      intro e he hp hopens
      have hcopy : t.node p = some (.leaf (.file content)) :=
        (hf.node_iff hroot).mpr ⟨⟨e, he, by simp [Makes, hopens, hp, hfile]⟩, agreed_of_source hfile⟩
      rw [hold] at hcopy
      cases hcopy
    · rintro ⟨rfl, -⟩
      rfl

theorem Filled.distil_touched (hf : Filled src done t) (hs : ∀ e ∈ done, Sound src e.1 e.2)
    (hsound : Sound src flags p) :
    ∃ t', distil src flags p t = some t' ∧ Filled src (done ++ [(flags, p)]) t' := by
  have hfits := hsound.fits ho hG
  rw [if_neg (by simp [hd])] at hfits
  by_cases hroot : p = []
  · subst hroot
    exact hf.distil_touched_root ho hG hd hsound
  obtain ⟨content, hfile⟩ := hfits.resolve_left hroot
  have hleaf : src.node p ≠ some .dir := by simp [hfile]
  obtain ⟨t₁, hmkdir, hsame, hplace, hparent, ht₁⟩ := hf.parents hs hsound.existing hleaf
  cases hold : t.node p with
  | some y =>
    have htouch : t₁.touch p (.file []) = some t₁ := by
      rw [PathTree.touch, hsame, hold]
    refine ⟨t₁, by simp [distil, ho, hG, hd, hmkdir, htouch], ?_⟩
    cases y with
    | dir => exact absurd (hsame.trans hold) hplace
    | leaf a => exact hf.touch_kept ho hG hd hsound hroot hold hsame ht₁
  | none =>
    obtain ⟨t', hput⟩ := PathTree.exists_put hroot hparent hplace (.file [])
    have htouch : t₁.touch p (.file []) = some t' := by
      rw [PathTree.touch, hsame, hold]
      exact hput
    refine ⟨t', by simp [distil, ho, hG, hd, hmkdir, htouch], ?_⟩
    exact hf.touch_put ho hG hd hsound hroot hold hfile (PathTree.put_eq_some.mp hput).2 ht₁

end Placeholder

/-- One line more, whatever was done before. -/
theorem Filled.distil (hf : Filled src done t) (hs : ∀ e ∈ done, Sound src e.1 e.2)
    (hsound : Sound src flags p) :
    ∃ t', distil src flags p t = some t' ∧ Filled src (done ++ [(flags, p)]) t' := by
  cases ho : opensFile flags with
  | true => exact hf.distil_opened hs hsound ho
  | false =>
    cases hG : stringFind flags 'G' with
    | true =>
      cases hd : stringFind flags 'd' with
      | true => exact hf.distil_listed hs hsound ho hG hd
      | false => exact hf.distil_touched ho hG hd hs hsound
    | false =>
      have hmakes : ∀ q x, ¬ Makes src flags p q x := by
        simp [Makes, ho, hG]
      refine ⟨t, by simp [DistillerFS.distil, ho, hG], hf.concat ?_ ?_ ?_⟩
      · intro q x _
        simp [hmakes]
      · exact fun q x _ h => absurd h (hmakes q x)
      · intro x
        rw [hf]
        simp [hmakes, agreed_concat, ho]

end Step

/-- The lines are about nodes of the source, each with the command that fits it. A path may
have any number of lines. -/
structure Replayable (src : FileTree) (log : List CString) : Prop where
  accepted : ∀ line ∈ log, ∀ text, readLine line ≠ .wrongFormat text
  canonical : ∀ e ∈ logEntries log, Canonical e.2
  sound : ∀ e ∈ logPaths log, Sound src e.1 e.2

theorem Replayable.append {src : FileTree} {log log' : List CString} (h : Replayable src log)
    (h' : Replayable src log') : Replayable src (log ++ log') := by
  constructor
  · intro line hline
    exact (List.mem_append.mp hline).elim (h.accepted line) (h'.accepted line)
  · intro e he
    rw [logEntries_append, List.mem_append] at he
    exact he.elim (h.canonical e) (h'.canonical e)
  · intro e he
    rw [logPaths_append, List.mem_append] at he
    exact he.elim (h.sound e) (h'.sound e)

end DistillerFS
