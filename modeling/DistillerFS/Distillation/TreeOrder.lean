import DistillerFS.Distillation.Execution

/-!
# Building the tree

Blocks of lines on a destination that was empty, in any order. What each line is there
to make describes the tree, and blocks that fit their source nodes never collide.
-/
namespace DistillerFS
open Foundations

inductive Kind where
  | directory | regular | symlink | special
  deriving DecidableEq, Repr

def nodeKind : Node Leaf → Kind
  | .dir => .directory
  | .leaf (.file _) => .regular
  | .leaf (.symlink _) => .symlink
  | .leaf (.special _ _) => .special

theorem nodeKind_directory {x : Node Leaf} : nodeKind x = .directory ↔ x = .dir := by
  rcases x with _ | _ | _ | _ <;> simp [nodeKind]

theorem nodeKind_regular {x : Node Leaf} :
    nodeKind x = .regular ↔ ∃ content, x = .leaf (.file content) := by
  rcases x with _ | _ | _ | _ <;> simp [nodeKind]

/-- A node that was only looked up is a directory if it was listed, and else a regular
file or the root. -/
def LookupFits (src : FileTree) (flags : CString) (p : List CString) : Prop :=
  opensFile flags = false → stringFind flags 'G' = true →
    if stringFind flags 'd' = true then src.node p = some .dir
    else p = [] ∨ ∃ content, src.node p = some (.leaf (.file content))

/-- The nodes that the block of a line is there to make. -/
def Makes (src : FileTree) (flags : CString) (p q : List CString) (x : Node Leaf) : Prop :=
  if opensFile flags = true then q <+: p.dropLast ∧ x = .dir ∨ q = p ∧ src.node p = some x
  else if stringFind flags 'G' = true then
    if stringFind flags 'd' = true then q <+: p ∧ x = .dir
    else q <+: p.dropLast ∧ x = .dir ∨ q = p ∧ p ≠ [] ∧ x = .leaf (.file [])
  else False

/-- What a block needs to know about its own line. -/
structure Sound (src : FileTree) (flags : CString) (p : List CString) : Prop where
  existing : src.node p ≠ none
  opened : opensFile flags = true → src.node p ≠ some .dir
  fits : LookupFits src flags p

section Blocks
variable {src : FileTree} {flags : CString} {p q : List CString} {x : Node Leaf}

theorem Makes.dir (h : Makes src flags p q x) (hne : q ≠ p) : x = .dir := by
  unfold Makes at h
  split_ifs at h
  · exact h.elim And.right (fun h => absurd h.1 hne)
  · exact h.2
  · exact h.elim And.right (fun h => absurd h.1 hne)

theorem dir_of_prefix_dropLast (hp : src.node p ≠ none) (hq : q <+: p.dropLast) :
    src.node q = some .dir := by
  by_cases hne : q = p
  · have hnil : p = [] := by
      by_contra hp
      exact PathTree.not_prefix_dropLast hp (hne ▸ hq)
    rw [hne, hnil, src.root]
  · exact src.node_of_prefix (hq.trans (List.dropLast_prefix p)) hne hp

theorem Makes.kinds (h : Makes src flags p q x) (hs : Sound src flags p) :
    ∃ y, src.node q = some y ∧ nodeKind x = nodeKind y := by
  have hdirs (hq : q <+: p.dropLast) (hx : x = .dir) :
      ∃ y, src.node q = some y ∧ nodeKind x = nodeKind y :=
    ⟨.dir, dir_of_prefix_dropLast hs.existing hq, by rw [hx]⟩
  unfold Makes at h
  split_ifs at h with ho hG hd
  · rcases h with ⟨hq, hx⟩ | ⟨rfl, hx⟩
    · exact hdirs hq hx
    · exact ⟨x, hx, rfl⟩
  · have hfits := hs.fits (by simpa using ho) hG
    rw [if_pos hd] at hfits
    obtain ⟨hq, rfl⟩ := h
    by_cases hne : q = p
    · exact ⟨.dir, hne ▸ hfits, rfl⟩
    · exact ⟨.dir, src.node_of_prefix hq hne hs.existing, rfl⟩
  · have hfits := hs.fits (by simpa using ho) hG
    rw [if_neg hd] at hfits
    rcases h with ⟨hq, hx⟩ | ⟨rfl, hne, rfl⟩
    · exact hdirs hq hx
    · obtain ⟨content, hcontent⟩ := hfits.resolve_left hne
      exact ⟨_, hcontent, rfl⟩

end Blocks

/-- Every node of the destination has the kind of its source. -/
def Within (src t : FileTree) : Prop :=
  ∀ q x, t.node q = some x → ∃ y, src.node q = some y ∧ nodeKind x = nodeKind y

section Within
variable {src t : FileTree}

/-- Where the source has a directory nothing stands in the way. -/
theorem Within.free (hw : Within src t) {q : List CString} (hq : src.node q = some .dir) :
    t.node q = none ∨ t.node q = some .dir := by
  cases hx : t.node q with
  | none => exact .inl rfl
  | some x =>
    obtain ⟨y, hy, hkind⟩ := hw q x hx
    rw [hq] at hy
    cases hy
    rw [nodeKind_directory.mp hkind]
    exact .inr rfl

theorem Within.mkdirP (hw : Within src t) {r : List CString}
    (hr : ∀ q, q <+: r → src.node q = some .dir) : ∃ t', t.mkdirP r = some t' ∧
      ∀ q x, t'.node q = some x ↔ t.node q = some x ∨ q <+: r ∧ x = .dir := by
  refine ⟨t.withDirs r, PathTree.mkdirP_eq_some.mpr ⟨fun q hq => hw.free (hr q hq), rfl⟩, ?_⟩
  intro q x
  rw [PathTree.withDirs_node]
  split_ifs with hq
  · simp only [hq, true_and]
    constructor
    · intro hx
      exact .inr (Option.some.inj hx).symm
    · rintro (hx | rfl)
      · rcases hw.free (hr q hq) with hnone | hdir
        · rw [hnone] at hx
          cases hx
        · rw [← hdir, hx]
      · rfl
  · simp [hq]

end Within

/-- The destination has the root and what the lines done so far are there to make. -/
def Built (src : FileTree) (done : List (CString × List CString)) (t : FileTree) : Prop :=
  ∀ q x, t.node q = some x ↔ q = [] ∧ x = .dir ∨ ∃ e ∈ done, Makes src e.1 e.2 q x

theorem Built.empty (src : FileTree) : Built src [] .empty := by
  intro q x
  simp [eq_comm]

theorem Built.unique {src : FileTree} {done done' : List (CString × List CString)}
    {t t' : FileTree} (h : Built src done t) (h' : Built src done' t') (hperm : done.Perm done') :
    t = t' := by
  ext1
  funext q
  apply Option.ext
  intro x
  rw [h q x, h' q x]
  simp only [hperm.mem_iff]

section Step
variable {src : FileTree} {done : List (CString × List CString)} {t : FileTree}

theorem Built.kinds (hb : Built src done t) (hs : ∀ e ∈ done, Sound src e.1 e.2)
    {q : List CString} {x : Node Leaf} (hx : t.node q = some x) :
    ∃ y, src.node q = some y ∧ nodeKind x = nodeKind y := by
  rcases (hb q x).mp hx with ⟨rfl, rfl⟩ | ⟨e, he, hmakes⟩
  · exact ⟨.dir, src.root, rfl⟩
  · exact hmakes.kinds (hs e he)

theorem Built.within (hb : Built src done t) (hs : ∀ e ∈ done, Sound src e.1 e.2) : Within src t :=
  fun _ _ hx => hb.kinds hs hx

/-- The place of a leaf is empty until its own line comes. -/
theorem Built.place (hb : Built src done t) (hs : ∀ e ∈ done, Sound src e.1 e.2)
    {p : List CString} (hnew : p ∉ done.map Prod.snd) (hp : src.node p ≠ some .dir) :
    t.node p = none := by
  rw [Option.eq_none_iff_forall_ne_some]
  intro x hx
  obtain ⟨y, hy, hkind⟩ := hb.kinds hs hx
  have hdir : x = .dir := by
    rcases (hb p x).mp hx with ⟨_, hx⟩ | ⟨e, he, hmakes⟩
    · exact hx
    · apply hmakes.dir
      rintro rfl
      exact hnew (List.mem_map_of_mem he)
  rw [hdir] at hkind
  rw [hy, nodeKind_directory.mp hkind.symm] at hp
  exact hp rfl

theorem Built.mkdirP (hb : Built src done t) (hs : ∀ e ∈ done, Sound src e.1 e.2)
    {r : List CString} (hr : ∀ q, q <+: r → src.node q = some .dir) :
    ∃ t', t.mkdirP r = some t' ∧
      ∀ q x, t'.node q = some x ↔ t.node q = some x ∨ q <+: r ∧ x = .dir :=
  (hb.within hs).mkdirP hr

/-- A leaf is made below the directories of its path. -/
theorem Built.put (hb : Built src done t) (hs : ∀ e ∈ done, Sound src e.1 e.2)
    {p : List CString} (hnew : p ∉ done.map Prod.snd) (hp : src.node p ≠ some .dir)
    (hexists : src.node p ≠ none) (a : Leaf) : ∃ t₁ t', t.mkdirP p.dropLast = some t₁ ∧
      t₁.node p = none ∧ t₁.put p a = some t' ∧
      ∀ q x, t'.node q = some x ↔
        t.node q = some x ∨ q <+: p.dropLast ∧ x = .dir ∨ q = p ∧ x = .leaf a := by
  have hroot : p ≠ [] := by
    rintro rfl
    exact hp src.root
  have hself : ¬ p <+: p.dropLast := PathTree.not_prefix_dropLast hroot
  have hdirs : ∀ q, q <+: p.dropLast → src.node q = some .dir :=
    fun q hq => dir_of_prefix_dropLast hexists hq
  obtain ⟨t₁, hmkdir, ht₁⟩ := hb.mkdirP hs hdirs
  have hplace : t₁.node p = none := by
    rw [Option.eq_none_iff_forall_ne_some]
    intro x hx
    rcases (ht₁ p x).mp hx with hx | ⟨h, _⟩
    · rw [hb.place hs hnew hp] at hx
      cases hx
    · exact hself h
  have hparent : t₁.node p.dropLast = some .dir := (ht₁ _ _).mpr (.inr ⟨List.prefix_rfl, rfl⟩)
  obtain ⟨t', hput⟩ := PathTree.exists_put hroot hparent (by simp [hplace]) a
  refine ⟨t₁, t', hmkdir, hplace, hput, ?_⟩
  intro q x
  rw [(PathTree.put_eq_some.mp hput).2]
  by_cases hq : q = p
  · subst hq
    have hold : t.node q = none := hb.place hs hnew hp
    simp [hold, hself, eq_comm]
  · rw [Function.update_of_ne hq, ht₁]
    simp [hq]

theorem Built.concat (hb : Built src done t) {flags : CString} {p : List CString} {t' : FileTree}
    (h : ∀ q x, t'.node q = some x ↔ t.node q = some x ∨ Makes src flags p q x) :
    Built src (done ++ [(flags, p)]) t' := by
  intro q x
  rw [h, hb q x]
  simp only [List.mem_append, List.mem_singleton, or_and_right, exists_or, exists_eq_left, or_assoc]

variable {flags : CString} {p : List CString}

theorem Built.distil_opened (hb : Built src done t) (hs : ∀ e ∈ done, Sound src e.1 e.2)
    (hsound : Sound src flags p) (hnew : p ∉ done.map Prod.snd) (ho : opensFile flags = true) :
    ∃ t', distil src flags p t = some t' ∧ Built src (done ++ [(flags, p)]) t' := by
  obtain ⟨x, hx⟩ := Option.ne_none_iff_exists'.mp hsound.existing
  cases x with
  | dir => exact absurd hx (hsound.opened ho)
  | leaf a =>
    obtain ⟨t₁, t', hmkdir, hplace, hput, ht'⟩ :=
      hb.put hs hnew (hsound.opened ho) hsound.existing a
    refine ⟨t', ?_, hb.concat ?_⟩
    · simp [distil, ho, hmkdir, PathTree.copyLeaf, hx, hplace, hput]
    · intro q x
      rw [ht']
      simp [Makes, ho, hx, eq_comm]

theorem Built.distil_listed (hb : Built src done t) (hs : ∀ e ∈ done, Sound src e.1 e.2)
    (hsound : Sound src flags p) (ho : opensFile flags = false)
    (hG : stringFind flags 'G' = true) (hd : stringFind flags 'd' = true) :
    ∃ t', distil src flags p t = some t' ∧ Built src (done ++ [(flags, p)]) t' := by
  have hfits := hsound.fits ho hG
  rw [if_pos hd] at hfits
  have hdirs : ∀ q, q <+: p → src.node q = some .dir := by
    intro q hq
    by_cases hne : q = p
    · rw [hne, hfits]
    · exact src.node_of_prefix hq hne hsound.existing
  obtain ⟨t', hmkdir, ht'⟩ := hb.mkdirP hs hdirs
  refine ⟨t', ?_, hb.concat ?_⟩
  · simp [distil, ho, hG, hd, hmkdir]
  · intro q x
    rw [ht']
    simp [Makes, ho, hG, hd]

theorem Built.distil_touched (hb : Built src done t) (hs : ∀ e ∈ done, Sound src e.1 e.2)
    (hsound : Sound src flags p) (hnew : p ∉ done.map Prod.snd) (ho : opensFile flags = false)
    (hG : stringFind flags 'G' = true) (hd : stringFind flags 'd' = false) :
    ∃ t', distil src flags p t = some t' ∧ Built src (done ++ [(flags, p)]) t' := by
  have hfits := hsound.fits ho hG
  rw [if_neg (by simp [hd])] at hfits
  by_cases hroot : p = []
  · -- the root is there already
    subst hroot
    refine ⟨t, ?_, hb.concat ?_⟩
    · simp [distil, ho, hG, hd, mkdirP_nil, PathTree.touch, t.root]
    · intro q x
      simp only [Makes, ho, hG, hd, Bool.false_eq_true, if_false, if_true, List.dropLast_nil,
        List.prefix_nil, ne_eq, not_true_eq_false, false_and, and_false, or_false, iff_self_or]
      rintro ⟨rfl, rfl⟩
      exact t.root
  · obtain ⟨content, hfile⟩ := hfits.resolve_left hroot
    have hleaf : src.node p ≠ some .dir := by simp [hfile]
    obtain ⟨t₁, t', hmkdir, hplace, hput, ht'⟩ := hb.put hs hnew hleaf hsound.existing (.file [])
    refine ⟨t', ?_, hb.concat ?_⟩
    · simp [distil, ho, hG, hd, hmkdir, PathTree.touch, hplace, hput]
    · intro q x
      rw [ht']
      simp [Makes, ho, hG, hd, hroot]

/-- One block on a tree that was built so far. -/
theorem Built.distil (hb : Built src done t) (hs : ∀ e ∈ done, Sound src e.1 e.2)
    (hsound : Sound src flags p) (hnew : p ∉ done.map Prod.snd) :
    ∃ t', distil src flags p t = some t' ∧ Built src (done ++ [(flags, p)]) t' := by
  cases ho : opensFile flags with
  | true => exact hb.distil_opened hs hsound hnew ho
  | false =>
    cases hG : stringFind flags 'G' with
    | true =>
      cases hd : stringFind flags 'd' with
      | true => exact hb.distil_listed hs hsound ho hG hd
      | false => exact hb.distil_touched hs hsound hnew ho hG hd
    | false =>
      refine ⟨t, by simp [DistillerFS.distil, ho, hG], hb.concat ?_⟩
      intro q x
      simp [Makes, ho, hG]

end Step

def distilAll (src : FileTree) (es : List (CString × List CString)) (t : FileTree) :
    Option FileTree :=
  es.foldlM (fun t e => distil src e.1 e.2 t) t

theorem distilAll_append (src : FileTree) (es es' : List (CString × List CString)) (t : FileTree) :
    distilAll src (es ++ es') t = (distilAll src es t).bind (distilAll src es') := by
  rw [distilAll, List.foldlM_append]
  rfl

/-- A whole run of sound lines about distinct paths. The induction is on the last line. -/
theorem distilAll_built {src : FileTree} {es : List (CString × List CString)}
    (hs : ∀ e ∈ es, Sound src e.1 e.2) (hdistinct : (es.map Prod.snd).Nodup) :
    ∃ t, distilAll src es .empty = some t ∧ Built src es t := by
  induction es using List.reverseRecOn with
  | nil => exact ⟨.empty, rfl, .empty src⟩
  | append_singleton es e ih =>
    rw [List.map_append, List.map_singleton, ← List.concat_eq_append, List.nodup_concat] at hdistinct
    obtain ⟨t, hrun, hb⟩ := ih (fun e he => hs e (List.mem_append_left _ he)) hdistinct.2
    obtain ⟨t', hstep, hb'⟩ := hb.distil (fun e he => hs e (List.mem_append_left _ he))
      (hs e (by simp)) hdistinct.1
    refine ⟨t', ?_, hb'⟩
    rw [distilAll_append, hrun, Option.bind_some]
    simp [distilAll, hstep]

end DistillerFS
