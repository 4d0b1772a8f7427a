import Mathlib.Data.List.Infix
import Mathlib.Logic.Function.Basic

/-!
# Trees of named nodes

A tree assigns a node to each path. The root is a directory, and so is the parent of
every node. The operations are those of `mkdir -p`, `touch` and a copy of one leaf; each
of them fails where the command does.
-/
namespace DistillerFS.Foundations

inductive Node (A : Type*) where
  | dir
  | leaf (a : A)
  deriving DecidableEq, Repr

instance {A : Type*} : (x : Option (Node A)) → Decidable (x = some .dir)
  | none => isFalse (by simp)
  | some .dir => isTrue rfl
  | some (.leaf _) => isFalse (by simp)

/-- `N` are the names and `A` the contents of the leaves. -/
@[ext] structure PathTree (N A : Type*) where
  node : List N → Option (Node A)
  root : node [] = some .dir
  closed : ∀ p n, node (p ++ [n]) ≠ none → node p = some .dir

namespace PathTree
variable {N A : Type*}

def empty : PathTree N A where
  node p := if p = [] then some .dir else none
  root := rfl
  closed p n h := by simp at h

@[simp] theorem empty_node (p : List N) :
    (empty : PathTree N A).node p = if p = [] then some .dir else none := rfl

/-- The nodes above an existing node are directories. -/
theorem node_of_prefix (t : PathTree N A) {p q : List N} (hq : q <+: p) (hne : q ≠ p)
    (hp : t.node p ≠ none) : t.node q = some .dir := by
  induction p using List.reverseRecOn with
  | nil => exact absurd (List.prefix_nil.mp hq) hne
  | append_singleton p n ih =>
    have hparent := t.closed p n hp
    rcases List.prefix_concat_iff.mp hq with rfl | hq
    · exact absurd rfl hne
    · by_cases heq : q = p
      · rwa [heq]
      · exact ih hq heq (by simp [hparent])

theorem not_prefix_dropLast {p : List N} (hp : p ≠ []) : ¬ p <+: p.dropLast := by
  intro h
  have hlength := h.length_le
  rw [List.length_dropLast] at hlength
  exact hp (List.eq_nil_of_length_eq_zero (by omega))

variable [DecidableEq N]

def isFree : Option (Node A) → Bool
  | none | some .dir => true
  | some (.leaf _) => false

theorem isFree_iff {x : Option (Node A)} : isFree x = true ↔ x = none ∨ x = some .dir := by
  rcases x with _ | _ | a <;> simp [isFree]

def withDirs (t : PathTree N A) (p : List N) : PathTree N A where
  node q := if q <+: p then some .dir else t.node q
  root := by simp
  closed q n h := by
    split_ifs at h with hqn
    · rw [if_pos ((List.prefix_append q [n]).trans hqn)]
    · split_ifs
      · rfl
      · exact t.closed q n h

@[simp] theorem withDirs_node (t : PathTree N A) (p q : List N) :
    (t.withDirs p).node q = if q <+: p then some .dir else t.node q := rfl

/-- `mkdir -p` fails when a component exists and is no directory. -/
def mkdirP (t : PathTree N A) (p : List N) : Option (PathTree N A) :=
  if p.inits.all (fun q => isFree (t.node q)) then some (t.withDirs p) else none

/-- A leaf is written at a place that is no directory and whose parent is one. -/
def put (t : PathTree N A) (p : List N) (a : A) : Option (PathTree N A) :=
  if h : p ≠ [] ∧ t.node p.dropLast = some .dir ∧ t.node p ≠ some .dir then
    some {
      node := Function.update t.node p (some (.leaf a))
      root := by rw [Function.update_of_ne h.1.symm, t.root]
      closed := by
        intro q n hqn
        by_cases heq : q ++ [n] = p
        · have hq : p.dropLast = q := by simp [← heq]
          have hne : q ≠ p := by
            rintro rfl
            simp at heq
          rw [Function.update_of_ne hne, ← hq, h.2.1]
        · rw [Function.update_of_ne heq] at hqn
          have hdir := t.closed q n hqn
          have hne : q ≠ p := by
            rintro rfl
            exact h.2.2 hdir
          rw [Function.update_of_ne hne, hdir] }
  else none

/-- `touch` leaves an existing node alone and creates a leaf `a` otherwise. -/
def touch (t : PathTree N A) (p : List N) (a : A) : Option (PathTree N A) :=
  match t.node p with
  | some _ => some t
  | none => t.put p a

/-- A copy of the leaf at `p` in `src` to `q`, or into `q` when that is a directory.
No directory is copied. -/
def copyLeaf (src t : PathTree N A) (p q : List N) : Option (PathTree N A) :=
  match src.node p with
  | some (.leaf a) =>
    match t.node q with
    | some .dir => t.put (q ++ p.getLast?.toList) a
    | _ => t.put q a
  | _ => none

section Specs
variable {t t' : PathTree N A} {p q : List N} {a : A}

theorem mkdirP_eq_some : t.mkdirP p = some t' ↔
    (∀ q, q <+: p → t.node q = none ∨ t.node q = some .dir) ∧ t' = t.withDirs p := by
  have hfree : p.inits.all (fun q => isFree (t.node q)) = true ↔
      ∀ q, q <+: p → t.node q = none ∨ t.node q = some .dir := by
    simp only [List.all_eq_true, List.mem_inits, isFree_iff]
  unfold mkdirP
  split_ifs with h
  · constructor
    · intro heq
      exact ⟨hfree.mp h, (Option.some.inj heq).symm⟩
    · rintro ⟨_, rfl⟩
      rfl
  · simp [mt hfree.mpr h]

theorem put_eq_some : t.put p a = some t' ↔
    (p ≠ [] ∧ t.node p.dropLast = some .dir ∧ t.node p ≠ some .dir) ∧
      t'.node = Function.update t.node p (some (.leaf a)) := by
  unfold put
  split_ifs with h
  · simp only [Option.some.injEq, h, ne_eq, not_false_eq_true, and_self, true_and]
    exact ⟨fun heq => heq ▸ rfl, fun hnode => PathTree.ext hnode.symm⟩
  · simp [h]

theorem exists_put (hp : p ≠ []) (hparent : t.node p.dropLast = some .dir)
    (hplace : t.node p ≠ some .dir) (a : A) : ∃ t', t.put p a = some t' := by
  unfold put
  rw [dif_pos ⟨hp, hparent, hplace⟩]
  exact ⟨_, rfl⟩

theorem withDirs_nil (t : PathTree N A) : t.withDirs [] = t := by
  ext1
  funext q
  simp only [withDirs_node, List.prefix_nil]
  split_ifs with h
  · rw [h, t.root]
  · rfl

/-- `mkdir -p` keeps every node. -/
theorem mkdirP_keeps (h : t.mkdirP p = some t') {x : Node A} (hx : t.node q = some x) :
    t'.node q = some x := by
  obtain ⟨hfree, rfl⟩ := mkdirP_eq_some.mp h
  rw [withDirs_node]
  split_ifs with hq
  · rcases hfree q hq with hnone | hdir
    · rw [hnone] at hx
      cases hx
    · rw [← hdir, hx]
  · exact hx

/-- A written leaf replaces nothing but a leaf at its own place. -/
theorem put_keeps (h : t.put p a = some t') {x : Node A} (hx : t.node q = some x)
    (hq : q ≠ p ∨ x = .dir) : t'.node q = some x := by
  obtain ⟨⟨_, _, hp⟩, hnode⟩ := put_eq_some.mp h
  have hne : q ≠ p := by
    rcases hq with hne | rfl
    · exact hne
    · rintro rfl
      exact hp hx
  rw [hnode, Function.update_of_ne hne, hx]

/-- `touch` keeps every node. -/
theorem touch_keeps (h : t.touch p a = some t') {x : Node A} (hx : t.node q = some x) :
    t'.node q = some x := by
  unfold touch at h
  cases hp : t.node p with
  | some y =>
    rw [hp] at h
    cases h
    exact hx
  | none =>
    rw [hp] at h
    have hne : q ≠ p := by
      rintro rfl
      rw [hp] at hx
      cases hx
    exact put_keeps h hx (.inl hne)

/-- A copy keeps every directory, and every leaf but the one it is written to. -/
theorem copyLeaf_keeps {src : PathTree N A} (h : src.copyLeaf t p q = some t') {r : List N}
    {x : Node A} (hx : t.node r = some x)
    (hr : r ≠ q ∧ r ≠ q ++ p.getLast?.toList ∨ x = .dir) : t'.node r = some x := by
  unfold copyLeaf at h
  split at h
  · split at h
    · exact put_keeps h hx (hr.imp_left And.right)
    · exact put_keeps h hx (hr.imp_left And.left)
  · cases h

theorem leaf_of_copyLeaf {src : PathTree N A} (h : src.copyLeaf t p q = some t') :
    ∃ a, src.node p = some (.leaf a) := by
  unfold copyLeaf at h
  split at h
  · rename_i a ha
    exact ⟨a, ha⟩
  · cases h

end Specs

end PathTree

end DistillerFS.Foundations
