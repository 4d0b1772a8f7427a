import DistillerFS.Storage.FileSystem

/-!
# What the calls of the file system do

One inversion lemma for each call that the handlers rely on: when it succeeds, and what
it leaves behind. `Preserves` relates the inodes before and after.
-/
namespace DistillerFS
open Foundations

section Except
variable {α β : Type}

theorem bind_eq_ok {x : Except Errno α} {f : α → Except Errno β} {b : β} :
    (x >>= f) = .ok b ↔ ∃ a, x = .ok a ∧ f a = .ok b := by
  cases x with
  | error e => exact ⟨nofun, fun ⟨_, h, _⟩ => nomatch h⟩
  | ok a => exact ⟨fun h => ⟨a, rfl, h⟩, fun ⟨_, h, hf⟩ => by cases h; exact hf⟩

theorem check_eq_ok {b : Bool} {e : Errno} {u : Unit} : check b e = .ok u ↔ b = true := by
  cases b <;> simp [check]

end Except

namespace Inode

@[simp] theorem bind_mode (n : CString) (i : Ino) (x : Inode) : (x.bind n i).mode = x.mode := rfl
@[simp] theorem bind_uid (n : CString) (i : Ino) (x : Inode) : (x.bind n i).uid = x.uid := rfl
@[simp] theorem bind_gid (n : CString) (i : Ino) (x : Inode) : (x.bind n i).gid = x.gid := rfl
@[simp] theorem unbind_uid (n : CString) (x : Inode) : (x.unbind n).uid = x.uid := rfl
@[simp] theorem unbind_gid (n : CString) (x : Inode) : (x.unbind n).gid = x.gid := rfl

@[simp] theorem bind_isDir (n : CString) (i : Ino) (x : Inode) : (x.bind n i).isDir = x.isDir := by
  cases x with
  | mk body mode uid gid => cases body <;> rfl

@[simp] theorem bind_data (n : CString) (i : Ino) (x : Inode) : (x.bind n i).data = x.data := by
  cases x with
  | mk body mode uid gid => cases body <;> rfl

@[simp] theorem unbind_data (n : CString) (x : Inode) : (x.unbind n).data = x.data := by
  cases x with
  | mk body mode uid gid => cases body <;> rfl

theorem bind_entries {n : CString} {i : Ino} {x : Inode} (h : x.isDir = true) :
    (x.bind n i).entries = (n, i) :: x.entries := by
  cases x with
  | mk body mode uid gid => cases body <;> first | rfl | cases h

theorem entries_of_not_isDir {x : Inode} (h : x.isDir = false) : x.entries = [] := by
  cases x with
  | mk body mode uid gid => cases body <;> first | rfl | cases h

end Inode

namespace FileSystem

theorem inode_modify (fs : FileSystem) (i j : Ino) (f : Inode → Inode) :
    (fs.modify i f).inode j = (fs.inode j).map (fun x => if i = j then f x else x) :=
  List.getElem?_modify f i fs.inodes j

@[simp] theorem modify_fds (fs : FileSystem) (i : Ino) (f : Inode → Inode) :
    (fs.modify i f).fds = fs.fds := rfl

@[simp] theorem push_fds (fs : FileSystem) (x : Inode) : (fs.push x).fds = fs.fds := rfl

theorem inode_push (fs : FileSystem) (x : Inode) (j : Ino) :
    (fs.push x).inode j = if j = fs.inodes.length then some x else fs.inode j := by
  unfold inode push
  rw [List.getElem?_append]
  rcases Nat.lt_trichotomy j fs.inodes.length with h | h | h
  · simp [h, Nat.ne_of_lt h]
  · simp [h]
  · have hbehind : j - fs.inodes.length ≠ 0 := Nat.sub_ne_zero_of_lt h
    simp [Nat.not_lt_of_gt h, Nat.ne_of_gt h, hbehind]

theorem getInode_eq_ok {fs : FileSystem} {i : Ino} {x : Inode} :
    fs.getInode i = .ok x ↔ fs.inode i = some x := by
  unfold getInode
  cases fs.inode i <;> simp

theorem contents_eq_some {fs : FileSystem} {i : Ino} {data : CString} :
    fs.contents i = some data ↔ ∃ x, fs.inode i = some x ∧ x.body = .regular data := by
  unfold contents
  rw [Option.bind_eq_some_iff]
  refine exists_congr fun x => and_congr_right fun _ => ?_
  unfold Inode.data
  cases x.body <;> simp

/-- New data for a regular file. -/
theorem contents_modify {fs : FileSystem} {i : Ino} {old : CString} (h : fs.contents i = some old)
    (data : CString) (j : Ino) :
    (fs.modify i (fun x => { x with body := .regular data })).contents j =
      if i = j then some data else fs.contents j := by
  unfold contents
  rw [inode_modify]
  split_ifs with hij
  · obtain ⟨x, hx, _⟩ := contents_eq_some.mp h
    rw [← hij, hx]
    rfl
  · rw [Option.map_id']

theorem lt_of_inode {fs : FileSystem} {i : Ino} {x : Inode} (h : fs.inode i = some x) :
    i < fs.inodes.length :=
  (List.getElem?_eq_some_iff.mp h).1

/-- Every inode is still there, and is related to what it was. -/
def Preserves (P : Inode → Inode → Prop) (fs fs' : FileSystem) : Prop :=
  ∀ i x, fs.inode i = some x → ∃ x', fs'.inode i = some x' ∧ P x x'

section Preserves
variable {P : Inode → Inode → Prop} {fs fs' fs'' : FileSystem}

theorem Preserves.of_inodes (hrefl : ∀ x, P x x) (h : fs'.inodes = fs.inodes) :
    Preserves P fs fs' := by
  intro i x hx
  exact ⟨x, by rwa [inode, h], hrefl x⟩

theorem Preserves.modify (hrefl : ∀ x, P x x) {i : Ino} {f : Inode → Inode}
    (hf : ∀ x, fs.inode i = some x → P x (f x)) : Preserves P fs (fs.modify i f) := by
  intro j x hx
  refine ⟨if i = j then f x else x, by rw [inode_modify, hx, Option.map_some], ?_⟩
  split_ifs with h
  · subst h
    exact hf x hx
  · exact hrefl x

theorem Preserves.push (hrefl : ∀ x, P x x) (y : Inode) : Preserves P fs (fs.push y) := by
  intro j x hx
  refine ⟨x, ?_, hrefl x⟩
  rw [inode_push, if_neg (Nat.ne_of_lt (lt_of_inode hx)), hx]

theorem Preserves.trans (htrans : ∀ x y z, P x y → P y z → P x z) (h : Preserves P fs fs')
    (h' : Preserves P fs' fs'') : Preserves P fs fs'' := by
  intro i x hx
  obtain ⟨y, hy, hxy⟩ := h i x hx
  obtain ⟨z, hz, hyz⟩ := h' i y hy
  exact ⟨z, hz, htrans x y z hxy hyz⟩

end Preserves

section Paths
variable {cred : Cred} {fs fs' : FileSystem}

theorem searchable_eq_ok {d : Ino} {x : Inode} : fs.searchable cred d = .ok x ↔
    fs.inode d = some x ∧ x.isDir = true ∧ cred.may x xOk = true := by
  simp only [searchable, bind_eq_ok, check_eq_ok, getInode_eq_ok]
  constructor
  · rintro ⟨y, hy, _, hdir, _, hmay, h⟩
    cases h
    exact ⟨hy, hdir, hmay⟩
  · rintro ⟨hx, hdir, hmay⟩
    exact ⟨x, hx, (), hdir, (), hmay, rfl⟩

theorem walk_cons {d i : Ino} {n : CString} {rest : List CString} :
    fs.walk cred d (n :: rest) = .ok i ↔
      ∃ x j, fs.searchable cred d = .ok x ∧ x.entries.lookup n = some j ∧
        fs.walk cred j rest = .ok i := by
  rw [walk, bind_eq_ok]
  constructor
  · rintro ⟨x, hx, h⟩
    cases hj : x.entries.lookup n with
    | none => simp [hj] at h
    | some j =>
      rw [hj] at h
      exact ⟨x, j, hx, hj, h⟩
  · rintro ⟨x, j, hx, hj, h⟩
    refine ⟨x, hx, ?_⟩
    rw [hj]
    exact h

theorem walk_append {d i : Ino} {ps qs : List CString} : fs.walk cred d (ps ++ qs) = .ok i ↔
    ∃ j, fs.walk cred d ps = .ok j ∧ fs.walk cred j qs = .ok i := by
  induction ps generalizing d with
  | nil => simp [walk]
  | cons n ps ih =>
    simp only [List.cons_append, walk_cons, ih]
    constructor
    · rintro ⟨x, k, hx, hk, j, hps, hqs⟩
      exact ⟨j, ⟨x, k, hx, hk, hps⟩, hqs⟩
    · rintro ⟨j, ⟨x, k, hx, hk, hps⟩, hqs⟩
      exact ⟨x, k, hx, hk, j, hps, hqs⟩

/-- More names may be bound; owners and modes are the same. -/
def Extended (x x' : Inode) : Prop :=
  x'.isDir = x.isDir ∧ x'.mode = x.mode ∧ x'.uid = x.uid ∧ x'.gid = x.gid ∧
    ∀ n i, x.entries.lookup n = some i → x'.entries.lookup n = some i

theorem Extended.refl (x : Inode) : Extended x x := ⟨rfl, rfl, rfl, rfl, fun _ _ h => h⟩

theorem Extended.trans (x y z : Inode) (h : Extended x y) (h' : Extended y z) : Extended x z :=
  ⟨h'.1.trans h.1, h'.2.1.trans h.2.1, h'.2.2.1.trans h.2.2.1, h'.2.2.2.1.trans h.2.2.2.1,
    fun n i hi => h'.2.2.2.2 n i (h.2.2.2.2 n i hi)⟩

theorem Extended.may {x x' : Inode} (h : Extended x x') (want : ℕ) :
    cred.may x' want = cred.may x want := by
  rw [Cred.may, Cred.may, h.2.1, h.2.2.1, h.2.2.2.1]

theorem Extended.bind {x : Inode} {n : CString} (hfree : x.entries.lookup n = none) (i : Ino) :
    Extended x (x.bind n i) := by
  refine ⟨by simp, rfl, rfl, rfl, ?_⟩
  intro m j hm
  cases hdir : x.isDir with
  | false => simp [Inode.entries_of_not_isDir hdir] at hm
  | true =>
    rw [Inode.bind_entries hdir, List.lookup_cons]
    have hne : (m == n) = false := by
      rw [beq_eq_false_iff_ne]
      rintro rfl
      rw [hfree] at hm
      cases hm
    rw [hne, hm]

/-- What could be reached can still be reached. -/
theorem walk_extended (h : Preserves Extended fs fs') {d i : Ino} {ps : List CString}
    (hwalk : fs.walk cred d ps = .ok i) : fs'.walk cred d ps = .ok i := by
  induction ps generalizing d with
  | nil => exact hwalk
  | cons n ps ih =>
    obtain ⟨x, j, hx, hj, hrest⟩ := walk_cons.mp hwalk
    obtain ⟨hx, hdir, hmay⟩ := searchable_eq_ok.mp hx
    obtain ⟨x', hx', hext⟩ := h d x hx
    refine walk_cons.mpr ⟨x', j, searchable_eq_ok.mpr ⟨hx', ?_, ?_⟩, hext.2.2.2.2 n j hj, ih hrest⟩
    · rw [hext.1, hdir]
    · rw [hext.may, hmay]

theorem resolve_eq_ok {path : CString} {i : Ino} : fs.resolve cred path = .ok i ↔
    path ≠ [] ∧ fs.walk cred 0 (pathNames path) = .ok i := by
  simp [resolve, bind_eq_ok, check_eq_ok]

theorem locate_eq_ok {path n : CString} {e : Errno} {d : Ino} {x : Inode} :
    fs.locate cred path e = .ok (d, x, n) ↔ path ≠ [] ∧ (pathNames path).getLast? = some n ∧
      fs.walk cred 0 (pathNames path).dropLast = .ok d ∧ fs.searchable cred d = .ok x := by
  simp only [locate, bind_eq_ok, check_eq_ok, decide_eq_true_eq]
  cases hlast : (pathNames path).getLast? with
  | none => simp
  | some m =>
    simp only [bind_eq_ok]
    constructor
    · rintro ⟨_, hne, d', hd, y, hy, h⟩
      cases h
      exact ⟨hne, rfl, hd, hy⟩
    · rintro ⟨hne, hm, hd, hx⟩
      cases hm
      exact ⟨(), hne, d, hd, x, hx, rfl⟩

/-- A name that was free is bound at the place of a path. -/
theorem locate_bound {path n : CString} {e : Errno} {d : Ino} {x : Inode}
    (hlocate : fs.locate cred path e = .ok (d, x, n)) (hfree : x.entries.lookup n = none)
    (i : Ino) : Preserves Extended fs (fs.modify d (.bind n i)) := by
  obtain ⟨hx, _⟩ := searchable_eq_ok.mp (locate_eq_ok.mp hlocate).2.2.2
  apply Preserves.modify Extended.refl
  intro y hy
  rw [hx] at hy
  cases hy
  exact Extended.bind hfree i

/-- A name bound at the place of a path is what the path then leads to. -/
theorem resolve_bound {path n : CString} {e : Errno} {d i : Ino} {x : Inode}
    (hlocate : fs.locate cred path e = .ok (d, x, n)) (hfree : x.entries.lookup n = none)
    (hext : Preserves Extended (fs.modify d (.bind n i)) fs') :
    fs'.resolve cred path = .ok i := by
  have hbound := locate_bound hlocate hfree i
  obtain ⟨hne, hlast, hwalk, hsearch⟩ := locate_eq_ok.mp hlocate
  obtain ⟨hx, hdir, hmay⟩ := searchable_eq_ok.mp hsearch
  have hx' : (fs.modify d (.bind n i)).inode d = some (x.bind n i) := by
    simp [inode_modify, hx]
  obtain ⟨y, hy, hxy⟩ := hext d _ hx'
  have hentry : y.entries.lookup n = some i := by
    apply hxy.2.2.2.2
    rw [Inode.bind_entries hdir, List.lookup_cons_self]
  have hpath : pathNames path = (pathNames path).dropLast ++ [n] :=
    (List.dropLast_append_getLast? n (by simp [hlast])).symm
  rw [resolve_eq_ok, hpath, walk_append]
  refine ⟨hne, d, walk_extended (hbound.trans Extended.trans hext) hwalk, ?_⟩
  refine walk_cons.mpr ⟨y, i, searchable_eq_ok.mpr ⟨hy, ?_, ?_⟩, hentry, rfl⟩
  · rw [hxy.1, Inode.bind_isDir, hdir]
  · rw [hxy.may]
    exact hmay

end Paths

section Calls
variable {cred : Cred} {fs fs' : FileSystem}

theorem newInode_uid (cred : Cred) (dir : Inode) (body : Body) (mode : ℕ) :
    (newInode cred dir body mode).uid = cred.uid := by
  unfold newInode
  split_ifs <;> rfl

theorem newInode_body (cred : Cred) (dir : Inode) (body : Body) (mode : ℕ) :
    (newInode cred dir body mode).body = body := by
  unfold newInode
  split_ifs <;> rfl

theorem create_eq_ok {path : CString} {body : Body} {mode : ℕ} {u : Unit} :
    fs.create cred path body mode = .ok (u, fs') ↔ ∃ d dir n,
      fs.locate cred path eexist = .ok (d, dir, n) ∧ dir.entries.lookup n = none ∧
      cred.may dir wOk = true ∧
      fs' = (fs.modify d (.bind n fs.inodes.length)).push (newInode cred dir body mode) := by
  simp only [create, bind_eq_ok, check_eq_ok]
  constructor
  · rintro ⟨⟨d, dir, n⟩, hlocate, _, hfree, _, hmay, h⟩
    cases h
    exact ⟨d, dir, n, hlocate, by simpa using hfree, hmay, rfl⟩
  · rintro ⟨d, dir, n, hlocate, hfree, hmay, rfl⟩
    exact ⟨(d, dir, n), hlocate, (), by simp [hfree], (), hmay, rfl⟩

/-- The inodes after a node was created. -/
theorem inode_create (fs : FileSystem) (d : Ino) (n : CString) (y : Inode) (i : Ino) :
    ((fs.modify d (.bind n fs.inodes.length)).push y).inode i =
      if i = fs.inodes.length then some y
      else (fs.inode i).map (fun x => if d = i then x.bind n fs.inodes.length else x) := by
  rw [inode_push, inode_modify]
  have hlength : (fs.modify d (.bind n fs.inodes.length)).inodes.length = fs.inodes.length :=
    List.length_modify ..
  rw [hlength]

/-- The path of a new node leads to its inode, also when only descriptors have changed since. -/
theorem create_leads {path : CString} {body : Body} {mode : ℕ} {u : Unit} {fs₂ : FileSystem}
    (hcreate : fs.create cred path body mode = .ok (u, fs')) (hinodes : fs₂.inodes = fs'.inodes) :
    ∃ d dir n, fs.locate cred path eexist = .ok (d, dir, n) ∧ dir.entries.lookup n = none ∧
      (∀ i, fs₂.inode i = if i = fs.inodes.length then some (newInode cred dir body mode)
        else (fs.inode i).map (fun x => if d = i then x.bind n fs.inodes.length else x)) ∧
      fs₂.resolve cred path = .ok fs.inodes.length := by
  obtain ⟨d, dir, n, hlocate, hfree, -, rfl⟩ := create_eq_ok.mp hcreate
  refine ⟨d, dir, n, hlocate, hfree, fun i => ?_, ?_⟩
  · rw [inode, hinodes]
    exact inode_create fs d n _ i
  · apply resolve_bound hlocate hfree
    apply Preserves.trans Extended.trans (Preserves.push Extended.refl _)
    exact Preserves.of_inodes Extended.refl hinodes

theorem link_eq_ok {old new : CString} {u : Unit} :
    fs.link cred old new = .ok (u, fs') ↔ ∃ i x d dir n,
      fs.resolve cred old = .ok i ∧ fs.inode i = some x ∧ x.isDir = false ∧
      fs.locate cred new eexist = .ok (d, dir, n) ∧ dir.entries.lookup n = none ∧
      cred.may dir wOk = true ∧ fs' = fs.modify d (.bind n i) := by
  simp only [link, bind_eq_ok, check_eq_ok, getInode_eq_ok]
  constructor
  · rintro ⟨i, hi, x, hx, _, hdir, ⟨d, dir, n⟩, hlocate, _, hfree, _, hmay, h⟩
    cases h
    exact ⟨i, x, d, dir, n, hi, hx, by simpa using hdir, hlocate, by simpa using hfree, hmay, rfl⟩
  · rintro ⟨i, x, d, dir, n, hi, hx, hdir, hlocate, hfree, hmay, rfl⟩
    exact ⟨i, hi, x, hx, (), by simp [hdir], (d, dir, n), hlocate, (), by simp [hfree], (), hmay, rfl⟩

theorem lchown_eq_ok {path : CString} {uid gid : Option ℕ} {u : Unit} :
    fs.lchown cred path uid gid = .ok (u, fs') ↔ ∃ i x,
      fs.resolve cred path = .ok i ∧ fs.inode i = some x ∧ cred.mayLchown x uid gid = true ∧
      fs' = fs.modify i (fun x => { x with uid := uid.getD x.uid, gid := gid.getD x.gid }) := by
  simp only [lchown, bind_eq_ok, check_eq_ok, getInode_eq_ok]
  constructor
  · rintro ⟨i, hi, x, hx, _, hmay, h⟩
    cases h
    exact ⟨i, x, hi, hx, hmay, rfl⟩
  · rintro ⟨i, x, hi, hx, hmay, rfl⟩
    exact ⟨i, hi, x, hx, (), hmay, rfl⟩

theorem unlink_ok {path : CString} {u : Unit} (h : fs.unlink cred path = .ok (u, fs')) :
    ∃ d n, fs' = fs.modify d (.unbind n) := by
  simp only [unlink, bind_eq_ok, check_eq_ok] at h
  obtain ⟨⟨d, dir, n, i, x⟩, _, _, _, _, _, _, _, h⟩ := h
  cases h
  exact ⟨d, n, rfl⟩

theorem rmdir_ok {path : CString} {u : Unit} (h : fs.rmdir cred path = .ok (u, fs')) :
    ∃ d n, fs' = fs.modify d (.unbind n) := by
  simp only [rmdir, bind_eq_ok, check_eq_ok] at h
  obtain ⟨⟨d, dir, n, i, x⟩, _, _, _, _, _, _, _, _, _, h⟩ := h
  cases h
  exact ⟨d, n, rfl⟩

theorem rename_ok {old new : CString} {u : Unit} (h : fs.rename cred old new = .ok (u, fs')) :
    fs' = fs ∨ ∃ d n d' n' i,
      fs' = ((fs.modify d (.unbind n)).modify d' (.unbind n')).modify d' (.bind n' i) := by
  simp only [rename, bind_eq_ok, check_eq_ok] at h
  obtain ⟨⟨d, dir, n, i, x⟩, _, ⟨d', dir', n'⟩, _, _, _, _, _, _, _, h⟩ := h
  split at h
  · cases h
    exact .inr ⟨d, n, d', n', i, rfl⟩
  · split_ifs at h
    · cases h
      exact .inl rfl
    · simp only [bind_eq_ok] at h
      obtain ⟨_, _, _, _, h⟩ := h
      cases h
      exact .inr ⟨d, n, d', n', i, rfl⟩

theorem mknod_ok {path : CString} {mode rdev : ℕ} {u : Unit}
    (h : fs.mknod cred path mode rdev = .ok (u, fs')) :
    ∃ body, fs.create cred path body mode = .ok (u, fs') := by
  unfold mknod at h
  split at h
  · exact ⟨_, h⟩
  · exact ⟨_, h⟩
  · exact ⟨_, h⟩
  · exact ⟨_, h⟩
  · obtain ⟨_, _, h⟩ := bind_eq_ok.mp h
    exact ⟨_, h⟩
  · obtain ⟨_, _, h⟩ := bind_eq_ok.mp h
    exact ⟨_, h⟩
  · cases h
  · cases h

theorem chmod_ok {path : CString} {mode : ℕ} {u : Unit}
    (h : fs.chmod cred path mode = .ok (u, fs')) :
    ∃ i, fs' = fs.modify i (fun x => { x with mode := mode &&& 0o7777 }) := by
  simp only [chmod, bind_eq_ok, check_eq_ok] at h
  obtain ⟨i, _, _, _, _, _, h⟩ := h
  cases h
  exact ⟨i, rfl⟩

theorem truncate_ok {path : CString} {size : ℕ} {u : Unit}
    (h : fs.truncate cred path size = .ok (u, fs')) :
    ∃ i data, fs.resolve cred path = .ok i ∧ fs.contents i = some data ∧
      fs' = fs.modify i (fun x => { x with
        body := .regular ((data ++ List.replicate (size - data.length) '\x00').take size) }) := by
  simp only [FileSystem.truncate, bind_eq_ok, getInode_eq_ok] at h
  obtain ⟨i, hi, x, hx, _, _, h⟩ := h
  cases hbody : x.body with
  | regular data =>
    rw [hbody] at h
    cases h
    exact ⟨i, data, hi, contents_eq_some.mpr ⟨x, hx, hbody⟩, rfl⟩
  | directory entries | symlink text | special rdev =>
    rw [hbody] at h
    cases h

theorem opendir_ok {path : CString} {dir : DirStream}
    (h : fs.opendir cred path = .ok (dir, fs')) :
    dir.dp = fs.fds.next ∧ ∃ file, fs' = { fs with fds := fs.fds.alloc file } := by
  simp only [opendir, bind_eq_ok] at h
  obtain ⟨_, _, _, _, _, _, _, _, h⟩ := h
  cases h
  exact ⟨rfl, _, rfl⟩

/-- A call that only looks at the file system, or does not get that far. -/
def onlyLooks : SysCall → Bool
  | .lstat _ | .access _ _ | .readlink _ _ | .utime _ _ | .utimensat _ _ | .pread _ _ _ | .statvfs _
  | .lsetxattr _ _ _ _ | .lgetxattr _ _ _ | .llistxattr _ _ | .lremovexattr _ _ => true
  | _ => false

theorem getFile_eq_ok {fd : ℕ} {file : OpenFile} :
    fs.getFile fd = .ok file ↔ fs.fds.get fd = some file := by
  unfold getFile
  cases fs.fds.get fd <;> simp

theorem close_eq_ok {fd : ℕ} {u : Unit} : fs.close fd = .ok (u, fs') ↔
    (∃ file, fs.fds.get fd = some file) ∧ fs' = { fs with fds := fs.fds.free fd } := by
  simp only [close, bind_eq_ok, getFile_eq_ok]
  constructor
  · rintro ⟨file, hfd, h⟩
    cases h
    exact ⟨⟨file, hfd⟩, rfl⟩
  · rintro ⟨⟨file, hfd⟩, rfl⟩
    exact ⟨file, hfd, rfl⟩

theorem pwrite_eq_ok {fd n offset : ℕ} {buf : CString} :
    fs.pwrite fd buf offset = .ok (n, fs') ↔ ∃ file data, fs.fds.get fd = some file ∧
      file.writable = true ∧ fs.contents file.ino = some data ∧ n = buf.length ∧
      fs' = fs.modify file.ino (fun x =>
        { x with body := .regular (writeAt data buf (position file data offset)) }) := by
  simp only [pwrite, bind_eq_ok, check_eq_ok, getInode_eq_ok, getFile_eq_ok, contents_eq_some]
  constructor
  · rintro ⟨file, hfile, _, hwritable, x, hx, h⟩
    cases hbody : x.body with
    | regular data =>
      rw [hbody] at h
      cases h
      exact ⟨file, data, hfile, hwritable, ⟨x, hx, hbody⟩, rfl, rfl⟩
    | directory | symlink | special => simp [hbody] at h
  · rintro ⟨file, data, hfile, hwritable, ⟨x, hx, hbody⟩, rfl, rfl⟩
    refine ⟨file, hfile, (), hwritable, x, hx, ?_⟩
    rw [hbody]
    rfl

theorem pread_eq_ok {fd size offset : ℕ} {buf : CString} :
    fs.pread fd size offset = .ok (buf, fs') ↔ ∃ file data, fs.fds.get fd = some file ∧
      file.readable = true ∧ fs.contents file.ino = some data ∧
      buf = readAt data size offset ∧ fs' = fs := by
  simp only [pread, bind_eq_ok, check_eq_ok, getInode_eq_ok, getFile_eq_ok, contents_eq_some]
  constructor
  · rintro ⟨file, hfile, _, hreadable, x, hx, h⟩
    cases hbody : x.body with
    | regular data =>
      rw [hbody] at h
      cases h
      exact ⟨file, data, hfile, hreadable, ⟨x, hx, hbody⟩, rfl, rfl⟩
    | directory | symlink | special => simp [hbody] at h
  · rintro ⟨file, data, hfile, hreadable, ⟨x, hx, hbody⟩, rfl, rfl⟩
    refine ⟨file, hfile, (), hreadable, x, hx, ?_⟩
    rw [hbody]
    rfl

theorem perform_looks {c : SysCall} {out : c.Out} (hc : onlyLooks c = true)
    (h : fs.perform cred c = .ok (out, fs')) : fs' = fs := by
  cases c with
  | lstat path =>
    simp only [perform, FileSystem.lstat, bind_eq_ok] at h
    obtain ⟨_, _, _, _, h⟩ := h
    cases h
    rfl
  | access path mask =>
    simp only [perform, FileSystem.access, bind_eq_ok] at h
    obtain ⟨_, _, _, _, _, _, _, _, h⟩ := h
    cases h
    rfl
  | readlink path size =>
    simp only [perform, FileSystem.readlink, bind_eq_ok] at h
    obtain ⟨_, _, x, _, h⟩ := h
    cases hbody : x.body with
    | symlink text =>
      rw [hbody] at h
      cases h
      rfl
    | regular data | directory entries | special rdev =>
      rw [hbody] at h
      cases h
  | pread fd size offset =>
    obtain ⟨_, _, _, _, _, _, hsame⟩ := pread_eq_ok.mp h
    exact hsame
  | utime | utimensat | statvfs =>
    simp only [perform, onPath, bind_eq_ok] at h
    obtain ⟨_, _, h⟩ := h
    cases h
    rfl
  | lsetxattr | lgetxattr | llistxattr | lremovexattr => cases h
  | _ => cases hc

theorem mayOpen_writable {x : Inode} {u : Unit} :
    mayOpen x true = .ok u ↔ ∃ data, x.body = .regular data := by
  unfold mayOpen
  cases x.body <;> simp [check]

/-- An opened inode; a file opened for writing or emptied is a regular one. -/
theorem openInode_ok {i : Ino} {flags fd : ℕ} (h : fs.openInode cred i flags = .ok (fd, fs')) :
    ∃ x, fs.inode i = some x ∧
      ((opened i flags).writable = true ∨ flags &&& oTrunc = oTrunc →
        ∃ data, x.body = .regular data) ∧ fd = fs.fds.next ∧
      fs'.fds = fs.fds.alloc (opened i flags) ∧
      (fs'.inodes = fs.inodes ∨ flags &&& oTrunc = oTrunc ∧
        fs'.inodes = (fs.modify i (fun x => { x with body := .regular [] })).inodes) := by
  simp only [openInode, bind_eq_ok, check_eq_ok, getInode_eq_ok] at h
  obtain ⟨x, hx, _, hopen, _, _, _, _, h⟩ := h
  cases h
  refine ⟨x, hx, ?_, rfl, rfl, ?_⟩
  · intro hchanges
    have hbits : ((opened i flags).writable || flags &&& oTrunc == oTrunc) = true := by
      rwa [Bool.or_eq_true, beq_iff_eq]
    rw [hbits] at hopen
    exact mayOpen_writable.mp hopen
  · split_ifs with hclear
    · exact .inr ⟨beq_iff_eq.mp hclear, rfl⟩
    · exact .inl rfl

/-- Reopening a file for writing. -/
theorem openFile_wronly {path : CString} {fd : ℕ} :
    fs.openFile cred path oWronly 0 = .ok (fd, fs') ↔ ∃ i x data,
      fs.resolve cred path = .ok i ∧ fs.inode i = some x ∧ x.body = .regular data ∧
      cred.may x wOk = true ∧ fd = fs.fds.next ∧
      fs' = { fs with fds := fs.fds.alloc ⟨i, false, true, false⟩ } := by
  have hcreat : (oWronly &&& oCreat == oCreat) = false := rfl
  have hkeep : (oWronly &&& oTrunc == oTrunc) = false := rfl
  have hopened : ∀ i, opened i oWronly = ⟨i, false, true, false⟩ := fun _ => rfl
  unfold openFile
  cases hresolve : fs.resolve cred path with
  | error e =>
    simp only [hcreat, Bool.false_and, bind_eq_ok, check_eq_ok, Bool.false_eq_true, false_and,
      exists_false, false_iff]
    rintro ⟨i, _, _, hi, _⟩
    cases hi
  | ok i =>
    simp only [bind_eq_ok, check_eq_ok, openInode, getInode_eq_ok, hopened, mayOpen_writable,
      hcreat, hkeep, Bool.false_and, Bool.false_eq_true, if_false, Bool.not_false,
      Bool.not_true, Bool.true_or, Bool.false_or]
    constructor
    · rintro ⟨_, _, x, hx, _, ⟨data, hdata⟩, _, _, _, hmay, h⟩
      cases h
      exact ⟨i, x, data, rfl, hx, hdata, hmay, rfl, rfl⟩
    · rintro ⟨j, x, data, hj, hx, hdata, hmay, rfl, rfl⟩
      cases hj
      exact ⟨(), trivial, x, hx, (), ⟨data, hdata⟩, (), trivial, (), hmay, rfl⟩

/-- A file that is opened again, written and closed. The descriptor is a new one, on the
same inode. -/
theorem rewrite_ok {path : CString} {j : Ino} {y : Inode} {data : CString}
    (hj : fs.resolve cred path = .ok j) (hy : fs.inode j = some y) (hdata : y.body = .regular data)
    (hmay : cred.may y wOk = true) (buf : CString) (offset : ℕ) :
    ∃ fs₁ fs₂ fs₃, fs.perform cred (.open path oWronly 0) = .ok (fs.fds.next, fs₁) ∧
      fs₁.fds.get fs.fds.next = some ⟨j, false, true, false⟩ ∧
      fs₁.perform cred (.pwrite fs.fds.next buf offset) = .ok (buf.length, fs₂) ∧
      fs₂.perform cred (.close fs.fds.next) = .ok ((), fs₃) ∧
      fs₃ = { fs.modify j (fun x => { x with body := .regular (writeAt data buf offset) }) with
        fds := (fs.fds.alloc ⟨j, false, true, false⟩).free fs.fds.next } := by
  obtain ⟨fs₁, hfs₁⟩ : ∃ fs₁ : FileSystem,
      fs₁ = { fs with fds := fs.fds.alloc ⟨j, false, true, false⟩ } := ⟨_, rfl⟩
  have hopen : fs.perform cred (.open path oWronly 0) = .ok (fs.fds.next, fs₁) :=
    openFile_wronly.mpr ⟨j, y, data, hj, hy, hdata, hmay, rfl, hfs₁⟩
  have hfd : fs₁.fds.get fs.fds.next = some ⟨j, false, true, false⟩ := by
    rw [hfs₁, Slots.get_alloc, if_pos rfl]
  have hcontents : fs₁.contents j = some data := by
    rw [hfs₁]
    exact contents_eq_some.mpr ⟨y, hy, hdata⟩
  have hwrite : fs₁.perform cred (.pwrite fs.fds.next buf offset) = .ok (buf.length,
      fs₁.modify j (fun x => { x with body := .regular (writeAt data buf offset) })) :=
    pwrite_eq_ok.mpr ⟨_, data, hfd, rfl, hcontents, rfl, rfl⟩
  refine ⟨fs₁, _, _, hopen, hfd, hwrite, close_eq_ok.mpr ⟨⟨_, hfd⟩, rfl⟩, ?_⟩
  rw [hfs₁]
  rfl

/-- An opened path led to the inode, or to nothing, and then the file is new. -/
theorem openFile_ok {path : CString} {flags mode fd : ℕ}
    (h : fs.openFile cred path flags mode = .ok (fd, fs')) :
    (∃ i, fs.resolve cred path = .ok i ∧ fs.openInode cred i flags = .ok (fd, fs')) ∨
      ∃ fs₁, fs.create cred path (.regular []) mode = .ok ((), fs₁) ∧ fd = fs.fds.next ∧
        fs' = { fs₁ with fds := fs.fds.alloc (opened fs.inodes.length flags) } := by
  unfold openFile at h
  split at h
  case h_1 i hresolve =>
    obtain ⟨_, _, h⟩ := bind_eq_ok.mp h
    exact .inl ⟨i, hresolve, h⟩
  · simp only [bind_eq_ok] at h
    obtain ⟨_, _, ⟨_, fs₁⟩, hcreate, h⟩ := h
    cases h
    obtain ⟨d, dir, n, _, _, _, rfl⟩ := create_eq_ok.mp hcreate
    exact .inr ⟨_, hcreate, rfl, rfl⟩

/-- The file `open` makes when the path leads nowhere. -/
theorem openFile_excl {path : CString} {mode fd : ℕ}
    (h : fs.openFile cred path (oCreat ||| oExcl ||| oWronly) mode = .ok (fd, fs')) :
    ∃ fs₁, fs.create cred path (.regular []) mode = .ok ((), fs₁) ∧ fd = fs.fds.next ∧
      fs' = { fs₁ with fds := fs.fds.alloc ⟨fs.inodes.length, false, true, false⟩ } := by
  unfold openFile at h
  split at h
  · simp only [bind_eq_ok, check_eq_ok] at h
    obtain ⟨_, hbits, _⟩ := h
    exact absurd hbits (by decide)
  · simp only [bind_eq_ok] at h
    obtain ⟨_, _, ⟨_, fs₁⟩, hcreate, h⟩ := h
    cases h
    obtain ⟨d, dir, n, _, _, _, rfl⟩ := create_eq_ok.mp hcreate
    exact ⟨_, hcreate, rfl, rfl⟩

/-- The descriptor of that file can be closed. -/
theorem close_openFile_excl {path : CString} {mode fd : ℕ}
    (h : fs.openFile cred path (oCreat ||| oExcl ||| oWronly) mode = .ok (fd, fs')) :
    fs'.close fd = .ok ((), { fs' with fds := fs'.fds.free fd }) := by
  obtain ⟨fs₁, -, rfl, rfl⟩ := openFile_excl h
  have hfd := Slots.get_alloc fs.fds ⟨fs.inodes.length, false, true, false⟩ fs.fds.next
  rw [if_pos rfl] at hfd
  exact close_eq_ok.mpr ⟨⟨_, hfd⟩, rfl⟩

end Calls

end FileSystem

section Kernel
variable {cred : Cred} {fs fs' : FileSystem} {c : SysCall}

theorem fileKernel_ok {out : c.Out} (h : fs.perform cred c = .ok (out, fs')) :
    (fileKernel cred).call c fs = (.ok out, fs') := by
  simp [fileKernel, h]

theorem fileKernel_error {e : Errno} (h : fs.perform cred c = .error e) :
    (fileKernel cred).call c fs = (.error e, fs) := by
  simp [fileKernel, h]

/-- A call does nothing or succeeds. -/
theorem fileKernel_rel {R : FileSystem → FileSystem → Prop} (hrefl : R fs fs)
    (hok : ∀ out fs', fs.perform cred c = .ok (out, fs') → R fs fs') :
    R fs ((fileKernel cred).call c fs).2 := by
  cases h : fs.perform cred c with
  | error e =>
    rw [fileKernel_error h]
    exact hrefl
  | ok r =>
    rw [fileKernel_ok h]
    exact hok r.1 r.2 h

/-- A change of owner, whether it is allowed or not. -/
theorem lchown_kernel {path : CString} {uid gid : ℕ} {i : Ino} {x : Inode}
    (hi : fs.resolve cred path = .ok i) (hx : fs.inode i = some x) :
    ((fileKernel cred).call (.lchown path (some uid) (some gid)) fs).2 =
      if cred.mayChown x uid gid = true then
        fs.modify i (fun x => { x with uid := uid, gid := gid })
      else fs := by
  split_ifs with hmay
  · have hperform : fs.perform cred (.lchown path (some uid) (some gid)) =
        .ok ((), fs.modify i (fun x => { x with uid := uid, gid := gid })) :=
      FileSystem.lchown_eq_ok.mpr ⟨i, x, hi, hx, hmay, rfl⟩
    rw [fileKernel_ok hperform]
  · cases h : fs.lchown cred path (some uid) (some gid) with
    | error e =>
      have hperform : fs.perform cred (.lchown path (some uid) (some gid)) = .error e := h
      rw [fileKernel_error hperform]
    | ok r =>
      obtain ⟨j, y, hj, hy, hmay', _⟩ := FileSystem.lchown_eq_ok.mp h
      rw [hi] at hj
      cases hj
      rw [hx] at hy
      cases hy
      exact absurd hmay' hmay

end Kernel

end DistillerFS
