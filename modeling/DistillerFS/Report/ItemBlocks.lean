import DistillerFS.Foundations.Slots
import DistillerFS.Recording.HashModule
import DistillerFS.Report.LogFile

/-!
# The blocks behind the table

The table of the program holds pointers. `Store_In_Hash` allocates an item and a copy of the
path for each entry, `Print_Hash` reads them and `Free_Hash` gives them back. No block is
lost, none is freed twice, and none is used before or after its time.
-/
namespace DistillerFS
open Foundations

inductive PointerFault where
  | table (fault : Fault)
  | null
  | dangling
  | outside
  deriving DecidableEq, Repr

/-- `lfs_count_t` in its block; `path` points to another block. -/
structure ItemBlock where
  path : Option ℕ
  count : BitVec 32
  flags : BitVec 32
  deriving DecidableEq, Repr

/-- The blocks that are allocated. An address is a number of a slot. -/
structure Blocks where
  items : Slots ItemBlock
  paths : Slots CString

/-- The table with its items. The key of an entry is the text in the block of its path. -/
structure LogProcess where
  table : KHash CString ℕ
  blocks : Blocks

namespace Blocks

def empty : Blocks := ⟨.empty, .empty⟩

def item (m : Blocks) (a : ℕ) : Except PointerFault ItemBlock :=
  match m.items.get a with
  | some item => .ok item
  | none => .error .dangling

def freePath (m : Blocks) (b : ℕ) : Except PointerFault Blocks :=
  match m.paths.get b with
  | some _ => .ok { m with paths := m.paths.free b }
  | none => .error .dangling

def freeItem (m : Blocks) (a : ℕ) : Except PointerFault Blocks :=
  match m.items.get a with
  | some _ => .ok { m with items := m.items.free a }
  | none => .error .dangling

/-- The body of the loop in `Free_Hash`, for an item that is not NULL. -/
def release (m : Blocks) (a : ℕ) : Except PointerFault Blocks := do
  let item ← m.item a
  match item.path with
  | none => return m
  | some b =>
    let m ← m.freePath b
    m.freeItem a

end Blocks

section Program
variable (hashFunc : CString → BitVec 32)

/-- The item of a new path and its place in the table. -/
def addItem (alloc : Allocations) (s : LogProcess) (path : CString) (flag : BitVec 32) :
    Except PointerFault (BitVec 32 × LogProcess) :=
  if alloc.item = false then .error .null
  else do
    let a := s.blocks.items.next
    let item : ItemBlock :=
      { path := if alloc.path then some s.blocks.paths.next else none, count := 1, flags := flag }
    let blocks : Blocks :=
      { items := s.blocks.items.alloc item
        paths := if alloc.path then s.blocks.paths.alloc path else s.blocks.paths }
    let added ← (KHash.hashAdd hashFunc alloc.table s.table
      (if alloc.path then some path else none) a).mapError .table
    if added.2 ≠ [] then .error .outside
    else return (item.count, { table := added.1, blocks := blocks })

/-- `Store_In_Hash`, with the pointers that it follows. -/
def storeItem (alloc : Allocations) (filter : FilterDesc) (s : LogProcess) (path : Option CString)
    (flag : BitVec 32) : Except PointerFault (BitVec 32 × LogProcess) :=
  match path with
  | none => .ok (0, s)
  | some path =>
    if isIncluded path filter.includePath ≠ true then .ok (0, s)
    else if isExcluded path filter.excludePath = true then .ok (0, s)
    else do
      let found ← (KHash.hashFind hashFunc s.table path).mapError .table
      match found with
      | none => addItem hashFunc alloc s path flag
      | some a =>
        let item ← s.blocks.item a
        let item := { item with count := item.count + 1, flags := item.flags ||| flag }
        return (item.count, { s with blocks := { s.blocks with items := s.blocks.items.write a item } })

/-- `Print_Hash`, with the pointers that it follows. -/
def printItems (s : LogProcess) : Except PointerFault CString :=
  s.table.foreach.foldlM (fun dest e => do
    let v ← s.blocks.item e.2
    return dest ++ entryLine e.1 { path := e.1, count := v.count, flags := v.flags } ++ ['\n']) []

/-- `Free_Hash`, up to the arrays of the table. -/
def freeHash (s : LogProcess) : Except PointerFault Blocks :=
  s.table.foreach.foldlM (fun m e => m.release e.2) s.blocks

/-- The calls of a history, each with all the memory it asks for. -/
def recordItems (filter : FilterDesc) (es : List Event) : Except PointerFault LogProcess :=
  es.foldlM (fun s e => (storeItem hashFunc .ample filter s e.path e.flag).map Prod.snd)
    { table := KHash.init, blocks := .empty }

end Program

/-- The blocks are those of the entries: an item for each of them, and a path for each item. -/
structure Blocks.OwnedBy (m : Blocks) (entries : Set (CString × ℕ)) : Prop where
  functional : ∀ {p a a'}, (p, a) ∈ entries → (p, a') ∈ entries → a = a'
  block : ∀ {p a}, (p, a) ∈ entries → ∃ item b, m.items.get a = some item ∧
    item.path = some b ∧ m.paths.get b = some p
  items : ∀ {a}, m.items.get a ≠ none → ∃ p, (p, a) ∈ entries
  paths : ∀ {b}, m.paths.get b ≠ none → ∃ p a item, (p, a) ∈ entries ∧
    m.items.get a = some item ∧ item.path = some b

namespace Blocks.OwnedBy
variable {m : Blocks} {entries : Set (CString × ℕ)} {p : CString} {a b : ℕ}

theorem empty : Blocks.empty.OwnedBy ∅ where
  functional := fun h => absurd h (Set.notMem_empty _)
  block := fun h => absurd h (Set.notMem_empty _)
  items := fun h => absurd rfl h
  paths := fun h => absurd rfl h

theorem gone (ho : m.OwnedBy ∅) : (∀ a, m.items.get a = none) ∧ ∀ b, m.paths.get b = none := by
  constructor
  · intro a
    by_contra ha
    obtain ⟨p, hp⟩ := ho.items ha
    exact hp
  · intro b
    by_contra hb
    obtain ⟨p, a, item, hp, -⟩ := ho.paths hb
    exact hp

theorem path_eq (ho : m.OwnedBy entries) {q : CString} {a' : ℕ} {item item' : ItemBlock}
    (hp : (p, a) ∈ entries) (hq : (q, a') ∈ entries) (hitem : m.items.get a = some item)
    (hitem' : m.items.get a' = some item') (hsame : item.path = item'.path) : (p, a) = (q, a') := by
  obtain ⟨i, b, hi, hb, hpath⟩ := ho.block hp
  obtain ⟨i', b', hi', hb', hpath'⟩ := ho.block hq
  rw [hitem] at hi
  rw [hitem'] at hi'
  cases hi
  cases hi'
  rw [hb, hb'] at hsame
  cases hsame
  rw [hpath] at hpath'
  cases hpath'
  rw [ho.functional hp hq]

theorem insert (ho : m.OwnedBy entries) (hnew : ∀ a, (p, a) ∉ entries) (count flags : BitVec 32) :
    Blocks.OwnedBy
      { items := m.items.alloc ⟨some m.paths.next, count, flags⟩, paths := m.paths.alloc p }
      (Insert.insert (p, m.items.next) entries) := by
  have hitem : ∀ {q a}, (q, a) ∈ entries → a ≠ m.items.next := by
    rintro q a hq rfl
    obtain ⟨item, b, hitem, -⟩ := ho.block hq
    rw [m.items.get_next] at hitem
    cases hitem
  have hpath : ∀ {b}, m.paths.get b ≠ none → b ≠ m.paths.next := by
    rintro b hb rfl
    exact hb m.paths.get_next
  refine ⟨?_, ?_, ?_, ?_⟩
  · intro q a a' hq hq'
    rcases hq with heq | hq <;> rcases hq' with heq' | hq'
    · rw [(Prod.mk.inj heq).2, (Prod.mk.inj heq').2]
    · rw [(Prod.mk.inj heq).1] at hq'
      exact absurd hq' (hnew _)
    · rw [(Prod.mk.inj heq').1] at hq
      exact absurd hq (hnew _)
    · exact ho.functional hq hq'
  · intro q a hq
    simp only [Slots.get_alloc]
    rcases hq with heq | hq
    · rw [(Prod.mk.inj heq).1, (Prod.mk.inj heq).2]
      exact ⟨_, _, if_pos rfl, rfl, if_pos rfl⟩
    · obtain ⟨item, b, hget, hb, htext⟩ := ho.block hq
      refine ⟨item, b, ?_, hb, ?_⟩
      · rw [if_neg (hitem hq), hget]
      · rw [if_neg (hpath (by simp [htext])), htext]
  · intro a ha
    rw [Slots.get_alloc] at ha
    by_cases hnext : a = m.items.next
    · exact ⟨p, .inl (by rw [hnext])⟩
    · rw [if_neg hnext] at ha
      obtain ⟨q, hq⟩ := ho.items ha
      exact ⟨q, .inr hq⟩
  · intro b hb
    simp only [Slots.get_alloc] at hb ⊢
    by_cases hnext : b = m.paths.next
    · exact ⟨p, m.items.next, _, .inl rfl, if_pos rfl, by rw [hnext]⟩
    · rw [if_neg hnext] at hb
      obtain ⟨q, a, item, hq, hget, hpath⟩ := ho.paths hb
      exact ⟨q, a, item, .inr hq, by rw [if_neg (hitem hq), hget], hpath⟩

theorem write (ho : m.OwnedBy entries) {item : ItemBlock} (hget : m.items.get a = some item)
    (count flags : BitVec 32) :
    Blocks.OwnedBy { m with items := m.items.write a { item with count := count, flags := flags } }
      entries := by
  have htaken : m.items.get a ≠ none := by simp [hget]
  have hitems : ∀ a' i, m.items.get a' = some i → ∃ i',
      (m.items.write a { item with count := count, flags := flags }).get a' = some i' ∧
        i'.path = i.path := by
    intro a' i hi
    rw [Slots.get_write htaken]
    by_cases ha : a' = a
    · rw [ha, hget] at hi
      cases hi
      exact ⟨_, if_pos ha, rfl⟩
    · exact ⟨i, by rw [if_neg ha, hi], rfl⟩
  refine ⟨ho.functional, ?_, ?_, ?_⟩
  · intro p a' hp
    obtain ⟨i, b, hi, hb, htext⟩ := ho.block hp
    obtain ⟨i', hi', hpath⟩ := hitems a' i hi
    exact ⟨i', b, hi', hpath.trans hb, htext⟩
  · intro a' ha'
    apply ho.items
    change (m.items.write a _).get a' ≠ none at ha'
    rw [Slots.get_write htaken] at ha'
    by_cases ha : a' = a
    · rw [ha]
      exact htaken
    · rwa [if_neg ha] at ha'
  · intro b hb
    obtain ⟨p, a', i, hp, hi, hpath⟩ := ho.paths hb
    obtain ⟨i', hi', hpath'⟩ := hitems a' i hi
    exact ⟨p, a', i', hp, hi', hpath'.trans hpath⟩

/-- An entry whose two blocks are given back is gone, and the others keep theirs. -/
theorem release (ho : m.OwnedBy entries) (hp : (p, a) ∈ entries) :
    ∃ m', m.release a = .ok m' ∧ m'.OwnedBy (entries \ {(p, a)}) := by
  obtain ⟨item, b, hitem, hb, htext⟩ := ho.block hp
  have hother : ∀ {q a' i}, (q, a') ∈ entries \ {(p, a)} → m.items.get a' = some i →
      a' ≠ a ∧ i.path ≠ some b := by
    intro q a' i hq hi
    have hpath : i.path ≠ some b := by
      intro hsame
      exact hq.2 (ho.path_eq hq.1 hp hi hitem (hsame.trans hb.symm))
    refine ⟨?_, hpath⟩
    rintro rfl
    rw [hitem] at hi
    cases hi
    exact hpath hb
  refine ⟨{ items := m.items.free a, paths := m.paths.free b }, ?_, ?_, ?_, ?_, ?_⟩
  · simp only [Blocks.release, Blocks.item, hitem, ok_bind, hb, Blocks.freePath, htext,
      Blocks.freeItem]
  · exact fun h h' => ho.functional h.1 h'.1
  · intro q a' hq
    obtain ⟨i, b', hi, hb', htext'⟩ := ho.block hq.1
    obtain ⟨hne, hpath⟩ := hother hq hi
    simp only [Slots.get_free]
    refine ⟨i, b', by rw [if_neg hne, hi], hb', ?_⟩
    rw [if_neg, htext']
    rintro rfl
    exact hpath hb'
  · intro a' ha'
    simp only [Slots.get_free] at ha'
    by_cases ha : a' = a
    · rw [if_pos ha] at ha'
      exact absurd rfl ha'
    · rw [if_neg ha] at ha'
      obtain ⟨q, hq⟩ := ho.items ha'
      exact ⟨q, hq, fun heq => ha (Prod.mk.inj heq).2⟩
  · intro b' hb'
    simp only [Slots.get_free] at hb' ⊢
    by_cases hbb : b' = b
    · rw [if_pos hbb] at hb'
      exact absurd rfl hb'
    · rw [if_neg hbb] at hb'
      obtain ⟨q, a', i, hq, hi, hpath⟩ := ho.paths hb'
      have hne : (q, a') ∉ ({(p, a)} : Set (CString × ℕ)) := by
        intro heq
        rw [(Prod.mk.inj heq).2, hitem] at hi
        cases hi
        rw [hb] at hpath
        exact hbb (Option.some.inj hpath).symm
      refine ⟨q, a', i, ⟨hq, hne⟩, ?_, hpath⟩
      rw [if_neg (hother ⟨hq, hne⟩ hi).1, hi]

/-- The loop of `Free_Hash`, over entries with different paths. -/
theorem releaseAll {l : List (CString × ℕ)} (hnodup : (l.map Prod.fst).Nodup)
    (ho : m.OwnedBy {e | e ∈ l}) :
    ∃ m', l.foldlM (fun m e => m.release e.2) m = .ok m' ∧ m'.OwnedBy ∅ := by
  induction l generalizing m with
  | nil => exact ⟨m, rfl, by simpa using ho⟩
  | cons e l ih =>
    obtain ⟨p, a⟩ := e
    rw [List.map_cons, List.nodup_cons] at hnodup
    have hp : (p, a) ∈ {e | e ∈ (p, a) :: l} := List.mem_cons_self
    obtain ⟨m', hrelease, ho'⟩ := ho.release hp
    have hrest : {e | e ∈ (p, a) :: l} \ {(p, a)} = {e | e ∈ l} := by
      ext e
      simp only [List.mem_cons, Set.mem_sdiff, Set.mem_ofPred_eq, Set.mem_singleton_iff]
      constructor
      · rintro ⟨heq | he, hne⟩
        · exact absurd heq hne
        · exact he
      · intro he
        refine ⟨.inr he, ?_⟩
        rintro rfl
        exact hnodup.1 (List.mem_map_of_mem he)
    rw [hrest] at ho'
    obtain ⟨m'', hloop, hgone⟩ := ih hnodup.2 ho'
    refine ⟨m'', ?_, hgone⟩
    rw [List.foldlM_cons, hrelease, ok_bind, hloop]

end Blocks.OwnedBy

def Blocks.entry (m : Blocks) (p : CString) (a : ℕ) : Option LfsCount :=
  (m.items.get a).map (fun item => { path := p, count := item.count, flags := item.flags })

/-- The pointers and the blocks hold the access table. -/
structure Backs (hashFunc : CString → BitVec 32) (s : LogProcess) (h : Hash) : Prop where
  wellFormed : s.table.WellFormed hashFunc
  owned : s.blocks.OwnedBy {e | s.table.lookup e.1 = some e.2}
  entries : ∀ p, h.lookup p = (s.table.lookup p).bind (s.blocks.entry p)

section Steps
variable {hashFunc : CString → BitVec 32} {s : LogProcess} {h : Hash} {filter : FilterDesc}
  {p : CString} {flag : BitVec 32} {a : ℕ}

theorem Backs.start : Backs hashFunc { table := KHash.init, blocks := .empty } ∅ where
  wellFormed := KHash.wellFormed_init hashFunc
  owned := by
    have hnone : {e : CString × ℕ | (KHash.init : KHash CString ℕ).lookup e.1 = some e.2} = ∅ := by
      ext e
      simp [KHash.lookup, KHash.init]
    rw [hnone]
    exact .empty
  entries := fun _ => rfl

theorem Backs.lookup_none (hb : Backs hashFunc s h) :
    h.lookup p = none ↔ s.table.lookup p = none := by
  rw [hb.entries]
  cases hfound : s.table.lookup p with
  | none => exact iff_of_true rfl rfl
  | some a =>
    obtain ⟨item, b, hitem, -⟩ := hb.owned.block hfound
    simp [Blocks.entry, hitem]

theorem Backs.size_eq (hb : Backs hashFunc s h) : s.table.size = h.keys.card := by
  apply KHash.size_eq_card hb.wellFormed
  intro p
  rw [Finmap.mem_keys, Finmap.mem_iff, ← Option.ne_none_iff_exists', ne_eq, hb.lookup_none]

/-- A new path gets its item and its copy. -/
theorem Backs.add (hb : Backs hashFunc s h) (hnone : s.table.lookup p = none)
    (hsize : s.table.size < 2 ^ 31) : ∃ s', addItem hashFunc .ample s p flag = .ok (1, s') ∧
      Backs hashFunc s' (h.insert p { path := p, count := 1, flags := flag }) := by
  obtain ⟨table, hadd, hw, hlookup⟩ := @KHash.hashAdd_spec _ _ hashFunc _ _ p
    s.blocks.items.next Allocations.ample.table hb.wellFormed (fun _ => ⟨rfl, fun _ => ⟨rfl, rfl⟩⟩) hsize
  have hnew : ∀ a, (p, a) ∉ {e : CString × ℕ | s.table.lookup e.1 = some e.2} := by
    intro a ha
    have ha : s.table.lookup p = some a := ha
    rw [hnone] at ha
    cases ha
  have hentries : {e : CString × ℕ | table.lookup e.1 = some e.2} =
      insert (p, s.blocks.items.next) {e | s.table.lookup e.1 = some e.2} := by
    ext ⟨q, a⟩
    simp only [Set.mem_ofPred_eq, hlookup, Set.mem_insert_iff, Prod.mk.injEq]
    by_cases hq : q = p
    · rw [if_pos hq, hq]
      simp [hnone, eq_comm]
    · simp [hq]
  have howned := hb.owned.insert hnew 1 flag
  rw [← hentries] at howned
  refine ⟨⟨table, _⟩, ?_, hw, howned, ?_⟩
  · rw [addItem, if_neg (by decide)]
    simp only [Allocations.ample, if_true]
    rw [show KHash.hashAdd hashFunc ⟨true, true, true⟩ s.table (some p) s.blocks.items.next = _ from hadd]
    rfl
  · intro q
    rw [hlookup]
    by_cases hq : q = p
    · subst hq
      rw [Finmap.lookup_insert, if_pos rfl]
      simp [Blocks.entry, Slots.get_alloc]
    · rw [Finmap.lookup_insert_of_ne _ hq, if_neg hq, hb.entries]
      cases hfound : s.table.lookup q with
      | none => rfl
      | some a =>
        have hne : a ≠ s.blocks.items.next := by
          intro heq
          obtain ⟨item, b, hitem, -⟩ := hb.owned.block hfound
          rw [heq, Slots.get_next] at hitem
          cases hitem
        simp [Blocks.entry, Slots.get_alloc, hne]

theorem Backs.write (hb : Backs hashFunc s h) (hfound : s.table.lookup p = some a) {item : ItemBlock}
    (hitem : s.blocks.items.get a = some item) (count flags : BitVec 32) :
    Backs hashFunc { s with blocks := { s.blocks with
        items := s.blocks.items.write a { item with count := count, flags := flags } } }
      (h.insert p { path := p, count := count, flags := flags }) := by
  refine ⟨hb.wellFormed, hb.owned.write hitem count flags, fun q => ?_⟩
  have htaken : s.blocks.items.get a ≠ none := by simp [hitem]
  by_cases hq : q = p
  · rw [hq, Finmap.lookup_insert]
    simp [hfound, Blocks.entry, Slots.get_write htaken]
  · rw [Finmap.lookup_insert_of_ne _ hq, hb.entries]
    cases hother : s.table.lookup q with
    | none => rfl
    | some a' =>
      have hne : a' ≠ a := by
        rintro rfl
        have hsame := hb.owned.path_eq hother hfound hitem hitem rfl
        exact hq (Prod.mk.inj hsame).1
      simp [Blocks.entry, Slots.get_write htaken, hne]

theorem Backs.store (hb : Backs hashFunc s h) (hsize : s.table.size < 2 ^ 31)
    (path : Option CString) (flag : BitVec 32) :
    ∃ s', storeItem hashFunc .ample filter s path flag = .ok ((storeInHash h filter path flag).1, s') ∧
      Backs hashFunc s' (storeInHash h filter path flag).2 := by
  rcases filter.admits_or_rejects path with ⟨p, rfl, ha⟩ | hrejected
  · have hp : (isIncluded p filter.includePath && !isExcluded p filter.excludePath) = true := ha
    rw [Bool.and_eq_true, Bool.not_eq_true'] at hp
    rw [storeInHash_admitted ha, storeItem]
    simp only [hp.1, hp.2, ne_eq, not_true_eq_false, if_false, Bool.false_eq_true,
      KHash.hashFind_eq hb.wellFormed]
    cases hfound : s.table.lookup p with
    | none =>
      obtain ⟨s', hadd, hb'⟩ := @Backs.add _ _ _ _ flag hb hfound hsize
      rw [hb.lookup_none.mpr hfound]
      exact ⟨s', hadd, hb'⟩
    | some a =>
      obtain ⟨item, b, hitem, -⟩ := hb.owned.block hfound
      have hentry : h.lookup p = some { path := p, count := item.count, flags := item.flags } := by
        rw [hb.entries, hfound]
        simp [Blocks.entry, hitem]
      rw [hentry]
      refine ⟨_, ?_, hb.write hfound hitem (item.count + 1) (item.flags ||| flag)⟩
      change (s.blocks.item a >>= _) = _
      rw [Blocks.item, hitem]
      rfl
  · rw [storeInHash_rejected hrejected]
    refine ⟨s, ?_, hb⟩
    cases path with
    | none => rfl
    | some p =>
      have hp : (isIncluded p filter.includePath && !isExcluded p filter.excludePath) = false :=
        hrejected p rfl
      unfold storeItem
      by_cases hi : isIncluded p filter.includePath = true
      · have he : isExcluded p filter.excludePath = true := by simpa [hi] using hp
        simp only [hi, he, ne_eq, not_true_eq_false, if_false, if_true]
      · exact if_pos hi

/-- A history of up to 2^31 calls follows no bad pointer. -/
theorem recordItems_backs (hashFunc : CString → BitVec 32) (filter : FilterDesc) {es : List Event}
    (hlength : es.length ≤ 2 ^ 31) :
    ∃ s, recordItems hashFunc filter es = .ok s ∧ Backs hashFunc s (recordAll filter es) := by
  refine @foldlM_runs _ _ _ _ _ (fun before s => Backs hashFunc s (recordAll filter before)) es .start ?_
  intro before e s hle hb
  have hsize : s.table.size < 2 ^ 31 := by
    have hcard := card_keys_recordAll_le filter before
    have hlen := hle.length_le
    rw [List.length_append, List.length_singleton] at hlen
    rw [hb.size_eq]
    omega
  obtain ⟨s', hstore, hb'⟩ := hb.store hsize e.path e.flag
  refine ⟨s', by rw [hstore]; rfl, ?_⟩
  rw [recordAll_concat]
  exact hb'

def LogProcess.content (s : LogProcess) (e : CString × ℕ) : LfsCount :=
  (s.blocks.entry e.1 e.2).getD default

theorem Backs.entry_content (hb : Backs hashFunc s h) {e : CString × ℕ}
    (he : s.table.lookup e.1 = some e.2) : ∃ item, s.blocks.items.get e.2 = some item ∧
      s.content e = { path := e.1, count := item.count, flags := item.flags } ∧
      h.lookup e.1 = some (s.content e) := by
  obtain ⟨item, b, hitem, -⟩ := hb.owned.block he
  have hcontent : s.content e = { path := e.1, count := item.count, flags := item.flags } := by
    simp [LogProcess.content, Blocks.entry, hitem]
  refine ⟨item, hitem, hcontent, ?_⟩
  rw [hb.entries, he, hcontent]
  simp [Blocks.entry, hitem]

/-- The visit of the buckets reads the access table. -/
def Backs.iteration (hb : Backs hashFunc s h) : Iteration h :=
  .ofList (s.table.foreach.map (fun e => (e.1, s.content e)))
    (by
      rw [List.map_map]
      exact KHash.nodup_foreach hb.wellFormed)
    (by
      rintro ⟨p, v⟩
      rw [List.mem_map]
      constructor
      · rintro ⟨e, he, heq⟩
        cases heq
        obtain ⟨item, -, -, hlookup⟩ := hb.entry_content ((KHash.mem_foreach hb.wellFormed).mp he)
        exact hlookup
      · intro hv
        have hv : h.lookup p = some v := hv
        cases hfound : s.table.lookup p with
        | none =>
          rw [hb.lookup_none.mpr hfound] at hv
          cases hv
        | some a =>
          refine ⟨(p, a), (KHash.mem_foreach hb.wellFormed).mpr hfound, ?_⟩
          obtain ⟨item, -, -, hlookup⟩ := @Backs.entry_content _ _ _ hb (p, a) hfound
          rw [Option.some.inj (hv.symm.trans hlookup)])

/-- `Print_Hash` prints the entries of the access table. -/
theorem Backs.print (hb : Backs hashFunc s h) : printItems s =
    .ok (hb.iteration.order.flatMap (fun e => entryLine e.1 e.2 ++ ['\n'])) := by
  have hstep : ∀ e ∈ s.table.foreach, ∀ dest : CString, (do
      let v ← s.blocks.item e.2
      return dest ++ entryLine e.1 { path := e.1, count := v.count, flags := v.flags } ++ ['\n']) =
      (.ok (dest ++ (entryLine e.1 (s.content e) ++ ['\n'])) : Except PointerFault CString) := by
    intro e he dest
    obtain ⟨item, hitem, hcontent, -⟩ := hb.entry_content ((KHash.mem_foreach hb.wellFormed).mp he)
    rw [Blocks.item, hitem, hcontent, ← List.append_assoc]
    rfl
  rw [printItems, foldlM_appends hstep]
  simp [Backs.iteration, Iteration.ofList, List.flatMap_map]

theorem Backs.release (hb : Backs hashFunc s h) : ∃ m, freeHash s = .ok m ∧
    (∀ a, m.items.get a = none) ∧ ∀ b, m.paths.get b = none := by
  have howned : s.blocks.OwnedBy {e | e ∈ s.table.foreach} := by
    have hsame : {e : CString × ℕ | e ∈ s.table.foreach} = {e | s.table.lookup e.1 = some e.2} := by
      ext e
      exact KHash.mem_foreach hb.wellFormed
    rw [hsame]
    exact hb.owned
  obtain ⟨m, hm, hgone⟩ := howned.releaseAll (KHash.nodup_foreach hb.wellFormed)
  exact ⟨m, hm, hgone.gone⟩

end Steps

/-- The life of the blocks. Any history of up to 2^31 calls follows no bad pointer and leaves
a table whose entries `Print_Hash` reads as those of the access table, each once; then
`Free_Hash` frees each block once, and no block is left. -/
theorem blocks_freed (hashFunc : CString → BitVec 32) (filter : FilterDesc) (es : List Event)
    (hlength : es.length ≤ 2 ^ 31) : ∃ s, recordItems hashFunc filter es = .ok s ∧
      (∃ it : Iteration (recordAll filter es),
        printItems s = .ok (it.order.flatMap (fun e => entryLine e.1 e.2 ++ ['\n']))) ∧
      ∃ m, freeHash s = .ok m ∧ (∀ a, m.items.get a = none) ∧ ∀ b, m.paths.get b = none := by
  obtain ⟨s, hs, hb⟩ := recordItems_backs hashFunc filter hlength
  exact ⟨s, hs, ⟨hb.iteration, hb.print⟩, hb.release⟩

theorem blocks_freed_two : ∃ s, recordItems acX31HashString ⟨[], []⟩
      [⟨some "/a".toList, flag .opOpen⟩, ⟨some "/b".toList, flag .opRead⟩] = .ok s ∧
    ∃ m, freeHash s = .ok m ∧ ∀ a, m.items.get a = none := by
  obtain ⟨s, hs, -, m, hm, hitems, -⟩ := blocks_freed acX31HashString ⟨[], []⟩
    [⟨some "/a".toList, flag .opOpen⟩, ⟨some "/b".toList, flag .opRead⟩] (by decide)
  exact ⟨s, hs, m, hm, hitems⟩

end DistillerFS
