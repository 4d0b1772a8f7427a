import DistillerFS.Recording.Operations
import Mathlib.Data.Finmap

/-!
# The access table

One entry for each recorded path, keyed by the path. The khash table is a finite
map; the order in which it is iterated is not part of it.
-/
namespace DistillerFS

structure LfsCount where
  path : CString
  count : BitVec 32
  flags : BitVec 32
  deriving DecidableEq, Repr

abbrev Hash := Finmap (fun _ : CString => LfsCount)

def hashFind (h : Hash) (key : CString) : Option LfsCount := h.lookup key

def hashAdd (h : Hash) (key : CString) (value : LfsCount) : Hash := h.insert key value

/-- The two prefix lists of the configuration; an array and its count are one list. -/
structure FilterDesc where
  excludePath : List CString
  includePath : List CString
  deriving DecidableEq, Repr

/-- `strncmp(s, t, n) == 0` on strings that hold no NUL. -/
def strncmpEq (s t : CString) (n : ℕ) : Bool := s.take n == t.take n

theorem strncmpEq_length (s t : CString) : strncmpEq s t t.length = true ↔ t <+: s := by
  rw [strncmpEq, List.take_length, beq_iff_eq, List.prefix_iff_eq_take]
  exact eq_comm

def isExcluded (path : CString) (exc_path : List CString) : Bool :=
  exc_path.any (fun d => strncmpEq path d d.length)

/-- An empty include list includes every path. -/
def isIncluded (path : CString) (inc_path : List CString) : Bool :=
  if inc_path.length = 0 then true
  else inc_path.any (fun d => strncmpEq path d d.length)

def FilterDesc.admits (filter : FilterDesc) (path : CString) : Bool :=
  isIncluded path filter.includePath && !isExcluded path filter.excludePath

theorem FilterDesc.admits_or_rejects (filter : FilterDesc) (path : Option CString) :
    (∃ p, path = some p ∧ filter.admits p = true) ∨ ∀ p, path = some p → filter.admits p = false := by
  by_cases h : ∃ p, path = some p ∧ filter.admits p = true
  · exact .inl h
  · right
    intro p hp
    simpa using fun ha => h ⟨p, hp, ha⟩

/-- The returned count and the new table. The pointer may be NULL. -/
def storeInHash (log_hash : Hash) (filter : FilterDesc) (path : Option CString)
    (flag : BitVec 32) : BitVec 32 × Hash :=
  match path with
  | none => (0, log_hash)
  | some path =>
    if isIncluded path filter.includePath ≠ true then (0, log_hash)
    else if isExcluded path filter.excludePath = true then (0, log_hash)
    else match hashFind log_hash path with
      | none =>
        let item : LfsCount := { path := path, count := 1, flags := flag }
        (item.count, hashAdd log_hash item.path item)
      | some found =>
        let item : LfsCount := { found with count := found.count + 1, flags := found.flags ||| flag }
        (item.count, hashAdd log_hash path item)

structure Event where
  path : Option CString
  flag : BitVec 32
  deriving DecidableEq, Repr

def Event.admitted (filter : FilterDesc) (p : CString) (e : Event) : Bool :=
  e.path == some p && filter.admits p

theorem Event.admitted_iff (filter : FilterDesc) (p : CString) (e : Event) :
    e.admitted filter p = true ↔ e.path = some p ∧ filter.admits p = true := by
  simp [admitted]

/-- One call of `Store_In_Hash`, as one atomic step on the shared table. -/
def record (filter : FilterDesc) (h : Hash) (e : Event) : Hash :=
  (storeInHash h filter e.path e.flag).2

def recordAll (filter : FilterDesc) (es : List Event) : Hash := es.foldl (record filter) ∅

@[simp] theorem recordAll_nil (filter : FilterDesc) : recordAll filter [] = ∅ := rfl

theorem recordAll_concat (filter : FilterDesc) (es : List Event) (e : Event) :
    recordAll filter (es ++ [e]) = record filter (recordAll filter es) e := by
  simp [recordAll]

/-- A rejected event returns 0 and leaves no trace. -/
theorem storeInHash_rejected {filter : FilterDesc} {path : Option CString}
    (hr : ∀ p, path = some p → filter.admits p = false) (h : Hash) (flag : BitVec 32) :
    storeInHash h filter path flag = (0, h) := by
  cases path with
  | none => rfl
  | some p =>
    have hp : (isIncluded p filter.includePath && !isExcluded p filter.excludePath) = false := hr p rfl
    unfold storeInHash
    by_cases hi : isIncluded p filter.includePath = true
    · have he : isExcluded p filter.excludePath = true := by simpa [hi] using hp
      simp [hi, he]
    · simp [hi]

/-- The entry an admitted event leaves behind. -/
def bump (found : Option LfsCount) (p : CString) (flag : BitVec 32) : LfsCount :=
  match found with
  | none => { path := p, count := 1, flags := flag }
  | some found => { found with count := found.count + 1, flags := found.flags ||| flag }

theorem storeInHash_admitted {filter : FilterDesc} {p : CString} (ha : filter.admits p = true)
    (h : Hash) (flag : BitVec 32) :
    storeInHash h filter (some p) flag =
      ((bump (h.lookup p) p flag).count, h.insert p (bump (h.lookup p) p flag)) := by
  have hp : (isIncluded p filter.includePath && !isExcluded p filter.excludePath) = true := ha
  rw [Bool.and_eq_true, Bool.not_eq_true'] at hp
  unfold storeInHash hashFind hashAdd
  simp only [hp.1, hp.2, ne_eq, not_true_eq_false, if_false, Bool.false_eq_true]
  cases h.lookup p <;> rfl

theorem record_lookup_admitted {filter : FilterDesc} {p : CString} {e : Event}
    (ha : e.admitted filter p = true) (h : Hash) :
    (record filter h e).lookup p = some (bump (h.lookup p) p e.flag) := by
  obtain ⟨hp, ha⟩ := (e.admitted_iff filter p).mp ha
  rw [record, hp, storeInHash_admitted ha, Finmap.lookup_insert]

theorem record_lookup_other {filter : FilterDesc} {p : CString} {e : Event}
    (ha : e.admitted filter p = false) (h : Hash) :
    (record filter h e).lookup p = h.lookup p := by
  unfold record
  rcases filter.admits_or_rejects e.path with ⟨q, hq, haq⟩ | hrejected
  · have hne : p ≠ q := by
      rintro rfl
      simp [Event.admitted, hq, haq] at ha
    rw [hq, storeInHash_admitted haq, Finmap.lookup_insert_of_ne _ hne]
  · rw [storeInHash_rejected hrejected]

end DistillerFS
