import DistillerFS.Recording.AccessTable

/-!
# What the path filter selects

The entries of the two lists are prefixes of the path as a string. Read as
directories they select the same paths, unless a character other than a slash comes behind an
entry in the path.
-/
namespace DistillerFS

def AtOrBelow (d p : CString) : Prop := p = d ∨ d ++ ['/'] <+: p

/-- In `p` the string `d` is followed by a character other than a slash. -/
def RunsOn (d p : CString) : Prop := ∃ c rest, c ≠ '/' ∧ p = d ++ c :: rest

def Included (sel : CString → CString → Prop) (paths : List CString) (p : CString) : Prop :=
  paths = [] ∨ ∃ d ∈ paths, sel d p

/-- The rule of the filter, for any reading of an entry. -/
def FilterDesc.Selects (sel : CString → CString → Prop) (filter : FilterDesc) (p : CString) : Prop :=
  Included sel filter.includePath p ∧ ∀ d ∈ filter.excludePath, ¬ sel d p

/-- `Store_In_Hash` leaves the entry of one more access to `p`. -/
def Records (h : Hash) (filter : FilterDesc) (p : CString) (flag : BitVec 32) : Prop :=
  (storeInHash h filter (some p) flag).2 = h.insert p (bump (h.lookup p) p flag)

theorem prefix_iff_atOrBelow {d p : CString} : d <+: p ↔ AtOrBelow d p ∨ RunsOn d p := by
  constructor
  · rintro ⟨rest, rfl⟩
    cases rest with
    | nil => exact .inl (.inl (List.append_nil d))
    | cons c rest =>
      by_cases hc : c = '/'
      · subst hc
        exact .inl (.inr ⟨rest, List.append_assoc d ['/'] rest⟩)
      · exact .inr ⟨c, rest, hc, rfl⟩
  · rintro ((rfl | ⟨rest, rfl⟩) | ⟨c, rest, _, rfl⟩)
    · exact List.prefix_refl p
    · exact ⟨'/' :: rest, (List.append_assoc d ['/'] rest).symm⟩
    · exact List.prefix_append d (c :: rest)

theorem isExcluded_iff {p : CString} {paths : List CString} :
    isExcluded p paths = true ↔ ∃ d ∈ paths, d <+: p := by
  simp [isExcluded, strncmpEq_length]

theorem isIncluded_iff {p : CString} {paths : List CString} :
    isIncluded p paths = true ↔ Included (· <+: ·) paths p := by
  by_cases h : paths = []
  · simp [isIncluded, Included, h]
  · simp [isIncluded, Included, h, strncmpEq_length]

theorem FilterDesc.admits_iff {filter : FilterDesc} {p : CString} :
    filter.admits p = true ↔ filter.Selects (· <+: ·) p := by
  rw [admits, Bool.and_eq_true, isIncluded_iff, Bool.not_eq_true', ← Bool.not_eq_true, isExcluded_iff]
  simp [Selects]

/-- An entry that is left behind differs from the one before it in its counter. -/
theorem bump_ne (found : Option LfsCount) (p : CString) (flag : BitVec 32) :
    found ≠ some (bump found p flag) := by
  intro h
  cases found with
  | none => cases h
  | some v =>
    have hcount : v.count = v.count + 1 := congrArg LfsCount.count (Option.some.inj h)
    simp at hcount

theorem records_iff_admits {h : Hash} {filter : FilterDesc} {p : CString} {flag : BitVec 32} :
    Records h filter p flag ↔ filter.admits p = true := by
  constructor
  · intro hrec
    by_contra hadmits
    have hrej : storeInHash h filter (some p) flag = (0, h) := by
      apply storeInHash_rejected
      rintro q hq
      cases hq
      exact Bool.not_eq_true _ ▸ hadmits
    rw [Records, hrej] at hrec
    apply bump_ne (h.lookup p) p flag
    calc h.lookup p = (h.insert p (bump (h.lookup p) p flag)).lookup p := by rw [← hrec]
      _ = some (bump (h.lookup p) p flag) := Finmap.lookup_insert h
  · intro hadmits
    rw [Records, storeInHash_admitted hadmits]

/-- Only the members of the lists count, not their order or repetition. -/
theorem FilterDesc.admits_congr {filter filter' : FilterDesc}
    (hinc : ∀ d, d ∈ filter.includePath ↔ d ∈ filter'.includePath)
    (hexc : ∀ d, d ∈ filter.excludePath ↔ d ∈ filter'.excludePath) (p : CString) :
    filter.admits p = filter'.admits p := by
  have hnil : filter.includePath = [] ↔ filter'.includePath = [] := by
    simp only [List.eq_nil_iff_forall_not_mem, hinc]
  apply Bool.eq_iff_iff.mpr
  rw [admits_iff, admits_iff, Selects, Selects, Included, Included, hnil]
  simp only [hinc, hexc]

theorem FilterDesc.selects_directories {filter : FilterDesc} {p : CString}
    (hcut : ∀ d, d ∈ filter.includePath ∨ d ∈ filter.excludePath → ¬ RunsOn d p) :
    filter.Selects (· <+: ·) p ↔ filter.Selects AtOrBelow p := by
  have hsel : ∀ d, d ∈ filter.includePath ∨ d ∈ filter.excludePath → (d <+: p ↔ AtOrBelow d p) := by
    intro d hd
    rw [prefix_iff_atOrBelow, or_iff_left (hcut d hd)]
  apply and_congr
  · apply or_congr Iff.rfl
    exact exists_congr fun d => and_congr_right fun hd => hsel d (.inl hd)
  · exact forall₂_congr fun d hd => not_congr (hsel d (.inr hd))

/-- The path filter goes by string prefixes. Exclusion wins, and the order and repetition
of the entries do not matter; the entries select whole directories for a path in which none of
them is followed by a character other than a slash. -/
theorem pathFilter_prefixes (h : Hash) (filter : FilterDesc) (p : CString) (f : BitVec 32) :
    (Records h filter p f ↔ filter.Selects (· <+: ·) p) ∧
    (¬ filter.Selects (· <+: ·) p → storeInHash h filter (some p) f = (0, h)) ∧
    (∀ d ∈ filter.excludePath, d <+: p → ¬ Records h filter p f) ∧
    (∀ filter' : FilterDesc, (∀ d, d ∈ filter.includePath ↔ d ∈ filter'.includePath) →
      (∀ d, d ∈ filter.excludePath ↔ d ∈ filter'.excludePath) →
        (Records h filter p f ↔ Records h filter' p f)) ∧
    ((∀ d, d ∈ filter.includePath ∨ d ∈ filter.excludePath → ¬ RunsOn d p) →
      (Records h filter p f ↔ filter.Selects AtOrBelow p)) := by
  have hrec : Records h filter p f ↔ filter.Selects (· <+: ·) p :=
    records_iff_admits.trans FilterDesc.admits_iff
  refine ⟨hrec, ?_, ?_, ?_, ?_⟩
  · intro hsel
    apply storeInHash_rejected
    rintro q hq
    cases hq
    exact Bool.eq_false_iff.mpr fun hadmits => hsel (FilterDesc.admits_iff.mp hadmits)
  · intro d hd hprefix hrecorded
    exact (hrec.mp hrecorded).2 d hd hprefix
  · intro filter' hinc hexc
    rw [records_iff_admits, records_iff_admits, FilterDesc.admits_congr hinc hexc]
  · intro hcut
    exact hrec.trans (FilterDesc.selects_directories hcut)

/-- Excluding "/out" drops "/outer", which is not in that directory. -/
theorem pathFilter_drops_sibling :
    ¬ Records ∅ ⟨["/out".toList], []⟩ "/outer".toList (flag .opOpen) ∧
      FilterDesc.Selects AtOrBelow ⟨["/out".toList], []⟩ "/outer".toList := by
  constructor
  · rw [records_iff_admits]
    decide
  · constructor
    · exact .inl rfl
    · intro d hd
      rw [List.mem_singleton.mp hd]
      rintro (heq | hbelow)
      · exact absurd heq (by decide)
      · exact absurd hbelow (by decide)

end DistillerFS
