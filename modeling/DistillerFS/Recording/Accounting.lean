import DistillerFS.Foundations.Interleaving
import DistillerFS.Recording.AccessTable

/-!
# What the table says about the history

The abstract view of the table is a function of the multiset of admitted events
alone. Every table reached by recording is that view, so the order in which the
threads enter the critical section leaves no trace in it.
-/
namespace DistillerFS
open Foundations

def admittedEvents (filter : FilterDesc) (p : CString) (es : List Event) : List Event :=
  es.filter (Event.admitted filter p)

theorem mem_admittedEvents {filter : FilterDesc} {p : CString} {es : List Event} {e : Event} :
    e ∈ admittedEvents filter p es ↔ e ∈ es ∧ e.path = some p ∧ filter.admits p = true := by
  rw [admittedEvents, List.mem_filter, Event.admitted_iff]

theorem admittedEvents_append (filter : FilterDesc) (p : CString) (es fs : List Event) :
    admittedEvents filter p (es ++ fs) = admittedEvents filter p es ++ admittedEvents filter p fs :=
  List.filter_append ..

def orFlags (fs : List (BitVec 32)) : BitVec 32 := fs.foldr (· ||| ·) 0

@[simp] theorem orFlags_nil : orFlags [] = 0 := rfl

theorem orFlags_cons (f : BitVec 32) (fs : List (BitVec 32)) : orFlags (f :: fs) = f ||| orFlags fs := rfl

theorem orFlags_append (fs gs : List (BitVec 32)) : orFlags (fs ++ gs) = orFlags fs ||| orFlags gs := by
  induction fs with
  | nil => simp
  | cons f fs ih => rw [List.cons_append, orFlags_cons, orFlags_cons, ih, BitVec.or_assoc]

theorem orFlags_perm {fs gs : List (BitVec 32)} (h : fs.Perm gs) : orFlags fs = orFlags gs := by
  induction h with
  | nil => rfl
  | cons f _ ih => rw [orFlags_cons, orFlags_cons, ih]
  | swap f g fs =>
    rw [orFlags_cons, orFlags_cons, orFlags_cons, orFlags_cons, ← BitVec.or_assoc,
      BitVec.or_comm g f, BitVec.or_assoc]
  | trans _ _ ih₁ ih₂ => exact ih₁.trans ih₂

theorem orFlags_getLsbD (fs : List (BitVec 32)) (i : ℕ) :
    (orFlags fs).getLsbD i = fs.any (fun f => f.getLsbD i) := by
  induction fs with
  | nil => simp
  | cons f fs ih => rw [orFlags_cons, BitVec.getLsbD_or, ih, List.any_cons]

/-- The entry a history of admitted events stands for. -/
def entryOf (p : CString) (admitted : List Event) : Option LfsCount :=
  if admitted = [] then none
  else some { path := p, count := BitVec.ofNat 32 admitted.length,
              flags := orFlags (admitted.map Event.flag) }

theorem entryOf_concat (p : CString) (admitted : List Event) (e : Event) :
    entryOf p (admitted ++ [e]) = some (bump (entryOf p admitted) p e.flag) := by
  unfold entryOf
  by_cases h : admitted = []
  · subst h
    simp [bump, orFlags_cons]
  · simp [h, bump, orFlags_append, orFlags_cons, BitVec.ofNat_add]

theorem entryOf_perm {p : CString} {as bs : List Event} (h : as.Perm bs) :
    entryOf p as = entryOf p bs := by
  unfold entryOf
  rw [orFlags_perm (h.map Event.flag), h.length_eq]
  by_cases ha : as = []
  · subst ha
    simp [h.nil_eq]
  · have hb : bs ≠ [] := by
      rintro rfl
      exact ha h.eq_nil
    simp [ha, hb]

/-- Refinement: the recorded table is the abstract view of the history. The
induction is on the last critical section. -/
theorem recordAll_lookup (filter : FilterDesc) (p : CString) (es : List Event) :
    (recordAll filter es).lookup p = entryOf p (admittedEvents filter p es) := by
  induction es using List.reverseRecOn with
  | nil => rfl
  | append_singleton es e ih =>
    rw [recordAll_concat, admittedEvents_append]
    cases ha : e.admitted filter p with
    | true =>
      have hs : admittedEvents filter p [e] = [e] := by simp [admittedEvents, ha]
      rw [record_lookup_admitted ha, ih, hs, entryOf_concat]
    | false =>
      have hs : admittedEvents filter p [e] = [] := by simp [admittedEvents, ha]
      rw [record_lookup_other ha, ih, hs, List.append_nil]

theorem recordAll_perm (filter : FilterDesc) {es fs : List Event} (h : es.Perm fs) :
    recordAll filter es = recordAll filter fs := by
  apply Finmap.ext_lookup
  intro p
  rw [recordAll_lookup, recordAll_lookup]
  exact entryOf_perm (h.filter _)

theorem mem_recordAll {filter : FilterDesc} {p : CString} {es : List Event} :
    p ∈ recordAll filter es ↔ ∃ e ∈ es, e.path = some p ∧ filter.admits p = true := by
  rw [Finmap.mem_iff]
  simp only [recordAll_lookup, entryOf]
  by_cases h : admittedEvents filter p es = []
  · simp only [h, if_true, reduceCtorEq, exists_false, false_iff]
    rintro ⟨e, he, hp⟩
    have hm : e ∈ admittedEvents filter p es := mem_admittedEvents.mpr ⟨he, hp⟩
    simp [h] at hm
  · obtain ⟨e, he⟩ := List.exists_mem_of_ne_nil _ h
    have hm := mem_admittedEvents.mp he
    simp only [h, if_false, Option.some.injEq, exists_eq', true_iff]
    exact ⟨e, hm⟩

theorem recordAll_lookup_some {filter : FilterDesc} {p : CString} {es : List Event} {v : LfsCount}
    (h : (recordAll filter es).lookup p = some v) :
    v.path = p ∧ v.count = BitVec.ofNat 32 (admittedEvents filter p es).length ∧
      v.flags = orFlags ((admittedEvents filter p es).map Event.flag) := by
  rw [recordAll_lookup, entryOf] at h
  split at h
  · cases h
  · cases h
    exact ⟨rfl, rfl, rfl⟩

/-- Every bit of an entry was brought by an admitted event of its path. -/
theorem recordAll_flag_iff {filter : FilterDesc} {p : CString} {es : List Event} {v : LfsCount}
    (h : (recordAll filter es).lookup p = some v) (i : ℕ) :
    v.flags.getLsbD i = true ↔
      ∃ e ∈ es, e.path = some p ∧ filter.admits p = true ∧ e.flag.getLsbD i = true := by
  rw [(recordAll_lookup_some h).2.2, orFlags_getLsbD]
  simp only [List.any_eq_true, List.mem_map, mem_admittedEvents]
  constructor
  · rintro ⟨f, ⟨e, ⟨he, hp, ha⟩, rfl⟩, hf⟩
    exact ⟨e, he, hp, ha, hf⟩
  · rintro ⟨e, he, hp, ha, hf⟩
    exact ⟨e.flag, ⟨e, ⟨he, hp, ha⟩, rfl⟩, hf⟩

theorem storeInHash_count {filter : FilterDesc} {p : CString} {e : Event}
    (ha : e.admitted filter p = true) (es : List Event) :
    (storeInHash (recordAll filter es) filter e.path e.flag).1 =
      BitVec.ofNat 32 (admittedEvents filter p (es ++ [e])).length := by
  obtain ⟨hp, hadm⟩ := (e.admitted_iff filter p).mp ha
  have hl := record_lookup_admitted ha (recordAll filter es)
  rw [← recordAll_concat] at hl
  rw [hp, storeInHash_admitted hadm]
  exact (recordAll_lookup_some hl).2.1

/-- Below 2^31 the C `int` is the exact count. -/
theorem toInt_ofNat_of_lt {n : ℕ} (h : n < 2 ^ 31) : (BitVec.ofNat 32 n).toInt = n := by
  rw [BitVec.toInt_ofNat', Int.bmod_eq_of_le] <;> omega

theorem recordAll_entries_unique (filter : FilterDesc) (es : List Event) (p : CString)
    (v w : LfsCount) (hv : (⟨p, v⟩ : Sigma _) ∈ (recordAll filter es).entries)
    (hw : (⟨p, w⟩ : Sigma _) ∈ (recordAll filter es).entries) : v = w := by
  rw [← Finmap.lookup_eq_some_iff] at hv hw
  exact Option.some.inj (hv.symm.trans hw)

/-- The accounting invariant, for any number of threads and any schedule of their
calls. The fifth part is about the value the last admitted call returned; the
last part compares any two orders of the same events. -/
theorem accessTable_accounting (filter : FilterDesc) (threads : List (List Event))
    (es : List Event) (h : Interleaving threads es) :
    (∀ p v w, (⟨p, v⟩ : Sigma _) ∈ (recordAll filter es).entries →
      (⟨p, w⟩ : Sigma _) ∈ (recordAll filter es).entries → v = w) ∧
    (∀ p, p ∈ recordAll filter es ↔ ∃ t ∈ threads, ∃ e ∈ t, e.path = some p ∧
      isIncluded p filter.includePath = true ∧ isExcluded p filter.excludePath = false) ∧
    (∀ p v, (recordAll filter es).lookup p = some v →
      v.flags = orFlags ((admittedEvents filter p es).map Event.flag)) ∧
    (∀ p v, (recordAll filter es).lookup p = some v →
      (admittedEvents filter p es).length < 2 ^ 31 →
      v.count.toInt = (admittedEvents filter p es).length) ∧
    (∀ p pre e post, es = pre ++ e :: post → e.admitted filter p = true →
      admittedEvents filter p post = [] → (admittedEvents filter p es).length < 2 ^ 31 →
      (storeInHash (recordAll filter pre) filter e.path e.flag).1.toInt =
        (admittedEvents filter p es).length) ∧
    (∀ es', es'.Perm es → recordAll filter es' = recordAll filter es) := by
  refine ⟨recordAll_entries_unique filter es, ?_, ?_, ?_, ?_, ?_⟩
  · intro p
    rw [mem_recordAll]
    constructor
    · rintro ⟨e, he, hp, ha⟩
      obtain ⟨t, ht, het⟩ := (h.mem_iff e).mp he
      exact ⟨t, ht, e, het, hp, by simpa [FilterDesc.admits] using ha⟩
    · rintro ⟨t, ht, e, het, hp, ha⟩
      exact ⟨e, (h.mem_iff e).mpr ⟨t, ht, het⟩, hp, by simpa [FilterDesc.admits] using ha⟩
  · intro p v hv
    exact (recordAll_lookup_some hv).2.2
  · intro p v hv hlt
    rw [(recordAll_lookup_some hv).2.1, toInt_ofNat_of_lt hlt]
  · intro p pre e post hes ha hpost hlt
    have hsplit : admittedEvents filter p es = admittedEvents filter p (pre ++ [e]) := by
      rw [hes, show pre ++ e :: post = (pre ++ [e]) ++ post by simp, admittedEvents_append, hpost,
        List.append_nil]
    rw [hsplit] at hlt ⊢
    rw [storeInHash_count ha, toInt_ofNat_of_lt hlt]
  · intro es' hperm
    exact recordAll_perm filter hperm

/-- Two threads race on one path; the second thread is scheduled first. -/
theorem accessTable_accounting_race :
    ∃ v, (recordAll ⟨[], []⟩ [⟨some "/a".toList, flag .opRead⟩,
        ⟨some "/a".toList, flag .opOpen⟩]).lookup "/a".toList = some v ∧ v.count.toInt = 2 := by
  have hrace : Interleaving
      [[(⟨some "/a".toList, flag .opOpen⟩ : Event)], [⟨some "/a".toList, flag .opRead⟩]]
      [⟨some "/a".toList, flag .opRead⟩, ⟨some "/a".toList, flag .opOpen⟩] :=
    .step [[_]] _ [] [] _ (.step [] _ [] [[]] _ (.done _ (by simp)))
  obtain ⟨v, hv⟩ := Finmap.mem_iff.mp
    (((accessTable_accounting ⟨[], []⟩ _ _ hrace).2.1 "/a".toList).mpr
      ⟨_, List.mem_cons_self, _, List.mem_cons_self, rfl, rfl, rfl⟩)
  exact ⟨v, hv, (accessTable_accounting _ _ _ hrace).2.2.2.1 _ v hv (by decide)⟩

end DistillerFS
