import DistillerFS.Recording.Accounting
import DistillerFS.Report.Printing
import DistillerFS.Report.ProcessLog

/-!
# Reading the report back

The reader of `process_log.lua` against the writer of `main`. A path that holds the
field separator or the record terminator does not survive; every other path does.
-/
namespace DistillerFS
open Foundations

def maskField (flags : BitVec 32) : CString := '[' :: maskOf flags ++ [']']

theorem mem_maskField {flags : BitVec 32} {c : Char} :
    c ∈ maskField flags ↔ c = '[' ∨ c ∈ maskOf flags ∨ c = ']' := by
  simp [maskField]

theorem stringFind_maskField (flags : BitVec 32) (i : Fin qnFlags) :
    stringFind (maskField flags) (symbols i) = flags.getLsbD i.val := by
  have hplain := symbols_plain i
  simp only [List.mem_cons, List.not_mem_nil, or_false, not_or] at hplain
  rw [Bool.eq_iff_iff, stringFind, List.contains_iff_mem, mem_maskField, mem_maskOf]
  constructor
  · rintro (hb | ⟨j, hj⟩ | hb)
    · exact absurd hb hplain.2.1
    · split_ifs at hj with hb
      · rwa [← symbols_injective hj]
      · exact absurd hj.symm hplain.1
    · exact absurd hb hplain.2.2.1
  · intro hb
    exact .inr (.inl ⟨i, if_pos hb⟩)

theorem maskField_plain {flags : BitVec 32} {c : Char} (h : c ∈ [':', '\n', '#']) :
    c ∉ maskField flags := by
  rw [mem_maskField, mem_maskOf]
  rintro (rfl | ⟨i, hi⟩ | rfl)
  · revert h
    decide
  · have hplain := symbols_plain i
    split_ifs at hi
    · rw [hi] at hplain
      simp only [List.mem_cons, List.not_mem_nil, or_false] at h hplain
      tauto
    · rw [← hi] at h
      revert h
      decide
  · revert h
    decide

theorem formatD010_plain {n : ℤ} {c : Char} (h : c ∈ [':', '\n', '#']) : c ∉ formatD010 n := by
  intro hc
  simp only [List.mem_cons, List.not_mem_nil, or_false] at h
  rcases formatD010_char hc with hc | hc <;> rcases h with rfl | rfl | rfl <;> revert hc <;> decide

theorem formatD_plain {n : ℤ} : '\n' ∉ formatD n := by
  intro hc
  rcases formatD_char hc with hc | hc <;> revert hc <;> decide

theorem entryLine_fields (k : CString) (v : LfsCount) :
    entryLine k v = maskField v.flags ++ ':' :: (formatD010 v.count.toInt ++ ':' :: k) := by
  simp [entryLine, maskField]

def entryHead (v : LfsCount) : CString :=
  maskField v.flags ++ ':' :: (formatD010 v.count.toInt ++ [':'])

theorem entryLine_eq (k : CString) (v : LfsCount) : entryLine k v = entryHead v ++ k := by
  simp [entryLine, maskField, entryHead]

theorem newline_not_mem_entryHead (v : LfsCount) : '\n' ∉ entryHead v := by
  have hmask : '\n' ∉ maskField v.flags := maskField_plain (by decide)
  have hcount : '\n' ∉ formatD010 v.count.toInt := formatD010_plain (by decide)
  simp [entryHead, hmask, hcount]

theorem entryLine_take (k : CString) (v : LfsCount) : (entryLine k v).take 1 = ['['] := by
  simp [entryLine]

theorem readLine_entryLine (k : CString) (v : LfsCount) : readLine (entryLine k v) =
    if ':' ∈ k then .wrongFormat (entryLine k v) else .entry (maskField v.flags) k := by
  have hmask : ':' ∉ maskField v.flags := maskField_plain (by decide)
  have hcount : ':' ∉ formatD010 v.count.toInt := formatD010_plain (by decide)
  have hfirst : (entryLine k v).take 1 ≠ ['#'] := by
    rw [entryLine_take]
    decide
  rw [readLine, if_neg hfirst, stringSplit_eq_splitOn]
  split_ifs with hk
  · obtain ⟨first, rest, rfl, hnot⟩ := List.eq_append_cons_of_mem hk
    rw [entryLine_fields, List.splitOn_append_cons_self_of_not_mem hmask,
      List.splitOn_append_cons_self_of_not_mem hcount,
      List.splitOn_append_cons_self_of_not_mem hnot]
    cases hrest : rest.splitOn ':' with
    | nil => exact absurd hrest (List.splitOn_ne_nil _ _)
    | cons p ps => rfl
  · rw [entryLine_fields, splitOn_three hmask hcount hk]

/-- The header is made of comment lines. -/
theorem headerLines_comment {op_flags : OpFlags} {h : Hash} {line : CString}
    (hl : line ∈ headerLines op_flags h) : '\n' ∉ line ∧ readLine line = .comment := by
  have hlegend : '\n' ∉ (List.finRange qnFlags).map (fun i => legendChar (op_flags i)) := by
    intro hn
    obtain ⟨i, _, hi⟩ := List.mem_map.mp hn
    revert hi
    unfold legendChar
    split_ifs <;> decide
  have hsize : '\n' ∉ formatD (khSize h) := formatD_plain
  simp only [headerLines, List.mem_cons, List.not_mem_nil, or_false] at hl
  rcases hl with rfl | rfl | rfl | rfl
  · exact ⟨by simp [hsize], rfl⟩
  · exact ⟨by decide, rfl⟩
  · exact ⟨by simpa using hlegend, rfl⟩
  · exact ⟨by decide, rfl⟩

/-- The lines of a report, as the reader takes them. -/
theorem ioLines_report (op_flags : OpFlags) {h : Hash} (it : Iteration h) :
    ioLines (report op_flags it) = headerLines op_flags h ++
      it.order.flatMap (fun e => (entryLine e.1 e.2).splitOn '\n') := by
  rw [ioLines, report, records_flatMap, reportLines, List.flatMap_append, List.flatMap_map]
  congr 1
  calc (headerLines op_flags h).flatMap (List.splitOn '\n')
      = (headerLines op_flags h).flatMap (fun l => [l]) :=
        List.flatMap_congr (fun l hl => List.splitOn_eq_singleton (headerLines_comment hl).1)
    _ = headerLines op_flags h := by simp

/-- The lines the main loop does not skip. -/
def entryLines (content : CString) : List LogLine :=
  ((ioLines content).map readLine).filter (· ≠ .comment)

def shownOps (flags : CString) : Finset (Fin qnFlags) :=
  Finset.univ.filter (fun i => stringFind flags (symbols i) = true)

/-- The operation set and the path of an accepted line. -/
def LogLine.decode : LogLine → Option (Finset (Fin qnFlags) × CString)
  | .entry flags path => some (shownOps flags, path)
  | _ => none

def recordedOps (filter : FilterDesc) (p : CString) (es : List Event) : Finset (Fin qnFlags) :=
  Finset.univ.filter (fun i =>
    (admittedEvents filter p es).any (fun e => e.flag.getLsbD i.val) = true)

/-- Reading the report gives the recorded operations of every entry, once each. -/
def RoundTrip (op_flags : OpFlags) (filter : FilterDesc) (es : List Event)
    (it : Iteration (recordAll filter es)) : Prop :=
  ((entryLines (report op_flags it)).map LogLine.decode).Perm
    (it.order.map (fun e => some (recordedOps filter e.1 es, e.1)))

theorem shownOps_maskField (flags : BitVec 32) :
    shownOps (maskField flags) = Finset.univ.filter (fun i => flags.getLsbD i.val = true) := by
  simp only [shownOps, stringFind_maskField]

theorem recordedOps_eq {filter : FilterDesc} {p : CString} {es : List Event} {v : LfsCount}
    (h : (recordAll filter es).lookup p = some v) :
    recordedOps filter p es = shownOps (maskField v.flags) := by
  rw [shownOps_maskField, (recordAll_lookup_some h).2.2]
  unfold recordedOps
  simp only [orFlags_getLsbD, List.any_map, Function.comp_def]

/-- What the reader accepts holds neither a separator nor a newline. -/
theorem decode_plain (content : CString) (ops : Finset (Fin qnFlags)) {p : CString}
    (h : some (ops, p) ∈ (entryLines content).map LogLine.decode) : ':' ∉ p ∧ '\n' ∉ p := by
  obtain ⟨line, hline, hdecode⟩ := List.mem_map.mp h
  obtain ⟨hline, _⟩ := List.mem_filter.mp hline
  obtain ⟨text, htext, rfl⟩ := List.mem_map.mp hline
  have hnewline : '\n' ∉ text := not_mem_of_mem_records htext
  cases hread : readLine text with
  | entry flags path =>
    rw [hread] at hdecode
    cases hdecode
    obtain ⟨count, rfl, _, hcolon⟩ := readLine_entry hread
    exact ⟨hcolon, fun hp => hnewline (by simp [hp])⟩
  | comment => simp [hread, LogLine.decode] at hdecode
  | wrongFormat line => simp [hread, LogLine.decode] at hdecode

theorem ioLines_report_plain (op_flags : OpFlags) {h : Hash} (it : Iteration h)
    (hplain : ∀ k ∈ h, '\n' ∉ k) : ioLines (report op_flags it) =
      headerLines op_flags h ++ it.order.map (fun e => entryLine e.1 e.2) := by
  apply records_terminated
  intro line hline
  rcases List.mem_append.mp hline with hheader | hentry
  · exact (headerLines_comment hheader).1
  · obtain ⟨e, he, rfl⟩ := List.mem_map.mp hentry
    have hk : '\n' ∉ e.1 := hplain e.1 (Finmap.mem_of_lookup_eq_some (it.mem_order.mp he))
    rw [entryLine_eq, List.mem_append, not_or]
    exact ⟨newline_not_mem_entryHead e.2, hk⟩

/-- The lines of a report whose paths hold no newline are its entries, in order. -/
theorem entryLines_report (op_flags : OpFlags) {h : Hash} (it : Iteration h)
    (hplain : ∀ k ∈ h, '\n' ∉ k) :
    entryLines (report op_flags it) = it.order.map (fun e => readLine (entryLine e.1 e.2)) := by
  have hheader : ((headerLines op_flags h).map readLine).filter (· ≠ .comment) = [] := by
    rw [List.filter_eq_nil_iff]
    intro line hline
    obtain ⟨text, htext, rfl⟩ := List.mem_map.mp hline
    simp [(headerLines_comment htext).2]
  have hkept : ((it.order.map (fun e => entryLine e.1 e.2)).map readLine).filter (· ≠ .comment) =
      (it.order.map (fun e => entryLine e.1 e.2)).map readLine := by
    rw [List.filter_eq_self]
    intro line hline
    obtain ⟨text, htext, rfl⟩ := List.mem_map.mp hline
    obtain ⟨e, _, rfl⟩ := List.mem_map.mp htext
    rw [readLine_entryLine]
    split_ifs <;> simp
  rw [entryLines, ioLines_report_plain op_flags it hplain, List.map_append, List.filter_append,
    hheader, hkept, List.nil_append, List.map_map]
  rfl

theorem RoundTrip.plain {op_flags : OpFlags} {filter : FilterDesc} {es : List Event}
    {it : Iteration (recordAll filter es)} (hround : RoundTrip op_flags filter es it)
    {p : CString} (hp : p ∈ recordAll filter es) : ':' ∉ p ∧ '\n' ∉ p := by
  obtain ⟨v, hv⟩ := Finmap.mem_iff.mp hp
  apply decode_plain (report op_flags it) (recordedOps filter p es)
  rw [hround.mem_iff, List.mem_map]
  exact ⟨⟨p, v⟩, it.mem_order.mpr hv, rfl⟩

/-- The report of a recorded table reads back as the table exactly when no recorded
path holds the separator of the fields or the end of a line. -/
theorem report_roundTrip_iff (op_flags : OpFlags) (filter : FilterDesc) (es : List Event)
    (it : Iteration (recordAll filter es)) :
    RoundTrip op_flags filter es it ↔ ∀ p ∈ recordAll filter es, ':' ∉ p ∧ '\n' ∉ p := by
  constructor
  · intro hround p hp
    exact hround.plain hp
  · intro hplain
    unfold RoundTrip
    rw [entryLines_report op_flags it (fun p hp => (hplain p hp).2), List.map_map]
    apply List.Perm.of_eq
    apply List.map_congr_left
    intro e he
    have hlookup := it.mem_order.mp he
    have hk : ':' ∉ e.1 := (hplain e.1 (Finmap.mem_of_lookup_eq_some hlookup)).1
    rw [Function.comp_apply, readLine_entryLine, if_neg hk, LogLine.decode,
      recordedOps_eq hlookup]

def Iteration.single (filter : FilterDesc) (p : CString) (ha : filter.admits p = true)
    (f : BitVec 32) : Iteration (recordAll filter [⟨some p, f⟩]) where
  order := [⟨p, { path := p, count := 1, flags := f }⟩]
  covers := by
    have hrec : recordAll filter [⟨some p, f⟩] =
        Finmap.insert p { path := p, count := 1, flags := f } ∅ := by
      simp only [recordAll, List.foldl_cons, List.foldl_nil, record, storeInHash_admitted ha]
      rfl
    rw [hrec]
    rfl

/-- A file whose name holds a colon, opened once. -/
theorem report_roundTrip_colon :
    ¬ RoundTrip (fun _ => logSuccess ||| logUnsuccess) ⟨[], []⟩
      [⟨some "/usr/Foo::Bar.3pm".toList, flag .opOpen⟩]
      (Iteration.single ⟨[], []⟩ "/usr/Foo::Bar.3pm".toList rfl _) := by
  intro hround
  have hmem : "/usr/Foo::Bar.3pm".toList ∈
      recordAll ⟨[], []⟩ [⟨some "/usr/Foo::Bar.3pm".toList, flag .opOpen⟩] :=
    mem_recordAll.mpr ⟨_, List.mem_singleton_self _, rfl, rfl⟩
  exact absurd (hround.plain hmem).1 (by decide)

end DistillerFS
