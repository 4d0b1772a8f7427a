import DistillerFS.Recording.StoreInHash
import DistillerFS.Report.Printing

/-!
# The log file

What `main` writes when the file system is unmounted, straight from the buckets. It is a
report of the access table that the buckets hold, with the entries in the order of the
buckets.
-/
namespace DistillerFS
open Foundations

namespace KHash
variable {K V : Type}

/-- `kh_foreach`: the keys and values of the live buckets, from the first one to the last. -/
def foreach (h : KHash K V) : List (K × V) :=
  ((List.range h.nBuckets).filter (fun i => h.flags i = .live)).map (fun i => (h.keys i, h.vals i))

theorem coe_foreach (h : KHash K V) : (h.foreach : Multiset (K × V)) = h.entries := by
  rw [foreach, ← Multiset.map_coe, ← Multiset.filter_coe, entries, collect]
  rfl

theorem mem_foreach {hashFunc : K → BitVec 32} [DecidableEq K] {h : KHash K V}
    (hw : h.WellFormed hashFunc) {e : K × V} : e ∈ h.foreach ↔ h.lookup e.1 = some e.2 := by
  rw [lookup_eq_some_iff_mem hw, ← coe_foreach]
  exact Multiset.mem_coe.symm

theorem nodup_foreach {hashFunc : K → BitVec 32} {h : KHash K V} (hw : h.WellFormed hashFunc) :
    (h.foreach.map Prod.fst).Nodup := by
  have hnodup := nodup_keys.mpr hw.distinct
  rwa [← coe_foreach, Multiset.map_coe] at hnodup

end KHash

/-- `Print_Hash`, without the message for a table that is NULL. -/
def printHash (h : LogTable) : CString := h.foreach.flatMap (fun e => entryLine e.1 e.2 ++ ['\n'])

def logPieces (op_flags : OpFlags) (h : LogTable) : List CString := [
  "#### Hash size: [".toList, formatD (BitVec.ofNat 32 h.size).toInt, "] ####\n".toList,
  "#### Log mask/legend:\n#".toList,
  (List.finRange qnFlags).map (fun i => legendChar (op_flags i)), "####\n".toList,
  "#GArdKMSuDNLmoTnsORWteFXxlv\n".toList, printHash h]

def writeLog (op_flags : OpFlags) (h : LogTable) : CString := (logPieces op_flags h).flatten

def Iteration.ofList {h : Hash} (l : List (CString × LfsCount)) (hnodup : (l.map Prod.fst).Nodup)
    (hmem : ∀ e, e ∈ l ↔ h.lookup e.1 = some e.2) : Iteration h where
  order := l.map (fun e => ⟨e.1, e.2⟩)
  covers := by
    have hinjective : Function.Injective
        (fun e : CString × LfsCount => (⟨e.1, e.2⟩ : (_ : CString) × LfsCount)) := by
      rintro ⟨k, v⟩ ⟨k', v'⟩ heq
      cases heq
      rfl
    have hlist := (hnodup.of_map Prod.fst).map hinjective
    apply (Multiset.Nodup.ext (Multiset.coe_nodup.mpr hlist) h.nodupKeys.nodup).mpr
    rintro ⟨k, v⟩
    rw [Multiset.mem_coe, ← Finmap.lookup_eq_some_iff, List.mem_map]
    constructor
    · rintro ⟨e, he, heq⟩
      cases heq
      exact (hmem e).mp he
    · intro hv
      exact ⟨(k, v), (hmem (k, v)).mpr hv, rfl⟩

section Report
variable {hashFunc : CString → BitVec 32} {t : LogTable} {h : Hash}

/-- The visit of the buckets is a visit of the access table. -/
def Represents.iteration (hr : Represents hashFunc t h) : Iteration h :=
  .ofList t.foreach (KHash.nodup_foreach hr.wellFormed) (fun e => by
    rw [KHash.mem_foreach hr.wellFormed, hr.lookup])

/-- The log file is the report of the access table. -/
theorem Represents.writeLog_eq (hr : Represents hashFunc t h) (op_flags : OpFlags) :
    writeLog op_flags t = report op_flags hr.iteration := by
  have hsize : "] ####\n".toList = "] ####".toList ++ ['\n'] := by decide
  have hmask : "#### Log mask/legend:\n#".toList = "#### Log mask/legend:".toList ++ ['\n', '#'] := by
    decide
  have hlegend : "####\n".toList = "####".toList ++ ['\n'] := by decide
  have hsymbols : "#GArdKMSuDNLmoTnsORWteFXxlv\n".toList =
      "#GArdKMSuDNLmoTnsORWteFXxlv".toList ++ ['\n'] := by decide
  simp only [writeLog, logPieces, report, reportLines, headerLines, khSize, printHash, Represents.iteration,
    Iteration.ofList, hr.size_eq, hsize, hmask, hlegend, hsymbols, List.flatMap_cons,
    List.append_nil, List.map_map, List.flatMap_map,
    List.flatten_cons, List.flatten_nil, List.append_assoc,
    List.cons_append, List.nil_append, Function.comp_apply]

end Report

end DistillerFS
