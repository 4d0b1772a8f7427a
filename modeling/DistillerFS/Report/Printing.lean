import DistillerFS.Foundations.Delimited
import DistillerFS.Recording.AccessTable
import Mathlib.Data.Nat.Digits.Lemmas

/-!
# The report

What `main` writes after unmounting: the size line, the legend, and one line for each
entry of the table, in the order in which the buckets happen to be visited.
-/
namespace DistillerFS
open Foundations

def formatD (n : ℤ) : CString := (if n < 0 then ['-'] else []) ++ Nat.toDigits 10 n.natAbs

/-- `%010d`: zeros between the sign and the digits, up to ten characters in all. -/
def formatD010 (n : ℤ) : CString :=
  let sign := if n < 0 then ['-'] else []
  let digits := Nat.toDigits 10 n.natAbs
  sign ++ List.replicate (10 - sign.length - digits.length) '0' ++ digits

/-- A counter is written with digits and a sign only. -/
theorem formatD010_char {n : ℤ} {c : Char} (h : c ∈ formatD010 n) : c = '-' ∨ c.isDigit = true := by
  unfold formatD010 at h
  simp only [List.mem_append, List.mem_replicate] at h
  rcases h with (h | ⟨_, rfl⟩) | h
  · split_ifs at h
    · exact .inl (List.mem_singleton.mp h)
    · cases h
  · exact .inr (by decide)
  · exact .inr (Nat.isDigit_of_mem_toDigits (by decide) (by decide) h)

theorem formatD_char {n : ℤ} {c : Char} (h : c ∈ formatD n) : c = '-' ∨ c.isDigit = true := by
  unfold formatD at h
  rw [List.mem_append] at h
  rcases h with h | h
  · split_ifs at h
    · exact .inl (List.mem_singleton.mp h)
    · cases h
  · exact .inr (Nat.isDigit_of_mem_toDigits (by decide) (by decide) h)

def maskOf (flags : BitVec 32) : CString :=
  (List.finRange qnFlags).map (fun i =>
    if flags &&& (1#32 <<< i.val) ≠ 0 then symbols i else '.')

theorem and_shiftLeft_ne_zero (flags : BitVec 32) (i : Fin qnFlags) :
    flags &&& (1#32 <<< i.val) ≠ 0 ↔ flags.getLsbD i.val = true := by
  have hi : i.val < 32 := Nat.lt_trans i.isLt (by decide)
  have hpos : BitVec.twoPow 32 i.val ≠ 0 := by
    intro hz
    have htoNat := congrArg BitVec.toNat hz
    rw [BitVec.toNat_twoPow_of_lt hi] at htoNat
    exact absurd htoNat (Nat.pow_pos (by decide)).ne'
  rw [← BitVec.twoPow_eq, BitVec.and_twoPow]
  split_ifs with hb
  · exact ⟨fun _ => hb, fun _ => hpos⟩
  · simp [hb]

theorem mem_maskOf {flags : BitVec 32} {c : Char} :
    c ∈ maskOf flags ↔ ∃ i : Fin qnFlags,
      (if flags.getLsbD i.val = true then symbols i else '.') = c := by
  simp only [maskOf, List.mem_map, List.mem_finRange, true_and, and_shiftLeft_ne_zero]

/-- One line of `Print_Hash`, without its newline. -/
def entryLine (k : CString) (v : LfsCount) : CString :=
  '[' :: maskOf v.flags ++ "]:".toList ++ formatD010 v.count.toInt ++ ':' :: k

/-- A visit of every entry once, in some order. -/
structure Iteration (h : Hash) where
  order : List (Sigma fun _ : CString => LfsCount)
  covers : (order : Multiset (Sigma fun _ : CString => LfsCount)) = h.entries

theorem Iteration.mem_order {h : Hash} (it : Iteration h) {k : CString} {v : LfsCount} :
    ⟨k, v⟩ ∈ it.order ↔ h.lookup k = some v := by
  rw [Finmap.lookup_eq_some_iff, ← it.covers, Multiset.mem_coe]

theorem Iteration.nodup {h : Hash} (it : Iteration h) : (it.order.map Sigma.fst).Nodup := by
  have hkeys := h.nodupKeys
  rw [← it.covers] at hkeys
  exact Multiset.coe_nodupKeys.mp hkeys

def legendChar (op_flag : BitVec 32) : Char :=
  if op_flag = logUnsuccess ||| logUnsuccess then 'a'
  else if op_flag = logSuccess then 's'
  else if op_flag = logUnsuccess then 'u'
  else '.'

/-- `kh_size(h)`, printed as an `int`. -/
def khSize (h : Hash) : ℤ := (BitVec.ofNat 32 h.keys.card).toInt

def headerLines (op_flags : OpFlags) (h : Hash) : List CString := [
  "#### Hash size: [".toList ++ formatD (khSize h) ++ "] ####".toList,
  "#### Log mask/legend:".toList,
  '#' :: (List.finRange qnFlags).map (fun i => legendChar (op_flags i)) ++ "####".toList,
  "#GArdKMSuDNLmoTnsORWteFXxlv".toList]

def reportLines (op_flags : OpFlags) {h : Hash} (it : Iteration h) : List CString :=
  headerLines op_flags h ++ it.order.map (fun e => entryLine e.1 e.2)

def report (op_flags : OpFlags) {h : Hash} (it : Iteration h) : CString :=
  (reportLines op_flags it).flatMap (fun line => line ++ ['\n'])

end DistillerFS
