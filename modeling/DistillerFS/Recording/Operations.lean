import Mathlib.Data.Fintype.Basic
import Mathlib.Data.List.FinRange

/-!
# The recorded operations

The twenty-six operations, their flag bits, their names in the configuration
file and their symbols in the report, each in the order of the source arrays.
-/
namespace DistillerFS

/-- The bytes of a C string, without the terminating NUL. -/
abbrev CString := List Char

abbrev qnFlags : ℕ := 26

inductive FuseOps where
  | opGetattr | opAccess | opReadlink | opReaddir
  | opMknod | opMkdir | opSymlink | opUnlink
  | opRmdir | opRename | opLink | opChmod
  | opChown | opTruncate | opUtime | opUtimens
  | opOpen | opRead | opWrite | opStatfs
  | opRelease | opFsync | opSetxattr | opGetxattr
  | opListxattr | opRemovexattr
  deriving DecidableEq, Repr

def FuseOps.index (op : FuseOps) : Fin qnFlags := ⟨op.ctorIdx, by cases op <;> decide⟩

theorem FuseOps.index_injective : Function.Injective FuseOps.index := by
  intro a b h
  cases a <;> cases b <;> first | rfl | (exact absurd h (by decide))

def flag (op : FuseOps) : BitVec 32 := 1#32 <<< op.index.val

theorem flag_getLsbD (op : FuseOps) (i : Fin qnFlags) :
    (flag op).getLsbD i.val = decide (i = op.index) := by
  have hi : i.val < 32 := Nat.lt_trans i.isLt (by decide)
  rw [flag, BitVec.getLsbD_shiftLeft]
  by_cases h : i = op.index
  · subst h
    simp [hi]
  · have hv : i.val ≠ op.index.val := fun he => h (Fin.ext he)
    by_cases hlt : i.val < op.index.val
    · simp [h, hlt]
    · have hpos : 0 < i.val - op.index.val := by omega
      simp [h, hlt, hi, BitVec.getLsbD_one, hpos.ne']

theorem flag_injective : Function.Injective flag := by
  intro op op' h
  have hbit := flag_getLsbD op op.index
  rw [h, flag_getLsbD] at hbit
  exact FuseOps.index_injective (of_decide_eq_true (hbit.trans (decide_eq_true rfl)))

abbrev logSuccess : BitVec 32 := 1#32
abbrev logUnsuccess : BitVec 32 := 2#32

/-- The array `op_flags`: for every operation, which outcomes are logged. -/
abbrev OpFlags := Fin qnFlags → BitVec 32

def opNamesArray : List CString := [
  "getattr".toList,   "access".toList,   "readlink".toList, "readdir".toList,
  "mknod".toList,     "mkdir".toList,    "symlink".toList,  "unlink".toList,
  "rmdir".toList,     "rename".toList,   "link".toList,     "chmod".toList,
  "chown".toList,     "truncate".toList, "utime".toList,    "utimens".toList,
  "open".toList,      "read".toList,     "write".toList,    "statfs".toList,
  "release".toList,   "fsync".toList,    "setxattr".toList, "getxattr".toList,
  "listxattr".toList, "removexattr".toList]

def opNames (i : Fin qnFlags) : CString := opNamesArray.get ⟨i.val, i.isLt⟩

def symbolsArray : List Char :=
  ['G','A','r','d','K','M','S','u','D','N','L','m','o','T','n','s','O','R','W','t','e','F','X','x','l','v']

def symbols (i : Fin qnFlags) : Char := symbolsArray.get ⟨i.val, i.isLt⟩

theorem symbols_injective : Function.Injective symbols := by decide

theorem opNames_injective : Function.Injective opNames := by decide

/-- No symbol can be mistaken for the filler, the brackets or a separator of the report. -/
theorem symbols_plain (i : Fin qnFlags) : symbols i ∉ ['.', '[', ']', ':', '\n', '#'] := by
  revert i
  decide

def shouldLog (op_flags : OpFlags) (fuse_op : FuseOps) (state : BitVec 32) : Bool :=
  (op_flags fuse_op.index &&& state) != 0

end DistillerFS
