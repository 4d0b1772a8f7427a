import DistillerFS.Foundations.Probing
import Mathlib.Logic.Function.Basic

/-!
# The khash table

`khash.h` as `utils.c` instantiates it: buckets with a flag, a key and a value each, and
probing with growing steps. `khint_t` has 32 bits, which matters only where a number of
buckets is rounded up or doubled.
-/
namespace DistillerFS
open Foundations

/-- What stops the program, or keeps it from going on. -/
inductive Fault where
  | nullPointer
  | endless
  deriving DecidableEq, Repr

/-- The two bits of a bucket. A deleted bucket is passed by a search, an empty one ends it. -/
inductive BucketFlag where
  | empty
  | deleted
  | live
  deriving DecidableEq, Repr

/-- `kh_text_t`. The arrays are functions; `keysLen` and `valsLen` are their lengths. -/
structure KHash (K V : Type) where
  nBuckets : ℕ
  size : ℕ
  nOccupied : ℕ
  upperBound : ℕ
  flags : ℕ → BucketFlag
  keys : ℕ → K
  vals : ℕ → V
  keysLen : ℕ
  valsLen : ℕ

/-- Which of the allocations of `kh_resize` succeed. -/
structure ResizeMemory where
  newFlags : Bool
  newKeys : Bool
  newVals : Bool
  deriving DecidableEq, Repr

def kroundup32 (x : BitVec 32) : BitVec 32 :=
  let x := x - 1
  let x := x ||| x >>> 1
  let x := x ||| x >>> 2
  let x := x ||| x >>> 4
  let x := x ||| x >>> 8
  let x := x ||| x >>> 16
  x + 1

/-- The number of buckets that `kh_resize` makes of the one it is asked for. -/
def roundBuckets (new_n_buckets : ℕ) : ℕ :=
  let rounded := (kroundup32 (BitVec.ofNat 32 new_n_buckets)).toNat
  if rounded < 4 then 4 else rounded

/-- `(khint_t)(n_buckets * __ac_HASH_UPPER + 0.5)`. For a power of two of 32 bits the
floating-point result is never near a whole number. -/
def hashUpper (n_buckets : ℕ) : ℕ := (77 * n_buckets + 50) / 100

namespace KHash
variable {K V : Type} (hashFunc : K → BitVec 32)

def init [Inhabited K] [Inhabited V] : KHash K V where
  nBuckets := 0
  size := 0
  nOccupied := 0
  upperBound := 0
  flags := fun _ => .empty
  keys := fun _ => default
  vals := fun _ => default
  keysLen := 0
  valsLen := 0

def home (n_buckets : ℕ) (key : K) : ℕ := (hashFunc key).toNat &&& (n_buckets - 1)

def endsAt [DecidableEq K] (h : KHash K V) (key : K) (i : ℕ) : Bool :=
  h.flags i = .empty || h.flags i = .live && h.keys i = key

def get [DecidableEq K] (h : KHash K V) (key : K) : Except Fault ℕ :=
  if h.nBuckets = 0 then .ok 0
  else
    let i := home hashFunc h.nBuckets key
    match probe (h.endsAt key) (fun seen _ => seen) (h.nBuckets - 1) (some i)
        (2 * h.nBuckets) 0 i () with
    | .stopped j _ => .ok (if h.flags j = .live then j else h.nBuckets)
    | .wrapped _ => .ok h.nBuckets
    | .outOfFuel => .error .endless

/-- The tables during a resize: the flags of the old one and the flags of the new one.
Both share the keys and the values. -/
structure Resizing (K V : Type) where
  oldFlags : ℕ → BucketFlag
  newFlags : ℕ → BucketFlag
  keys : ℕ → K
  vals : ℕ → V

/-- The kick-out process: the entry takes its bucket in the new table, and the entry of
the old table that is found there is the next one to be placed. -/
def kickOut (n_buckets new_n_buckets : ℕ) : ℕ → Resizing K V → K → V → Except Fault (Resizing K V)
  | 0, _, _, _ => .error .endless
  | fuel + 1, r, key, val =>
    match probe (fun i => r.newFlags i = .empty) (fun seen _ => seen) (new_n_buckets - 1) none
        new_n_buckets 0 (home hashFunc new_n_buckets key) () with
    | .stopped i _ =>
      let placed := { r with
        newFlags := Function.update r.newFlags i .live
        keys := Function.update r.keys i key
        vals := Function.update r.vals i val }
      if i < n_buckets ∧ r.oldFlags i = .live then
        kickOut n_buckets new_n_buckets fuel
          { placed with oldFlags := Function.update r.oldFlags i .deleted } (r.keys i) (r.vals i)
      else .ok placed
    | _ => .error .endless

/-- One round of the rehashing loop. -/
def moveBucket (n_buckets new_n_buckets : ℕ) (r : Resizing K V) (j : ℕ) :
    Except Fault (Resizing K V) :=
  if r.oldFlags j = .live then
    kickOut hashFunc n_buckets new_n_buckets (n_buckets + 1)
      { r with oldFlags := Function.update r.oldFlags j .deleted } (r.keys j) (r.vals j)
  else .ok r

def rehash (h : KHash K V) (new_n_buckets : ℕ) : Except Fault (KHash K V) := do
  let r ← (List.range h.nBuckets).foldlM (moveBucket hashFunc h.nBuckets new_n_buckets)
    { oldFlags := h.flags, newFlags := fun _ => .empty, keys := h.keys, vals := h.vals }
  return { h with
    nBuckets := new_n_buckets
    nOccupied := h.size
    upperBound := hashUpper new_n_buckets
    flags := r.newFlags
    keys := r.keys
    vals := r.vals }

/-- `kh_resize`; the result is `false` where it returns -1. The branch that cuts the arrays
off is left out: `kh_put` never asks for fewer buckets. -/
def resize (memory : ResizeMemory) (h : KHash K V) (new_n_buckets : ℕ) :
    Except Fault (Bool × KHash K V) :=
  let new_n_buckets := roundBuckets new_n_buckets
  if h.size ≥ hashUpper new_n_buckets then .ok (true, h)
  else if memory.newFlags = false then .ok (false, h)
  else if h.nBuckets < new_n_buckets then
    if memory.newKeys = false then .ok (false, h)
    else if memory.newVals = false then .ok (false, { h with keysLen := new_n_buckets })
    else do
      let h ← rehash hashFunc { h with keysLen := new_n_buckets, valsLen := new_n_buckets } new_n_buckets
      return (true, h)
  else do
    let h ← rehash hashFunc h new_n_buckets
    return (true, h)

/-- The first part of `kh_put`: more buckets, or the same ones without the deleted. -/
def grow (memory : ResizeMemory) (h : KHash K V) : Except Fault (Bool × KHash K V) :=
  if h.nOccupied ≥ h.upperBound then
    if h.nBuckets > (2 * h.size) % 2 ^ 32 then resize hashFunc memory h (h.nBuckets - 1)
    else resize hashFunc memory h (h.nBuckets + 1)
  else .ok (true, h)

def lastDeleted (h : KHash K V) (site i : ℕ) : ℕ := if h.flags i = .deleted then i else site

/-- The bucket that `kh_put` chooses: that of the key, or the last deleted one on the way
to an empty one, or the empty one. -/
def chooseBucket [DecidableEq K] (h : KHash K V) (key : K) : Except Fault ℕ :=
  let i := home hashFunc h.nBuckets key
  if h.flags i = .empty then .ok i
  else
    match probe (h.endsAt key) h.lastDeleted (h.nBuckets - 1) (some i) (2 * h.nBuckets) 0 i
        h.nBuckets with
    | .stopped j site => .ok (if h.flags j = .empty ∧ site ≠ h.nBuckets then site else j)
    | .wrapped site => .ok (if site = h.nBuckets then i else site)
    | .outOfFuel => .error .endless

/-- The key is written into the chosen bucket unless the bucket is live. -/
def occupy (h : KHash K V) (x : ℕ) (key : K) : KHash K V :=
  match h.flags x with
  | .empty => { h with
      keys := Function.update h.keys x key
      flags := Function.update h.flags x .live
      size := h.size + 1
      nOccupied := h.nOccupied + 1 }
  | .deleted => { h with
      keys := Function.update h.keys x key
      flags := Function.update h.flags x .live
      size := h.size + 1 }
  | .live => h

/-- `kh_put`: the bucket and the table. The bucket is `n_buckets` where `*ret` is -1. The
key may be NULL, which the hash function does not survive. -/
def put [DecidableEq K] (memory : ResizeMemory) (h : KHash K V) (key : Option K) :
    Except Fault (ℕ × KHash K V) := do
  let grown ← grow hashFunc memory h
  if grown.1 = false then return (grown.2.nBuckets, grown.2)
  else
    match key with
    | none => .error .nullPointer
    | some key =>
      let x ← chooseBucket hashFunc grown.2 key
      return (x, occupy grown.2 x key)

/-- `kh_value(h, x) = value`. There are no values at all before the first growth; behind
the end of the array the write hits other memory, and its place is kept. -/
def setValue (h : KHash K V) (x : ℕ) (value : V) : Except Fault (KHash K V × List ℕ) :=
  if x < h.valsLen then .ok ({ h with vals := Function.update h.vals x value }, [])
  else if h.valsLen = 0 then .error .nullPointer
  else .ok (h, [x])

/-- `Hash_Add`, which does not look at `ret`. -/
def hashAdd [DecidableEq K] (memory : ResizeMemory) (h : KHash K V) (key : Option K) (value : V) :
    Except Fault (KHash K V × List ℕ) := do
  let placed ← put hashFunc memory h key
  setValue placed.2 placed.1 value

end KHash

end DistillerFS
