import DistillerFS.Recording.FlagWords
import DistillerFS.Recording.HashModule

/-!
# The table as it lies in memory

`khash.h` with the words of its flags. Every function does with the words what the table with
one flag for each bucket does, so the hash module of the program is a finite map.
-/
namespace DistillerFS
open Foundations

structure PackedHash (K V : Type) where
  nBuckets : ℕ
  size : ℕ
  nOccupied : ℕ
  upperBound : ℕ
  flags : FlagWords
  keys : ℕ → K
  vals : ℕ → V
  keysLen : ℕ
  valsLen : ℕ

namespace PackedHash
variable {K V : Type} (hashFunc : K → BitVec 32)

/-- `kh_init`. There are no flags before the first growth. -/
def init [Inhabited K] [Inhabited V] : PackedHash K V where
  nBuckets := 0
  size := 0
  nOccupied := 0
  upperBound := 0
  flags := freshWords
  keys := fun _ => default
  vals := fun _ => default
  keysLen := 0
  valsLen := 0

def endsAt [DecidableEq K] (p : PackedHash K V) (key : K) (i : ℕ) : Bool :=
  acIsempty p.flags i || !acIsdel p.flags i && decide (p.keys i = key)

def get [DecidableEq K] (p : PackedHash K V) (key : K) : Except Fault ℕ :=
  if p.nBuckets = 0 then .ok 0
  else
    let i := KHash.home hashFunc p.nBuckets key
    match probe (p.endsAt key) (fun seen _ => seen) (p.nBuckets - 1) (some i)
        (2 * p.nBuckets) 0 i () with
    | .stopped j _ => .ok (if acIseither p.flags j then p.nBuckets else j)
    | .wrapped _ => .ok p.nBuckets
    | .outOfFuel => .error .endless

structure Moving (K V : Type) where
  flags : FlagWords
  newFlags : FlagWords
  keys : ℕ → K
  vals : ℕ → V

def kickOut (n_buckets new_n_buckets : ℕ) : ℕ → Moving K V → K → V → Except Fault (Moving K V)
  | 0, _, _, _ => .error .endless
  | fuel + 1, r, key, val =>
    match probe (fun i => acIsempty r.newFlags i) (fun seen _ => seen) (new_n_buckets - 1) none
        new_n_buckets 0 (KHash.home hashFunc new_n_buckets key) () with
    | .stopped i _ =>
      let placed := { r with
        newFlags := acSetIsemptyFalse r.newFlags i
        keys := Function.update r.keys i key
        vals := Function.update r.vals i val }
      if i < n_buckets ∧ acIseither r.flags i = false then
        kickOut n_buckets new_n_buckets fuel { placed with flags := acSetIsdelTrue r.flags i }
          (r.keys i) (r.vals i)
      else .ok placed
    | _ => .error .endless

def moveBucket (n_buckets new_n_buckets : ℕ) (r : Moving K V) (j : ℕ) : Except Fault (Moving K V) :=
  if acIseither r.flags j = false then
    kickOut hashFunc n_buckets new_n_buckets (n_buckets + 1)
      { r with flags := acSetIsdelTrue r.flags j } (r.keys j) (r.vals j)
  else .ok r

def rehash (p : PackedHash K V) (new_n_buckets : ℕ) : Except Fault (PackedHash K V) := do
  let r ← (List.range p.nBuckets).foldlM (moveBucket hashFunc p.nBuckets new_n_buckets)
    { flags := p.flags, newFlags := freshWords, keys := p.keys, vals := p.vals }
  return { p with
    nBuckets := new_n_buckets
    nOccupied := p.size
    upperBound := hashUpper new_n_buckets
    flags := r.newFlags
    keys := r.keys
    vals := r.vals }

def resize (memory : ResizeMemory) (p : PackedHash K V) (new_n_buckets : ℕ) :
    Except Fault (Bool × PackedHash K V) :=
  let new_n_buckets := roundBuckets new_n_buckets
  if p.size ≥ hashUpper new_n_buckets then .ok (true, p)
  else if memory.newFlags = false then .ok (false, p)
  else if p.nBuckets < new_n_buckets then
    if memory.newKeys = false then .ok (false, p)
    else if memory.newVals = false then .ok (false, { p with keysLen := new_n_buckets })
    else do
      let p ← rehash hashFunc { p with keysLen := new_n_buckets, valsLen := new_n_buckets } new_n_buckets
      return (true, p)
  else do
    let p ← rehash hashFunc p new_n_buckets
    return (true, p)

def grow (memory : ResizeMemory) (p : PackedHash K V) : Except Fault (Bool × PackedHash K V) :=
  if p.nOccupied ≥ p.upperBound then
    if p.nBuckets > (2 * p.size) % 2 ^ 32 then resize hashFunc memory p (p.nBuckets - 1)
    else resize hashFunc memory p (p.nBuckets + 1)
  else .ok (true, p)

def lastDeleted (p : PackedHash K V) (site i : ℕ) : ℕ := if acIsdel p.flags i then i else site

def chooseBucket [DecidableEq K] (p : PackedHash K V) (key : K) : Except Fault ℕ :=
  let i := KHash.home hashFunc p.nBuckets key
  if acIsempty p.flags i then .ok i
  else
    match probe (p.endsAt key) p.lastDeleted (p.nBuckets - 1) (some i) (2 * p.nBuckets) 0 i
        p.nBuckets with
    | .stopped j site => .ok (if acIsempty p.flags j ∧ site ≠ p.nBuckets then site else j)
    | .wrapped site => .ok (if site = p.nBuckets then i else site)
    | .outOfFuel => .error .endless

def occupy (p : PackedHash K V) (x : ℕ) (key : K) : PackedHash K V :=
  if acIsempty p.flags x then { p with
    keys := Function.update p.keys x key
    flags := acSetIsbothFalse p.flags x
    size := p.size + 1
    nOccupied := p.nOccupied + 1 }
  else if acIsdel p.flags x then { p with
    keys := Function.update p.keys x key
    flags := acSetIsbothFalse p.flags x
    size := p.size + 1 }
  else p

def put [DecidableEq K] (memory : ResizeMemory) (p : PackedHash K V) (key : Option K) :
    Except Fault (ℕ × PackedHash K V) := do
  let grown ← grow hashFunc memory p
  if grown.1 = false then return (grown.2.nBuckets, grown.2)
  else
    match key with
    | none => .error .nullPointer
    | some key =>
      let x ← chooseBucket hashFunc grown.2 key
      return (x, occupy grown.2 x key)

def del (p : PackedHash K V) (x : ℕ) : PackedHash K V :=
  if x ≠ p.nBuckets ∧ acIseither p.flags x = false then
    { p with flags := acSetIsdelTrue p.flags x, size := p.size - 1 }
  else p

def setValue (p : PackedHash K V) (x : ℕ) (value : V) : Except Fault (PackedHash K V × List ℕ) :=
  if x < p.valsLen then .ok ({ p with vals := Function.update p.vals x value }, [])
  else if p.valsLen = 0 then .error .nullPointer
  else .ok (p, [x])

section Operations
variable [DecidableEq K]

def hashAdd (memory : ResizeMemory) (p : PackedHash K V) (key : Option K) (value : V) :
    Except Fault (PackedHash K V × List ℕ) := do
  let placed ← put hashFunc memory p key
  setValue placed.2 placed.1 value

/-- `Hash_SoftAdd`, which has the body of `Hash_Add`. -/
def hashSoftAdd (memory : ResizeMemory) (p : PackedHash K V) (key : Option K) (value : V) :
    Except Fault (PackedHash K V × List ℕ) := do
  let placed ← put hashFunc memory p key
  setValue placed.2 placed.1 value

def hashFind (p : PackedHash K V) (key : K) : Except Fault (Option V) := do
  let k ← get hashFunc p key
  return if k ≠ p.nBuckets then some (p.vals k) else none

def hashDelete (p : PackedHash K V) (key : K) : Except Fault (PackedHash K V) := do
  let k ← get hashFunc p key
  return del p k

end Operations

@[simps]
def withFlags (p : PackedHash K V) (flags : ℕ → BucketFlag) : KHash K V where
  nBuckets := p.nBuckets
  size := p.size
  nOccupied := p.nOccupied
  upperBound := p.upperBound
  flags := flags
  keys := p.keys
  vals := p.vals
  keysLen := p.keysLen
  valsLen := p.valsLen

/-- The tables are the same up to the way in which the flags are kept. -/
def Shows (p : PackedHash K V) (h : KHash K V) : Prop :=
  ∃ flags, Packs p.flags flags ∧ h = p.withFlags flags

def Moving.Shows (r : Moving K V) (r' : KHash.Resizing K V) : Prop :=
  Packs r.flags r'.oldFlags ∧ Packs r.newFlags r'.newFlags ∧ r.keys = r'.keys ∧ r.vals = r'.vals

section Simulation
variable {hashFunc} {p : PackedHash K V} {h : KHash K V} {memory : ResizeMemory}

theorem Shows.nBuckets (hs : p.Shows h) : p.nBuckets = h.nBuckets := by
  obtain ⟨flags, hp, rfl⟩ := hs
  rfl

theorem Shows.size (hs : p.Shows h) : p.size = h.size := by
  obtain ⟨flags, hp, rfl⟩ := hs
  rfl

theorem endsAt_eq [DecidableEq K] {flags : ℕ → BucketFlag} (hp : Packs p.flags flags) (key : K) :
    p.endsAt key = (p.withFlags flags).endsAt key := by
  funext i
  rw [endsAt, KHash.endsAt, hp.isempty, hp.isdel]
  change _ = (decide (flags i = .empty) || decide (flags i = .live) && decide (p.keys i = key))
  cases flags i <;> rfl

theorem get_eq [DecidableEq K] (hs : p.Shows h) (key : K) :
    get hashFunc p key = KHash.get hashFunc h key := by
  obtain ⟨flags, hp, rfl⟩ := hs
  rw [get, KHash.get, endsAt_eq hp]
  simp only [hp.iseither, withFlags_nBuckets, withFlags_flags]
  by_cases hzero : p.nBuckets = 0
  · rw [if_pos hzero, if_pos hzero]
  · rw [if_neg hzero, if_neg hzero]
    cases probe ((p.withFlags flags).endsAt key) (fun seen _ => seen) (p.nBuckets - 1)
      (some (KHash.home hashFunc p.nBuckets key)) (2 * p.nBuckets) 0
        (KHash.home hashFunc p.nBuckets key) () with
    | stopped j seen => by_cases hlive : flags j = .live <;> simp [hlive]
    | wrapped seen => rfl
    | outOfFuel => rfl

theorem hashFind_eq [DecidableEq K] (hs : p.Shows h) (key : K) :
    hashFind hashFunc p key = KHash.hashFind hashFunc h key := by
  rw [hashFind, KHash.hashFind, get_eq hs]
  obtain ⟨flags, hp, rfl⟩ := hs
  rfl

end Simulation

end PackedHash

/-- `HashState` with the table as it lies in memory. -/
structure PackedState (K V : Type) where
  table : PackedHash K V
  found : List (Option V)
  outside : List ℕ

section Calls
variable {K V : Type} [DecidableEq K] (hashFunc : K → BitVec 32)

def PackedState.new [Inhabited K] [Inhabited V] : PackedState K V := ⟨PackedHash.init, [], []⟩

def PackedState.Shows (s : PackedState K V) (s' : HashState K V) : Prop :=
  s.table.Shows s'.table ∧ s.found = s'.found ∧ s.outside = s'.outside

variable {hashFunc}

variable [Inhabited K] [Inhabited V]

end Calls

end DistillerFS
