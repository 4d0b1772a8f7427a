import DistillerFS.Recording.KHash

/-!
# The flags in their words

`khash.h` keeps the two bits of a bucket in an array of words, sixteen buckets to a word. The
macros that read and set them are those of an array with a flag for each bucket.
-/
namespace DistillerFS

abbrev FlagWords := ℕ → BitVec 32

section Macros
variable (flag : FlagWords) (i : ℕ)

def acIsempty : Bool := (flag (i >>> 4) >>> ((i &&& 0xf) <<< 1)) &&& 2 != 0

def acIsdel : Bool := (flag (i >>> 4) >>> ((i &&& 0xf) <<< 1)) &&& 1 != 0

def acIseither : Bool := (flag (i >>> 4) >>> ((i &&& 0xf) <<< 1)) &&& 3 != 0

/-- `flag[i>>4] &= ~(mask << ((i&0xfU)<<1))`, where the mask is an `unsigned long`. -/
def clearBits (mask : BitVec 64) : FlagWords :=
  Function.update flag (i >>> 4)
    (((flag (i >>> 4)).setWidth 64 &&& ~~~(mask <<< ((i &&& 0xf) <<< 1))).setWidth 32)

def acSetIsemptyFalse : FlagWords := clearBits flag i 2

def acSetIsbothFalse : FlagWords := clearBits flag i 3

def acSetIsdelTrue : FlagWords :=
  Function.update flag (i >>> 4)
    (((flag (i >>> 4)).setWidth 64 ||| (1 : BitVec 64) <<< ((i &&& 0xf) <<< 1)).setWidth 32)

end Macros

/-- An array that was set with `memset(flags, 0xaa, ..)`. -/
def freshWords : FlagWords := fun _ => 0xaaaaaaaa

/-- Each bucket has its two bits, and never both of them are set. -/
def Packs (flag : FlagWords) (flags : ℕ → BucketFlag) : Prop := ∀ i,
  (flag (i / 16)).getLsbD (2 * (i % 16)) = decide (flags i = .deleted) ∧
    (flag (i / 16)).getLsbD (2 * (i % 16) + 1) = decide (flags i = .empty)

theorem word_index (i : ℕ) : i >>> 4 = i / 16 := Nat.shiftRight_eq_div_pow i 4

theorem bit_index (i : ℕ) : (i &&& 0xf) <<< 1 = 2 * (i % 16) := by
  rw [Nat.shiftLeft_eq, show (0xf : ℕ) = 2 ^ 4 - 1 from rfl, Nat.and_two_pow_sub_one_eq_mod]
  omega

theorem and_one_ne (x : BitVec 32) : (x &&& 1 != 0) = x.getLsbD 0 := by
  rw [show (1 : BitVec 32) = BitVec.twoPow 32 0 from rfl, BitVec.and_twoPow]
  cases x.getLsbD 0 <;> rfl

theorem and_two_ne (x : BitVec 32) : (x &&& 2 != 0) = x.getLsbD 1 := by
  rw [show (2 : BitVec 32) = BitVec.twoPow 32 1 from rfl, BitVec.and_twoPow]
  cases x.getLsbD 1 <;> rfl

theorem and_three_ne (x : BitVec 32) : (x &&& 3 != 0) = (x.getLsbD 0 || x.getLsbD 1) := by
  rw [show (3 : BitVec 32) = 1 ||| 2 from rfl, BitVec.and_or_distrib_left, ← and_one_ne, ← and_two_ne]
  by_cases h1 : x &&& 1 = 0
  · rw [h1, show (0 : BitVec 32) ||| x &&& 2 = x &&& 2 from BitVec.zero_or]
    rfl
  · have hor : x &&& 1 ||| x &&& 2 ≠ 0 := fun h => h1 (BitVec.or_eq_zero_iff.mp h).1
    rw [bne_iff_ne.mpr hor, bne_iff_ne.mpr h1, Bool.true_or]

section Reading
variable {flag : FlagWords} {flags : ℕ → BucketFlag} (h : Packs flag flags) (i : ℕ)
include h

theorem Packs.isempty : acIsempty flag i = decide (flags i = .empty) := by
  rw [acIsempty, word_index, bit_index, and_two_ne, BitVec.getLsbD_ushiftRight, (h i).2]

theorem Packs.isdel : acIsdel flag i = decide (flags i = .deleted) := by
  rw [acIsdel, word_index, bit_index, and_one_ne, BitVec.getLsbD_ushiftRight, Nat.add_zero, (h i).1]

theorem Packs.iseither : acIseither flag i = !decide (flags i = .live) := by
  rw [acIseither, word_index, bit_index, and_three_ne, BitVec.getLsbD_ushiftRight,
    BitVec.getLsbD_ushiftRight, Nat.add_zero, (h i).1, (h i).2]
  cases flags i <;> rfl

end Reading

section Writing
variable {flag : FlagWords} {flags : ℕ → BucketFlag} {i : ℕ}

/-- A word with other bits for one bucket is an array with another flag for it. -/
theorem Packs.update (h : Packs flag flags) {w : BitVec 32} {b : BucketFlag}
    (hdel : w.getLsbD (2 * (i % 16)) = decide (b = .deleted))
    (hempty : w.getLsbD (2 * (i % 16) + 1) = decide (b = .empty))
    (hother : ∀ k < 32, k ≠ 2 * (i % 16) → k ≠ 2 * (i % 16) + 1 →
      w.getLsbD k = (flag (i / 16)).getLsbD k) :
    Packs (Function.update flag (i / 16) w) (Function.update flags i b) := by
  intro j
  by_cases hj : j = i
  · subst hj
    rw [Function.update_self, Function.update_self]
    exact ⟨hdel, hempty⟩
  · rw [Function.update_of_ne hj]
    by_cases hword : j / 16 = i / 16
    · have hlt : j % 16 < 16 := Nat.mod_lt j (by decide)
      rw [hword, Function.update_self, hother _ (by omega) (by omega) (by omega),
        hother _ (by omega) (by omega) (by omega), ← hword]
      exact h j
    · rw [Function.update_of_ne hword]
      exact h j

theorem cleared_bit (w : BitVec 32) (mask : BitVec 64) {s k : ℕ} (hk : k < 32) :
    ((w.setWidth 64 &&& ~~~(mask <<< s)).setWidth 32).getLsbD k =
      (w.getLsbD k && !(!decide (k < s) && mask.getLsbD (k - s))) := by
  simp [hk]

/-- The masks of the macros have no bits but their lowest two. -/
theorem mask_bits {mask : BitVec 64} {n : ℕ} (hmask : ∀ n < 64, 2 ≤ n → mask.getLsbD n = false)
    (hn : 2 ≤ n) : mask.getLsbD n = false := by
  by_cases h : n < 64
  · exact hmask n h hn
  · exact BitVec.getLsbD_of_ge mask n (by omega)

theorem Packs.clearBits (h : Packs flag flags) {mask : BitVec 64} {b : BucketFlag}
    (hmask : ∀ n < 64, 2 ≤ n → mask.getLsbD n = false)
    (hdel : (decide (flags i = .deleted) && !mask.getLsbD 0) = decide (b = .deleted))
    (hempty : (decide (flags i = .empty) && !mask.getLsbD 1) = decide (b = .empty)) :
    Packs (DistillerFS.clearBits flag i mask) (Function.update flags i b) := by
  have hlt : i % 16 < 16 := Nat.mod_lt i (by decide)
  rw [DistillerFS.clearBits, word_index, bit_index]
  apply h.update
  · rw [cleared_bit _ _ (by omega), (h i).1, ← hdel, Nat.sub_self]
    simp
  · rw [cleared_bit _ _ (by omega), (h i).2, ← hempty, Nat.add_sub_cancel_left]
    simp
  · intro k hk h0 h1
    rw [cleared_bit _ _ hk]
    by_cases hlow : k < 2 * (i % 16)
    · simp [hlow]
    · rw [mask_bits hmask (by omega)]
      simp

end Writing

end DistillerFS
