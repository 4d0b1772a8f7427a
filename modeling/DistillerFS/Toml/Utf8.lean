import DistillerFS.Recording.Operations
import Mathlib.Algebra.Order.Group.Nat
import Mathlib.Tactic.IntervalCases
import Mathlib.Tactic.Ring

/-!
# Code points and their bytes

The two conversions of `toml.c`. Text is a list of bytes, each a character below 256.
-/
namespace DistillerFS.Toml

def byte (n : ℕ) : Char := Char.ofNat (n % 256)

theorem byte_toNat (n : ℕ) : (byte n).toNat = n % 256 := by
  have hvalid : (n % 256).isValidChar := .inl (by omega)
  rw [byte, Char.ofNat, dif_pos hvalid]
  rfl

/-- `toml_ucs_to_utf8`; none is -1. -/
def tomlUcsToUtf8 (code : ℤ) : Option CString :=
  if 0xd800 ≤ code ∧ code ≤ 0xdfff then none
  else if 0xfffe ≤ code ∧ code ≤ 0xffff then none
  else if code < 0 then none
  else
    let n := code.toNat
    if n ≤ 0x7F then some [byte n]
    else if n ≤ 0x7FF then
      some [byte (0xc0 ||| n >>> 6), byte (0x80 ||| n &&& 0x3f)]
    else if n ≤ 0xFFFF then
      some [byte (0xe0 ||| n >>> 12), byte (0x80 ||| n >>> 6 &&& 0x3f), byte (0x80 ||| n &&& 0x3f)]
    else if n ≤ 0x1FFFFF then
      some [byte (0xf0 ||| n >>> 18), byte (0x80 ||| n >>> 12 &&& 0x3f),
        byte (0x80 ||| n >>> 6 &&& 0x3f), byte (0x80 ||| n &&& 0x3f)]
    else if n ≤ 0x3FFFFFF then
      some [byte (0xf8 ||| n >>> 24), byte (0x80 ||| n >>> 18 &&& 0x3f),
        byte (0x80 ||| n >>> 12 &&& 0x3f), byte (0x80 ||| n >>> 6 &&& 0x3f),
        byte (0x80 ||| n &&& 0x3f)]
    else if n ≤ 0x7FFFFFFF then
      some [byte (0xfc ||| n >>> 30), byte (0x80 ||| n >>> 24 &&& 0x3f),
        byte (0x80 ||| n >>> 18 &&& 0x3f), byte (0x80 ||| n >>> 12 &&& 0x3f),
        byte (0x80 ||| n >>> 6 &&& 0x3f), byte (0x80 ||| n &&& 0x3f)]
    else none

/-- The loop over the bytes behind the first one. -/
def continued : ℕ → ℕ → CString → Option ℕ
  | 0, v, _ => some v
  | k + 1, v, buf =>
    let i := (buf.headD '\x00').toNat
    if 0x2 ≠ i >>> 6 then none else continued k (v <<< 6 ||| i &&& 0x3f) buf.tail

/-- `toml_utf8_to_ucs`: the code and the number of its bytes; none is -1. -/
def tomlUtf8ToUcs (orig : CString) (len : ℕ) : Option (ℕ × ℕ) :=
  let i := (orig.headD '\x00').toNat
  let buf := orig.tail
  if 0 = i >>> 7 then if len < 1 then none else some (i, 1)
  else if 0x6 = i >>> 5 then
    if len < 2 then none else (continued 1 (i &&& 0x1f) buf).map (·, 2)
  else if 0xE = i >>> 4 then
    if len < 3 then none else (continued 2 (i &&& 0x0F) buf).map (·, 3)
  else if 0x1E = i >>> 3 then
    if len < 4 then none else (continued 3 (i &&& 0x07) buf).map (·, 4)
  else if 0x3E = i >>> 2 then
    if len < 5 then none else (continued 4 (i &&& 0x03) buf).map (·, 5)
  else if 0x7e = i >>> 1 then
    if len < 6 then none else (continued 5 (i &&& 0x01) buf).map (·, 6)
  else none

section Continuation

/-- The lowest `k` digits of a code to the base 64, one byte each. -/
def continuation : ℕ → ℕ → CString
  | 0, _ => []
  | k + 1, n => byte (0x80 ||| n >>> (6 * k) &&& 0x3f) :: continuation k n

theorem continuation_length (k n : ℕ) : (continuation k n).length = k := by
  induction k with
  | zero => rfl
  | succ k ih => rw [continuation, List.length_cons, ih]

theorem mark_digit : ∀ d < 64, (0x80 ||| d) % 256 = 0x80 + d := by decide

theorem continuation_byte (n : ℕ) : (byte (0x80 ||| n &&& 0x3f)).toNat = 0x80 + n % 64 := by
  rw [byte_toNat, show n &&& 0x3f = n % 64 from Nat.and_two_pow_sub_one_eq_mod n 6]
  exact mark_digit _ (Nat.mod_lt n (by decide))

theorem digit_appended (v d : ℕ) (hd : d < 64) : v <<< 6 ||| d = v * 64 + d := by
  rw [← Nat.shiftLeft_add_eq_or_of_lt (show d < 2 ^ 6 from hd) v, Nat.shiftLeft_eq]

/-- The loop reads the digits back behind those that it has. -/
theorem continued_continuation (k v n : ℕ) (rest : CString) :
    continued k v (continuation k n ++ rest) = some (v * 64 ^ k + n % 64 ^ k) := by
  induction k generalizing v with
  | zero => simp [continued, Nat.mod_one]
  | succ k ih =>
    have hbyte := continuation_byte (n >>> (6 * k))
    have hdigit : n >>> (6 * k) % 64 = n / 64 ^ k % 64 := by
      rw [Nat.shiftRight_eq_div_pow, pow_mul]
      rfl
    have hlow : n / 64 ^ k % 64 < 64 := Nat.mod_lt _ (by decide)
    have htag : (0x80 + n / 64 ^ k % 64) >>> 6 = 2 := by
      rw [Nat.shiftRight_eq_div_pow]
      omega
    have hmask : (0x80 + n / 64 ^ k % 64) &&& 0x3f = n / 64 ^ k % 64 := by
      rw [show (0x80 + n / 64 ^ k % 64) &&& 0x3f = (0x80 + n / 64 ^ k % 64) % 64 from
        Nat.and_two_pow_sub_one_eq_mod _ 6]
      omega
    rw [hdigit] at hbyte
    simp only [continuation, List.cons_append, continued, List.headD_cons, List.tail_cons, hbyte,
      htag, hmask, ne_eq, not_true_eq_false, if_false]
    rw [digit_appended v _ hlow, ih, Nat.mod_pow_succ]
    congr 1
    ring

end Continuation

section RoundTrip

/-- The marked bits of the first of `k + 1` bytes. -/
def mark (k : ℕ) : ℕ := 256 - 2 ^ (7 - k)

/-- The bytes of a code: one below 128, or a marked one with its continuation. -/
inductive Encoding (n : ℕ) : CString → Prop
  | single (h : n ≤ 0x7F) : Encoding n [byte n]
  | marked (k : ℕ) (hk : 1 ≤ k) (hk' : k ≤ 5) (h : n >>> (6 * k) < 2 ^ (6 - k)) :
      Encoding n (byte (mark k ||| n >>> (6 * k)) :: continuation k n)

theorem shiftRight_lt {n a : ℕ} (b : ℕ) (h : n < 2 ^ b * a) : n >>> b < a := by
  rw [Nat.shiftRight_eq_div_pow]
  exact Nat.div_lt_of_lt_mul h

/-- What is written for a code is its encoding. -/
theorem encoding_of_ucs {code : ℤ} {bytes : CString} (h : tomlUcsToUtf8 code = some bytes) :
    0 ≤ code ∧ Encoding code.toNat bytes := by
  unfold tomlUcsToUtf8 at h
  by_cases hsurrogate : 0xd800 ≤ code ∧ code ≤ 0xdfff
  · rw [if_pos hsurrogate] at h
    cases h
  rw [if_neg hsurrogate] at h
  by_cases hnon : 0xfffe ≤ code ∧ code ≤ 0xffff
  · rw [if_pos hnon] at h
    cases h
  rw [if_neg hnon] at h
  by_cases hneg : code < 0
  · rw [if_pos hneg] at h
    cases h
  rw [if_neg hneg] at h
  refine ⟨by omega, ?_⟩
  generalize code.toNat = n at h
  by_cases h1 : n ≤ 0x7F
  · rw [if_pos h1] at h
    cases h
    exact .single h1
  rw [if_neg h1] at h
  by_cases h2 : n ≤ 0x7FF
  · rw [if_pos h2] at h
    cases h
    exact .marked 1 (by decide) (by decide) (shiftRight_lt 6 (by omega))
  rw [if_neg h2] at h
  by_cases h3 : n ≤ 0xFFFF
  · rw [if_pos h3] at h
    cases h
    exact .marked 2 (by decide) (by decide) (shiftRight_lt 12 (by omega))
  rw [if_neg h3] at h
  by_cases h4 : n ≤ 0x1FFFFF
  · rw [if_pos h4] at h
    cases h
    exact .marked 3 (by decide) (by decide) (shiftRight_lt 18 (by omega))
  rw [if_neg h4] at h
  by_cases h5 : n ≤ 0x3FFFFFF
  · rw [if_pos h5] at h
    cases h
    exact .marked 4 (by decide) (by decide) (shiftRight_lt 24 (by omega))
  rw [if_neg h5] at h
  by_cases h6 : n ≤ 0x7FFFFFFF
  · rw [if_pos h6] at h
    cases h
    exact .marked 5 (by decide) (by decide) (shiftRight_lt 30 (by omega))
  · rw [if_neg h6] at h
    cases h

/-- The first byte tells how many follow. -/
theorem utf8ToUcs_marked {k x len : ℕ} (hk : 1 ≤ k) (hk' : k ≤ 5) (hx : x < 2 ^ (6 - k))
    (hlen : k < len) (buf : CString) : tomlUtf8ToUcs (byte (mark k ||| x) :: buf) len =
      (continued k x buf).map (·, k + 1) := by
  unfold tomlUtf8ToUcs
  simp only [List.headD_cons, List.tail_cons, byte_toNat]
  interval_cases k
  · have hbits : ∀ x < 32, 0 ≠ ((mark 1 ||| x) % 256) >>> 7 ∧ 0x6 = ((mark 1 ||| x) % 256) >>> 5 ∧
        (mark 1 ||| x) % 256 &&& 0x1f = x := by decide
    obtain ⟨h7, h5, hmask⟩ := hbits x hx
    rw [if_neg h7, if_pos h5, if_neg (by omega), hmask]
  · have hbits : ∀ x < 16, 0 ≠ ((mark 2 ||| x) % 256) >>> 7 ∧ 0x6 ≠ ((mark 2 ||| x) % 256) >>> 5 ∧
        0xE = ((mark 2 ||| x) % 256) >>> 4 ∧ (mark 2 ||| x) % 256 &&& 0x0F = x := by decide
    obtain ⟨h7, h5, h4, hmask⟩ := hbits x hx
    rw [if_neg h7, if_neg h5, if_pos h4, if_neg (by omega), hmask]
  · have hbits : ∀ x < 8, 0 ≠ ((mark 3 ||| x) % 256) >>> 7 ∧ 0x6 ≠ ((mark 3 ||| x) % 256) >>> 5 ∧
        0xE ≠ ((mark 3 ||| x) % 256) >>> 4 ∧ 0x1E = ((mark 3 ||| x) % 256) >>> 3 ∧
        (mark 3 ||| x) % 256 &&& 0x07 = x := by decide
    obtain ⟨h7, h5, h4, h3, hmask⟩ := hbits x hx
    rw [if_neg h7, if_neg h5, if_neg h4, if_pos h3, if_neg (by omega), hmask]
  · have hbits : ∀ x < 4, 0 ≠ ((mark 4 ||| x) % 256) >>> 7 ∧ 0x6 ≠ ((mark 4 ||| x) % 256) >>> 5 ∧
        0xE ≠ ((mark 4 ||| x) % 256) >>> 4 ∧ 0x1E ≠ ((mark 4 ||| x) % 256) >>> 3 ∧
        0x3E = ((mark 4 ||| x) % 256) >>> 2 ∧ (mark 4 ||| x) % 256 &&& 0x03 = x := by decide
    obtain ⟨h7, h5, h4, h3, h2, hmask⟩ := hbits x hx
    rw [if_neg h7, if_neg h5, if_neg h4, if_neg h3, if_pos h2, if_neg (by omega), hmask]
  · have hbits : ∀ x < 2, 0 ≠ ((mark 5 ||| x) % 256) >>> 7 ∧ 0x6 ≠ ((mark 5 ||| x) % 256) >>> 5 ∧
        0xE ≠ ((mark 5 ||| x) % 256) >>> 4 ∧ 0x1E ≠ ((mark 5 ||| x) % 256) >>> 3 ∧
        0x3E ≠ ((mark 5 ||| x) % 256) >>> 2 ∧ 0x7e = ((mark 5 ||| x) % 256) >>> 1 ∧
        (mark 5 ||| x) % 256 &&& 0x01 = x := by decide
    obtain ⟨h7, h5, h4, h3, h2, h1, hmask⟩ := hbits x hx
    rw [if_neg h7, if_neg h5, if_neg h4, if_neg h3, if_neg h2, if_pos h1, if_neg (by omega), hmask]

theorem utf8ToUcs_single {n len : ℕ} (hn : n ≤ 0x7F) (hlen : 0 < len) (buf : CString) :
    tomlUtf8ToUcs (byte n :: buf) len = some (n, 1) := by
  have hbyte : (byte n).toNat = n := by rw [byte_toNat, Nat.mod_eq_of_lt (by omega)]
  unfold tomlUtf8ToUcs
  rw [List.headD_cons, hbyte, if_pos, if_neg (by omega)]
  rw [Nat.shiftRight_eq_div_pow]
  omega

/-- The bytes of a code are read back as the code, whatever comes behind them. -/
theorem Encoding.read {n len : ℕ} {bytes : CString} (h : Encoding n bytes) (rest : CString)
    (hlen : bytes.length ≤ len) : tomlUtf8ToUcs (bytes ++ rest) len = some (n, bytes.length) := by
  cases h with
  | single hn =>
    exact utf8ToUcs_single hn hlen rest
  | marked k hk hk' hx =>
    rw [List.length_cons, continuation_length] at hlen ⊢
    have hdigits : n >>> (6 * k) * 64 ^ k + n % 64 ^ k = n := by
      rw [Nat.shiftRight_eq_div_pow, pow_mul]
      exact Nat.div_add_mod' n (64 ^ k)
    rw [List.cons_append, utf8ToUcs_marked hk hk' hx (by omega), continued_continuation, hdigits]
    rfl

/-- A code is read back from what is written for it, in front of anything. -/
theorem utf8_roundTrip (code : ℤ) (bytes rest : CString) (len : ℕ)
    (h : tomlUcsToUtf8 code = some bytes) (hlen : bytes.length ≤ len) :
    tomlUtf8ToUcs (bytes ++ rest) len = some (code.toNat, bytes.length) :=
  (encoding_of_ucs h).2.read rest hlen

theorem utf8_roundTrip_euro :
    tomlUtf8ToUcs ([byte 0xE2, byte 0x82, byte 0xAC] ++ ['s']) 4 = some (0x20AC, 3) :=
  utf8_roundTrip 0x20AC [byte 0xE2, byte 0x82, byte 0xAC] ['s'] 4 (by decide) (by decide)

end RoundTrip

end DistillerFS.Toml
