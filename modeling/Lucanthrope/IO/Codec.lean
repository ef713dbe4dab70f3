import Mathlib.Data.Nat.Bitwise
import Mathlib.Data.List.Basic

/-!
# The binary codec: fixed-width integers and varints

`IndexOutput::writeInt32`/`writeInt64` fill a `buf` with the bytes of the value, lowest first,
and `writeVarint32`/`writeVarint64` fill one with its varint; each then hands `buf` to
`write`. `IndexInput::readInt32`/`readInt64` assemble a value from the bytes `read` returns.
This file is those byte computations, as pure functions of the value (`int32Bytes`,
`varint32Bytes`, ...), next to `leb128`, the encoding as the spec states it (§6: seven bits per
byte, least significant group first, `0x80` on every byte but the last).

Results:

> `varint64Bytes_eq_leb128`: the loop of `writeVarint64` emits exactly `leb128 v`, at most
> `kMaxVarintLength64` bytes (`varint64Bytes_length_le`).

> `varint32Bytes_eq_leb128`: the five unrolled branches of `writeVarint32` agree with `leb128`,
> hence with `writeVarint64` of the zero-extended value, for `v < 2^21` and `2^28 ≤ v`.

> `varint32Bytes_eq_tail_leb128`: on `[2^21, 2^28)` the fourth branch emits `leb128 v` without
> its first byte: the line `*(curr++) = num | B;` that opens the other multi-byte branches is
> missing there, so the low seven bits are lost and the value decodes to `v / 2^7`.

> `int32Value_int32Bytes`, `int64Value_int64Bytes`: the fixed-width codec round-trips.

The proofs go through `Nat`: each `UInt` operation the code uses has a `toNat` bridge lemma
below, and the bit fact `(n ||| 128) % 256 = n % 128 + 128` does the rest.
-/

namespace Lucanthrope

/-- `IndexIOBase::kMaxVarintLength32`. -/
def kMaxVarintLength32 : Nat := 5

/-- `IndexIOBase::kMaxVarintLength64`. -/
def kMaxVarintLength64 : Nat := 10

/-! ## `UInt` to `Nat` bridges -/

section Bridges

theorem toNat_toUInt8 (n : Nat) : n.toUInt8.toNat = n % 256 := rfl

theorem u32_toNat_toUInt8 (a : UInt32) : a.toUInt8.toNat = a.toNat % 256 := rfl

theorem u64_toNat_toUInt8 (a : UInt64) : a.toUInt8.toNat = a.toNat % 256 := rfl

theorem u32_toNat_or (a b : UInt32) : (a ||| b).toNat = a.toNat ||| b.toNat :=
  BitVec.toNat_or ..

theorem u64_toNat_or (a b : UInt64) : (a ||| b).toNat = a.toNat ||| b.toNat :=
  BitVec.toNat_or ..

theorem u32_toNat_shiftRight (a : UInt32) {k : Nat} (hk : k < 32) :
    (a >>> UInt32.ofNat k).toNat = a.toNat / 2 ^ k := by
  show (a.toBitVec >>> ((UInt32.ofNat k).toBitVec % 32).toNat).toNat = _
  have : ((UInt32.ofNat k).toBitVec % 32).toNat = k := by
    show (BitVec.ofNat 32 k % BitVec.ofNat 32 32).toNat = k
    simp only [BitVec.toNat_umod, BitVec.toNat_ofNat, Nat.reducePow, Nat.reduceMod]
    omega
  simp only [BitVec.toNat_ushiftRight, this, Nat.shiftRight_eq_div_pow]
  rfl

theorem u64_toNat_shiftRight (a : UInt64) {k : Nat} (hk : k < 64) :
    (a >>> UInt64.ofNat k).toNat = a.toNat / 2 ^ k := by
  show (a.toBitVec >>> ((UInt64.ofNat k).toBitVec % 64).toNat).toNat = _
  have : ((UInt64.ofNat k).toBitVec % 64).toNat = k := by
    show (BitVec.ofNat 64 k % BitVec.ofNat 64 64).toNat = k
    simp only [BitVec.toNat_umod, BitVec.toNat_ofNat, Nat.reducePow, Nat.reduceMod]
    omega
  simp only [BitVec.toNat_ushiftRight, this, Nat.shiftRight_eq_div_pow]
  rfl

theorem u64_toNat_shr7 (a : UInt64) : (a >>> 7).toNat = a.toNat / 128 :=
  u64_toNat_shiftRight a (by decide)

theorem u32_shiftRight_lit (a : UInt32) (k : Nat) (hk : k < 32) :
    (a >>> (no_index (OfNat.ofNat k : UInt32))).toNat = a.toNat / 2 ^ k :=
  u32_toNat_shiftRight a hk

theorem u64_shiftRight_lit (a : UInt64) (k : Nat) (hk : k < 64) :
    (a >>> (no_index (OfNat.ofNat k : UInt64))).toNat = a.toNat / 2 ^ k :=
  u64_toNat_shiftRight a hk

theorem u32_shiftLeft_lit (a : UInt32) (k : Nat) (hk : k < 32) :
    (a <<< (no_index (OfNat.ofNat k : UInt32))).toNat = a.toNat * 2 ^ k % 2 ^ 32 := by
  show (a.toBitVec <<< ((UInt32.ofNat k).toBitVec % 32).toNat).toNat = _
  have : ((UInt32.ofNat k).toBitVec % 32).toNat = k := by
    show (BitVec.ofNat 32 k % BitVec.ofNat 32 32).toNat = k
    simp only [BitVec.toNat_umod, BitVec.toNat_ofNat, Nat.reducePow, Nat.reduceMod]
    omega
  simp only [BitVec.toNat_shiftLeft, this, Nat.shiftLeft_eq]
  rfl

theorem u64_shiftLeft_lit (a : UInt64) (k : Nat) (hk : k < 64) :
    (a <<< (no_index (OfNat.ofNat k : UInt64))).toNat = a.toNat * 2 ^ k % 2 ^ 64 := by
  show (a.toBitVec <<< ((UInt64.ofNat k).toBitVec % 64).toNat).toNat = _
  have : ((UInt64.ofNat k).toBitVec % 64).toNat = k := by
    show (BitVec.ofNat 64 k % BitVec.ofNat 64 64).toNat = k
    simp only [BitVec.toNat_umod, BitVec.toNat_ofNat, Nat.reducePow, Nat.reduceMod]
    omega
  simp only [BitVec.toNat_shiftLeft, this, Nat.shiftLeft_eq]
  rfl

theorem u32_lt_lit (a : UInt32) (k : Nat) (hk : k < 2 ^ 32) :
    a < (no_index (OfNat.ofNat k : UInt32)) ↔ a.toNat < k := by
  show a.toBitVec.toNat < (BitVec.ofNat 32 k).toNat ↔ _
  rw [BitVec.toNat_ofNat, Nat.mod_eq_of_lt hk]
  rfl

theorem u64_le_lit (a : UInt64) (k : Nat) (hk : k < 2 ^ 64) :
    (no_index (OfNat.ofNat k : UInt64)) ≤ a ↔ k ≤ a.toNat := by
  show (BitVec.ofNat 64 k).toNat ≤ a.toBitVec.toNat ↔ _
  rw [BitVec.toNat_ofNat, Nat.mod_eq_of_lt hk]
  rfl

theorem u8_toNat_toUInt32 (b : UInt8) : b.toUInt32.toNat = b.toNat := rfl

theorem u8_toNat_toUInt64 (b : UInt8) : b.toUInt64.toNat = b.toNat := rfl

theorem u32_toUInt8_eq (a : UInt32) : a.toUInt8 = a.toNat.toUInt8 := rfl

theorem u64_toUInt8_eq (a : UInt64) : a.toUInt8 = a.toNat.toUInt8 := rfl

theorem toUInt8_eq_iff (x y : Nat) : x.toUInt8 = y.toUInt8 ↔ x % 256 = y % 256 :=
  ⟨fun h => by rw [← toNat_toUInt8, ← toNat_toUInt8, h],
    fun h => UInt8.toNat.inj (by rw [toNat_toUInt8, toNat_toUInt8, h])⟩

/-- Setting the continuation bit of a byte. -/
theorem or_128_mod_256 (n : Nat) : (n ||| 128) % 256 = n % 128 + 128 := by
  apply Nat.eq_of_testBit_eq
  intro j
  rw [show n % 128 + 128 = 2 ^ 7 * 1 + n % 2 ^ 7 by omega,
    Nat.testBit_mul_pow_two_add _ (Nat.mod_lt _ (by decide)), show (256 : Nat) = 2 ^ 8 by rfl,
    Nat.testBit_mod_two_pow, Nat.testBit_or, show (128 : Nat) = 2 ^ 7 by rfl, Nat.testBit_two_pow,
    Nat.testBit_mod_two_pow]
  by_cases h7 : j < 7
  · simp [h7, show j < 8 by omega, show 7 ≠ j by omega]
  · by_cases h8 : j = 7
    · subst h8; simp
    · have h1 : Nat.testBit 1 (j - 7) = false := by
        cases h : Nat.testBit 1 (j - 7)
        · rfl
        · have := Nat.testBit_one_eq_true_iff_self_eq_zero.mp h; omega
      simp [h7, h1, show ¬ j < 8 by omega]

theorem toUInt8_or_128 (x : Nat) : (x ||| 128).toUInt8 = (x % 128 + 128).toUInt8 := by
  rw [toUInt8_eq_iff, or_128_mod_256]; omega

theorem u32_toNat_or_128 (a : UInt32) : (a ||| 128).toNat = a.toNat ||| 128 := u32_toNat_or a 128

theorem u64_toNat_or_128 (a : UInt64) : (a ||| 128).toNat = a.toNat ||| 128 := u64_toNat_or a 128

/-- A low part below `2 ^ k` and a high part in multiples of `2 ^ k` share no bit. -/
theorem or_mul_two_pow {x : Nat} {k : Nat} (hx : x < 2 ^ k) (y : Nat) :
    x ||| y * 2 ^ k = x + y * 2 ^ k := by
  rw [Nat.or_comm, Nat.mul_comm, ← Nat.mul_add_lt_is_or hx, Nat.add_comm]

/-- A byte moved to bit `k` fits below bit `w`. -/
theorem byte_mul_two_pow_lt {y k w : Nat} (hy : y < 256) (hk : k + 8 ≤ w) : y * 2 ^ k < 2 ^ w :=
  calc y * 2 ^ k < 2 ^ 8 * 2 ^ k := Nat.mul_lt_mul_of_pos_right hy (Nat.two_pow_pos k)
    _ = 2 ^ (k + 8) := by rw [Nat.pow_add, Nat.mul_comm]
    _ ≤ 2 ^ w := Nat.pow_le_pow_right (by decide) hk

/-- The byte at bit `k` of `n`, moved back to bit `k`, fits below bit `w`. -/
theorem byte_mul_two_pow_mod (n : Nat) {k w : Nat} (hk : k + 8 ≤ w) :
    n / 2 ^ k % 256 * 2 ^ k % 2 ^ w = n / 2 ^ k % 256 * 2 ^ k :=
  Nat.mod_eq_of_lt (byte_mul_two_pow_lt (Nat.mod_lt _ (by decide)) hk)

/-- The low `k` bits of `n` and its byte at bit `k` are its low `k + 8` bits. -/
theorem mod_or_byte (n : Nat) {k m : Nat} (hm : k + 8 = m) :
    n % 2 ^ k ||| n / 2 ^ k % 256 * 2 ^ k = n % 2 ^ m := by
  rw [or_mul_two_pow (Nat.mod_lt _ (Nat.two_pow_pos k)), ← hm, Nat.pow_add, Nat.mod_mul,
    Nat.mul_comm (2 ^ k)]

theorem u32_ofNat_toNat (v : UInt32) : UInt32.ofNat v.toNat = v :=
  UInt32.toNat.inj (UInt32.toNat_ofNat_of_lt v.toNat_lt_size)

theorem u64_ofNat_toNat (v : UInt64) : UInt64.ofNat v.toNat = v :=
  UInt64.toNat.inj (UInt64.toNat_ofNat_of_lt v.toNat_lt_size)

end Bridges

/-! ## LEB128, as the spec states it -/

/-- The LEB128 encoding of `n` (spec §6): seven bits per byte, least significant group
first, `0x80` set on every byte but the last. -/
def leb128 (n : Nat) : List UInt8 :=
  if n < 128 then [n.toUInt8] else (n % 128 + 128).toUInt8 :: leb128 (n / 128)
termination_by n
decreasing_by omega

theorem leb128_of_lt {n : Nat} (h : n < 128) : leb128 n = [n.toUInt8] := by
  rw [leb128, if_pos h]

theorem leb128_of_le {n : Nat} (h : 128 ≤ n) :
    leb128 n = (n % 128 + 128).toUInt8 :: leb128 (n / 128) := by
  rw [leb128, if_neg (by omega)]

theorem leb128_ne_nil (n : Nat) : leb128 n ≠ [] := by
  rw [leb128]; split <;> simp

/-- `leb128 n` takes one byte per started group of seven bits. -/
theorem leb128_length_le : ∀ {k n : Nat}, n < 2 ^ (7 * (k + 1)) → (leb128 n).length ≤ k + 1
  | 0, n, h => by rw [leb128_of_lt (by simpa using h)]; simp
  | k + 1, n, h => by
    by_cases hn : n < 128
    · rw [leb128_of_lt hn]; simp
    · rw [leb128_of_le (by omega), List.length_cons]
      have : n / 128 < 2 ^ (7 * (k + 1)) := by
        rw [show 7 * (k + 1 + 1) = 7 * (k + 1) + 7 by omega, Nat.pow_add] at h
        rw [Nat.div_lt_iff_lt_mul (by decide)]
        simpa using h
      have := leb128_length_le this
      omega

/-! ## The encoders -/

/-- The `buf` of `IndexOutput::writeInt32`: the four bytes of `num`, lowest first. -/
def int32Bytes (num : UInt32) : List UInt8 :=
  [num.toUInt8, (num >>> 8).toUInt8, (num >>> 16).toUInt8, (num >>> 24).toUInt8]

/-- The `buf` of `IndexOutput::writeInt64`: the eight bytes of `num`, lowest first. -/
def int64Bytes (num : UInt64) : List UInt8 :=
  [num.toUInt8, (num >>> 8).toUInt8, (num >>> 16).toUInt8, (num >>> 24).toUInt8,
    (num >>> 32).toUInt8, (num >>> 40).toUInt8, (num >>> 48).toUInt8, (num >>> 56).toUInt8]

/-- The bytes `IndexOutput::writeVarint32` stores in `buf` and passes to `write`: five
hand-unrolled branches on the size of `num` (`B = 128`). -/
def varint32Bytes (num : UInt32) : List UInt8 :=
  if num < 128 then
    [num.toUInt8]
  else if num < 16384 then
    [(num ||| 128).toUInt8, (num >>> 7).toUInt8]
  else if num < 2097152 then
    [(num ||| 128).toUInt8, ((num >>> 7) ||| 128).toUInt8, (num >>> 14).toUInt8]
  else if num < 268435456 then
    [((num >>> 7) ||| 128).toUInt8, ((num >>> 14) ||| 128).toUInt8, (num >>> 21).toUInt8]
  else
    [(num ||| 128).toUInt8, ((num >>> 7) ||| 128).toUInt8, ((num >>> 14) ||| 128).toUInt8,
      ((num >>> 21) ||| 128).toUInt8, (num >>> 28).toUInt8]

/-- The bytes `IndexOutput::writeVarint64` stores in `buf`:
`while (num >= B) { *(ptr++) = num | B; num >>= 7; } *(ptr++) = num;`. -/
def varint64Bytes (num : UInt64) : List UInt8 :=
  if 128 ≤ num then (num ||| 128).toUInt8 :: varint64Bytes (num >>> 7) else [num.toUInt8]
termination_by num.toNat
decreasing_by
  rw [u64_toNat_shr7]
  have := (u64_le_lit num 128 (by decide)).mp ‹_›
  omega

theorem varint32Bytes_ne_nil (num : UInt32) : varint32Bytes num ≠ [] := by
  unfold varint32Bytes; split_ifs <;> exact List.cons_ne_nil _ _

theorem varint64Bytes_ne_nil (num : UInt64) : varint64Bytes num ≠ [] := by
  rw [varint64Bytes]; split <;> simp

/-- The value `IndexInput::readInt32` assembles from the bytes `read` returned. -/
def int32Value (b : List UInt8) : UInt32 :=
  (b.getD 0 0).toUInt32 ||| ((b.getD 1 0).toUInt32 <<< 8) ||| ((b.getD 2 0).toUInt32 <<< 16) |||
    ((b.getD 3 0).toUInt32 <<< 24)

/-- The value `IndexInput::readInt64` assembles from the bytes `read` returned. -/
def int64Value (b : List UInt8) : UInt64 :=
  (b.getD 0 0).toUInt64 ||| ((b.getD 1 0).toUInt64 <<< 8) ||| ((b.getD 2 0).toUInt64 <<< 16) |||
    ((b.getD 3 0).toUInt64 <<< 24) ||| ((b.getD 4 0).toUInt64 <<< 32) |||
    ((b.getD 5 0).toUInt64 <<< 40) ||| ((b.getD 6 0).toUInt64 <<< 48) |||
    ((b.getD 7 0).toUInt64 <<< 56)

/-! ## `writeVarint64` is LEB128 -/

theorem varint64Bytes_eq_leb128 (v : UInt64) : varint64Bytes v = leb128 v.toNat := by
  induction v using varint64Bytes.induct with
  | case1 num h ih =>
    rw [varint64Bytes, if_pos h, ih, leb128_of_le ((u64_le_lit num 128 (by decide)).mp h),
      u64_toNat_shr7, u64_toUInt8_eq, u64_toNat_or_128, toUInt8_or_128]
  | case2 num h =>
    rw [varint64Bytes, if_neg h,
      leb128_of_lt (by have := (u64_le_lit num 128 (by decide)).not.mp h; omega)]
    rfl

/-- `writeVarint64` writes at most `kMaxVarintLength64` bytes. -/
theorem varint64Bytes_length_le (v : UInt64) :
    (varint64Bytes v).length ≤ kMaxVarintLength64 := by
  rw [varint64Bytes_eq_leb128]
  exact leb128_length_le (k := 9) (Nat.lt_of_lt_of_le v.toNat_lt_size (by decide))

/-! ## `writeVarint32` against LEB128 -/

theorem varint32Bytes_eq_leb128 (v : UInt32) (h : v.toNat < 2 ^ 21 ∨ 2 ^ 28 ≤ v.toNat) :
    varint32Bytes v = leb128 v.toNat := by
  have hv : v.toNat < 2 ^ 32 := v.toNat_lt_size
  simp (disch := decide) only [varint32Bytes, u32_lt_lit, u32_toUInt8_eq, u32_toNat_or_128,
    u32_shiftRight_lit, toUInt8_or_128]
  generalize v.toNat = n at *
  split_ifs with h1 h2 h3 h4
  · rw [leb128_of_lt h1]
  · rw [leb128_of_le (by omega), leb128_of_lt (by omega)]
    simp only [Nat.div_div_eq_div_mul, Nat.reduceMul, Nat.reducePow]
  · rw [leb128_of_le (by omega), leb128_of_le (by omega), leb128_of_lt (by omega)]
    simp only [Nat.div_div_eq_div_mul, Nat.reduceMul, Nat.reducePow]
  · omega
  · rw [leb128_of_le (by omega), leb128_of_le (by omega), leb128_of_le (by omega),
      leb128_of_le (by omega), leb128_of_lt (by omega)]
    simp only [Nat.div_div_eq_div_mul, Nat.reduceMul, Nat.reducePow]

/-- Outside `[2^21, 2^28)` the unrolled `writeVarint32` emits what `writeVarint64` emits for the
zero-extended value. -/
theorem varint32Bytes_eq_varint64Bytes (v : UInt32) (h : v.toNat < 2 ^ 21 ∨ 2 ^ 28 ≤ v.toNat) :
    varint32Bytes v = varint64Bytes v.toUInt64 := by
  rw [varint32Bytes_eq_leb128 v h, varint64Bytes_eq_leb128]
  rfl

/-- The largest `uint32`, `2^32 - 1`, has the same encoding under both writers. -/
theorem varint32Bytes_eq_varint64Bytes_max :
    varint32Bytes 4294967295 = varint64Bytes (4294967295 : UInt32).toUInt64 :=
  varint32Bytes_eq_varint64Bytes 4294967295 (.inr (by decide))

/-- On `[2^21, 2^28)` the fourth branch of `writeVarint32` emits `leb128 v` without its first
byte. -/
theorem varint32Bytes_eq_tail_leb128 (v : UInt32) (h : 2 ^ 21 ≤ v.toNat ∧ v.toNat < 2 ^ 28) :
    varint32Bytes v = (leb128 v.toNat).tail := by
  have hv : v.toNat < 2 ^ 32 := v.toNat_lt_size
  simp (disch := decide) only [varint32Bytes, u32_lt_lit, u32_toUInt8_eq, u32_toNat_or_128,
    u32_shiftRight_lit, toUInt8_or_128]
  generalize v.toNat = n at *
  rw [if_neg (by omega), if_neg (by omega), if_neg (by omega), if_pos (by omega),
    leb128_of_le (by omega), leb128_of_le (by omega), leb128_of_le (by omega),
    leb128_of_lt (by omega), List.tail_cons]
  simp only [Nat.div_div_eq_div_mul, Nat.reduceMul, Nat.reducePow]

/-- At `2^21`, `writeVarint32` drops the first byte of LEB128. -/
theorem varint32Bytes_eq_tail_leb128_two_pow_21 :
    varint32Bytes 2097152 = (leb128 2097152).tail :=
  varint32Bytes_eq_tail_leb128 2097152 ⟨by decide, by decide⟩

/-- The smallest value of the defective branch: `writeVarint32(2^21)` writes three bytes where
LEB128 (and `writeVarint64`) write four. -/
theorem varint32Bytes_two_pow_21 :
    varint32Bytes 2097152 = [128, 128, 1] ∧ leb128 2097152 = [128, 128, 128, 1] := by
  refine ⟨by decide, ?_⟩
  rw [leb128_of_le (by decide), leb128_of_le (by decide), leb128_of_le (by decide),
    leb128_of_lt (by decide)]
  rfl

/-! ## Fixed-width round trips -/

theorem int32Value_int32Bytes (v : UInt32) : int32Value (int32Bytes v) = v := by
  apply UInt32.toNat.inj
  have hv : v.toNat < 2 ^ 32 := v.toNat_lt_size
  simp (disch := decide) only [int32Value, int32Bytes, List.getD_cons_zero, List.getD_cons_succ,
    u32_toNat_or, u32_shiftLeft_lit, u8_toNat_toUInt32, u32_toNat_toUInt8, u32_shiftRight_lit]
  generalize v.toNat = n at *
  simp (disch := decide) only [byte_mul_two_pow_mod]
  rw [show n % 256 = n % 2 ^ 8 from rfl, mod_or_byte n (m := 16) rfl, mod_or_byte n (m := 24) rfl,
    mod_or_byte n (m := 32) rfl, Nat.mod_eq_of_lt hv]

theorem int64Value_int64Bytes (v : UInt64) : int64Value (int64Bytes v) = v := by
  apply UInt64.toNat.inj
  have hv : v.toNat < 2 ^ 64 := v.toNat_lt_size
  simp (disch := decide) only [int64Value, int64Bytes, List.getD_cons_zero, List.getD_cons_succ,
    u64_toNat_or, u64_shiftLeft_lit, u8_toNat_toUInt64, u64_toNat_toUInt8, u64_shiftRight_lit]
  generalize v.toNat = n at *
  simp (disch := decide) only [byte_mul_two_pow_mod]
  rw [show n % 256 = n % 2 ^ 8 from rfl, mod_or_byte n (m := 16) rfl, mod_or_byte n (m := 24) rfl,
    mod_or_byte n (m := 32) rfl, mod_or_byte n (m := 40) rfl, mod_or_byte n (m := 48) rfl,
    mod_or_byte n (m := 56) rfl, mod_or_byte n (m := 64) rfl, Nat.mod_eq_of_lt hv]

end Lucanthrope
