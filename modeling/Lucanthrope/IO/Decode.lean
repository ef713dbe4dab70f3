import Lucanthrope.IO.InputSpec
import Mathlib.Algebra.BigOperators.Group.Finset
import Mathlib.Data.Nat.Bitwise
import Mathlib.Tactic.Ring

/-!
# The typed readers on the bytes they are given

`readInt32`, `readInt64`, `readVarint32`, `readVarint64` and `readString` read their field off
the front of the stream. This file says what each returns and how many bytes it takes, as a
function of `S = remaining src s`, the bytes the stream has still to deliver (`InputSpec.lean`).

The varint loop is first run on a list: `varintDecode w fuel i ret S` is `varintLoop` with the
bytes it would be given, and `varintLoop_reads`/`varintLoop_none` connect the two. Two
descriptions of `varintDecode` follow:

* `varintDecode_eq_varintSpec`: it is `varintSpec`, the reading of a varint in the words of
  the specification: `k` is one plus the index of the first byte with the high bit clear, if
  that byte is among the first `min(kMax, |S|)`, and the value is
  `∑ i < k, (S[i] & 0x7F) * 2^(7i)` modulo `2^w`;
* `varintDecode_leb128`: on `leb128 n` followed by anything it returns `n` and takes the
  encoding, for `n < 2^w` whose encoding fits in `kMax` bytes.

> `decoders_spec`: for a class that supplies `S` exactly, each typed reader returns the value
> of its field and takes exactly its bytes, or throws `IndexCorruption` with its message when
> `S` ends inside the field (or, for a varint, has no last byte among its first `kMax`).

Inside the data, where a reader ends before the bytes do, `Supplies` alone is needed
(`readInt32_reads`, `readVarint32_reads`, ...): `InputCalls.lean` builds on those.
-/

namespace Lucanthrope

/-! ## Bits -/

section Bits

theorem u8_and_128_eq_zero (b : UInt8) : b &&& 128 = 0 ↔ b.toNat < 128 := by
  have hb : b.toNat < 256 := b.toNat_lt_size
  have hand : b.toNat &&& 128 = (b.toNat.testBit 7).toNat * 128 :=
    Nat.and_two_pow b.toNat 7
  have key : b &&& 128 = 0 ↔ (b &&& 128).toNat = 0 :=
    ⟨fun h => by rw [h]; rfl, fun h => UInt8.toNat.inj h⟩
  rw [key, UInt8.and_toNat]
  show b.toNat &&& 128 = 0 ↔ b.toNat < 128
  rw [hand, Nat.testBit_to_div_mod]
  show (decide (b.toNat / 128 % 2 = 1)).toNat * 128 = 0 ↔ _
  by_cases h : b.toNat < 128
  · simp [Nat.div_eq_of_lt h, h]
  · have : b.toNat / 128 = 1 := by omega
    simp [this, h]

theorem u8_and_127_toNat (b : UInt8) : (b &&& 0x7f).toNat = b.toNat % 128 := by
  rw [UInt8.and_toNat]
  exact Nat.and_pow_two_sub_one_eq_mod b.toNat 7

/-- `ret |= (d << k)` in `w` bits, with `ret` below `2 ^ k`, is an addition modulo `2 ^ w`. -/
theorem or_shift_mod {ret k w : Nat} (d : Nat) (hret : ret < 2 ^ k) (hk : k ≤ w) :
    ret ||| (d <<< k) % 2 ^ w = (ret + d * 2 ^ k) % 2 ^ w := by
  have hw : 2 ^ w = 2 ^ (w - k) * 2 ^ k := by rw [← Nat.pow_add, Nat.sub_add_cancel hk]
  have hm := Nat.mod_lt d (Nat.two_pow_pos (w - k))
  have hlt : ret + d % 2 ^ (w - k) * 2 ^ k < 2 ^ (w - k) * 2 ^ k :=
    calc ret + d % 2 ^ (w - k) * 2 ^ k < (d % 2 ^ (w - k) + 1) * 2 ^ k := by
          rw [Nat.add_mul, Nat.one_mul]; omega
      _ ≤ 2 ^ (w - k) * 2 ^ k := Nat.mul_le_mul_right _ hm
  have hsplit : ret + d * 2 ^ k = ret + d % 2 ^ (w - k) * 2 ^ k + d / 2 ^ (w - k) * (2 ^ (w - k) * 2 ^ k) := by
    conv_lhs => rw [← Nat.mod_add_div d (2 ^ (w - k))]
    ring
  rw [Nat.shiftLeft_eq, hw, Nat.mul_mod_mul_right, or_mul_two_pow hret, hsplit,
    Nat.add_mul_mod_self_right, Nat.mod_eq_of_lt hlt]

end Bits

namespace IndexInput

/-! ## The varint loop on a list -/

/-- `varintLoop` on the bytes `S` it is given: the value and the number of bytes taken, or
`none` where the loop ends without a byte that has the high bit clear. -/
def varintDecode (w : Nat) : Nat → Nat → Nat → List UInt8 → Option (Nat × Nat)
  | 0, _, _, _ => none
  | _ + 1, _, _, [] => none
  | fuel + 1, i, ret, b :: bs =>
    let ret := ret ||| ((b.toNat &&& 0x7f) <<< (7 * i)) % 2 ^ w
    if b &&& 128 = 0 then some (ret, 1)
    else (varintDecode w fuel (i + 1) ret bs).map fun r => (r.1, r.2 + 1)

/-- The index of the first byte of `S` with the high bit clear, `S.length` if there is none. -/
def endIdx (S : List UInt8) : Nat :=
  S.findIdx fun b => b &&& 128 = 0

/-- The reading of a varint in the words of the specification: the value and the number of
bytes taken, or `none` for `IndexCorruption`. -/
def varintSpec (kMax w : Nat) (S : List UInt8) : Option (Nat × Nat) :=
  if endIdx S < min kMax S.length then
    some ((∑ i in Finset.range (endIdx S + 1), ((S.getD i 0) &&& 0x7f).toNat * 2 ^ (7 * i)) %
      2 ^ w, endIdx S + 1)
  else none

theorem endIdx_cons (b : UInt8) (bs : List UInt8) :
    endIdx (b :: bs) = if b &&& 128 = 0 then 0 else endIdx bs + 1 := by
  simp only [endIdx, List.findIdx_cons]
  split <;> simp_all

/-- The group sum of the bytes `S`, the first one at group `i`. -/
def groupSum (S : List UInt8) (i k : Nat) : Nat :=
  ∑ t in Finset.range k, ((S.getD t 0) &&& 0x7f).toNat * 2 ^ (7 * (i + t))

theorem groupSum_cons (b : UInt8) (bs : List UInt8) (i k : Nat) :
    groupSum (b :: bs) i (k + 1) = groupSum bs (i + 1) k + (b &&& 0x7f).toNat * 2 ^ (7 * i) := by
  simp only [groupSum, Finset.sum_range_succ', List.getD_cons_succ, List.getD_cons_zero,
    Nat.add_zero, Nat.add_succ, Nat.succ_add]

/-- One step of the loop: the group of `b` added to a value below `2 ^ (7 * i)`. -/
theorem varint_step {ret i w : Nat} (b : UInt8) (hret : ret < 2 ^ (7 * i)) (hi : 7 * i ≤ w) :
    ret ||| ((b.toNat &&& 0x7f) <<< (7 * i)) % 2 ^ w =
      (ret + (b &&& 0x7f).toNat * 2 ^ (7 * i)) % 2 ^ w := by
  rw [UInt8.and_toNat]
  exact or_shift_mod _ hret hi

theorem varint_step_lt {ret i w : Nat} (b : UInt8) (hret : ret < 2 ^ (7 * i)) :
    (ret + (b &&& 0x7f).toNat * 2 ^ (7 * i)) % 2 ^ w < 2 ^ (7 * (i + 1)) := by
  have hd : (b &&& 0x7f).toNat ≤ 127 := by rw [u8_and_127_toNat]; omega
  have : (ret + (b &&& 0x7f).toNat * 2 ^ (7 * i)) < 2 ^ (7 * (i + 1)) := by
    rw [show 7 * (i + 1) = 7 * i + 7 by omega, Nat.pow_add]
    have := Nat.mul_le_mul_right (2 ^ (7 * i)) hd
    omega
  exact lt_of_le_of_lt (Nat.mod_le _ _) this

theorem varintDecode_eq (w : Nat) :
    ∀ (fuel i ret : Nat) (S : List UInt8), ret < 2 ^ (7 * i) → 7 * (i + fuel) < w + 7 →
      varintDecode w fuel i ret S =
        if endIdx S < min fuel S.length then
          some ((ret + groupSum S i (endIdx S + 1)) % 2 ^ w, endIdx S + 1)
        else none
  | 0, _, _, _, _, _ => by simp [varintDecode]
  | _ + 1, _, _, [], _, _ => by simp [varintDecode]
  | fuel + 1, i, ret, b :: bs, hret, hw => by
    have hi : 7 * i ≤ w := by omega
    simp only [varintDecode, varint_step b hret hi, endIdx_cons]
    split_ifs with hb h₁ h₂
    · rw [groupSum_cons, groupSum, Finset.sum_range_zero, Nat.zero_add]
    · exact h₁ (Nat.lt_min.2 ⟨Nat.succ_pos _, Nat.succ_pos _⟩)
    · rw [varintDecode_eq w fuel (i + 1) _ bs (varint_step_lt b hret) (by omega)]
      simp only [List.length_cons, Nat.add_lt_add_iff_right, Nat.add_min_add_right] at h₂
      rw [if_pos h₂, Option.map_some', groupSum_cons, Nat.mod_add_mod, Nat.add_assoc,
        Nat.add_comm ((b &&& 127).toNat * _)]
    · rw [varintDecode_eq w fuel (i + 1) _ bs (varint_step_lt b hret) (by omega)]
      simp only [List.length_cons, Nat.add_lt_add_iff_right, Nat.add_min_add_right] at h₂
      rw [if_neg h₂]
      rfl

theorem varintDecode_eq_varintSpec {kMax w : Nat} (hw : 7 * kMax < w + 7) (S : List UInt8) :
    varintDecode w kMax 0 0 S = varintSpec kMax w S := by
  rw [varintDecode_eq w kMax 0 0 S (by simp) (by simpa using hw), varintSpec]
  simp [groupSum]

theorem varintDecode_leb128 (w : Nat) (T : List UInt8) :
    ∀ (n fuel i ret : Nat), ret < 2 ^ (7 * i) → (leb128 n).length ≤ fuel →
      7 * (i + fuel) < w + 7 →
      varintDecode w fuel i ret (leb128 n ++ T) =
        some ((ret + n * 2 ^ (7 * i)) % 2 ^ w, (leb128 n).length) := by
  intro n
  induction n using leb128.induct with
  | case1 n hn =>
    intro fuel i ret hret hlen hw
    rw [leb128_of_lt hn] at hlen ⊢
    cases fuel with
    | zero => simp at hlen
    | succ fuel =>
      have hbyte : n.toUInt8.toNat = n := by rw [toNat_toUInt8]; omega
      have hb : n.toUInt8 &&& 128 = 0 := (u8_and_128_eq_zero _).2 (by omega)
      simp only [List.singleton_append, varintDecode, hb, if_true, List.length_singleton]
      rw [varint_step _ hret (by omega), u8_and_127_toNat, hbyte, Nat.mod_eq_of_lt hn]
  | case2 n hn ih =>
    intro fuel i ret hret hlen hw
    rw [leb128_of_le (Nat.le_of_not_lt hn)] at hlen ⊢
    cases fuel with
    | zero => simp at hlen
    | succ fuel =>
      have hbyte : (n % 128 + 128).toUInt8.toNat = n % 128 + 128 := by
        rw [toNat_toUInt8]; omega
      have hb : ¬(n % 128 + 128).toUInt8 &&& 128 = 0 := by
        rw [u8_and_128_eq_zero, hbyte]; omega
      simp only [List.cons_append, varintDecode, if_neg hb, List.length_cons, List.append_eq]
      rw [varint_step _ hret (by omega),
        ih fuel (i + 1) _ (varint_step_lt _ hret) (by simpa using hlen) (by omega),
        Option.map_some', Nat.mod_add_mod, u8_and_127_toNat, hbyte, Nat.add_mod_right,
        Nat.mod_mod]
      have hsplit : n % 128 * 2 ^ (7 * i) + n / 128 * 2 ^ (7 * (i + 1)) = n * 2 ^ (7 * i) := by
        conv_rhs => rw [← Nat.mod_add_div n 128]
        rw [show 7 * (i + 1) = 7 * i + 7 by omega, Nat.pow_add]
        ring
      rw [Nat.add_assoc, hsplit]

theorem varintDecode32_eq (S : List UInt8) :
    varintDecode 32 kMaxVarintLength32 0 0 S = varintSpec kMaxVarintLength32 32 S :=
  varintDecode_eq_varintSpec (by decide) S

theorem varintDecode64_eq (S : List UInt8) :
    varintDecode 64 kMaxVarintLength64 0 0 S = varintSpec kMaxVarintLength64 64 S :=
  varintDecode_eq_varintSpec (by decide) S

theorem varintSpec_some {kMax w : Nat} {S : List UInt8} {v k : Nat}
    (h : varintSpec kMax w S = some (v, k)) : v < 2 ^ w ∧ k ≤ S.length := by
  unfold varintSpec at h
  split_ifs at h with hlt
  cases h
  exact ⟨Nat.mod_lt _ (Nat.two_pow_pos w), by omega⟩

/-! ## Fixed-width values -/

/-- The little-endian value of the first `n` bytes of `b`. -/
def littleEndian (n : Nat) (b : List UInt8) : Nat :=
  ∑ i in Finset.range n, (b.getD i 0).toNat * 256 ^ i

theorem littleEndian_take {n : Nat} (b : List UInt8) : littleEndian n (b.take n) = littleEndian n b :=
  Finset.sum_congr rfl fun i hi => by
    rw [Finset.mem_range] at hi
    simp [List.getD_eq_getElem?_getD, List.getElem?_take, hi]

/-- `acc | (y << k)` in `w` bits, with `acc` below bit `k` and the byte `y` fitting, is a sum. -/
theorem or_byte_shift {acc y k w : Nat} (hacc : acc < 2 ^ k) (hy : y < 256) (hw : k + 8 ≤ w) :
    acc ||| y * 2 ^ k % 2 ^ w = acc + y * 2 ^ k := by
  rw [Nat.mod_eq_of_lt (byte_mul_two_pow_lt hy hw), or_mul_two_pow hacc]

theorem int32Value_eq (b : List UInt8) : int32Value b = UInt32.ofNat (littleEndian 4 b) := by
  apply UInt32.toNat.inj
  have h0 : (b.getD 0 0).toNat < 256 := (b.getD 0 0).toNat_lt_size
  have h1 : (b.getD 1 0).toNat < 256 := (b.getD 1 0).toNat_lt_size
  have h2 : (b.getD 2 0).toNat < 256 := (b.getD 2 0).toNat_lt_size
  have h3 : (b.getD 3 0).toNat < 256 := (b.getD 3 0).toNat_lt_size
  simp (disch := decide) only [int32Value, u32_toNat_or, u32_shiftLeft_lit, u8_toNat_toUInt32]
  simp only [littleEndian, Finset.sum_range_succ, Finset.sum_range_zero]
  rw [UInt32.toNat_ofNat_of_lt (by show _ < 2 ^ 32; omega),
    or_byte_shift (k := 8) (by omega) h1 (by omega), or_byte_shift (k := 16) (by omega) h2 (by omega),
    or_byte_shift (k := 24) (by omega) h3 (by omega)]
  omega

theorem int64Value_eq (b : List UInt8) : int64Value b = UInt64.ofNat (littleEndian 8 b) := by
  apply UInt64.toNat.inj
  have h0 : (b.getD 0 0).toNat < 256 := (b.getD 0 0).toNat_lt_size
  have h1 : (b.getD 1 0).toNat < 256 := (b.getD 1 0).toNat_lt_size
  have h2 : (b.getD 2 0).toNat < 256 := (b.getD 2 0).toNat_lt_size
  have h3 : (b.getD 3 0).toNat < 256 := (b.getD 3 0).toNat_lt_size
  have h4 : (b.getD 4 0).toNat < 256 := (b.getD 4 0).toNat_lt_size
  have h5 : (b.getD 5 0).toNat < 256 := (b.getD 5 0).toNat_lt_size
  have h6 : (b.getD 6 0).toNat < 256 := (b.getD 6 0).toNat_lt_size
  have h7 : (b.getD 7 0).toNat < 256 := (b.getD 7 0).toNat_lt_size
  simp (disch := decide) only [int64Value, u64_toNat_or, u64_shiftLeft_lit, u8_toNat_toUInt64]
  simp only [littleEndian, Finset.sum_range_succ, Finset.sum_range_zero]
  rw [UInt64.toNat_ofNat_of_lt (by show _ < 2 ^ 64; omega),
    or_byte_shift (k := 8) (by omega) h1 (by omega), or_byte_shift (k := 16) (by omega) h2 (by omega),
    or_byte_shift (k := 24) (by omega) h3 (by omega), or_byte_shift (k := 32) (by omega) h4 (by omega),
    or_byte_shift (k := 40) (by omega) h5 (by omega), or_byte_shift (k := 48) (by omega) h6 (by omega),
    or_byte_shift (k := 56) (by omega) h7 (by omega)]
  omega

/-! ## The readers on a stream -/

section Readers

variable {σ : Type} {impl : InputImpl σ} {I : IndexInput σ → Prop} {src : IndexInput σ → List UInt8}
  {s : IndexInput σ}

theorem varintLoop_reads (hs : Supplies impl I src) {w : Nat} :
    ∀ {fuel i ret v k : Nat} {s : IndexInput σ}, I s →
      varintDecode w fuel i ret (remaining src s) = some (v, k) →
      Reads I src (varintLoop impl w fuel i ret) s (some v) k
  | 0, _, _, _, _, _, _, hd => by simp [varintDecode] at hd
  | fuel + 1, i, ret, v, k, s, h, hd => by
    cases hr : remaining src s with
    | nil => rw [hr] at hd; simp [varintDecode] at hd
    | cons b T =>
      rw [hr] at hd
      obtain ⟨s₁, he, h₁, -, hr₁, hp₁⟩ := eof_false hs h (by simp [hr])
      obtain ⟨s₂, hb, h₂, -, hr₂, hp₂⟩ := readByte_reads hs h₁ (hr₁.trans hr)
      rw [hr₁, hr, List.drop_one, List.tail_cons] at hr₂
      simp only [varintDecode] at hd
      split_ifs at hd with hbit
      · cases hd
        refine ⟨s₂, ?_, h₂, by simp [hr], by rw [hr₂, hr]; rfl, by omega⟩
        simp [varintLoop, he, hb, hbit]
      · obtain ⟨⟨v', k'⟩, hd', hvk⟩ := Option.map_eq_some'.1 hd
        cases hvk
        obtain ⟨s₃, hl, h₃, hk₃, hr₃, hp₃⟩ := varintLoop_reads hs h₂ (hr₂ ▸ hd')
        rw [hr₂] at hk₃ hr₃
        refine ⟨s₃, ?_, h₃, by simp [hr]; omega, by rw [hr₃, hr]; rfl, by omega⟩
        simp [varintLoop, he, hb, hbit, hl]

theorem varintLoop_none (hs : Supplies impl I src) (hend : FillEnds impl I src) {w : Nat} :
    ∀ {fuel i ret : Nat} {s : IndexInput σ}, I s →
      varintDecode w fuel i ret (remaining src s) = none →
      ∃ s', varintLoop impl w fuel i ret s = .ok none s'
  | 0, _, _, s, _, _ => ⟨s, rfl⟩
  | fuel + 1, i, ret, s, h, hd => by
    cases hr : remaining src s with
    | nil =>
      obtain ⟨s₁, he, -⟩ := eof_true hs hend h hr
      exact ⟨s₁, by simp [varintLoop, he]⟩
    | cons b T =>
      rw [hr] at hd
      obtain ⟨s₁, he, h₁, -, hr₁, -⟩ := eof_false hs h (by simp [hr])
      obtain ⟨s₂, hb, h₂, -, hr₂, -⟩ := readByte_reads hs h₁ (hr₁.trans hr)
      rw [hr₁, hr, List.drop_one, List.tail_cons] at hr₂
      simp only [varintDecode] at hd
      split_ifs at hd with hbit
      obtain ⟨s₃, hl⟩ := varintLoop_none hs hend h₂ (hr₂ ▸ Option.map_eq_none'.1 hd)
      exact ⟨s₃, by simp [varintLoop, he, hb, hbit, hl]⟩

theorem readVarint_reads (hs : Supplies impl I src) (h : I s) {w kMax v k : Nat} {msg : String}
    (hd : varintDecode w kMax 0 0 (remaining src s) = some (v, k)) :
    Reads I src (readVarint impl w kMax msg) s v k := by
  obtain ⟨s', hl, h'⟩ := varintLoop_reads hs h hd
  exact ⟨s', by simp [readVarint, hl], h'⟩

theorem readVarint_corrupt (hs : Supplies impl I src) (hend : FillEnds impl I src) (h : I s)
    {w kMax : Nat} {msg : String} (hd : varintDecode w kMax 0 0 (remaining src s) = none) :
    Corrupt (readVarint impl w kMax msg) s msg := by
  obtain ⟨s', hl⟩ := varintLoop_none hs hend h hd
  exact ⟨s', by simp [readVarint, hl]⟩

theorem readBytes_reads (hs : Supplies impl I src) :
    ∀ (n : Nat) {s : IndexInput σ}, I s → n ≤ (remaining src s).length →
      Reads I src (readBytes impl n) s ((remaining src s).take n) n
  | 0, s, h, _ => by rw [List.take_zero]; exact Reads.pure h []
  | n + 1, s, h, hn => by
    cases hr : remaining src s with
    | nil => rw [hr] at hn; simp at hn
    | cons b T =>
      rw [hr] at hn
      obtain ⟨s₁, hb, h₁, -, hr₁, hp₁⟩ := readByte_reads hs h hr
      rw [hr, List.drop_one, List.tail_cons] at hr₁
      obtain ⟨s₂, hbs, h₂, hk₂, hr₂, hp₂⟩ := readBytes_reads hs n h₁ (by rw [hr₁]; simpa using hn)
      rw [hr₁] at hbs hk₂ hr₂
      refine ⟨s₂, ?_, h₂, by rw [hr]; simpa using hn, by rw [hr₂, hr]; rfl, by omega⟩
      simp [readBytes, hb, hbs, hr]

theorem readBytes_corrupt (hs : Supplies impl I src) (hend : FillEnds impl I src) :
    ∀ (n : Nat) {s : IndexInput σ}, I s → (remaining src s).length < n →
      Corrupt (readBytes impl n) s readByteEofMsg
  | 0, _, _, hn => absurd hn (Nat.not_lt_zero _)
  | n + 1, s, h, hn => by
    cases hr : remaining src s with
    | nil =>
      obtain ⟨s', he⟩ := readByte_corrupt hs hend h hr
      exact ⟨s', by simp [readBytes, he]; rfl⟩
    | cons b T =>
      rw [hr] at hn
      obtain ⟨s₁, hb, h₁, -, hr₁, -⟩ := readByte_reads hs h hr
      rw [hr, List.drop_one, List.tail_cons] at hr₁
      obtain ⟨s₂, hbs⟩ := readBytes_corrupt hs hend n h₁ (by rw [hr₁]; simpa using hn)
      exact ⟨s₂, by simp [readBytes, hb, hbs]⟩

theorem readFixed_reads (hs : Supplies impl I src) (h : I s) {n : Nat} {msg : String}
    (hn : n ≤ (remaining src s).length) :
    Reads I src (readFixed impl n msg) s ((remaining src s).take n) n := by
  obtain ⟨s', hr, h'⟩ := read_reads hs h (.inl hn)
  rw [min_eq_left hn] at h'
  have hlen : ((remaining src s).take n).length = n := by simp; omega
  exact ⟨s', by simp [readFixed, hr, hlen], h'⟩

theorem readFixed_corrupt (hs : Supplies impl I src) (hend : FillEnds impl I src) (h : I s)
    {n : Nat} {msg : String} (hn : (remaining src s).length < n) :
    Corrupt (readFixed impl n msg) s msg := by
  obtain ⟨s', hr, -⟩ := read_reads hs h (n := n) (.inr hend)
  have hlen : ((remaining src s).take n).length < n := by simp; omega
  exact ⟨s', by simp [readFixed, hr, hn]⟩

theorem readString_reads (hs : Supplies impl I src) (h : I s) {len k : Nat}
    (hd : varintDecode 32 kMaxVarintLength32 0 0 (remaining src s) = some (len, k))
    (hlen : len ≤ (remaining src s).length - k) :
    Reads I src (readString impl) s (((remaining src s).drop k).take len) (k + len) := by
  have hlt := (varintSpec_some (varintDecode32_eq _ ▸ hd)).1
  refine ((readVarint_reads hs h hd).map UInt32.ofNat).bind fun s' h' hr' => ?_
  rw [UInt32.toNat_ofNat_of_lt hlt, ← hr']
  exact readBytes_reads hs len h' (by rw [hr']; simp; omega)

theorem readString_corrupt_varint (hs : Supplies impl I src) (hend : FillEnds impl I src)
    (h : I s) (hd : varintDecode 32 kMaxVarintLength32 0 0 (remaining src s) = none) :
    Corrupt (readString impl) s "in IndexInput::readVarint32(): cannot parse varint" :=
  ((readVarint_corrupt hs hend h hd).map UInt32.ofNat).bind

theorem readString_corrupt_bytes (hs : Supplies impl I src) (hend : FillEnds impl I src)
    (h : I s) {len k : Nat}
    (hd : varintDecode 32 kMaxVarintLength32 0 0 (remaining src s) = some (len, k))
    (hlen : (remaining src s).length - k < len) :
    Corrupt (readString impl) s readByteEofMsg := by
  have hlt := (varintSpec_some (varintDecode32_eq _ ▸ hd)).1
  refine ((readVarint_reads hs h hd).map UInt32.ofNat).bind_corrupt fun s' h' hr' => ?_
  rw [UInt32.toNat_ofNat_of_lt hlt]
  exact readBytes_corrupt hs hend len h' (by rw [hr']; simp; omega)

/-! ## The typed readers -/

/-! Inside the data each reader needs only `Supplies`. -/

theorem readVarint32_reads (hs : Supplies impl I src) (h : I s) {v k : Nat}
    (hv : varintSpec kMaxVarintLength32 32 (remaining src s) = some (v, k)) :
    Reads I src (readVarint32 impl) s (UInt32.ofNat v) k :=
  (readVarint_reads hs h ((varintDecode32_eq _).trans hv)).map _

theorem readVarint64_reads (hs : Supplies impl I src) (h : I s) {v k : Nat}
    (hv : varintSpec kMaxVarintLength64 64 (remaining src s) = some (v, k)) :
    Reads I src (readVarint64 impl) s (UInt64.ofNat v) k :=
  (readVarint_reads hs h ((varintDecode64_eq _).trans hv)).map _

theorem readInt32_reads (hs : Supplies impl I src) (h : I s) (hn : 4 ≤ (remaining src s).length) :
    Reads I src (readInt32 impl) s (UInt32.ofNat (littleEndian 4 (remaining src s))) 4 := by
  rw [← littleEndian_take, ← int32Value_eq]
  exact (readFixed_reads hs h hn).map _

theorem readInt64_reads (hs : Supplies impl I src) (h : I s) (hn : 8 ≤ (remaining src s).length) :
    Reads I src (readInt64 impl) s (UInt64.ofNat (littleEndian 8 (remaining src s))) 8 := by
  rw [← littleEndian_take, ← int64Value_eq]
  exact (readFixed_reads hs h hn).map _

theorem readVarint32_spec (hs : Supplies impl I src) (hend : FillEnds impl I src) (h : I s) :
    match varintSpec kMaxVarintLength32 32 (remaining src s) with
    | some (v, k) => Reads I src (readVarint32 impl) s (UInt32.ofNat v) k
    | none => Corrupt (readVarint32 impl) s "in IndexInput::readVarint32(): cannot parse varint" := by
  split
  · exact readVarint32_reads hs h ‹_›
  · exact (readVarint_corrupt hs hend h ((varintDecode32_eq _).trans ‹_›)).map _

theorem readVarint64_spec (hs : Supplies impl I src) (hend : FillEnds impl I src) (h : I s) :
    match varintSpec kMaxVarintLength64 64 (remaining src s) with
    | some (v, k) => Reads I src (readVarint64 impl) s (UInt64.ofNat v) k
    | none => Corrupt (readVarint64 impl) s "in IndexInput::readVarint64(): cannot parse varint" := by
  split
  · exact readVarint64_reads hs h ‹_›
  · exact (readVarint_corrupt hs hend h ((varintDecode64_eq _).trans ‹_›)).map _

theorem readInt32_spec (hs : Supplies impl I src) (hend : FillEnds impl I src) (h : I s) :
    if 4 ≤ (remaining src s).length then
      Reads I src (readInt32 impl) s (UInt32.ofNat (littleEndian 4 (remaining src s))) 4
    else
      Corrupt (readInt32 impl) s "in IndexInput::readInt32(): cannot read an int, EOF is reached" := by
  split
  · exact readInt32_reads hs h ‹_›
  · exact (readFixed_corrupt hs hend h (by omega)).map _

/-- `readInt64` reports a short read with the message of `readInt32`. -/
theorem readInt64_spec (hs : Supplies impl I src) (hend : FillEnds impl I src) (h : I s) :
    if 8 ≤ (remaining src s).length then
      Reads I src (readInt64 impl) s (UInt64.ofNat (littleEndian 8 (remaining src s))) 8
    else
      Corrupt (readInt64 impl) s "in IndexInput::readInt32(): cannot read an int, EOF is reached" := by
  split
  · exact readInt64_reads hs h ‹_›
  · exact (readFixed_corrupt hs hend h (by omega)).map _

theorem readString_spec (hs : Supplies impl I src) (hend : FillEnds impl I src) (h : I s) :
    match varintSpec kMaxVarintLength32 32 (remaining src s) with
    | some (len, k) =>
      if len ≤ (remaining src s).length - k then
        Reads I src (readString impl) s (((remaining src s).drop k).take len) (k + len)
      else Corrupt (readString impl) s readByteEofMsg
    | none => Corrupt (readString impl) s "in IndexInput::readVarint32(): cannot parse varint" := by
  rw [← varintDecode32_eq]
  split
  · split
    · exact readString_reads hs h ‹_› ‹_›
    · exact readString_corrupt_bytes hs hend h ‹_› (by omega)
  · exact readString_corrupt_varint hs hend h ‹_›

/-- For a class that supplies `src` exactly, each typed reader returns its field's value and takes
exactly its bytes, or throws `IndexCorruption` when the bytes end inside the field. -/
theorem decoders_spec (hs : Supplies impl I src) (hend : FillEnds impl I src) (h : I s) :
    (match varintSpec kMaxVarintLength32 32 (remaining src s) with
      | some (v, k) => Reads I src (readVarint32 impl) s (UInt32.ofNat v) k
      | none => Corrupt (readVarint32 impl) s "in IndexInput::readVarint32(): cannot parse varint") ∧
    (match varintSpec kMaxVarintLength64 64 (remaining src s) with
      | some (v, k) => Reads I src (readVarint64 impl) s (UInt64.ofNat v) k
      | none => Corrupt (readVarint64 impl) s "in IndexInput::readVarint64(): cannot parse varint") ∧
    (if 4 ≤ (remaining src s).length then
      Reads I src (readInt32 impl) s (UInt32.ofNat (littleEndian 4 (remaining src s))) 4
    else
      Corrupt (readInt32 impl) s "in IndexInput::readInt32(): cannot read an int, EOF is reached") ∧
    (if 8 ≤ (remaining src s).length then
      Reads I src (readInt64 impl) s (UInt64.ofNat (littleEndian 8 (remaining src s))) 8
    else
      Corrupt (readInt64 impl) s "in IndexInput::readInt32(): cannot read an int, EOF is reached") ∧
    (match varintSpec kMaxVarintLength32 32 (remaining src s) with
      | some (len, k) =>
        if len ≤ (remaining src s).length - k then
          Reads I src (readString impl) s (((remaining src s).drop k).take len) (k + len)
        else Corrupt (readString impl) s readByteEofMsg
      | none => Corrupt (readString impl) s "in IndexInput::readVarint32(): cannot parse varint") :=
  ⟨readVarint32_spec hs hend h, readVarint64_spec hs hend h, readInt32_spec hs hend h,
    readInt64_spec hs hend h, readString_spec hs hend h⟩

/-- `decoders_spec` on a `listInput` stream holding the varint `150`, `[0x96, 0x01]`. -/
theorem decoders_spec_listInput :
    (match varintSpec kMaxVarintLength32 32 [0x96, 0x01] with
      | some (v, k) => Reads listInv (·.own) (readVarint32 listInput)
          (create Heap.zero [0x96, 0x01]) (UInt32.ofNat v) k
      | none => Corrupt (readVarint32 listInput) (create Heap.zero [0x96, 0x01])
          "in IndexInput::readVarint32(): cannot parse varint") ∧
    (match varintSpec kMaxVarintLength64 64 [0x96, 0x01] with
      | some (v, k) => Reads listInv (·.own) (readVarint64 listInput)
          (create Heap.zero [0x96, 0x01]) (UInt64.ofNat v) k
      | none => Corrupt (readVarint64 listInput) (create Heap.zero [0x96, 0x01])
          "in IndexInput::readVarint64(): cannot parse varint") ∧
    (if 4 ≤ [(0x96 : UInt8), 0x01].length then
      Reads listInv (·.own) (readInt32 listInput) (create Heap.zero [0x96, 0x01])
        (UInt32.ofNat (littleEndian 4 [0x96, 0x01])) 4
    else
      Corrupt (readInt32 listInput) (create Heap.zero [0x96, 0x01])
        "in IndexInput::readInt32(): cannot read an int, EOF is reached") ∧
    (if 8 ≤ [(0x96 : UInt8), 0x01].length then
      Reads listInv (·.own) (readInt64 listInput) (create Heap.zero [0x96, 0x01])
        (UInt64.ofNat (littleEndian 8 [0x96, 0x01])) 8
    else
      Corrupt (readInt64 listInput) (create Heap.zero [0x96, 0x01])
        "in IndexInput::readInt32(): cannot read an int, EOF is reached") ∧
    (match varintSpec kMaxVarintLength32 32 [0x96, 0x01] with
      | some (len, k) =>
        if len ≤ [(0x96 : UInt8), 0x01].length - k then
          Reads listInv (·.own) (readString listInput) (create Heap.zero [0x96, 0x01])
            (([0x96, 0x01].drop k).take len) (k + len)
        else Corrupt (readString listInput) (create Heap.zero [0x96, 0x01]) readByteEofMsg
      | none => Corrupt (readString listInput) (create Heap.zero [0x96, 0x01])
          "in IndexInput::readVarint32(): cannot parse varint") :=
  decoders_spec (s := create Heap.zero [0x96, 0x01]) listInput_supplies listInput_fillEnds
    ⟨⟨le_refl _, fun h => absurd rfl h⟩, fun h => absurd rfl h⟩

end Readers

end IndexInput

end Lucanthrope
