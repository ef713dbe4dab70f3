import Lucanthrope.IO.OutputRuns
import Lucanthrope.IO.InputCalls

/-!
# Typed values written and read back

A `Value` is what the typed writers of `IndexOutput` take and the typed readers of `IndexInput`
return: a byte, a byte string, a fixed-width or a varint integer. `Value.write` is the call that
writes it, `Value.bytes` the bytes that call hands the stream, `Value.read` the call that reads
it and `Value.result` what that call returns for it.

Every value reads back from its bytes, except where `writeVarint32` gets the bytes wrong: a
varint32 in `[2^21, 2^28)` (`varint32Bytes_eq_tail_leb128`), and a string whose length is there,
since `writeString` writes its length with `writeVarint32`. A string of `2^32` bytes or more is
written with its length cut to `uint32_t`. `Value.readable` excludes those, and

> `readValues_inside`: the bytes of a sequence of readable values, followed by anything, read
> back as those values, each read taking exactly the bytes of its value.
-/

namespace Lucanthrope

/-- A value of the data interface. -/
inductive Value where
  | byte (b : UInt8)
  | string (str : List UInt8)
  | int32 (v : UInt32)
  | int64 (v : UInt64)
  | varint32 (v : UInt32)
  | varint64 (v : UInt64)
  deriving DecidableEq, Repr

namespace Value

/-- The call of `IndexOutput` that writes the value. -/
def write : Value → IndexOutput.Call
  | .byte b => .writeByte b
  | .string str => .writeString str
  | .int32 v => .writeInt32 v
  | .int64 v => .writeInt64 v
  | .varint32 v => .writeVarint32 v
  | .varint64 v => .writeVarint64 v

/-- The bytes the value is written as. -/
def bytes (v : Value) : List UInt8 :=
  v.write.bytes

theorem bytes_ne_nil (v : Value) : v.bytes ≠ [] := by
  cases v <;> simp [bytes, write, IndexOutput.Call.bytes, int32Bytes, int64Bytes,
    varint32Bytes_ne_nil, varint64Bytes_ne_nil]

theorem flatMap_bytes_ne_nil {vs : List Value} (hne : vs ≠ []) : vs.flatMap bytes ≠ [] := by
  obtain ⟨v, vs, rfl⟩ := List.exists_cons_of_ne_nil hne
  simp [v.bytes_ne_nil]

/-- The call of `IndexInput` that reads the value. -/
def read : Value → IndexInput.ReadCall
  | .byte _ => .readByte
  | .string _ => .readString
  | .int32 _ => .readInt32
  | .int64 _ => .readInt64
  | .varint32 _ => .readVarint32
  | .varint64 _ => .readVarint64

/-- What that call returns for the value. -/
def result : Value → IndexInput.InResult
  | .byte b => .byte b
  | .string str => .bytes str
  | .int32 v => .u32 v
  | .int64 v => .u64 v
  | .varint32 v => .u32 v
  | .varint64 v => .u64 v

/-- The values `writeVarint32` and `writeString` write right: a varint32, or the length of a
string, outside `[2^21, 2^28)`, and a string shorter than `2^32` bytes. -/
def readable : Value → Bool
  | .string str => decide (str.length < 2 ^ 32) &&
      decide (str.length < 2 ^ 21 ∨ 2 ^ 28 ≤ str.length)
  | .varint32 v => decide (v.toNat < 2 ^ 21 ∨ 2 ^ 28 ≤ v.toNat)
  | _ => true

/-! ## One value -/

/-- A varint that fits in `kMax` bytes reads back as its value. -/
theorem varintSpec_leb128 {kMax w n : Nat} (hw : 7 * kMax < w + 7) (hn : n < 2 ^ w)
    (hlen : (leb128 n).length ≤ kMax) (T : List UInt8) :
    IndexInput.varintSpec kMax w (leb128 n ++ T) = some (n, (leb128 n).length) := by
  rw [← IndexInput.varintDecode_eq_varintSpec hw,
    IndexInput.varintDecode_leb128 w T n kMax 0 0 (by simp) hlen (by simpa using hw)]
  simp [Nat.mod_eq_of_lt hn]

theorem varintSpec_varint32 (v : UInt32) (hv : v.toNat < 2 ^ 21 ∨ 2 ^ 28 ≤ v.toNat)
    (T : List UInt8) :
    IndexInput.varintSpec kMaxVarintLength32 32 (varint32Bytes v ++ T) =
      some (v.toNat, (varint32Bytes v).length) := by
  rw [varint32Bytes_eq_leb128 v hv]
  exact varintSpec_leb128 (by decide) v.toNat_lt_size
    (leb128_length_le (k := 4) (lt_trans v.toNat_lt_size (by decide))) T

theorem varintSpec_varint64 (v : UInt64) (T : List UInt8) :
    IndexInput.varintSpec kMaxVarintLength64 64 (varint64Bytes v ++ T) =
      some (v.toNat, (varint64Bytes v).length) := by
  rw [varint64Bytes_eq_leb128]
  exact varintSpec_leb128 (by decide) v.toNat_lt_size
    (leb128_length_le (k := 9) (lt_trans v.toNat_lt_size (by decide))) T

theorem littleEndian_int32Bytes (v : UInt32) (T : List UInt8) :
    UInt32.ofNat (IndexInput.littleEndian 4 (int32Bytes v ++ T)) = v := by
  rw [IndexInput.littleEndian_append (by rfl), ← IndexInput.int32Value_eq, int32Value_int32Bytes]

theorem littleEndian_int64Bytes (v : UInt64) (T : List UInt8) :
    UInt64.ofNat (IndexInput.littleEndian 8 (int64Bytes v ++ T)) = v := by
  rw [IndexInput.littleEndian_append (by rfl), ← IndexInput.int64Value_eq, int64Value_int64Bytes]

/-- A readable value, followed by anything, reads back as itself. -/
theorem inside_read (v : Value) (hv : v.readable = true) (T : List UInt8) :
    v.read.inside (v.bytes ++ T) = some (v.result, v.bytes.length) := by
  cases v with
  | byte b => rfl
  | string str =>
    simp only [readable, Bool.and_eq_true, decide_eq_true_eq] at hv
    have hlen : (UInt32.ofNat str.length).toNat = str.length := UInt32.toNat_ofNat_of_lt hv.1
    have hv' : (UInt32.ofNat str.length).toNat < 2 ^ 21 ∨
        2 ^ 28 ≤ (UInt32.ofNat str.length).toNat := by
      rw [hlen]; exact hv.2
    simp only [read, bytes, write, IndexOutput.Call.bytes, IndexInput.ReadCall.inside,
      List.append_assoc, varintSpec_varint32 _ hv', hlen, Option.some_bind, List.length_append,
      List.drop_left, List.take_left' rfl, List.take_append_of_le_length (le_refl _)]
    rw [if_pos (by omega)]
    rfl
  | int32 v =>
    simp only [read, bytes, write, IndexOutput.Call.bytes, IndexInput.ReadCall.inside,
      littleEndian_int32Bytes, List.length_append]
    rw [if_pos (by simp [int32Bytes])]
    rfl
  | int64 v =>
    simp only [read, bytes, write, IndexOutput.Call.bytes, IndexInput.ReadCall.inside,
      littleEndian_int64Bytes, List.length_append]
    rw [if_pos (by simp [int64Bytes])]
    rfl
  | varint32 v =>
    simp only [readable, decide_eq_true_eq] at hv
    simp [read, bytes, write, IndexOutput.Call.bytes, IndexInput.ReadCall.inside,
      varintSpec_varint32 v hv, result, u32_ofNat_toNat]
  | varint64 v =>
    simp [read, bytes, write, IndexOutput.Call.bytes, IndexInput.ReadCall.inside,
      varintSpec_varint64 v, result, u64_ofNat_toNat]

end Value

/-! ## A sequence of values -/

theorem readValues_inside (vs : List Value) (hv : ∀ v ∈ vs, v.readable = true)
    (T : List UInt8) :
    IndexInput.insideRun (vs.map Value.read) (vs.flatMap Value.bytes ++ T) =
      some (vs.map Value.result, (vs.flatMap Value.bytes).length) := by
  induction vs with
  | nil => rfl
  | cons v vs ih =>
    simp only [List.map_cons, List.flatMap_cons, List.append_assoc, IndexInput.insideRun,
      v.inside_read (hv v (List.mem_cons_self _ _)), Option.some_bind, List.drop_left,
      ih (fun w hw => hv w (List.mem_cons_of_mem _ hw)), Option.map_some', List.length_append]

end Lucanthrope
