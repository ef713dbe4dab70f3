import Lucanthrope.IO.IndexOutput

/-!
# Runs of an `IndexOutput`

`writeByte`, `write` and `flush` are built from four steps: copy bytes to the cursor and advance
`pos`, `flushNonEmpty`, `initInternalBuffer`, and nothing. `WriteInv impl upd Q` says what each
step does to a relation `Q a s` between an abstract state `a` and the stream `s`: a copy of `d`
applies `upd · d` to `a`, a flush and an initialisation leave `a` alone and return, a flush
leaves room for a byte, and an attached buffer is never empty. From those alone,
`writeByte_inv`, `write_inv` and `flush_inv` follow each call's recursion (the typed writers
are `write` of the bytes `Codec.lean` computes), and `runCalls_inv` any sequence of calls:

> `runCalls_inv`: if `WriteInv impl upd Q` and `Q a s`, every sequence of `writeByte`, `write`,
> the typed writers and `flush` returns, in a state related to `upd a bytes`, `bytes` being
> everything written.

Two instances follow in other files: an append-only log, for classes whose `writeImpl`
appends the pending range to a sink (`OutputSpec.lean`), and a byte array with a cursor, for
`RAMFileIndexOutput`, whose `writeImpl` moves `bufStart` or the block
(`RAMFileIndexOutput.lean`).
-/

namespace Lucanthrope

namespace IndexOutput

variable {σ α : Type} (impl : OutputImpl σ)

/-- The stream after `d` is copied to the cursor and `pos` advanced past it. -/
def copied (s : IndexOutput σ) (d : List UInt8) : IndexOutput σ :=
  { s with heap := s.heap.store s.bufCur d, bufCur := s.bufCur + d.length,
           pos := s.pos + d.length }

/-- What the steps of the data output interface do to the relation `Q` between an abstract
state, updated by `upd` with the bytes written, and the stream. -/
structure WriteInv (upd : α → List UInt8 → α) (Q : α → IndexOutput σ → Prop) : Prop where
  upd_nil : ∀ a, upd a [] = a
  upd_append : ∀ a d₁ d₂, upd a (d₁ ++ d₂) = upd (upd a d₁) d₂
  bounds : ∀ a s, Q a s → s.bufStart ≤ s.bufCur ∧ s.bufCur ≤ s.bufEnd
  nonempty : ∀ a s, Q a s → s.bufStart ≠ 0 → s.bufStart < s.bufEnd
  copy : ∀ a s d, Q a s → s.bufCur + d.length ≤ s.bufEnd → Q (upd a d) (copied s d)
  flush : ∀ a s, Q a s → s.bufCur ≠ s.bufStart →
    ∃ s', flushNonEmpty impl s = .ok () s' ∧ Q a s' ∧ s'.bufCur < s'.bufEnd
  init : ∀ a s, Q a s → s.bufStart = 0 →
    ∃ s', impl.initInternalBuffer s = .ok () s' ∧ Q a s'

/-- A call of the data output interface. -/
inductive Call where
  | writeByte (c : UInt8)
  | write (data : List UInt8)
  | writeInt32 (num : UInt32)
  | writeInt64 (num : UInt64)
  | writeVarint32 (num : UInt32)
  | writeVarint64 (num : UInt64)
  | writeString (str : List UInt8)
  | flush
  deriving DecidableEq, Repr

/-- The bytes a call hands the stream. -/
def Call.bytes : Call → List UInt8
  | .writeByte c => [c]
  | .write data => data
  | .writeInt32 num => int32Bytes num
  | .writeInt64 num => int64Bytes num
  | .writeVarint32 num => varint32Bytes num
  | .writeVarint64 num => varint64Bytes num
  | .writeString str => varint32Bytes (UInt32.ofNat str.length) ++ str
  | .flush => []

/-- `flush()` hands the stream nothing. -/
theorem Call.flatMap_bytes_filter (cs : List Call) :
    (cs.filter (· != .flush)).flatMap Call.bytes = cs.flatMap Call.bytes := by
  induction cs with
  | nil => rfl
  | cons c cs ih => cases c <;> simp [List.filter_cons, ih, Call.bytes]

/-- The call, on the stream. -/
def Call.run : Call → Op (IndexOutput σ) Unit
  | .writeByte c => IndexOutput.writeByte impl c
  | .write data => IndexOutput.write impl data
  | .writeInt32 num => IndexOutput.writeInt32 impl num
  | .writeInt64 num => IndexOutput.writeInt64 impl num
  | .writeVarint32 num => IndexOutput.writeVarint32 impl num
  | .writeVarint64 num => IndexOutput.writeVarint64 impl num
  | .writeString str => IndexOutput.writeString impl str
  | .flush => IndexOutput.flush impl

/-- The calls, one after another. -/
def runCalls : List Call → Op (IndexOutput σ) Unit
  | [] => pure ()
  | c :: cs => do c.run impl; runCalls cs

section Steps

variable {impl} {upd : α → List UInt8 → α} {Q : α → IndexOutput σ → Prop}
  (hq : WriteInv impl upd Q) {a : α} {s : IndexOutput σ}
include hq

theorem WriteInv.available_eq (h : Q a s) : available s = s.bufEnd - s.bufCur :=
  ptrSub_of_le (hq.bounds a s h).2

theorem WriteInv.putByte (h : Q a s) (hroom : s.bufCur < s.bufEnd) (c : UInt8) :
    ∃ s', putByte c s = .ok () s' ∧ Q (upd a [c]) s' :=
  ⟨_, rfl, hq.copy a s [c] h hroom⟩

/-- With no room left in an attached buffer, bytes are pending. -/
theorem WriteInv.pending_of_full (h : Q a s) (ha : available s = 0) (h0 : s.bufStart ≠ 0) :
    s.bufCur ≠ s.bufStart := by
  have := hq.nonempty a s h h0
  rw [hq.available_eq h] at ha
  omega

theorem writeByte_inv (h : Q a s) (c : UInt8) :
    ∃ s', writeByte impl c s = .ok () s' ∧ Q (upd a [c]) s' := by
  induction s using writeByte.induct impl c with
  | case1 s ha h0 s' hi ih =>
    obtain ⟨s'', hi', h'⟩ := hq.init a s h h0
    obtain rfl : s'' = s' := by rw [hi] at hi'; cases hi'; rfl
    rw [writeByte_of_init impl ha h0 hi]
    exact ih h'
  | case2 s _ h0 e s' hi =>
    obtain ⟨_, hi', -⟩ := hq.init a s h h0
    rw [hi] at hi'; cases hi'
  | case3 s ha h0 =>
    obtain ⟨s₁, hf, h₁, hroom⟩ := hq.flush a s h (hq.pending_of_full h ha h0)
    obtain ⟨s₂, hp, h₂⟩ := hq.putByte h₁ hroom c
    exact ⟨s₂, by rw [writeByte_of_full impl ha h0, Op.bind_apply, hf]; exact hp, h₂⟩
  | case4 s ha =>
    rw [writeByte_of_room impl ha]
    exact hq.putByte h (by rw [hq.available_eq h] at ha; omega) c

/-- `spill` moves `available()` bytes of the data to the stream, and returns. -/
theorem spill_inv (h : Q a s) {data : List UInt8} (hl : available s < data.length)
    (h0 : s.bufStart ≠ 0) :
    ∃ s', spill impl data (available s) s = .ok () s' ∧
      Q (upd a (data.take (available s))) s' := by
  have hd : (data.take (available s)).length = available s := by simp; omega
  have hav := hq.available_eq h
  have := hq.bounds a s h
  have h₁ := hq.copy a s (data.take (available s)) h (by omega)
  obtain ⟨s', hf, h', -⟩ := hq.flush _ _ h₁ (by have := hq.nonempty a s h h0; simp [copied]; omega)
  refine ⟨s', ?_, h'⟩
  rw [spill, Op.bind_apply, copyToBuffer_apply (le_of_eq hd), hd]
  simp only [copied, hd] at hf
  exact hf

theorem write_inv (h : Q a s) (data : List UInt8) :
    ∃ s', write impl data s = .ok () s' ∧ Q (upd a data) s' := by
  induction data, s using write.induct impl generalizing a with
  | case1 data s hl h0 s' hi ih =>
    obtain ⟨s'', hi', h'⟩ := hq.init a s h h0
    obtain rfl : s'' = s' := by rw [hi] at hi'; cases hi'; rfl
    rw [write_of_init impl hl h0 hi]
    exact ih h'
  | case2 data s _ h0 e s' hi =>
    obtain ⟨_, hi', -⟩ := hq.init a s h h0
    rw [hi] at hi'; cases hi'
  | case3 data s hl h0 s' hs ih =>
    obtain ⟨s'', hs', h'⟩ := spill_inv hq h hl h0
    obtain rfl : s'' = s' := by rw [hs] at hs'; cases hs'; rfl
    obtain ⟨s₂, hw, h₂⟩ := ih h'
    refine ⟨s₂, by rw [write_of_spill impl hl h0 hs, hw], ?_⟩
    rwa [← hq.upd_append, List.take_append_drop] at h₂
  | case4 data s hl h0 e s' hs =>
    obtain ⟨_, hs', -⟩ := spill_inv hq h hl h0
    rw [hs] at hs'; cases hs'
  | case5 data s hl =>
    have hl := Nat.not_lt.1 hl
    have := hq.bounds a s h
    refine ⟨_, ?_, hq.copy a s data h (by rw [hq.available_eq h] at hl; omega)⟩
    rw [write_of_fits impl hl, Op.bind_apply, copyToBuffer_apply hl]
    rfl

theorem flush_inv (h : Q a s) : ∃ s', flush impl s = .ok () s' ∧ Q a s' := by
  by_cases hne : s.bufCur = s.bufStart
  · exact ⟨s, by simp [flush, hne], h⟩
  · obtain ⟨s', hf, h', -⟩ := hq.flush a s h hne
    exact ⟨s', by simp [flush, hne, hf], h'⟩

theorem writeString_inv (h : Q a s) (str : List UInt8) :
    ∃ s', writeString impl str s = .ok () s' ∧
      Q (upd a (varint32Bytes (UInt32.ofNat str.length) ++ str)) s' := by
  obtain ⟨s₁, h₁, hq₁⟩ := write_inv hq h (varint32Bytes (UInt32.ofNat str.length))
  obtain ⟨s₂, h₂, hq₂⟩ := write_inv hq hq₁ str
  refine ⟨s₂, ?_, by rwa [hq.upd_append]⟩
  rw [writeString, Op.bind_apply, writeVarint32, h₁]
  exact h₂

theorem Call.run_inv (h : Q a s) (c : Call) :
    ∃ s', c.run impl s = .ok () s' ∧ Q (upd a c.bytes) s' := by
  cases c with
  | writeByte c => exact writeByte_inv hq h c
  | write data => exact write_inv hq h data
  | writeInt32 num => exact write_inv hq h _
  | writeInt64 num => exact write_inv hq h _
  | writeVarint32 num => exact write_inv hq h _
  | writeVarint64 num => exact write_inv hq h _
  | writeString str => exact writeString_inv hq h str
  | flush => simpa [Call.run, Call.bytes, hq.upd_nil] using flush_inv hq h

theorem runCalls_inv (cs : List Call) (h : Q a s) :
    ∃ s', runCalls impl cs s = .ok () s' ∧ Q (upd a (cs.flatMap Call.bytes)) s' := by
  induction cs generalizing a s with
  | nil => exact ⟨s, rfl, by simpa [hq.upd_nil] using h⟩
  | cons c cs ih =>
    obtain ⟨s₁, h₁, hh₁⟩ := Call.run_inv hq h c
    obtain ⟨s₂, h₂, hh₂⟩ := ih hh₁
    refine ⟨s₂, by rw [runCalls, Op.bind_apply, h₁]; exact h₂, ?_⟩
    rwa [List.flatMap_cons, hq.upd_append]

end Steps

end IndexOutput

end Lucanthrope
