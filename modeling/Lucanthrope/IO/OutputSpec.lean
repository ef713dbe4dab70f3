import Lucanthrope.IO.OutputRuns

/-!
# `IndexOutput` refines an append-only byte log

What `IndexOutput` is for: the bytes handed to `writeByte` and `write` reach the derived class's
sink in order, none lost and none repeated, and `flush` changes nothing that a reader of the sink
and the buffer together can see. This file proves that of the model of `IndexOutput.lean`, for
every derived class that meets the contract `AppendsToSink`:

* `writeImpl`, called with a non-empty pending range, appends exactly `[bufStart, bufCur)` to
  the sink (a list read from the derived class's fields) and leaves `bufStart`, `bufEnd` and
  `pos` alone;
* `initInternalBuffer` attaches a buffer of at least one byte, with the cursor at its start,
  and leaves the sink and `pos` alone.

`Holds sink base w s` says that the stream `s` has taken the bytes `w` since its sink held
`base`: the sink followed by the pending range is `base ++ w`, `pos` is the length of `w`, and
`bufStart ≤ bufCur ≤ bufEnd` in a buffer of at least one byte (or there is no buffer). Under the
contract it is a `WriteInv` for appending (`holds_writeInv`): a copy appends to the pending
range, whether `copyToBuffer` takes its byte-by-byte path or `memcpy` (`copyBytes_eq_store`), and
a flush moves the pending range to the sink. `runCalls_inv` then gives

> `runOutput_spec`: from a new stream, with no buffer or with an external buffer of `n ≥ 1`
> bytes, every sequence of `writeByte`, `write` and `flush` returns, and afterwards the sink
> followed by the pending range is everything written, in order, `getCurrentPosition()` is its
> length, and `bufStart ≤ bufCur ≤ bufEnd`.

The size of the buffer matters. `setExternalBuffer` accepts `0` bytes, and then

> `writeByte_empty_external_buffer`: the first `writeByte` finds no room and nothing pending,
> and fails the assertion `"Buffer is currently empty!"` of `flushNonEmpty`.

`listOutput`, a stream that keeps its sink as a list, meets the contract, so the hypotheses of
both results can be met.
-/

namespace Lucanthrope

namespace IndexOutput

variable {σ : Type} (impl : OutputImpl σ) (sink : σ → List UInt8)

/-- The contract on the virtual functions, for the sink `sink` kept in the derived class's
fields. -/
structure AppendsToSink : Prop where
  writeImpl_appends : ∀ s : IndexOutput σ, s.bufStart ≤ s.bufCur → s.bufCur ≠ s.bufStart →
    ∃ s', impl.writeImpl s = .ok () s' ∧ sink s'.own = sink s.own ++ pending s ∧
      s'.bufStart = s.bufStart ∧ s'.bufEnd = s.bufEnd ∧ s'.pos = s.pos
  initInternalBuffer_nonempty : ∀ s : IndexOutput σ, s.bufStart = 0 →
    ∃ s', impl.initInternalBuffer s = .ok () s' ∧ s'.bufStart < s'.bufEnd ∧
      s'.bufCur = s'.bufStart ∧ sink s'.own = sink s.own ∧ s'.pos = s.pos

/-! ### A stream that keeps its sink as a list -/

/-- An `IndexOutput` whose sink is a list of its own, with internal buffers of `4` bytes taken
from the allocator, and which accepts external buffers. -/
def listOutput : OutputImpl (List UInt8) where
  initInternalBuffer := modify fun s =>
    { s with heap := (s.heap.alloc 4).2, bufStart := s.heap.next,
             bufCur := s.heap.next, bufEnd := s.heap.next + 4 }
  writeImpl := modify fun s => { s with own := s.own ++ pending s }
  supportsExternalBuffer := true
  initInternalBuffer_attaches := by
    rintro s _ ⟨⟩
    exact ⟨Nat.pos_iff_ne_zero.1 s.heap.next_pos, rfl⟩

theorem listOutput_appendsToSink : AppendsToSink listOutput id where
  writeImpl_appends _ _ _ := ⟨_, rfl, rfl, rfl, rfl, rfl⟩
  initInternalBuffer_nonempty s _ := ⟨_, rfl, by simp, rfl, rfl, rfl⟩

/-- The stream `s` has taken the bytes `w` since its sink held `base`. -/
structure Holds (base w : List UInt8) (s : IndexOutput σ) : Prop where
  contents : sink s.own ++ pending s = base ++ w
  position : s.pos = w.length
  start_le_cur : s.bufStart ≤ s.bufCur
  cur_le_end : s.bufCur ≤ s.bufEnd
  unbuffered : s.bufStart = 0 → s.bufEnd = 0
  nonempty : s.bufStart ≠ 0 → s.bufStart < s.bufEnd

/-! ## One call -/

section Step

variable {impl sink} {base w : List UInt8} {s : IndexOutput σ}

/-- Copying `d` to the cursor, with room for it, and advancing `pos` appends `d` to the log. -/
theorem Holds.copy (h : Holds sink base w s) (d : List UInt8)
    (hd : s.bufCur + d.length ≤ s.bufEnd) : Holds sink base (w ++ d) (copied s d) where
  contents := by
    have := h.start_le_cur
    simp only [pending, copied]
    rw [show s.bufCur + d.length - s.bufStart = s.bufCur - s.bufStart + d.length by omega,
      Heap.load_store_append _ this, ← List.append_assoc, ← List.append_assoc]
    exact congrArg (· ++ d) h.contents
  position := by simp [copied, h.position]
  start_le_cur := Nat.le_add_right_of_le h.start_le_cur
  cur_le_end := hd
  unbuffered := h.unbuffered
  nonempty := h.nonempty

theorem flushNonEmpty_holds (hc : AppendsToSink impl sink) (h : Holds sink base w s)
    (hne : s.bufCur ≠ s.bufStart) :
    ∃ s', flushNonEmpty impl s = .ok () s' ∧ Holds sink base w s' ∧ s'.bufCur < s'.bufEnd := by
  obtain ⟨s₁, hw, hsink, hstart, hend, hpos⟩ := hc.writeImpl_appends s h.start_le_cur hne
  have h0 : s.bufStart ≠ 0 := fun h0 => by
    have := h.unbuffered h0; have := h.cur_le_end; omega
  have hlt := h.nonempty h0
  have := h.start_le_cur
  refine ⟨_, (flushNonEmpty_eq_ok impl).2 ⟨?_, s₁, hw, rfl⟩, ⟨?_, ?_, le_refl _, ?_, ?_, ?_⟩, ?_⟩
  · rw [getNumWritableBytes, ptrSub_of_le h.start_le_cur]; omega
  · rw [← h.contents]; simp [pending, hsink]
  · simp [hpos, h.position]
  all_goals simp only [hstart, hend]; omega

theorem initInternalBuffer_holds (hc : AppendsToSink impl sink) (h : Holds sink base w s)
    (h0 : s.bufStart = 0) : ∃ s', impl.initInternalBuffer s = .ok () s' ∧ Holds sink base w s' := by
  obtain ⟨s', hi, hlt, hcur, hsink, hpos⟩ := hc.initInternalBuffer_nonempty s h0
  have hs0 := (impl.initInternalBuffer_attaches s s' hi).1
  have hcur0 : s.bufCur = 0 := by have := h.unbuffered h0; have := h.cur_le_end; omega
  refine ⟨s', hi, ⟨?_, hpos ▸ h.position, hcur ▸ le_refl _, by omega, fun h => absurd h hs0,
    fun _ => hlt⟩⟩
  rw [← h.contents, pending, pending, hsink, hcur, hcur0, h0]
  simp

/-- Under the contract, the steps of the data output interface append to the log. -/
theorem holds_writeInv (hc : AppendsToSink impl sink) :
    WriteInv impl (· ++ ·) (Holds sink base) where
  upd_nil := List.append_nil
  upd_append _ _ _ := (List.append_assoc ..).symm
  bounds _ _ h := ⟨h.start_le_cur, h.cur_le_end⟩
  nonempty _ _ h := h.nonempty
  copy _ _ d h hd := h.copy d hd
  flush _ _ h hne := flushNonEmpty_holds hc h hne
  init _ _ h h0 := initInternalBuffer_holds hc h h0

end Step

/-! ## Runs -/

/-- What happens to a new stream before the first call: nothing, or `setExternalBuffer(p, n)`. -/
def attach : Option (Nat × Nat) → Op (IndexOutput σ) Unit
  | none => pure ()
  | some (p, n) => setExternalBuffer impl p n

section Run

variable {impl sink}

/-- A new stream has taken nothing. -/
theorem create_holds (heap : Heap) (own : σ) : Holds sink (sink own) [] (create heap own) :=
  ⟨by simp [pending, create, IndexIOBase.empty], rfl, le_refl _, le_refl _, fun _ => rfl,
    fun h => absurd rfl h⟩

theorem attach_holds (heap : Heap) (own : σ) {ext : Option (Nat × Nat)}
    (hext : ∀ p n, ext = some (p, n) → impl.supportsExternalBuffer ∧ p ≠ 0 ∧ 1 ≤ n) :
    ∃ s, attach impl ext (create heap own) = .ok () s ∧ Holds sink (sink own) [] s := by
  match ext, hext with
  | none, _ => exact ⟨_, rfl, create_holds heap own⟩
  | some (p, n), hext =>
    obtain ⟨hsup, hp, hn⟩ := hext p n rfl
    refine ⟨_, by simp [attach, setExternalBuffer, hsup, create, IndexIOBase.hasBuffer,
      IndexIOBase.empty]; rfl, ⟨by simp [pending], rfl, le_refl _, by simp, fun h => absurd h hp,
      fun _ => by simp; omega⟩⟩

end Run

/-- Every sequence of writes and `flush` calls returns, and the sink followed by the pending range
is everything written, in order. -/
theorem runOutput_spec (hc : AppendsToSink impl sink) (heap : Heap) (own : σ)
    (ext : Option (Nat × Nat))
    (hext : ∀ p n, ext = some (p, n) → impl.supportsExternalBuffer ∧ p ≠ 0 ∧ 1 ≤ n)
    (cs : List Call) :
    ∃ s s', attach impl ext (create heap own) = .ok () s ∧ runCalls impl cs s = .ok () s' ∧
      Holds sink (sink own) (cs.flatMap Call.bytes) s' := by
  obtain ⟨s, ha, h⟩ := attach_holds heap own hext
  obtain ⟨s', hr, h'⟩ := runCalls_inv (holds_writeInv hc) cs h
  exact ⟨s, s', ha, hr, by simpa using h'⟩

/-- A two-byte external buffer: five bytes, one more, and a `flush` reach the sink in order. -/
theorem runOutput_spec_listOutput :
    ∃ s s', attach listOutput (some (1, 2)) (create Heap.zero []) = .ok () s ∧
      runCalls listOutput [.write [1, 2, 3, 4, 5], .writeByte 6, .flush] s = .ok () s' ∧
      Holds id [] [1, 2, 3, 4, 5, 6] s' :=
  runOutput_spec listOutput id listOutput_appendsToSink Heap.zero [] (some (1, 2))
    (by rintro p n ⟨⟩; decide) _

/-! ## A buffer of zero bytes -/

/-- With an external buffer of `0` bytes the first `writeByte` fails the assertion of
`flushNonEmpty`. -/
theorem writeByte_empty_external_buffer (hsup : impl.supportsExternalBuffer = true) {p : Nat}
    (hp : p ≠ 0) (heap : Heap) (own : σ) (c : UInt8) :
    ∃ s, setExternalBuffer impl p 0 (create heap own) = .ok () s ∧
      writeByte impl c s = .error (.assertion "Buffer is currently empty!") s := by
  refine ⟨_, by simp [setExternalBuffer, hsup, create, IndexIOBase.hasBuffer,
    IndexIOBase.empty]; rfl, ?_⟩
  rw [writeByte_of_full impl (by simp [available]) hp]
  simp [flushNonEmpty, getNumWritableBytes]

/-- An external buffer of `0` bytes at address `1`: `writeByte(0)` fails its assertion. -/
theorem writeByte_empty_external_buffer_listOutput :
    ∃ s, setExternalBuffer listOutput 1 0 (create Heap.zero []) = .ok () s ∧
      writeByte listOutput 0 s = .error (.assertion "Buffer is currently empty!") s :=
  writeByte_empty_external_buffer listOutput rfl one_ne_zero Heap.zero [] 0

end IndexOutput

end Lucanthrope
