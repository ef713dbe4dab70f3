import Lucanthrope.IO.IndexIOBase
import Lucanthrope.IO.Codec

/-!
# `IndexInput`: buffered reading

`IndexInput` hands out the bytes of `[bufCur, sentinel)`, and when that range is empty asks the
derived class's `fillImpl` for more. `eof()` is that question: it is `true` exactly when nothing
is pending and `fillImpl` finds nothing. `readByte` takes one byte after `eof()`, `read` copies
chunks in a loop, and the typed readers are built from the two: `readInt32`/`readInt64` from
`read`, `readVarint32`/`readVarint64`/`readString` from `eof` and `readByte`.

The derived class is `InputImpl σ`: `fillImpl` over the stream and `supportsExternalBuffer`,
its own fields being `own : σ`. `InputImpl` carries one contract, the one `read`'s loop needs
to end (`readLoop`'s `termination_by`): a `fillImpl` that returns `true` leaves bytes pending.

`readVarint32` and `readVarint64` are one loop (the source's `FIXME` says as much) at two
widths: `varintLoop` keeps the value as a `Nat` below `2 ^ w`, which is what the `uint32_t`
and `uint64_t` arithmetic of the code computes, since every shift it makes is below `w`.
`readInt32` and `readInt64` are `readFixed` at `4` and `8` bytes; the error of `readInt64`
names `readInt32`, as in the code.

Mirroring notes: `read(ptr, size)` copies into the caller's array; the model returns the copied
bytes, whose length is the `size_t` the code returns. `readString` fills the caller's
`std::string`; the model returns its bytes.
-/

namespace Lucanthrope

/-- An `IndexInput` object: the `IndexIOBase` fields, `sentinel`, the memory the buffer lives
in, and `own`, the fields of the derived class. -/
structure IndexInput (σ : Type) extends IndexIOBase where
  sentinel : Nat
  heap : Heap
  own : σ

/-- The virtual functions of a class derived from `IndexInput`. -/
structure InputImpl (σ : Type) where
  fillImpl : Op (IndexInput σ) Bool
  supportsExternalBuffer : Bool
  /-- A `fillImpl` that returns `true` has placed at least one byte in `[bufCur, sentinel)`. -/
  fillImpl_pending : ∀ s s', fillImpl s = .ok true s' → ptrSub s'.sentinel s'.bufCur ≠ 0

namespace IndexInput

variable {σ : Type} (impl : InputImpl σ)

/-- A newly constructed stream over `heap`: no buffer, `sentinel` null, at position `0`. -/
def create (heap : Heap) (own : σ) : IndexInput σ :=
  { IndexIOBase.empty with sentinel := 0, heap, own }

/-- `IndexInput::getNumReadableBytes`. -/
def getNumReadableBytes (s : IndexInput σ) : Nat :=
  ptrSub s.sentinel s.bufCur

/-- `IndexInput::hasPendingData`. -/
def hasPendingData (s : IndexInput σ) : Bool :=
  0 < getNumReadableBytes s

/-- `IndexInput::setExternalBuffer`: `bufCur` goes to `bufEnd`; `sentinel` is not touched. -/
def setExternalBuffer (bufferStart size : Nat) : Op (IndexInput σ) Unit := do
  let s ← get
  assert impl.supportsExternalBuffer "External buffers are not supported for this stream!"
  assert (!s.hasBuffer) "Stream already has a buffer!"
  set { s with bufStart := bufferStart, bufEnd := bufferStart + size,
               bufCur := bufferStart + size }

/-- `IndexInput::eof`: `!hasPendingData() && !fillImpl()`. -/
def eof : Op (IndexInput σ) Bool := do
  let s ← get
  if hasPendingData s then pure false
  else return !(← impl.fillImpl)

/-- `IndexInput::readByte`. -/
def readByte : Op (IndexInput σ) UInt8 := do
  if ← eof impl then
    raise .IndexCorruptionException
      "in IndexInput::readByte(): cannot read a byte, EOF is reached"
  modifyGet fun s => (s.heap.mem s.bufCur, { s with pos := s.pos + 1, bufCur := s.bufCur + 1 })

theorem eof_false_pending {s s' : IndexInput σ} (h : eof impl s = .ok false s') :
    getNumReadableBytes s' ≠ 0 := by
  simp only [eof, Op.bind_eq_ok, Op.get_apply, EStateM.Result.ok.injEq] at h
  obtain ⟨_, _, ⟨rfl, rfl⟩, h⟩ := h
  split at h
  · cases h
    simpa [hasPendingData, Nat.pos_iff_ne_zero] using ‹hasPendingData _ = true›
  · obtain ⟨r, _, hf, h⟩ := Op.bind_eq_ok.1 h
    cases r <;> cases h
    exact impl.fillImpl_pending _ _ hf

/-- The loop of `IndexInput::read`: while fewer than `size` bytes are copied and `eof()` is
`false`, copy `min(getNumReadableBytes(), size - bytes_copied)` bytes from `bufCur`. -/
def readLoop (size : Nat) (copied : List UInt8) (s : IndexInput σ) :
    EStateM.Result Failure (IndexInput σ) (List UInt8) :=
  if copied.length < size then
    match _h : eof impl s with
    | .ok false s' =>
      readLoop size
        (copied ++ s'.heap.load s'.bufCur (min (getNumReadableBytes s') (size - copied.length)))
        { s' with bufCur := s'.bufCur + min (getNumReadableBytes s') (size - copied.length) }
    | .ok true s' => .ok copied s'
    | .error e s' => .error e s'
  else .ok copied s
termination_by size - copied.length
decreasing_by
  have := eof_false_pending impl _h
  simp only [List.length_append, Heap.load_length]
  omega

theorem readLoop_of_false {size : Nat} {copied : List UInt8} {s s' : IndexInput σ}
    (hl : copied.length < size) (he : eof impl s = .ok false s') :
    readLoop impl size copied s = readLoop impl size
      (copied ++ s'.heap.load s'.bufCur (min (getNumReadableBytes s') (size - copied.length)))
      { s' with bufCur := s'.bufCur + min (getNumReadableBytes s') (size - copied.length) } := by
  rw [readLoop, if_pos hl]
  split <;> simp_all

theorem readLoop_of_true {size : Nat} {copied : List UInt8} {s s' : IndexInput σ}
    (hl : copied.length < size) (he : eof impl s = .ok true s') :
    readLoop impl size copied s = .ok copied s' := by
  rw [readLoop, if_pos hl]
  split <;> simp_all

theorem readLoop_of_done {size : Nat} {copied : List UInt8} {s : IndexInput σ}
    (hl : ¬copied.length < size) : readLoop impl size copied s = .ok copied s := by
  rw [readLoop, if_neg hl]

/-- `IndexInput::read`: the bytes copied; `pos` advances by their number. -/
def read (size : Nat) : Op (IndexInput σ) (List UInt8) := do
  let data ← (readLoop impl size [] : Op (IndexInput σ) (List UInt8))
  modify fun s => { s with pos := s.pos + data.length }
  pure data

/-- The body shared by `readInt32` and `readInt64`: `read` `n` bytes into `buf`, and throw
`msg` if fewer came. -/
def readFixed (n : Nat) (msg : String) : Op (IndexInput σ) (List UInt8) := do
  let buf ← read impl n
  if buf.length < n then raise .IndexCorruptionException msg
  pure buf

/-- `IndexInput::readInt32`. -/
def readInt32 : Op (IndexInput σ) UInt32 :=
  int32Value <$> readFixed impl 4 "in IndexInput::readInt32(): cannot read an int, EOF is reached"

/-- `IndexInput::readInt64`: its message is the one of `readInt32`. -/
def readInt64 : Op (IndexInput σ) UInt64 :=
  int64Value <$> readFixed impl 8 "in IndexInput::readInt32(): cannot read an int, EOF is reached"

/-- The loop shared by `readVarint32` and `readVarint64` at width `w`, with `fuel` iterations
left of the `kMaxVarintLength` and `i = bytes_decoded`: `some ret` once a byte without the
high bit is decoded (`done`), `none` if the loop ends without one. -/
def varintLoop (w : Nat) : Nat → Nat → Nat → Op (IndexInput σ) (Option Nat)
  | 0, _, _ => pure none
  | fuel + 1, i, ret => do
    if ← eof impl then pure none
    else
      let byte ← readByte impl
      let ret := ret ||| ((byte.toNat &&& 0x7f) <<< (7 * i)) % 2 ^ w
      if byte &&& 128 = 0 then pure (some ret) else varintLoop w fuel (i + 1) ret

/-- The body shared by `readVarint32` and `readVarint64`. -/
def readVarint (w kMax : Nat) (msg : String) : Op (IndexInput σ) Nat := do
  match ← varintLoop impl w kMax 0 0 with
  | some ret => pure ret
  | none => raise .IndexCorruptionException msg

/-- `IndexInput::readVarint32`. -/
def readVarint32 : Op (IndexInput σ) UInt32 :=
  UInt32.ofNat <$>
    readVarint impl 32 kMaxVarintLength32 "in IndexInput::readVarint32(): cannot parse varint"

/-- `IndexInput::readVarint64`. -/
def readVarint64 : Op (IndexInput σ) UInt64 :=
  UInt64.ofNat <$>
    readVarint impl 64 kMaxVarintLength64 "in IndexInput::readVarint64(): cannot parse varint"

/-- `while (size--) buff.push_back(readByte());` -/
def readBytes : Nat → Op (IndexInput σ) (List UInt8)
  | 0 => pure []
  | n + 1 => do
    let b ← readByte impl
    let bs ← readBytes n
    pure (b :: bs)

/-- `IndexInput::readString`. -/
def readString : Op (IndexInput σ) (List UInt8) := do
  let size ← readVarint32 impl
  readBytes impl size.toNat

theorem readBytes_length : ∀ (n : Nat) {s s' : IndexInput σ} {r : List UInt8},
    readBytes impl n s = .ok r s' → r.length = n
  | 0, _, _, _, h => by
    simp only [readBytes, Op.pure_apply, EStateM.Result.ok.injEq] at h
    rw [← h.1]; rfl
  | n + 1, _, _, _, h => by
    obtain ⟨b, s₁, -, h⟩ := Op.bind_eq_ok.1 h
    obtain ⟨bs, s₂, hbs, h⟩ := Op.bind_eq_ok.1 h
    simp only [Op.pure_apply, EStateM.Result.ok.injEq] at h
    rw [← h.1, List.length_cons, readBytes_length n hbs]

/-- Whatever the stream, `readString` returns fewer than `2 ^ 32` bytes: the size it reads is a
`uint32_t`. -/
theorem readString_length_lt {s s' : IndexInput σ} {r : List UInt8}
    (h : readString impl s = .ok r s') : r.length < 2 ^ 32 := by
  obtain ⟨size, s₁, -, h⟩ := Op.bind_eq_ok.1 h
  rw [readBytes_length impl _ h]
  exact size.toNat_lt_size

end IndexInput

end Lucanthrope
