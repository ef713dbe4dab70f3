import Lucanthrope.Common.Exception
import Lucanthrope.Common.Memory

/-!
# `IndexIOBase`: the buffer bounds every stream keeps

Both stream directions keep `bufStart ≤ bufCur ≤ bufEnd` into one buffer, and a logical
position `pos`. Pointers are addresses of the flat memory of `Memory.lean`; `0` is `nullptr`, so
`hasBuffer` is `bufStart ≠ 0`.

A pointer difference is computed by the code as `ptrdiff_t` and returned as `size_t`
(`available`, `getNumReadableBytes`, `getNumWritableBytes`): `ptrSub` is that conversion, which
wraps a negative difference around to a huge value. In every state the streams reach through
their public operations the difference is non-negative and `ptrSub` is plain subtraction
(`ptrSub_of_le`); the wrap matters in exactly one place, `IndexInput::setExternalBuffer`, which
leaves `sentinel` at `nullptr` below `bufCur`.

Mirroring note: `set`'s `assert(bufStart <= bufEnd)` guards against pointer wrap-around, which
the unbounded addresses here do not have, so it is left out.
-/

namespace Lucanthrope

/-- The fields of `IndexIOBase`. -/
structure IndexIOBase where
  bufStart : Nat
  bufCur : Nat
  bufEnd : Nat
  pos : Nat
  deriving DecidableEq, Repr

/-- `p - q` for two `char *`, converted to `size_t`: a negative difference wraps around. -/
def ptrSub (p q : Nat) : Nat :=
  if q ≤ p then p - q else 2 ^ 64 - (q - p)

@[simp] theorem ptrSub_of_le {p q : Nat} (h : q ≤ p) : ptrSub p q = p - q := by
  simp [ptrSub, h]

@[simp] theorem ptrSub_self (p : Nat) : ptrSub p p = 0 := by
  simp [ptrSub]

/-- A nonzero `size_t` difference of two pointers below `2 ^ 64` means they differ. -/
theorem ne_of_ptrSub_ne_zero {p q : Nat} (h : ptrSub p q ≠ 0) : p ≠ q := by
  rintro rfl; simp at h

/-- `nullptr - p`, for a pointer `p` that is not null: not zero. -/
theorem ptrSub_zero_ne_zero {p : Nat} (hp : 0 < p) (hp' : p < 2 ^ 64) : ptrSub 0 p ≠ 0 := by
  simp only [ptrSub]; split <;> omega

namespace IndexIOBase

/-- `IndexIOBase::set`: attach the buffer of `size` bytes at `bufferStart`. -/
def set (b : IndexIOBase) (bufferStart size : Nat) : IndexIOBase :=
  { b with bufStart := bufferStart, bufEnd := bufferStart + size }

/-- `IndexIOBase::hasBuffer`. -/
def hasBuffer (b : IndexIOBase) : Bool :=
  b.bufStart ≠ 0

/-- `IndexIOBase::getBufferSize`. -/
def getBufferSize (b : IndexIOBase) : Nat :=
  ptrSub b.bufEnd b.bufStart

/-- `IndexIOBase::getCurrentPosition`. -/
def getCurrentPosition (b : IndexIOBase) : Nat :=
  b.pos

/-- An empty stream: no buffer, at position `0`. -/
def empty : IndexIOBase :=
  ⟨0, 0, 0, 0⟩

@[simp] theorem set_bufStart (b : IndexIOBase) (p n : Nat) : (b.set p n).bufStart = p := rfl
@[simp] theorem set_bufEnd (b : IndexIOBase) (p n : Nat) : (b.set p n).bufEnd = p + n := rfl
@[simp] theorem set_bufCur (b : IndexIOBase) (p n : Nat) : (b.set p n).bufCur = b.bufCur := rfl
@[simp] theorem set_pos (b : IndexIOBase) (p n : Nat) : (b.set p n).pos = b.pos := rfl

end IndexIOBase

end Lucanthrope
