import Lucanthrope.IO.InputCalls
import Lucanthrope.Storage.RAMFile

/-!
# `RAMFileIndexInput`: reading a committed `RAMFile`

`RAMFileIndexInput` reads a file in place: its buffer is the block `current_block` of the file,
and `fillImpl` moves it to the next block. The constructor computes the index of the last block
and the number of bytes in it, so that the last block is read only up to the end of the file:

    last_block = (file->length - 1) / kBlockSize + 1;       // last block index
    last_block_bytes = (file->length - 1) % kBlockSize + 1;

The first line is the number of blocks the data takes, `N = ⌈length / kBlockSize⌉`, not the
index of the last one, `N - 1`. So `sentinel` is placed at the end of the block in every block
the data takes, the last one included, and a reader goes on past the end of the file, up to the
end of block `N - 1`; there `fillImpl` moves to block `N`, which is past the end of `blocks_`
unless the writer allocated a spare block, and reads `last_block_bytes` bytes of it.

Inside the file all is well. The reader meets the contract `Supplies` of `InputSpec.lean` with
the source `padded`: the `N` blocks in full, in order (`supplies`). Its bytes up to `length` are
the file's, and every call of the data input interface that stays inside the file, and every
`seek(p)` with `p < length`, gives what it gives on the file's bytes (`ReadCall.inside`):

> `run_refines_file`: for a file of `L ≥ 1` bytes that fit in its blocks, every sequence of
> reads, typed reads, `eof()` and `seek(p)` (`p < L`) that stays inside the file returns on the
> reader what it returns on the bytes `F` of the file with a cursor, and the reader's buffer is
> always one of the first `N` blocks.

At the end of the file the reader does not stop. Once it has delivered the `L` bytes of the
file, the rest of the block the file ends in is still pending, or, when the file fills its last
block, `fillImpl` moves to block `N` (`at_end`):

> `eof_past_end`: for every file of `L ≥ 1` bytes and every sequence of calls that stays inside
> the file and delivers it up to its last byte, `eof()` then returns `false`, or, when `L` is a
> multiple of `kBlockSize`, indexes `blocks_` past the data (undefined unless a spare block
> follows); and when `L` is not, `readByte` returns the byte of the block after the end instead
> of throwing `IndexCorruption`.

`seek(p)` asserts `p < L`, so `seek(L)` fails its assertion.

Mirroring notes: `seek` leaves `pos` alone, as the code does; `supportsExternalBuffer` is
`false`, the default of `IndexIOBase`.
-/

namespace Lucanthrope

/-- The fields of `RAMFileIndexInput`. The constructor sets `last_block_bytes` to
`(length - 1) % kBlockSize + 1`, which is not `0`. -/
structure RAMIn where
  file : RAMFile
  current_block : Nat
  last_block : Nat
  last_block_bytes : Nat
  last_block_bytes_pos : 0 < last_block_bytes

namespace RAMFileIndexInput

/-- The fields `RAMFileIndexInput(f)` sets, once its assertion holds. -/
def fields (f : RAMFile) : RAMIn :=
  ⟨f, 0, (f.length - 1) / kBlockSize + 1, (f.length - 1) % kBlockSize + 1, Nat.succ_pos _⟩

/-- `RAMFileIndexInput(f)`. -/
def construct {σ : Type} (f : RAMFile) : Op σ RAMIn := do
  assert (f.length != 0) "File is empty!"
  pure (fields f)

/-- `set(file->blocks_[i], RAMDirectory::RAMFile::kBlockSize)`. -/
def setBlock (i : Nat) : Op (IndexInput RAMIn) Unit := do
  let s ← get
  let b ← s.own.file.block i
  set { s with toIndexIOBase := s.toIndexIOBase.set b kBlockSize }

/-- `RAMFileIndexInput::initInternalBuffer`. -/
def initInternalBuffer : Op (IndexInput RAMIn) Unit := do
  setBlock 0
  modify fun s => { s with bufCur := s.bufStart }
  modify fun s =>
    if s.own.last_block = 0 then { s with sentinel := s.bufCur + s.own.last_block_bytes }
    else { s with sentinel := s.bufEnd }

/-- `RAMFileIndexInput::fillImpl`. -/
def fillImpl : Op (IndexInput RAMIn) Bool := do
  let s ← get
  assert (!IndexInput.hasPendingData s) "Buffer is not empty!"
  if s.bufStart = 0 then
    initInternalBuffer
    pure true
  else if s.own.current_block = s.own.last_block then
    pure false
  else
    modify fun s => { s with own := { s.own with current_block := s.own.current_block + 1 } }
    let s ← get
    setBlock s.own.current_block
    modify fun s => { s with bufCur := s.bufStart }
    modify fun s =>
      if s.own.current_block = s.own.last_block then
        { s with sentinel := s.bufCur + s.own.last_block_bytes }
      else { s with sentinel := s.bufEnd }
    pure true

/-- `RAMFileIndexInput::seek`: it leaves `pos` alone. -/
def seek (seek_pos : Nat) : Op (IndexInput RAMIn) Unit := do
  let s ← get
  assert (decide (seek_pos < s.own.file.length))
    "Seeking past the end of  file is not supported!"
  modify fun s => { s with own := { s.own with current_block := seek_pos / kBlockSize } }
  let s ← get
  setBlock s.own.current_block
  modify fun s => { s with bufCur := s.bufStart + seek_pos % kBlockSize }
  modify fun s =>
    if s.own.current_block = s.own.last_block then
      { s with sentinel := s.bufStart + s.own.last_block_bytes }
    else { s with sentinel := s.bufEnd }

theorem setBlock_apply {i b : Nat} {s : IndexInput RAMIn} (hb : s.own.file.blocks_[i]? = some b) :
    setBlock i s = .ok () { s with toIndexIOBase := s.toIndexIOBase.set b kBlockSize } := by
  simp [setBlock, RAMFile.block_apply _ hb]

section Fill

variable {s : IndexInput RAMIn}

/-- `fillImpl` with no buffer: the buffer is block `0`. -/
theorem fillImpl_of_unbuffered (hp : IndexInput.hasPendingData s = false) (h0 : s.bufStart = 0)
    {b : Nat} (hb : s.own.file.blocks_[0]? = some b) :
    fillImpl s = .ok true
      { s with bufStart := b, bufEnd := b + kBlockSize, bufCur := b,
               sentinel := if s.own.last_block = 0 then b + s.own.last_block_bytes
                 else b + kBlockSize } := by
  simp only [fillImpl, initInternalBuffer, setBlock, RAMFile.block, Op.bind_apply, Op.get_apply,
    Op.modify_apply, Op.set_apply, Op.pure_apply, assert_apply, hp, Bool.not_false, if_true,
    if_pos h0, hb]
  split_ifs <;> rfl

/-- `fillImpl` at block `last_block`: the end. -/
theorem fillImpl_of_last (hp : IndexInput.hasPendingData s = false) (h0 : s.bufStart ≠ 0)
    (hl : s.own.current_block = s.own.last_block) : fillImpl s = .ok false s := by
  simp [fillImpl, hp, h0, hl]

/-- `fillImpl` before block `last_block`: the buffer moves to the next block. -/
theorem fillImpl_of_next (hp : IndexInput.hasPendingData s = false) (h0 : s.bufStart ≠ 0)
    (hl : s.own.current_block ≠ s.own.last_block) {b : Nat}
    (hb : s.own.file.blocks_[s.own.current_block + 1]? = some b) :
    fillImpl s = .ok true
      { s with bufStart := b, bufEnd := b + kBlockSize, bufCur := b,
               sentinel := if s.own.current_block + 1 = s.own.last_block
                 then b + s.own.last_block_bytes else b + kBlockSize,
               own := { s.own with current_block := s.own.current_block + 1 } } := by
  simp only [fillImpl, setBlock, RAMFile.block, Op.bind_apply, Op.get_apply, Op.modify_apply,
    Op.set_apply, Op.pure_apply, assert_apply, hp, Bool.not_false, if_true, if_neg h0, if_neg hl,
    hb]
  split_ifs <;> rfl

/-- `fillImpl` fails where the code indexes `blocks_` past its end. -/
theorem fillImpl_of_none (hp : IndexInput.hasPendingData s = false)
    (hb : s.own.file.blocks_[if s.bufStart = 0 then 0 else s.own.current_block + 1]? = none)
    (hl : s.bufStart = 0 ∨ s.own.current_block ≠ s.own.last_block) :
    ∃ s', fillImpl s = .error .undefined s' := by
  by_cases h0 : s.bufStart = 0
  · rw [if_pos h0] at hb
    exact ⟨s, by simp [fillImpl, initInternalBuffer, setBlock, RAMFile.block, hp, h0, hb]⟩
  · rw [if_neg h0] at hb
    exact ⟨_, by simp [fillImpl, setBlock, RAMFile.block, hp, h0, hl.resolve_left h0, hb]; rfl⟩

/-- A `fillImpl` that returns `true` leaves the cursor at the start of a block, and `sentinel`
past it. -/
theorem fillImpl_true {s' : IndexInput RAMIn} (h : fillImpl s = .ok true s') :
    s'.bufCur < s'.sentinel := by
  have hlb := s.own.last_block_bytes_pos
  have hB := kBlockSize_pos
  cases hp : IndexInput.hasPendingData s
  · by_cases hl : s.bufStart = 0 ∨ s.own.current_block ≠ s.own.last_block
    · cases hb : s.own.file.blocks_[if s.bufStart = 0 then 0 else s.own.current_block + 1]? with
      | none =>
        obtain ⟨_, he⟩ := fillImpl_of_none hp hb hl
        rw [he] at h
        cases h
      | some b =>
        by_cases h0 : s.bufStart = 0
        · rw [if_pos h0] at hb
          rw [fillImpl_of_unbuffered hp h0 hb] at h
          cases h
          split_ifs <;> simp <;> omega
        · rw [if_neg h0] at hb
          rw [fillImpl_of_next hp h0 (hl.resolve_left h0) hb] at h
          cases h
          split_ifs <;> simp <;> omega
    · push_neg at hl
      rw [fillImpl_of_last hp hl.1 hl.2] at h
      cases h
  · simp [fillImpl, hp] at h

end Fill

/-- The reader does not take external buffers. -/
def impl : InputImpl RAMIn where
  fillImpl := fillImpl
  supportsExternalBuffer := false
  fillImpl_pending s s' h := by
    have := fillImpl_true h
    rw [ptrSub_of_le this.le]
    omega

/-! ## Inside the file -/

section Inside

variable (f : RAMFile) (heap : Heap)

/-- The bytes the reader supplies: the first `last_block` blocks of the file, in full. Up to
`length` they are the bytes of the file; after it, the rest of the block the file ends in. -/
def padded : List UInt8 :=
  f.bytes heap ((fields f).last_block * kBlockSize)

/-- The bytes the reader has still to place in its buffer: all of `padded` before the first
`fillImpl`, and after it the blocks that follow `current_block`. -/
def source (s : IndexInput RAMIn) : List UInt8 :=
  (padded f heap).drop (if s.bufStart = 0 then 0 else (s.own.current_block + 1) * kBlockSize)

/-- The buffer is the whole of block `current_block`, one of the first `last_block` blocks. -/
structure InBlock (s : IndexInput RAMIn) : Prop where
  block_lt : s.own.current_block < s.own.last_block
  block : s.own.file.blocks_[s.own.current_block]? = some s.bufStart
  end_eq : s.bufEnd = s.bufStart + kBlockSize
  sentinel_eq : s.sentinel = s.bufEnd
  start_le : s.bufStart ≤ s.bufCur
  cur_le : s.bufCur ≤ s.sentinel

/-- A reader of `f` in `heap`: no buffer yet, or its buffer `InBlock`. -/
structure Inv (s : IndexInput RAMIn) : Prop where
  file : s.own.file = f
  last_block : s.own.last_block = (fields f).last_block
  heap : s.heap = heap
  unbuffered : s.bufStart = 0 → s.bufCur = 0 ∧ s.sentinel = 0 ∧ s.own.current_block = 0
  buffered : s.bufStart ≠ 0 → InBlock s

variable {f heap}

theorem length_le_padded : f.length ≤ (fields f).last_block * kBlockSize := by
  simp only [fields]; unfold kBlockSize; omega

/-- Up to `length`, `padded` is the file. -/
theorem drop_padded {q : Nat} (hq : q ≤ f.length) :
    (padded f heap).drop q = (f.bytes heap f.length).drop q ++ (padded f heap).drop f.length := by
  have htake : (padded f heap).take f.length = f.bytes heap f.length :=
    RAMFile.take_bytesFrom f heap length_le_padded
  rw [← htake, ← List.drop_append_of_le_length (by simp [htake, RAMFile.bytes,
    RAMFile.bytesFrom_length, hq]), List.take_append_drop]

variable (hL : 0 < f.length) (hfit : f.length ≤ f.blocks_.length * kBlockSize)
include hL hfit

/-- The first `last_block` blocks exist. -/
theorem last_block_le : (fields f).last_block ≤ f.blocks_.length := by
  simp only [fields]; unfold kBlockSize at *; omega

/-- A reader at offset `off` of block `j`, one of the first `last_block`, keeps `Inv` and
delivers `padded` from byte `j * kBlockSize + off` on. -/
theorem inv_of_block {s : IndexInput RAMIn} (hfile : s.own.file = f)
    (hlast : s.own.last_block = (fields f).last_block) (hheap : s.heap = heap) {j b off : Nat}
    (hj : j < (fields f).last_block) (hb : f.blocks_[j]? = some b)
    (hcb : s.own.current_block = j) (hstart : s.bufStart = b)
    (hend : s.bufEnd = b + kBlockSize) (hsent : s.sentinel = b + kBlockSize)
    (hcur : s.bufCur = b + off) (hoff : off ≤ kBlockSize) :
    Inv f heap s ∧
      IndexInput.remaining (source f heap) s = (padded f heap).drop (j * kBlockSize + off) := by
  have hlt := last_block_le hL hfit
  obtain ⟨hj', rfl⟩ := List.getElem?_eq_some_iff.1 hb
  have h0 : s.bufStart ≠ 0 := by
    rw [hstart]; exact Nat.pos_iff_ne_zero.1 (f.blocks_pos _ (List.getElem_mem _))
  refine ⟨⟨hfile, hlast, hheap, fun h => absurd h h0, fun _ => ⟨by omega, ?_, by omega, by omega,
    by omega, by omega⟩⟩, ?_⟩
  · rw [hfile, hcb, hstart, hb]
  · rw [padded, RAMFile.drop_bytes_block f heap hlt hj hoff, IndexInput.remaining, source,
      if_neg h0, hcb, hheap, hcur, hsent, padded]
    congr 2
    omega

/-- The reader supplies `padded`. -/
theorem supplies : IndexInput.Supplies impl (Inv f heap) (source f heap) where
  bounds s h := by
    by_cases h0 : s.bufStart = 0
    · obtain ⟨h₁, h₂, -⟩ := h.unbuffered h0
      exact ⟨by omega, fun h' => absurd h0 h'⟩
    · have hb := h.buffered h0
      exact ⟨hb.cur_le, fun _ => ⟨hb.start_le, hb.sentinel_eq.le⟩⟩
  moveTo s c p h hc hc' := by
    refine ⟨⟨h.file, h.last_block, h.heap, fun h0 => ?_, fun h0 => ?_⟩, rfl⟩
    · obtain ⟨h₁, h₂, h₃⟩ := h.unbuffered h0
      exact ⟨show c = 0 by omega, h₂, h₃⟩
    · have hb := h.buffered h0
      exact ⟨hb.block_lt, hb.block, hb.end_eq, hb.sentinel_eq, le_trans hb.start_le hc, hc'⟩
  fill_chunk s h hc hsrc := by
    have hlt := last_block_le hL hfit
    have hp : IndexInput.hasPendingData s = false := by
      simp [IndexInput.hasPendingData, IndexInput.getNumReadableBytes, hc]
    by_cases h0 : s.bufStart = 0
    · have hj : 0 < (fields f).last_block := Nat.succ_pos _
      obtain ⟨b, hb⟩ : ∃ b, f.blocks_[0]? = some b := ⟨_, List.getElem?_eq_getElem (by omega)⟩
      refine ⟨_, fillImpl_of_unbuffered hp h0 (h.file ▸ hb), ?_⟩
      rw [if_neg (by rw [h.last_block]; exact Nat.succ_ne_zero _)]
      obtain ⟨hinv, hrem⟩ := inv_of_block hL hfit
        (s := { s with bufStart := b, bufEnd := b + kBlockSize, bufCur := b,
                       sentinel := b + kBlockSize })
        h.file h.last_block h.heap hj hb (h.unbuffered h0).2.2 rfl rfl rfl (Nat.add_zero b).symm
        (Nat.zero_le _)
      refine ⟨hinv, Nat.lt_add_of_pos_right kBlockSize_pos, ?_, rfl⟩
      simp [hrem, source, h0]
    · have hin := h.buffered h0
      have hnext : s.own.current_block + 1 < (fields f).last_block := by
        have := List.length_pos.2 hsrc
        simp only [source, if_neg h0, List.length_drop, padded, RAMFile.bytes,
          RAMFile.bytesFrom_length] at this
        have := Nat.lt_of_mul_lt_mul_right (Nat.lt_of_sub_pos this)
        omega
      obtain ⟨b, hb⟩ : ∃ b, f.blocks_[s.own.current_block + 1]? = some b :=
        ⟨_, List.getElem?_eq_getElem (by omega)⟩
      refine ⟨_, fillImpl_of_next hp h0 (by rw [h.last_block]; omega) (h.file ▸ hb), ?_⟩
      rw [if_neg (by rw [h.last_block]; omega)]
      obtain ⟨hinv, hrem⟩ := inv_of_block hL hfit
        (s := { s with bufStart := b, bufEnd := b + kBlockSize, bufCur := b,
                       sentinel := b + kBlockSize,
                       own := { s.own with current_block := s.own.current_block + 1 } })
        h.file h.last_block h.heap hnext hb rfl rfl rfl rfl (Nat.add_zero b).symm (Nat.zero_le _)
      refine ⟨hinv, Nat.lt_add_of_pos_right kBlockSize_pos, ?_, rfl⟩
      rw [hrem, source, if_neg h0, Nat.add_zero]

/-- `seek(p)` inside the file moves the reader to byte `p` of `padded`. -/
theorem seek_reads {s : IndexInput RAMIn} (h : Inv f heap s) {p : Nat} (hp : p < f.length) :
    ∃ s', seek p s = .ok () s' ∧ Inv f heap s' ∧
      IndexInput.remaining (source f heap) s' = (padded f heap).drop p ∧ s'.pos = s.pos := by
  have hlt := last_block_le hL hfit
  have hj : p / kBlockSize < (fields f).last_block := by
    simp only [fields]; unfold kBlockSize at *; omega
  obtain ⟨b, hb⟩ : ∃ b, f.blocks_[p / kBlockSize]? = some b :=
    ⟨_, List.getElem?_eq_getElem (by omega)⟩
  obtain ⟨hinv, hrem⟩ := inv_of_block hL hfit
    (s := { s with bufStart := b, bufEnd := b + kBlockSize, bufCur := b + p % kBlockSize,
                   sentinel := b + kBlockSize,
                   own := { s.own with current_block := p / kBlockSize } })
    h.file h.last_block h.heap hj hb rfl rfl rfl rfl rfl (Nat.mod_lt _ kBlockSize_pos).le
  refine ⟨_, ?_, hinv, by rw [hrem, Nat.div_add_mod'], rfl⟩
  have hne : p / kBlockSize ≠ s.own.last_block := by rw [h.last_block]; omega
  simp only [seek, setBlock, RAMFile.block, Op.bind_apply, Op.get_apply, Op.modify_apply,
    Op.set_apply, Op.pure_apply, assert_apply, h.file, hp, decide_True, if_true, hb, if_neg hne]
  rfl

end Inside

/-! ## Runs -/

/-- A call on the reader: one of the data input interface, or `seek`. -/
inductive RCall where
  | read (c : IndexInput.ReadCall)
  | seek (p : Nat)
  deriving DecidableEq, Repr

/-- The calls, one after another, on the reader; the results of the reads. -/
def run : List RCall → Op (IndexInput RAMIn) (List IndexInput.InResult)
  | [] => pure []
  | .read c :: cs => do
    let r ← c.run impl
    let rs ← run cs
    pure (r :: rs)
  | .seek p :: cs => do
    RAMFileIndexInput.seek p
    run cs

/-- The calls on the bytes `F` of the file with a cursor at `q`: each read as
`ReadCall.inside` gives it, when it stays inside `F`, and `seek(p)` for `p < |F|`. The results of
the reads, and the cursor at the end. -/
def specRun (F : List UInt8) : List RCall → Nat → Option (List IndexInput.InResult × Nat)
  | [], q => some ([], q)
  | .read c :: cs, q =>
    (c.inside (F.drop q)).bind fun r =>
      (specRun F cs (q + r.2)).map fun rs => (r.1 :: rs.1, rs.2)
  | .seek p :: cs, _ => if p < F.length then specRun F cs p else none

/-- The number of bytes the reads of `cs` take from `F`, from the cursor `q` on: a `seek` takes
none. -/
def delivered (F : List UInt8) : List RCall → Nat → Nat
  | [], _ => 0
  | .read c :: cs, q =>
    match c.inside (F.drop q) with
    | some r => r.2 + delivered F cs (q + r.2)
    | none => 0
  | .seek p :: cs, _ => delivered F cs p

/-- Calls after calls that returned: the results of the first, then those of the rest. -/
theorem run_append {cs : List RCall} {s s₁ : IndexInput RAMIn} {rs : List IndexInput.InResult}
    (h : run cs s = .ok rs s₁) (cs' : List RCall) :
    run (cs ++ cs') s = ((rs ++ ·) <$> run cs') s₁ := by
  induction cs generalizing s rs with
  | nil =>
    cases h
    rw [List.nil_append, Op.map_apply]
    cases run cs' s₁ <;> rfl
  | cons c cs ih =>
    cases c with
    | read c =>
      obtain ⟨r, s₀, hc, h⟩ := Op.bind_eq_ok.1 h
      obtain ⟨rs₀, _, hrest, h⟩ := Op.bind_eq_ok.1 h
      cases h
      show (c.run impl >>= fun r => run (cs ++ cs') >>= fun rs => pure (r :: rs)) s = _
      simp only [Op.bind_apply, hc, ih hrest, Op.map_apply]
      cases run cs' s₁ <;> rfl
    | seek p =>
      obtain ⟨_, s₀, hp, hrest⟩ := Op.bind_eq_ok.1 h
      show (RAMFileIndexInput.seek p >>= fun _ => run (cs ++ cs')) s = _
      simp only [Op.bind_apply, hp, ih hrest]

/-- Reads alone are `insideRun` on the bytes from the cursor on. -/
theorem specRun_reads (F : List UInt8) (cs : List IndexInput.ReadCall) (q : Nat) :
    specRun F (cs.map .read) q =
      (IndexInput.insideRun cs (F.drop q)).map fun r => (r.1, q + r.2) := by
  induction cs generalizing q with
  | nil => rfl
  | cons c cs ih =>
    simp only [List.map_cons, specRun, IndexInput.insideRun, ih, List.drop_drop]
    cases c.inside (F.drop q) with
    | none => rfl
    | some r => simp only [Option.some_bind, Option.map_map, Nat.add_assoc]; rfl

section Run

variable {f : RAMFile} {heap : Heap} (hL : 0 < f.length)
  (hfit : f.length ≤ f.blocks_.length * kBlockSize)
include hL hfit

/-- From a reader at byte `q` of the file, the calls return what `specRun` says, leave the
reader at the cursor `specRun` ends with, and advance `pos` by the bytes the reads deliver. -/
theorem run_inv (cs : List RCall) :
    ∀ {s : IndexInput RAMIn} {q : Nat} {rs : List IndexInput.InResult} {q' : Nat},
      Inv f heap s → IndexInput.remaining (source f heap) s = (padded f heap).drop q →
      q ≤ f.length → specRun (f.bytes heap f.length) cs q = some (rs, q') →
      ∃ s', run cs s = .ok rs s' ∧ Inv f heap s' ∧
        IndexInput.remaining (source f heap) s' = (padded f heap).drop q' ∧
        s'.pos = s.pos + delivered (f.bytes heap f.length) cs q := by
  induction cs with
  | nil =>
    rintro s q rs q' h hr - ⟨⟩
    exact ⟨s, rfl, h, hr, rfl⟩
  | cons c cs ih =>
    intro s q rs q' h hr hq hspec
    cases c with
    | read c =>
      obtain ⟨⟨r, k⟩, hc, hspec'⟩ := Option.bind_eq_some.1 hspec
      obtain ⟨⟨rs', q''⟩, hrest, heq⟩ := Option.map_eq_some'.1 hspec'
      cases heq
      have hk := IndexInput.ReadCall.inside_le hc
      simp only [List.length_drop, RAMFile.bytes, RAMFile.bytesFrom_length] at hk
      have hc' : c.inside (IndexInput.remaining (source f heap) s) = some (r, k) := by
        rw [hr, drop_padded hq]; exact IndexInput.ReadCall.inside_append _ hc
      obtain ⟨s₁, hrun₁, h₁, -, hr₁, hp₁⟩ :=
        IndexInput.ReadCall.run_inside (supplies hL hfit) h c hc'
      obtain ⟨s₂, hrun₂, h₂, hr₂, hp₂⟩ :=
        ih h₁ (by rw [hr₁, hr, List.drop_drop]) (by omega) hrest
      refine ⟨s₂, by simp only [run, Op.bind_apply, hrun₁, hrun₂, Op.pure_apply], h₂, hr₂, ?_⟩
      rw [hp₂, hp₁, delivered, hc, Nat.add_assoc]
    | seek p =>
      simp only [specRun, RAMFile.bytes, RAMFile.bytesFrom_length] at hspec
      split_ifs at hspec with hp
      obtain ⟨s₁, hseek, h₁, hr₁, hp₁⟩ := seek_reads hL hfit h hp
      obtain ⟨s₂, hrun₂, h₂, hr₂, hp₂⟩ := ih h₁ hr₁ hp.le hspec
      exact ⟨s₂, by simp only [run, Op.bind_apply, hseek, hrun₂], h₂, hr₂, by rw [hp₂, hp₁]; rfl⟩

end Run

/-- A new reader has no buffer: it is to deliver all of `padded`. -/
theorem inv_create (f : RAMFile) (heap : Heap) :
    Inv f heap (IndexInput.create heap (fields f)) ∧
      IndexInput.remaining (source f heap) (IndexInput.create heap (fields f)) = padded f heap :=
  ⟨⟨rfl, rfl, rfl, fun _ => ⟨rfl, rfl, rfl⟩, fun h => absurd rfl h⟩, rfl⟩

/-- `run_inv` from the reader `openInput` creates. -/
theorem run_create {f : RAMFile} {heap : Heap} (hL : 0 < f.length)
    (hfit : f.length ≤ f.blocks_.length * kBlockSize) (cs : List RCall)
    {rs : List IndexInput.InResult} {q : Nat}
    (hspec : specRun (f.bytes heap f.length) cs 0 = some (rs, q)) :
    ∃ s, run cs (IndexInput.create heap (fields f)) = .ok rs s ∧ Inv f heap s ∧
      IndexInput.remaining (source f heap) s = (padded f heap).drop q ∧
      s.pos = delivered (f.bytes heap f.length) cs 0 :=
  let ⟨s, hrun, h, hr, hp⟩ := run_inv hL hfit cs (inv_create f heap).1
    ((inv_create f heap).2.trans (List.drop_zero _).symm) (Nat.zero_le _) hspec
  ⟨s, hrun, h, hr, hp.trans (Nat.zero_add _)⟩

/-- For a file of `L ≥ 1` bytes within its blocks, every sequence of calls that stays inside the
file returns on a new reader what it returns on the bytes of the file with a cursor, and leaves
the reader, under `Inv`, with the bytes from the final cursor on still to deliver. -/
theorem run_refines_file (f : RAMFile) (heap : Heap) (hL : 0 < f.length)
    (hfit : f.length ≤ f.blocks_.length * kBlockSize) (cs : List RCall)
    {rs : List IndexInput.InResult} {q : Nat}
    (hspec : specRun (f.bytes heap f.length) cs 0 = some (rs, q)) :
    ∃ s, run cs (IndexInput.create heap (fields f)) = .ok rs s ∧ Inv f heap s ∧
      IndexInput.remaining (source f heap) s = (padded f heap).drop q :=
  let ⟨s, hrun, h, hr, _⟩ := run_create hL hfit cs hspec
  ⟨s, hrun, h, hr⟩

/-- A committed file of `n` bytes in one block, at address `1`. -/
def oneBlock (n : Nat) : RAMFile :=
  ⟨[1], n, 1, fun _ h => List.mem_singleton.1 h ▸ Nat.one_pos⟩

/-- A file of three bytes in one block: a `readByte`, a `seek(0)` and a `read(3)` return its
first byte and then the whole file. -/
theorem run_refines_file_reread :
    0 < 3 ∧ 3 ≤ 1 * kBlockSize ∧
      specRun ((oneBlock 3).bytes (Heap.zero.store 1 [7, 8, 9]) 3)
        [.read .readByte, .seek 0, .read (.read 3)] 0 = some ([.byte 7, .bytes [7, 8, 9]], 3) ∧
      ∃ s, run [.read .readByte, .seek 0, .read (.read 3)]
          (IndexInput.create (Heap.zero.store 1 [7, 8, 9]) (fields (oneBlock 3)))
          = .ok [.byte 7, .bytes [7, 8, 9]] s ∧
        Inv (oneBlock 3) (Heap.zero.store 1 [7, 8, 9]) s ∧
        IndexInput.remaining (source (oneBlock 3) (Heap.zero.store 1 [7, 8, 9])) s =
          (padded (oneBlock 3) (Heap.zero.store 1 [7, 8, 9])).drop 3 :=
  ⟨by decide, by decide, rfl, run_refines_file _ _ (by decide) (by decide) _ rfl⟩

/-! ## The position -/

/-- On a committed file, every sequence of calls inside it returns what the byte sequence gives,
and `getCurrentPosition()` is the number of bytes the calls delivered. -/
theorem run_position (f : RAMFile) (heap : Heap) (hL : 0 < f.length)
    (hfit : f.length ≤ f.blocks_.length * kBlockSize) (cs : List RCall)
    {rs : List IndexInput.InResult} {q : Nat}
    (hspec : specRun (f.bytes heap f.length) cs 0 = some (rs, q)) :
    ∃ s, run cs (IndexInput.create heap (fields f)) = .ok rs s ∧
      IndexInput.remaining (source f heap) s = (padded f heap).drop q ∧
      s.getCurrentPosition = delivered (f.bytes heap f.length) cs 0 :=
  let ⟨s, hrun, _, hr, hp⟩ := run_create hL hfit cs hspec
  ⟨s, hrun, hr, hp⟩

/-- A file of two bytes: after `seek(1)` the next byte is byte `1`, and `getCurrentPosition()`
is still `0`. -/
theorem run_position_seek :
    0 < 2 ∧ 2 ≤ 1 * kBlockSize ∧
      specRun ((oneBlock 2).bytes (Heap.zero.store 1 [7, 8]) 2) [.seek 1] 0 = some ([], 1) ∧
      ∃ s, run [.seek 1] (IndexInput.create (Heap.zero.store 1 [7, 8]) (fields (oneBlock 2)))
          = .ok [] s ∧
        IndexInput.remaining (source (oneBlock 2) (Heap.zero.store 1 [7, 8])) s =
          (padded (oneBlock 2) (Heap.zero.store 1 [7, 8])).drop 1 ∧
        s.getCurrentPosition = 0 :=
  ⟨by decide, by decide, rfl, run_position _ _ (by decide) (by decide) _ rfl⟩

/-! ## At the end of the file -/

theorem padded_length (f : RAMFile) (heap : Heap) :
    (padded f heap).length = (fields f).last_block * kBlockSize := by
  simp only [padded, RAMFile.bytes, RAMFile.bytesFrom_length]

section End

variable {f : RAMFile} {heap : Heap} (hL : 0 < f.length)
  (hfit : f.length ≤ f.blocks_.length * kBlockSize)
include hL hfit

/-- With nothing pending and its buffer on one of the blocks, the reader's `eof()` asks
`fillImpl` for the next block, which is never `last_block`'s end: it returns `false`, or indexes
`blocks_` past its end. -/
theorem eof_of_drained {s : IndexInput RAMIn} (h : Inv f heap s)
    (hr : IndexInput.remaining (source f heap) s = []) :
    (∃ s', IndexInput.eof impl s = .ok false s') ∨
      ∃ s', IndexInput.eof impl s = .error .undefined s' := by
  have hlen := congrArg List.length hr
  simp only [IndexInput.remaining, List.length_append, Heap.load_length, List.length_nil] at hlen
  have hcur := (supplies hL hfit).bounds s h |>.cur_le_sentinel
  have he : s.bufCur = s.sentinel := by omega
  have h0 : s.bufStart ≠ 0 := fun h0 => by
    have := padded_length f heap
    simp only [source, if_pos h0, List.drop_zero, this] at hlen
    have : 0 < (fields f).last_block * kBlockSize := Nat.mul_pos (Nat.succ_pos _) kBlockSize_pos
    omega
  have hne := Nat.ne_of_lt (h.buffered h0).block_lt
  have hp : IndexInput.hasPendingData s = false := by
    simp [IndexInput.hasPendingData, IndexInput.getNumReadableBytes, he]
  cases hb : s.own.file.blocks_[s.own.current_block + 1]? with
  | none =>
    obtain ⟨s', hf⟩ := fillImpl_of_none hp (by rw [if_neg h0]; exact hb) (.inr hne)
    exact .inr ⟨s', IndexInput.eof_of_empty_error he hf⟩
  | some b => exact .inl ⟨_, IndexInput.eof_of_empty (r := true) he (fillImpl_of_next hp h0 hne hb)⟩

/-- A reader that has delivered the `L` bytes of the file: while the block the file ends in holds
bytes past it, `eof()` is `false` and `readByte` returns the next of them; when the file fills
that block, `eof()` is `false` or undefined. -/
theorem at_end {s : IndexInput RAMIn} (h : Inv f heap s)
    (hr : IndexInput.remaining (source f heap) s = (padded f heap).drop f.length) :
    ((∃ s', IndexInput.eof impl s = .ok false s') ∨
      (f.length % kBlockSize = 0 ∧ ∃ s', IndexInput.eof impl s = .error .undefined s')) ∧
    (f.length % kBlockSize ≠ 0 → ∃ b s', (padded f heap)[f.length]? = some b ∧
      IndexInput.readByte impl s = .ok b s') := by
  have hlen := padded_length f heap
  simp only [fields] at hlen
  by_cases hm : f.length % kBlockSize = 0
  · have hnil : (padded f heap).drop f.length = [] :=
      List.drop_eq_nil_of_le (by rw [hlen]; unfold kBlockSize at *; omega)
    exact ⟨(eof_of_drained hL hfit h (hr.trans hnil)).imp_right fun he => ⟨hm, he⟩,
      fun h' => absurd hm h'⟩
  · have hlt : f.length < (padded f heap).length := by rw [hlen]; unfold kBlockSize at *; omega
    have hcons := List.drop_eq_getElem_cons hlt
    refine ⟨.inl ?_, fun _ => ?_⟩
    · obtain ⟨s', he, -⟩ := IndexInput.eof_false (supplies hL hfit) h
        (by rw [hr, hcons]; exact List.cons_ne_nil _ _)
      exact ⟨s', he⟩
    · obtain ⟨s', hb, -⟩ := IndexInput.readByte_reads (supplies hL hfit) h (hr.trans hcons)
      exact ⟨_, s', List.getElem?_eq_getElem hlt, hb⟩

end End

/-- Whatever calls take a reader to the end of the file, the reader does not report it: `eof()`
returns `false`, or, on a file that fills its last block, indexes `blocks_` past the data; and
while the last block holds bytes past the end, `readByte` returns the next of them. -/
theorem eof_past_end (f : RAMFile) (heap : Heap) (hL : 0 < f.length)
    (hfit : f.length ≤ f.blocks_.length * kBlockSize) (cs : List RCall)
    {rs : List IndexInput.InResult}
    (hspec : specRun (f.bytes heap f.length) cs 0 = some (rs, f.length)) :
    ∃ s, run cs (IndexInput.create heap (fields f)) = .ok rs s ∧
      ((∃ s', IndexInput.eof impl s = .ok false s') ∨
        (f.length % kBlockSize = 0 ∧ ∃ s', IndexInput.eof impl s = .error .undefined s')) ∧
      (f.length % kBlockSize ≠ 0 → ∃ b s', (padded f heap)[f.length]? = some b ∧
        IndexInput.readByte impl s = .ok b s') :=
  let ⟨s, hrun, h, hr, _⟩ := run_create hL hfit cs hspec
  ⟨s, hrun, at_end hL hfit h hr⟩

/-- A file of one byte, `7`, in a block whose next byte is `8`: one `readByte` takes the reader
to the end of the file. -/
theorem eof_past_end_one_byte :
    0 < 1 ∧ 1 ≤ 1 * kBlockSize ∧
      specRun ((oneBlock 1).bytes (Heap.zero.store 1 [7, 8]) 1) [.read .readByte] 0 =
        some ([.byte 7], 1) ∧
      ∃ s, run [.read .readByte] (IndexInput.create (Heap.zero.store 1 [7, 8]) (fields (oneBlock 1)))
          = .ok [.byte 7] s ∧
        ((∃ s', IndexInput.eof impl s = .ok false s') ∨
          (1 % kBlockSize = 0 ∧ ∃ s', IndexInput.eof impl s = .error .undefined s')) ∧
        (1 % kBlockSize ≠ 0 → ∃ b s',
          (padded (oneBlock 1) (Heap.zero.store 1 [7, 8]))[1]? = some b ∧
          IndexInput.readByte impl s = .ok b s') :=
  ⟨by decide, by decide, rfl, eof_past_end _ _ (by decide) (by decide) _ rfl⟩

/-- The same file: after the `readByte` that returns `7`, `eof()` is `false` and the next
`readByte` returns `8`; `seek(1)` fails its assertion. -/
example :
    ∃ s₁ s₂ s₃ s₄,
      IndexInput.readByte impl (IndexInput.create (Heap.zero.store 1 [7, 8])
        (fields (oneBlock 1))) = .ok 7 s₁ ∧
      IndexInput.eof impl s₁ = .ok false s₂ ∧
      IndexInput.readByte impl s₂ = .ok 8 s₃ ∧
      seek 1 s₁ = .error (.assertion "Seeking past the end of  file is not supported!") s₄ :=
  ⟨_, _, _, _, rfl, rfl, rfl, rfl⟩

end RAMFileIndexInput

end Lucanthrope
