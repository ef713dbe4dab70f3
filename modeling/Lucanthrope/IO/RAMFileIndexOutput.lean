import Lucanthrope.IO.OutputRuns
import Lucanthrope.Storage.RAMFile

/-!
# `RAMFileIndexOutput` refines a byte array with a cursor

`RAMFileIndexOutput` writes a `RAMFile` in place: its buffer is always a block of the file, so
`writeImpl` has nothing to copy. With room left in the block it only moves `bufStart` past the
written bytes; with the block full it moves the buffer to the next block, allocating it when
there is none. `seek` moves the buffer to the block of the new position, and the destructor
raises `length` to `pos` and commits the file to the directory.

What the class is for is `Cursor`: a byte array `data` with a cursor `cur ≤ |data|`. Writing `d`
sets `data[cur, cur + |d|) := d`, extending `data` past its end, and advances `cur`; `seek(p)`
for `p ≤ |data|` sets `cur := p`. `Rep a s` says the stream `s` holds the array `a`:

* `Stored`: byte `i` of `data` is `blocks_[i / kBlockSize][i % kBlockSize]`, the blocks are placed
  as the allocator placed them (`RAMFile.Placed`), and `data` fits in the blocks;
* `pos = cur` and `|data| = max(length, cur)`: `length` lags behind the high-water mark of the
  cursor until the next `writeImpl`, `seek` or destructor;
* the buffer is absent, with no blocks yet, or it is block `current_block` from `bufStart` on
  (`InBlock`), with `cur = current_block * kBlockSize + (bufCur - blocks_[current_block])`.

`Rep` is a `WriteInv` for `Cursor.write` (`rep_writeInv`), so `runCalls_inv` covers the data
output interface, and `seek_rep` adds `seek`. Every block index the code uses is then in range:
an index out of range is undefined behaviour in the model, and every call returns.

> `run_refines_cursor`: from a new stream, every sequence of writes, typed writes, `flush` and
> `seek(p)` with `p` at most the largest position reached returns; after it `Rep a s` holds for
> the array `a` the same calls give, so `getCurrentPosition()` is `a.cur`; and the file the
> destructor commits has `length = |a.data|` and its bytes are `a.data`.

Mirroring notes: `preferredBufferSize` is not called by any modelled code and is left out; the
destructor is `finish`, the file it passes to `RAMDirectory::commit` (`RAMDirectory.lean`).
-/

namespace Lucanthrope

/-- The fields of `RAMFileIndexOutput`: the file it writes, and the index of the block its
buffer is. -/
structure RAMOut where
  file : RAMFile
  current_block : Nat

namespace RAMFileIndexOutput

/-- The stream after `file->alloc()`. -/
def withBlock (s : IndexOutput RAMOut) : IndexOutput RAMOut :=
  { s with heap := (s.own.file.alloc s.heap).2,
           own := { s.own with file := (s.own.file.alloc s.heap).1 } }

/-- `file->alloc()`. -/
def allocBlock : Op (IndexOutput RAMOut) Unit :=
  modify withBlock

/-- `set(file->blocks_[i], RAMDirectory::RAMFile::kBlockSize)`. -/
def setBlock (i : Nat) : Op (IndexOutput RAMOut) Unit := do
  let s ← get
  let b ← s.own.file.block i
  set { s with toIndexIOBase := s.toIndexIOBase.set b kBlockSize }

/-- The stream after `if (file->length < pos) file->length = pos;`. -/
def noted (s : IndexOutput RAMOut) : IndexOutput RAMOut :=
  { s with own := { s.own with file := s.own.file.noteLength s.pos } }

/-- `if (file->length < pos) file->length = pos;` -/
def noteLength : Op (IndexOutput RAMOut) Unit :=
  modify noted

/-- `RAMFileIndexOutput::initInternalBuffer`. -/
def initInternalBuffer : Op (IndexOutput RAMOut) Unit := do
  allocBlock
  setBlock 0
  modify fun s => { s with bufCur := s.bufStart }

/-- `RAMFileIndexOutput::writeImpl`. -/
def writeImpl : Op (IndexOutput RAMOut) Unit := do
  noteLength
  let s ← get
  if s.bufCur = s.bufEnd then
    if s.own.current_block = s.own.file.lastIndex then allocBlock
    modify fun s => { s with own := { s.own with current_block := s.own.current_block + 1 } }
    let s ← get
    setBlock s.own.current_block
  else
    set { s with bufStart := s.bufCur }

/-- `RAMFileIndexOutput::seek`. -/
def seek (seek_pos : Nat) : Op (IndexOutput RAMOut) Unit := do
  noteLength
  let s ← get
  assert (decide (seek_pos ≤ s.own.file.length))
    "Seeking past one-past-the-end of file is not supported!"
  set { s with own := { s.own with current_block := seek_pos / kBlockSize } }
  let s ← get
  if s.own.current_block = s.own.file.blocks_.length then allocBlock
  let s ← get
  setBlock s.own.current_block
  modify fun s => { s with bufCur := s.bufStart + seek_pos % kBlockSize, pos := seek_pos }

theorem setBlock_apply {i b : Nat} {s : IndexOutput RAMOut} (hb : s.own.file.blocks_[i]? = some b) :
    setBlock i s = .ok () { s with toIndexIOBase := s.toIndexIOBase.set b kBlockSize } := by
  simp [setBlock, RAMFile.block_apply _ hb]

theorem initInternalBuffer_apply (s : IndexOutput RAMOut) :
    ∃ b, (withBlock s).own.file.blocks_[0]? = some b ∧
      initInternalBuffer s =
        .ok () { withBlock s with bufStart := b, bufEnd := b + kBlockSize, bufCur := b } := by
  have h0 : 0 < (withBlock s).own.file.blocks_.length := by simp [withBlock]
  refine ⟨_, List.getElem?_eq_getElem h0, ?_⟩
  simp only [initInternalBuffer, allocBlock, Op.bind_apply, Op.modify_apply,
    setBlock_apply (List.getElem?_eq_getElem h0)]
  rfl

/-- The internal buffer of a `RAMFileIndexOutput` is a block of its file, which is never at
`nullptr`. -/
def impl : OutputImpl RAMOut where
  initInternalBuffer := initInternalBuffer
  writeImpl := writeImpl
  supportsExternalBuffer := false
  initInternalBuffer_attaches s s' h := by
    obtain ⟨b, hb, hi⟩ := initInternalBuffer_apply s
    rw [hi] at h
    cases h
    exact ⟨(RAMFile.blocks_pos _ b (List.mem_iff_getElem?.2 ⟨0, hb⟩)).ne', rfl⟩

/-- `RAMFileIndexOutput(d, fname)`: a new stream writing a new file. -/
def construct (heap : Heap) : IndexOutput RAMOut :=
  IndexOutput.create heap ⟨RAMFile.create, 0⟩

/-- The file `~RAMFileIndexOutput` passes to `commit`: `length` raised to `pos`. -/
def finish (s : IndexOutput RAMOut) : RAMFile :=
  s.own.file.noteLength s.pos

end RAMFileIndexOutput

/-! ## The abstract model -/

/-- A byte array with a cursor at most its length. -/
@[ext] structure Cursor where
  data : List UInt8
  cur : Nat
  cur_le : cur ≤ data.length

namespace Cursor

/-- No bytes, the cursor at `0`. -/
def empty : Cursor := ⟨[], 0, le_refl _⟩

/-- Writing `d`: `data[cur, cur + |d|) := d`, extending `data` past its end, and
`cur := cur + |d|`. -/
def write (a : Cursor) (d : List UInt8) : Cursor :=
  ⟨a.data.take a.cur ++ d ++ a.data.drop (a.cur + d.length), a.cur + d.length, by
    simp only [List.length_append, List.length_take, List.length_drop]
    have := a.cur_le
    omega⟩

/-- `seek(p)`: `cur := p`, for `p ≤ |data|`. -/
def seek (a : Cursor) (p : Nat) : Option Cursor :=
  if h : p ≤ a.data.length then some ⟨a.data, p, h⟩ else none

variable (a : Cursor) (d : List UInt8)

@[simp] theorem write_cur : (a.write d).cur = a.cur + d.length := rfl

@[simp] theorem write_length : (a.write d).data.length = max a.data.length (a.cur + d.length) := by
  simp only [write, List.length_append, List.length_take, List.length_drop]
  have := a.cur_le
  omega

theorem getElem?_write (i : Nat) :
    (a.write d).data[i]? =
      if i < a.cur then a.data[i]? else if i < a.cur + d.length then d[i - a.cur]? else a.data[i]? := by
  have := a.cur_le
  have htake : (a.data.take a.cur).length = a.cur := by simp; omega
  simp only [write]
  split_ifs with h₁ h₂
  · rw [List.append_assoc, List.getElem?_append_left (by omega), List.getElem?_take, if_pos h₁]
  · rw [List.append_assoc, List.getElem?_append_right (by omega), htake,
      List.getElem?_append_left (by omega)]
  · rw [List.getElem?_append_right (by simp; omega), List.getElem?_drop]
    simp only [List.length_append, htake]
    congr 1
    omega

theorem write_nil : a.write [] = a := by
  ext1
  · apply List.ext_getElem?
    intro i
    rw [getElem?_write]
    split_ifs <;> first | rfl | simp at *; omega
  · simp

theorem write_append (d₁ d₂ : List UInt8) : a.write (d₁ ++ d₂) = (a.write d₁).write d₂ := by
  ext1
  · apply List.ext_getElem?
    intro i
    simp only [getElem?_write, write_cur, List.length_append]
    split_ifs <;> first
      | rfl
      | omega
      | rw [List.getElem?_append_left (by omega)]
      | rw [List.getElem?_append_right (by omega)]; congr 1; omega
  · simp [Nat.add_assoc]

@[simp] theorem empty_write_data : (empty.write d).data = d := by
  simp [write, empty]

end Cursor

namespace RAMFileIndexOutput

/-! ## The representation -/

/-- The bytes `data` are the first bytes of the file `f` in the memory `h`. -/
structure Stored (data : List UInt8) (h : Heap) (f : RAMFile) : Prop where
  placed : f.Placed h
  fits : data.length ≤ f.blocks_.length * kBlockSize
  contents : ∀ i < data.length, data[i]? = some (h.mem (f.blockAddr i))

/-- The buffer is block `current_block`, at address `b`, from `bufStart` on, with the cursor at
byte `cur` of the file. -/
structure InBlock (cur b : Nat) (s : IndexOutput RAMOut) : Prop where
  block : s.own.file.blocks_[s.own.current_block]? = some b
  start_ge : b ≤ s.bufStart
  start_lt : s.bufStart < s.bufEnd
  start_le_cur : s.bufStart ≤ s.bufCur
  cur_le_end : s.bufCur ≤ s.bufEnd
  end_eq : s.bufEnd = b + kBlockSize
  cursor : cur = s.own.current_block * kBlockSize + (s.bufCur - b)

/-- The stream `s` holds the byte array `a`. -/
structure Rep (a : Cursor) (s : IndexOutput RAMOut) : Prop where
  stored : Stored a.data s.heap s.own.file
  position : s.pos = a.cur
  length_eq : a.data.length = max s.own.file.length a.cur
  unbuffered : s.bufStart = 0 →
    s.own.file.blocks_ = [] ∧ s.bufCur = 0 ∧ s.bufEnd = 0 ∧ s.own.current_block = 0
  buffered : s.bufStart ≠ 0 → ∃ b, InBlock a.cur b s

section Stored

variable {data : List UInt8} {h : Heap} {f : RAMFile}

theorem Stored.of_blocks {g : RAMFile} (hs : Stored data h f) (hb : g.blocks_ = f.blocks_) :
    Stored data h g := by
  have ha : g.blockAddr = f.blockAddr := funext fun i => by simp [RAMFile.blockAddr, hb]
  exact ⟨⟨hb ▸ hs.placed.spaced, hb ▸ hs.placed.below⟩, hb ▸ hs.fits, ha ▸ hs.contents⟩

theorem Stored.alloc (hs : Stored data h f) : Stored data (f.alloc h).2 (f.alloc h).1 where
  placed := hs.placed.alloc
  fits := by
    simp only [RAMFile.alloc_blocks, List.length_append, List.length_singleton, Nat.add_mul,
      Nat.one_mul]
    have := hs.fits
    omega
  contents i hi := by
    rw [RAMFile.blockAddr_alloc _ _ (by have := hs.fits; omega), RAMFile.alloc_heap,
      Heap.alloc_mem]
    exact hs.contents i hi

/-- Writing `d` at byte `cur = j * kBlockSize + off` of the file, inside block `j`. -/
theorem Stored.write {a : Cursor} (hs : Stored a.data h f) {j off : Nat}
    (hj : j < f.blocks_.length) {d : List UInt8} (hd : off + d.length ≤ kBlockSize)
    (hcur : a.cur = j * kBlockSize + off) :
    Stored (a.write d).data (h.store (f.blocks_[j] + off) d) f where
  placed := ⟨hs.placed.spaced, hs.placed.below⟩
  fits := by
    rw [Cursor.write_length]
    have := hs.fits
    have : j * kBlockSize + kBlockSize ≤ f.blocks_.length * kBlockSize := by
      rw [← Nat.succ_mul]; exact Nat.mul_le_mul_right _ hj
    omega
  contents i hi := by
    have hfit : i < f.blocks_.length * kBlockSize := by
      have : j * kBlockSize + kBlockSize ≤ f.blocks_.length * kBlockSize := by
        rw [← Nat.succ_mul]; exact Nat.mul_le_mul_right _ hj
      have := hs.fits
      rw [Cursor.write_length] at hi
      omega
    rw [Cursor.getElem?_write, RAMFile.mem_store_blockAddr hs.placed hj hd hfit, ← hcur]
    rw [Cursor.write_length] at hi
    split_ifs with h₁ h₂ h₃ h₃
    · omega
    · exact hs.contents i (by have := a.cur_le; omega)
    · rw [List.getD_eq_getElem?_getD, List.getElem?_eq_getElem (by omega)]; rfl
    · omega
    · omega
    · exact hs.contents i (by omega)

theorem Stored.bytes (hs : Stored data h f) : f.bytes h data.length = data := by
  apply List.ext_getElem?
  intro i
  rw [RAMFile.bytes, RAMFile.getElem?_bytesFrom, Nat.zero_add]
  split
  · exact (hs.contents i ‹_›).symm
  · exact (List.getElem?_eq_none (by omega)).symm

end Stored

/-! ## One call -/

section Steps

variable {a : Cursor} {s : IndexOutput RAMOut}

theorem InBlock.lt_length {cur b : Nat} (hb : InBlock cur b s) :
    s.own.current_block < s.own.file.blocks_.length :=
  (List.getElem?_eq_some_iff.1 hb.block).1

theorem Rep.bounds (hr : Rep a s) : s.bufStart ≤ s.bufCur ∧ s.bufCur ≤ s.bufEnd := by
  by_cases h0 : s.bufStart = 0
  · obtain ⟨-, hc, he, -⟩ := hr.unbuffered h0
    omega
  · obtain ⟨b, hb⟩ := hr.buffered h0
    exact ⟨hb.start_le_cur, hb.cur_le_end⟩

/-- A stream whose buffer is block `current_block`, from its start, with the cursor at offset
`off`: what `initInternalBuffer`, a `writeImpl` of a full block and `seek` leave. -/
theorem Rep.of_block {t : IndexOutput RAMOut} (hs : Stored a.data t.heap t.own.file)
    (hpos : t.pos = a.cur) (hlen : a.data.length = max t.own.file.length a.cur)
    (hb : t.own.file.blocks_[t.own.current_block]? = some t.bufStart)
    (hend : t.bufEnd = t.bufStart + kBlockSize) (off : Nat) (hcur : t.bufCur = t.bufStart + off)
    (hoff : off ≤ kBlockSize) (hc : a.cur = t.own.current_block * kBlockSize + off) : Rep a t where
  stored := hs
  position := hpos
  length_eq := hlen
  unbuffered h0 := absurd h0 (t.own.file.blocks_pos _ (List.mem_iff_getElem?.2 ⟨_, hb⟩)).ne'
  buffered _ := ⟨t.bufStart, hb, le_refl _, by unfold kBlockSize at hend; omega, by omega,
    by omega, hend, by omega⟩

theorem copied_nil (s : IndexOutput RAMOut) : IndexOutput.copied s [] = s := by
  simp [IndexOutput.copied]

/-- Copying `d` to the cursor, with room for it in the block, writes `d` into the array. -/
theorem Rep.copy (hr : Rep a s) (d : List UInt8) (hd : s.bufCur + d.length ≤ s.bufEnd) :
    Rep (a.write d) (IndexOutput.copied s d) := by
  by_cases h0 : s.bufStart = 0
  · obtain ⟨-, hc, he, -⟩ := hr.unbuffered h0
    obtain rfl : d = [] := List.eq_nil_of_length_eq_zero (by omega)
    rw [Cursor.write_nil, copied_nil]
    exact hr
  · obtain ⟨b, hb⟩ := hr.buffered h0
    have hlt := hb.lt_length
    have hbj : s.own.file.blocks_[s.own.current_block] = b :=
      (List.getElem?_eq_some_iff.1 hb.block).2
    have := hb.start_ge
    have := hb.start_le_cur
    have := hb.end_eq
    have hstore := hr.stored.write hlt (d := d) (by omega) hb.cursor
    rw [hbj, Nat.add_sub_cancel' (by omega)] at hstore
    refine ⟨hstore, by simp [IndexOutput.copied, hr.position], ?_, fun h => absurd h h0,
      fun _ => ⟨b, hb.block, hb.start_ge, hb.start_lt, ?_, hd, hb.end_eq, ?_⟩⟩
    · simp only [IndexOutput.copied, Cursor.write_length, Cursor.write_cur]
      have := hr.length_eq
      omega
    · simp only [IndexOutput.copied]; omega
    · simp only [IndexOutput.copied, Cursor.write_cur, hb.cursor]; omega

/-- `writeImpl`, with bytes pending, keeps the array and leaves the cursor before the end of
the buffer once `flushNonEmpty` resets it. -/
theorem Rep.writeImpl (hr : Rep a s) (hne : s.bufCur ≠ s.bufStart) :
    ∃ s₁, writeImpl s = .ok () s₁ ∧ Rep a { s₁ with bufCur := s₁.bufStart } ∧
      s₁.bufStart < s₁.bufEnd := by
  have h0 : s.bufStart ≠ 0 := fun h0 => by
    obtain ⟨-, hc, -, -⟩ := hr.unbuffered h0
    omega
  obtain ⟨b, hb⟩ := hr.buffered h0
  have hlen : a.data.length = max (noted s).own.file.length a.cur := by
    rw [noted, RAMFile.noteLength_length, hr.position, hr.length_eq]
    omega
  have hs : Stored a.data (noted s).heap (noted s).own.file :=
    hr.stored.of_blocks (RAMFile.noteLength_blocks _ _)
  have hcb := hb.lt_length
  by_cases hfull : s.bufCur = s.bufEnd
  · have hc : a.cur = (s.own.current_block + 1) * kBlockSize + 0 := by
      rw [hb.cursor, hfull, hb.end_eq, Nat.succ_mul]; omega
    by_cases hlast : s.own.current_block = s.own.file.lastIndex
    · have hnext : (s.own.file.blocks_ ++ [s.heap.next])[s.own.current_block + 1]? =
          some s.heap.next := by
        rw [RAMFile.lastIndex_of_ne_nil _ (List.ne_nil_of_length_pos (by omega))] at hlast
        rw [show s.own.current_block + 1 = s.own.file.blocks_.length by omega,
          List.getElem?_concat_length]
      refine ⟨{ withBlock (noted s) with
          bufStart := s.heap.next, bufEnd := s.heap.next + kBlockSize,
          own := { (withBlock (noted s)).own with current_block := s.own.current_block + 1 } },
        ?_, Rep.of_block hs.alloc hr.position hlen (by simpa [withBlock, noted] using hnext) rfl 0
          rfl (Nat.zero_le _) hc, Nat.lt_add_of_pos_right kBlockSize_pos⟩
      simp only [RAMFileIndexOutput.writeImpl, noteLength, allocBlock, setBlock, RAMFile.block,
        Op.bind_apply, Op.modify_apply, Op.get_apply, Op.set_apply, Op.pure_apply, noted,
        withBlock, RAMFile.alloc_blocks, RAMFile.noteLength_blocks, RAMFile.noteLength_lastIndex,
        if_pos hfull, if_pos hlast, hnext]
      rfl
    · have hlt : s.own.current_block + 1 < s.own.file.blocks_.length := by
        unfold RAMFile.lastIndex at hlast; split_ifs at hlast <;> omega
      have hnext := List.getElem?_eq_getElem hlt
      refine ⟨{ noted s with
          bufStart := s.own.file.blocks_[s.own.current_block + 1],
          bufEnd := s.own.file.blocks_[s.own.current_block + 1] + kBlockSize,
          own := { (noted s).own with current_block := s.own.current_block + 1 } },
        ?_, Rep.of_block hs hr.position hlen
          (by simp only [noted, RAMFile.noteLength_blocks]; exact hnext) rfl 0 rfl
          (Nat.zero_le _) hc, Nat.lt_add_of_pos_right kBlockSize_pos⟩
      simp only [RAMFileIndexOutput.writeImpl, noteLength, setBlock, RAMFile.block,
        Op.bind_apply, Op.modify_apply, Op.get_apply, Op.set_apply, Op.pure_apply, noted,
        RAMFile.noteLength_blocks, RAMFile.noteLength_lastIndex, if_pos hfull, if_neg hlast,
        hnext]
      rfl
  · have := hb.start_ge
    have := hb.start_le_cur
    have := hb.cur_le_end
    have hlt : s.bufCur < s.bufEnd := by omega
    refine ⟨{ noted s with bufStart := s.bufCur },
      by simp [RAMFileIndexOutput.writeImpl, noteLength, noted, hfull], ?_, hlt⟩
    exact ⟨hs, hr.position, hlen, fun h => absurd (show s.bufCur = 0 from h) (by omega),
      fun _ => ⟨b, by simpa [noted] using hb.block, show b ≤ s.bufCur by omega, hlt, le_refl _,
        hlt.le, hb.end_eq, hb.cursor⟩⟩

theorem Rep.flush (hr : Rep a s) (hne : s.bufCur ≠ s.bufStart) :
    ∃ s', IndexOutput.flushNonEmpty impl s = .ok () s' ∧ Rep a s' ∧ s'.bufCur < s'.bufEnd := by
  obtain ⟨s₁, hw, hr₁, hlt⟩ := hr.writeImpl hne
  have := hr.bounds
  refine ⟨_, (IndexOutput.flushNonEmpty_eq_ok impl).2 ⟨?_, s₁, hw, rfl⟩, hr₁, hlt⟩
  rw [IndexOutput.getNumWritableBytes, ptrSub_of_le this.1]
  omega

theorem Rep.init (hr : Rep a s) (h0 : s.bufStart = 0) :
    ∃ s', impl.initInternalBuffer s = .ok () s' ∧ Rep a s' := by
  obtain ⟨hbl, -, -, hcb⟩ := hr.unbuffered h0
  obtain ⟨b, hb, hi⟩ := initInternalBuffer_apply s
  have hempty : a.data = [] := by simpa [hbl] using hr.stored.fits
  have hc : a.cur = 0 := by have := a.cur_le; simp [hempty] at this; exact this
  refine ⟨_, hi, Rep.of_block hr.stored.alloc (by simpa [withBlock] using hr.position)
    (by simpa [withBlock] using hr.length_eq) (by simpa [withBlock, hcb] using hb) rfl
    0 rfl (Nat.zero_le _) (by simp [withBlock, hcb, hc])⟩

/-- `Rep` is a `WriteInv` for writing into the array. -/
theorem rep_writeInv : IndexOutput.WriteInv impl Cursor.write Rep where
  upd_nil := Cursor.write_nil
  upd_append := Cursor.write_append
  bounds _ _ hr := hr.bounds
  nonempty _ _ hr h0 := by
    obtain ⟨b, hb⟩ := hr.buffered h0
    exact hb.start_lt
  copy _ _ d hr hd := hr.copy d hd
  flush _ _ hr hne := hr.flush hne
  init _ _ hr h0 := hr.init h0

/-- `seek(p)`, for `p` at most the high-water mark, moves the cursor of the array to `p`. -/
theorem seek_rep (hr : Rep a s) {p : Nat} {a' : Cursor} (ha : a.seek p = some a') :
    ∃ s', seek p s = .ok () s' ∧ Rep a' s' := by
  unfold Cursor.seek at ha
  split_ifs at ha with hp
  cases ha
  have hlen : a.data.length = max (s.own.file.noteLength s.pos).length p := by
    have := hr.length_eq
    rw [RAMFile.noteLength_length, hr.position]
    omega
  have hs : Stored a.data s.heap (s.own.file.noteLength s.pos) :=
    hr.stored.of_blocks (RAMFile.noteLength_blocks _ _)
  have hassert : p ≤ (s.own.file.noteLength s.pos).length := by
    rw [RAMFile.noteLength_length, hr.position]
    have := hr.length_eq
    omega
  have hdiv : p / kBlockSize ≤ s.own.file.blocks_.length := by
    have := hr.stored.fits
    unfold kBlockSize at *
    omega
  have hc : p = p / kBlockSize * kBlockSize + p % kBlockSize := (Nat.div_add_mod' p _).symm
  have hmod : p % kBlockSize ≤ kBlockSize := (Nat.mod_lt _ (by decide)).le
  by_cases hend : p / kBlockSize = s.own.file.blocks_.length
  · have hnext : (s.own.file.blocks_ ++ [s.heap.next])[p / kBlockSize]? = some s.heap.next := by
      rw [hend, List.getElem?_concat_length]
    let t : IndexOutput RAMOut :=
      withBlock { noted s with own := { (noted s).own with current_block := p / kBlockSize } }
    refine ⟨{ t with bufStart := s.heap.next, bufEnd := s.heap.next + kBlockSize,
                     bufCur := s.heap.next + p % kBlockSize, pos := p }, ?_,
      Rep.of_block (a := ⟨a.data, p, hp⟩) hs.alloc rfl hlen
        (by simpa [t, withBlock, noted] using hnext) rfl _ rfl hmod hc⟩
    simp only [RAMFileIndexOutput.seek, noteLength, allocBlock, setBlock, RAMFile.block,
      Op.bind_apply, Op.modify_apply, Op.get_apply, Op.set_apply, Op.pure_apply, assert_apply,
      noted, withBlock, RAMFile.alloc_blocks, RAMFile.noteLength_blocks,
      decide_eq_true (show p ≤ (s.own.file.noteLength s.pos).length from hassert), if_true,
      if_pos hend, hnext]
    rfl
  · have hlt : p / kBlockSize < s.own.file.blocks_.length := by omega
    have hnext := List.getElem?_eq_getElem hlt
    refine ⟨{ noted s with
        bufStart := s.own.file.blocks_[p / kBlockSize],
        bufEnd := s.own.file.blocks_[p / kBlockSize] + kBlockSize,
        bufCur := s.own.file.blocks_[p / kBlockSize] + p % kBlockSize, pos := p,
        own := { (noted s).own with current_block := p / kBlockSize } }, ?_,
      Rep.of_block (a := ⟨a.data, p, hp⟩) hs rfl hlen
        (by simp only [noted, RAMFile.noteLength_blocks]; exact hnext) rfl _ rfl hmod hc⟩
    simp only [RAMFileIndexOutput.seek, noteLength, setBlock, RAMFile.block,
      Op.bind_apply, Op.modify_apply, Op.get_apply, Op.set_apply, Op.pure_apply, assert_apply,
      noted, RAMFile.noteLength_blocks,
      decide_eq_true (show p ≤ (s.own.file.noteLength s.pos).length from hassert), if_true,
      if_neg hend, hnext]
    rfl

theorem Rep.finish_bytes (hr : Rep a s) :
    (finish s).length = a.data.length ∧ (finish s).bytes s.heap a.data.length = a.data := by
  refine ⟨?_, (hr.stored.of_blocks (RAMFile.noteLength_blocks _ _)).bytes⟩
  rw [RAMFileIndexOutput.finish, RAMFile.noteLength_length, hr.position, hr.length_eq]

theorem rep_construct (heap : Heap) : Rep Cursor.empty (construct heap) :=
  ⟨⟨RAMFile.Placed.create heap, Nat.zero_le _, fun _ h => absurd h (Nat.not_lt_zero _)⟩,
    rfl, rfl, fun _ => ⟨rfl, rfl, rfl, rfl⟩, fun h => absurd rfl h⟩

end Steps

/-! ## Runs -/

/-- A call on a `RAMFileIndexOutput`: one of the data output interface, or `seek`. -/
inductive WCall where
  | call (c : IndexOutput.Call)
  | seek (p : Nat)
  deriving DecidableEq, Repr

/-- The call, on the stream. -/
def WCall.run : WCall → Op (IndexOutput RAMOut) Unit
  | .call c => c.run impl
  | .seek p => RAMFileIndexOutput.seek p

/-- The calls, one after another. -/
def run : List WCall → Op (IndexOutput RAMOut) Unit
  | [] => pure ()
  | c :: cs => do c.run; run cs

/-- The call on the byte array: a write of the bytes the call hands the stream, or a `seek`,
`none` past the end. -/
def WCall.spec : WCall → Cursor → Option Cursor
  | .call c, a => some (a.write c.bytes)
  | .seek p, a => a.seek p

/-- The calls on the byte array. -/
def specRun : List WCall → Cursor → Option Cursor
  | [], a => some a
  | c :: cs, a => (c.spec a).bind (specRun cs)

/-- Calls of the data output interface write their bytes, in order, at the cursor. -/
theorem specRun_calls (cs : List IndexOutput.Call) (a : Cursor) :
    specRun (cs.map .call) a = some (a.write (cs.flatMap IndexOutput.Call.bytes)) := by
  induction cs generalizing a with
  | nil => rw [List.map_nil, List.flatMap_nil, Cursor.write_nil]; rfl
  | cons c cs ih => rw [List.map_cons, List.flatMap_cons, Cursor.write_append, ← ih]; rfl

section Run

variable {a : Cursor} {s : IndexOutput RAMOut}

theorem WCall.run_rep (hr : Rep a s) (c : WCall) {a' : Cursor} (ha : c.spec a = some a') :
    ∃ s', c.run s = .ok () s' ∧ Rep a' s' := by
  cases c with
  | call c =>
    cases ha
    exact IndexOutput.Call.run_inv rep_writeInv hr c
  | seek p => exact seek_rep hr ha

theorem run_rep (cs : List WCall) :
    ∀ {a a' : Cursor} {s : IndexOutput RAMOut}, Rep a s → specRun cs a = some a' →
      ∃ s', run cs s = .ok () s' ∧ Rep a' s' := by
  induction cs with
  | nil => rintro a a' s hr ⟨⟩; exact ⟨s, rfl, hr⟩
  | cons c cs ih =>
    intro a a' s hr ha
    obtain ⟨a₁, h₁, ha'⟩ := Option.bind_eq_some.1 ha
    obtain ⟨s₁, hc, hr₁⟩ := c.run_rep hr h₁
    obtain ⟨s₂, hcs, hr₂⟩ := ih hr₁ ha'
    exact ⟨s₂, by rw [run, Op.bind_apply, hc]; exact hcs, hr₂⟩

end Run

/-- Every sequence of writes, `flush` and in-range `seek`s on a new stream returns and keeps the
stream represented by the array the same calls give; the committed file holds that array. -/
theorem run_refines_cursor (heap : Heap) (cs : List WCall) {a : Cursor}
    (ha : specRun cs Cursor.empty = some a) :
    ∃ s, run cs (construct heap) = .ok () s ∧ Rep a s ∧
      (finish s).length = a.data.length ∧ (finish s).bytes s.heap a.data.length = a.data := by
  obtain ⟨s, hrun, hr⟩ := run_rep cs (rep_construct heap) ha
  exact ⟨s, hrun, hr, hr.finish_bytes⟩

/-- Three bytes, a `seek` back to `1`, one byte over the middle one, and a `flush`. -/
theorem run_refines_cursor_overwrite :
    specRun [.call (.write [1, 2, 3]), .seek 1, .call (.writeByte 9), .call .flush] Cursor.empty =
        some ⟨[1, 9, 3], 2, by decide⟩ ∧
    ∃ s, run [.call (.write [1, 2, 3]), .seek 1, .call (.writeByte 9), .call .flush]
        (construct Heap.zero) = .ok () s ∧ Rep ⟨[1, 9, 3], 2, by decide⟩ s ∧
      (finish s).length = 3 ∧ (finish s).bytes s.heap 3 = [1, 9, 3] :=
  ⟨rfl, run_refines_cursor Heap.zero _ rfl⟩

end RAMFileIndexOutput

end Lucanthrope
