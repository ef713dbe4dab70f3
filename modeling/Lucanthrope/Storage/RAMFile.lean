import Lucanthrope.Common.Exception
import Lucanthrope.Common.Memory

/-!
# `RAMDirectory::RAMFile`: a file as a vector of blocks

A `RAMFile` keeps its bytes in `blocks_`, blocks of `kBlockSize` bytes each from
`new char[kBlockSize]`, and its size in `length`. Byte `i` of the file is
`blocks_[i / kBlockSize][i % kBlockSize]`, at address `blockAddr f i`; `bytesFrom h f m k` is the
`k` bytes from byte `m` on, read that way from the memory `h`, and `bytes h f n` the first `n`.

A writer stores into one block while the other blocks hold bytes that must stay. `Placed h f`
is what makes a store local: the blocks of `f` were handed out by the allocator in order, at
least `kBlockSize` bytes apart and below its next free address. `alloc` keeps it
(`Placed.alloc`), and then

> `mem_store_blockAddr`: a store of `d` at offset `off` of block `j` changes byte `i` of the file
> exactly when `j * kBlockSize + off ≤ i < j * kBlockSize + off + |d|`.

A reader loads a whole block at a time: `bytesFrom_block` says block `j` holds bytes
`[j * kBlockSize, (j + 1) * kBlockSize)` of the file.

Mirroring notes:
- `refs_` is an `int`, kept as an `Int`. `openInput`'s `refs_++` on a file that already has
  `2 ^ 31 - 1` references overflows it, which is undefined behaviour. The model keeps counting,
  so every run of the code that stays defined is a run of the model, and what the model proves
  of its runs holds of those. `length` and block indices are `uint64_t` and `size_t`, kept
  as `Nat`: no file of `2 ^ 64` bytes fits in memory.
- `lastModified` is never read or written by the code and is left out. `name` and `parent` are
  `const` and read only by `finish_writing()`, which passes `name` to `RAMDirectory::commit`:
  the model keeps the name with the live writer (`RAMDirectory.lean`), and `parent` is the one
  directory of the model.
- `blocks_[i]` past the end is undefined behaviour (`RAMFile.block`), as it is for
  `std::vector::operator[]`.
-/

namespace Lucanthrope

/-- `RAMDirectory::RAMFile::kBlockSize`. -/
def kBlockSize : Nat := 4096

theorem kBlockSize_pos : 0 < kBlockSize := by decide

/-- `RAMDirectory::RAMFile`: the addresses of its blocks, its size and its reference count. The
addresses come from the allocator, so none is `nullptr`. -/
structure RAMFile where
  blocks_ : List Nat
  length : Nat
  refs_ : Int
  blocks_pos : ∀ a ∈ blocks_, 0 < a

namespace RAMFile

variable {σ : Type}

/-- `RAMFile(d, fname)`: no blocks, size `0`, reference count `0`. -/
def create : RAMFile :=
  ⟨[], 0, 0, fun _ h => absurd h (List.not_mem_nil _)⟩

/-- `RAMFile::alloc`: `blocks_.push_back(new char[kBlockSize])`. -/
def alloc (f : RAMFile) (h : Heap) : RAMFile × Heap :=
  ({ f with
      blocks_ := f.blocks_ ++ [h.next]
      blocks_pos := fun a ha => by
        rcases List.mem_append.1 ha with ha | ha
        · exact f.blocks_pos a ha
        · rw [List.mem_singleton.1 ha]; exact h.next_pos },
    (h.alloc kBlockSize).2)

/-- `blocks_[i]`. -/
def block (f : RAMFile) (i : Nat) : Op σ Nat :=
  match f.blocks_[i]? with
  | some a => pure a
  | none => undefinedBehaviour

/-- `if (file->length < pos) file->length = pos;` -/
def noteLength (f : RAMFile) (pos : Nat) : RAMFile :=
  if f.length < pos then { f with length := pos } else f

/-- `blocks_.size() - 1` in `size_t`: it wraps around for a file without blocks. -/
def lastIndex (f : RAMFile) : Nat :=
  if f.blocks_.length = 0 then 2 ^ 64 - 1 else f.blocks_.length - 1

/-- The address of byte `i`: `blocks_[i / kBlockSize] + i % kBlockSize`. -/
def blockAddr (f : RAMFile) (i : Nat) : Nat :=
  f.blocks_.getD (i / kBlockSize) 0 + i % kBlockSize

/-- The `k` bytes of the file from byte `m` on, in the memory `h`. -/
def bytesFrom (h : Heap) (f : RAMFile) (m k : Nat) : List UInt8 :=
  (List.range k).map fun i => h.mem (f.blockAddr (m + i))

/-- The first `n` bytes of the file in the memory `h`. -/
def bytes (h : Heap) (f : RAMFile) (n : Nat) : List UInt8 :=
  f.bytesFrom h 0 n

/-- The blocks of `f` are where the allocator put them in `h`: in order, `kBlockSize` apart,
below the next free address. -/
structure Placed (h : Heap) (f : RAMFile) : Prop where
  spaced : f.blocks_.Pairwise fun a b => a + kBlockSize ≤ b
  below : ∀ a ∈ f.blocks_, a + kBlockSize ≤ h.next

/-! ## Field lemmas -/

variable (f : RAMFile) (h : Heap)

@[simp] theorem create_blocks : create.blocks_ = [] := rfl
@[simp] theorem create_length : create.length = 0 := rfl

@[simp] theorem alloc_blocks : (f.alloc h).1.blocks_ = f.blocks_ ++ [h.next] := rfl
@[simp] theorem alloc_length : (f.alloc h).1.length = f.length := rfl
@[simp] theorem alloc_refs : (f.alloc h).1.refs_ = f.refs_ := rfl
@[simp] theorem alloc_heap : (f.alloc h).2 = (h.alloc kBlockSize).2 := rfl

@[simp] theorem noteLength_length (pos : Nat) : (f.noteLength pos).length = max f.length pos := by
  unfold noteLength
  split_ifs with hlt
  · exact (max_eq_right hlt.le).symm
  · exact (max_eq_left (Nat.le_of_not_lt hlt)).symm

@[simp] theorem noteLength_blocks (pos : Nat) : (f.noteLength pos).blocks_ = f.blocks_ := by
  unfold noteLength; split <;> rfl

@[simp] theorem noteLength_refs (pos : Nat) : (f.noteLength pos).refs_ = f.refs_ := by
  unfold noteLength; split <;> rfl

@[simp] theorem noteLength_lastIndex (pos : Nat) : (f.noteLength pos).lastIndex = f.lastIndex := by
  simp [lastIndex]

theorem block_apply {i a : Nat} (hi : f.blocks_[i]? = some a) (s : σ) :
    f.block i s = .ok a s := by
  unfold block; rw [hi]; rfl

theorem lastIndex_of_ne_nil (hb : f.blocks_ ≠ []) : f.lastIndex = f.blocks_.length - 1 := by
  simp [lastIndex, hb]

theorem blockAddr_of_lt {i : Nat} (hi : i / kBlockSize < f.blocks_.length) :
    f.blockAddr i = f.blocks_[i / kBlockSize] + i % kBlockSize := by
  rw [blockAddr, List.getD_eq_getElem?_getD, List.getElem?_eq_getElem hi, Option.getD_some]

/-- A new block leaves the addresses of the bytes the old blocks hold. -/
theorem blockAddr_alloc {i : Nat} (hi : i < f.blocks_.length * kBlockSize) :
    (f.alloc h).1.blockAddr i = f.blockAddr i := by
  have hdiv : i / kBlockSize < f.blocks_.length := by unfold kBlockSize at *; omega
  simp only [blockAddr, alloc_blocks, List.getD_eq_getElem?_getD,
    List.getElem?_append_left hdiv]

/-! ## Contents -/

theorem bytesFrom_length (m k : Nat) : (f.bytesFrom h m k).length = k := by
  simp [bytesFrom]

theorem getElem?_bytesFrom (m k i : Nat) :
    (f.bytesFrom h m k)[i]? = if i < k then some (h.mem (f.blockAddr (m + i))) else none := by
  by_cases hi : i < k
  · simp [bytesFrom, hi]
  · simp [bytesFrom, hi, Nat.le_of_not_lt hi]

theorem bytesFrom_add (m k₁ k₂ : Nat) :
    f.bytesFrom h m (k₁ + k₂) = f.bytesFrom h m k₁ ++ f.bytesFrom h (m + k₁) k₂ := by
  simp only [bytesFrom, List.range_add, List.map_append, List.map_map]
  congr 1
  apply List.map_congr_left
  intro i _
  simp only [Function.comp_apply, Nat.add_assoc]

theorem drop_bytesFrom (m k j : Nat) :
    (f.bytesFrom h m k).drop j = f.bytesFrom h (m + j) (k - j) := by
  rcases le_total j k with hj | hj
  · obtain ⟨t, rfl⟩ := Nat.exists_eq_add_of_le hj
    rw [bytesFrom_add, List.drop_left' (bytesFrom_length ..), Nat.add_sub_cancel_left]
  · rw [List.drop_eq_nil_of_le (by rw [bytesFrom_length]; exact hj), Nat.sub_eq_zero_of_le hj]
    rfl

theorem take_bytesFrom {m k j : Nat} (hj : j ≤ k) :
    (f.bytesFrom h m k).take j = f.bytesFrom h m j := by
  obtain ⟨t, rfl⟩ := Nat.exists_eq_add_of_le hj
  rw [bytesFrom_add, List.take_left' (bytesFrom_length ..)]

/-- Block `j` holds the file's bytes from `j * kBlockSize + off` to the end of the block. -/
theorem bytesFrom_block {j off : Nat} (hj : j < f.blocks_.length) (hoff : off ≤ kBlockSize) :
    f.bytesFrom h (j * kBlockSize + off) (kBlockSize - off) =
      h.load (f.blocks_[j] + off) (kBlockSize - off) := by
  simp only [bytesFrom, Heap.load]
  apply List.map_congr_left
  intro i hi
  rw [List.mem_range] at hi
  have hdiv : (j * kBlockSize + (off + i)) / kBlockSize = j := by unfold kBlockSize at *; omega
  have hmod : (j * kBlockSize + (off + i)) % kBlockSize = off + i := by
    unfold kBlockSize at *; omega
  rw [Nat.add_assoc, blockAddr_of_lt _ (by rw [hdiv]; exact hj)]
  simp only [hdiv, hmod, Nat.add_assoc]

/-- The bytes of the first `n` blocks from offset `off` of block `j` on: the rest of block `j`,
then the blocks after it. -/
theorem drop_bytes_block {n j off : Nat} (hn : n ≤ f.blocks_.length) (hj : j < n)
    (hoff : off ≤ kBlockSize) :
    (f.bytes h (n * kBlockSize)).drop (j * kBlockSize + off) =
      h.load (f.blocks_[j] + off) (kBlockSize - off) ++
        (f.bytes h (n * kBlockSize)).drop ((j + 1) * kBlockSize) := by
  have hsplit : n * kBlockSize - (j * kBlockSize + off) =
      (kBlockSize - off) + (n * kBlockSize - (j + 1) * kBlockSize) := by
    unfold kBlockSize at *
    omega
  have hnext : j * kBlockSize + off + (kBlockSize - off) = (j + 1) * kBlockSize := by
    unfold kBlockSize at *
    omega
  rw [bytes, drop_bytesFrom, drop_bytesFrom, Nat.zero_add, Nat.zero_add, hsplit, bytesFrom_add,
    bytesFrom_block _ _ (by omega) hoff, hnext]

/-! ## Layout -/

variable {f h}

/-- Two different blocks do not overlap. -/
theorem Placed.disjoint (hp : f.Placed h) {j k : Nat} (hj : j < f.blocks_.length)
    (hk : k < f.blocks_.length) (hne : j ≠ k) :
    f.blocks_[j] + kBlockSize ≤ f.blocks_[k] ∨ f.blocks_[k] + kBlockSize ≤ f.blocks_[j] := by
  rcases Nat.lt_or_gt_of_ne hne with hjk | hkj
  · exact .inl (List.pairwise_iff_getElem.1 hp.spaced j k hj hk hjk)
  · exact .inr (List.pairwise_iff_getElem.1 hp.spaced k j hk hj hkj)

theorem Placed.alloc (hp : f.Placed h) : (f.alloc h).1.Placed (f.alloc h).2 where
  spaced := List.pairwise_append.2 ⟨hp.spaced, List.pairwise_singleton _ _,
    fun a ha b hb => by rw [List.mem_singleton.1 hb]; exact hp.below a ha⟩
  below a ha := by
    rcases List.mem_append.1 ha with ha | ha
    · have := hp.below a ha
      simp only [alloc_heap, Heap.alloc_next]
      omega
    · rw [List.mem_singleton.1 ha]; simp

theorem Placed.create (h : Heap) : RAMFile.create.Placed h :=
  ⟨List.Pairwise.nil, fun _ ha => absurd ha (List.not_mem_nil _)⟩

/-- A store of `d` at offset `off` of block `j` changes exactly the bytes
`[j * kBlockSize + off, j * kBlockSize + off + |d|)` of the file. -/
theorem mem_store_blockAddr (hp : f.Placed h) {j off : Nat} (hj : j < f.blocks_.length)
    {d : List UInt8} (hd : off + d.length ≤ kBlockSize) {i : Nat}
    (hi : i < f.blocks_.length * kBlockSize) :
    (h.store (f.blocks_[j] + off) d).mem (f.blockAddr i) =
      if j * kBlockSize + off ≤ i ∧ i < j * kBlockSize + off + d.length
      then d.getD (i - (j * kBlockSize + off)) 0 else h.mem (f.blockAddr i) := by
  have hdiv : i / kBlockSize < f.blocks_.length := by unfold kBlockSize at *; omega
  rw [Heap.store_mem, blockAddr_of_lt _ hdiv]
  have hmod : i % kBlockSize < kBlockSize := Nat.mod_lt _ (by decide)
  have hsplit : i = i / kBlockSize * kBlockSize + i % kBlockSize := (Nat.div_add_mod' i _).symm
  by_cases hij : i / kBlockSize = j
  · subst hij
    refine if_congr (by omega) (congrArg (d.getD · 0) (by omega)) rfl
  · rcases hp.disjoint hdiv hj hij with hlt | hlt
    · rw [if_neg (by omega), if_neg (by unfold kBlockSize at *; omega)]
    · rw [if_neg (by omega), if_neg (by unfold kBlockSize at *; omega)]

end RAMFile

end Lucanthrope
