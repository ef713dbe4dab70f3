import Mathlib.Data.List.Basic
import Mathlib.Algebra.Group.Nat.Basic

/-!
# Memory

The streams keep their data behind raw `char *` pointers: `bufStart`, `bufCur`, `bufEnd` and
`sentinel` point into a buffer, and the buffer of a `RAMFile` stream is one of the file's blocks,
obtained from `new char[kBlockSize]`. The model gives them one flat address space: a byte at
every address, and a bump allocator whose addresses are never reused and never `nullptr` (`0`).

`store a bs` writes `bs` at `a` (one `memcpy`), `load a n` reads `n` bytes from `a`. The lemmas
are the usual ones of an array memory: a load sees the last store it overlaps, and is untouched
by a store it does not overlap.

Mirroring notes: `delete[]` of a block is not modelled (nothing the model reads is freed before
its last reader); the bytes of a fresh block are whatever memory holds there, as for `new char[]`.
-/

namespace Lucanthrope

/-- The process memory: the byte at each address, and the allocator's next free address. -/
@[ext] structure Heap where
  mem : Nat → UInt8
  next : Nat
  next_pos : 0 < next

namespace Heap

/-- `new char[n]`: a fresh address, and the heap that has handed it out. -/
def alloc (h : Heap) (n : Nat) : Nat × Heap :=
  (h.next, { h with next := h.next + n, next_pos := by have := h.next_pos; omega })

/-- `memcpy(a, bs.data(), bs.size())`. -/
def store (h : Heap) (a : Nat) (bs : List UInt8) : Heap :=
  { h with mem := fun x => if a ≤ x ∧ x < a + bs.length then bs.getD (x - a) 0 else h.mem x }

/-- The `n` bytes at `a`. -/
def load (h : Heap) (a n : Nat) : List UInt8 :=
  (List.range n).map fun i => h.mem (a + i)

variable (h : Heap)

@[simp] theorem alloc_fst (n : Nat) : (h.alloc n).1 = h.next := rfl

@[simp] theorem alloc_mem (n : Nat) : (h.alloc n).2.mem = h.mem := rfl

@[simp] theorem alloc_next (n : Nat) : (h.alloc n).2.next = h.next + n := rfl

@[simp] theorem store_next (a : Nat) (bs : List UInt8) : (h.store a bs).next = h.next := rfl

theorem store_mem (a : Nat) (bs : List UInt8) (x : Nat) :
    (h.store a bs).mem x = if a ≤ x ∧ x < a + bs.length then bs.getD (x - a) 0 else h.mem x :=
  rfl

@[simp] theorem store_nil (a : Nat) : h.store a [] = h := by
  cases h
  simp only [store, List.length_nil, Nat.add_zero]
  congr
  funext x
  simp only [ite_eq_right_iff, and_imp]
  omega

/-- A store of several bytes is the store of the first after the store of the rest: the order
in which the unrolled copies of `IndexOutput::copyToBuffer` write. -/
theorem store_cons (a : Nat) (b : UInt8) (bs : List UInt8) :
    h.store a (b :: bs) = (h.store (a + 1) bs).store a [b] := by
  ext x
  · simp only [store_mem, List.length_cons, List.length_nil]
    split_ifs <;> first | rfl | omega | skip
    · obtain rfl : x = a := by omega
      simp
    · rw [show x - a = x - (a + 1) + 1 by omega]
      rfl
  · rfl

/-- `store_cons` for at least two bytes, so that it leaves single-byte stores alone. -/
theorem store_cons_cons (a : Nat) (b c : UInt8) (bs : List UInt8) :
    h.store a (b :: c :: bs) = (h.store (a + 1) (c :: bs)).store a [b] :=
  h.store_cons a b (c :: bs)

@[simp] theorem load_length (a n : Nat) : (h.load a n).length = n := by
  simp [load]

@[simp] theorem load_zero (a : Nat) : h.load a 0 = [] := rfl

theorem load_add (a m n : Nat) : h.load a (m + n) = h.load a m ++ h.load (a + m) n := by
  simp only [load, List.range_add, List.map_append, List.map_map]
  congr 1
  apply List.map_congr_left
  intro i _
  simp only [Function.comp_apply, Nat.add_assoc]

theorem load_succ (a n : Nat) : h.load a (n + 1) = h.mem a :: h.load (a + 1) n := by
  rw [Nat.add_comm, load_add]
  rfl

theorem take_load {a n k : Nat} (hk : k ≤ n) : (h.load a n).take k = h.load a k := by
  obtain ⟨m, rfl⟩ := Nat.exists_eq_add_of_le hk
  rw [load_add, List.take_left' (load_length ..)]

theorem drop_load {a n k : Nat} (hk : k ≤ n) : (h.load a n).drop k = h.load (a + k) (n - k) := by
  obtain ⟨m, rfl⟩ := Nat.exists_eq_add_of_le hk
  rw [load_add, List.drop_left' (load_length ..), Nat.add_sub_cancel_left]

theorem getElem?_load (a n i : Nat) :
    (h.load a n)[i]? = if i < n then some (h.mem (a + i)) else none := by
  by_cases hi : i < n
  · simp [load, hi]
  · simp [load, hi, Nat.le_of_not_lt hi]

/-- A load is untouched by a store it does not overlap. -/
theorem load_store_of_disjoint {a n b : Nat} {bs : List UInt8}
    (hd : a + n ≤ b ∨ b + bs.length ≤ a) : (h.store b bs).load a n = h.load a n := by
  simp only [load, store]
  apply List.map_congr_left
  intro i hi
  rw [List.mem_range] at hi
  rw [if_neg (by omega)]

/-- A load of exactly the stored range gives back what was stored. -/
theorem load_store_self (a : Nat) (bs : List UInt8) : (h.store a bs).load a bs.length = bs := by
  apply List.ext_getElem?
  intro i
  rw [getElem?_load]
  split
  · rw [store_mem, if_pos (by omega), Nat.add_sub_cancel_left, List.getD_eq_getElem?_getD,
      List.getElem?_eq_getElem (by assumption)]
    rfl
  · rw [List.getElem?_eq_none (by omega)]

/-- Storing `bs` right after a loaded range extends that range by `bs`. -/
theorem load_store_append {a b : Nat} (hab : a ≤ b) (bs : List UInt8) :
    (h.store b bs).load a (b - a + bs.length) = h.load a (b - a) ++ bs := by
  rw [load_add, load_store_of_disjoint _ (.inl (by omega)), Nat.add_sub_cancel' hab,
    load_store_self]

end Heap

/-- A memory with every byte `0`, before the first allocation. -/
def Heap.zero : Heap :=
  ⟨fun _ => 0, 1, Nat.one_pos⟩

end Lucanthrope
