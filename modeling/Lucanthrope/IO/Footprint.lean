import Lucanthrope.IO.RAMFileIndexOutput
import Lucanthrope.IO.RAMFileIndexInput

/-!
# What memory a stream's calls touch

The streams of the directory's clients share one memory (`Memory.lean`). A writer stores into
the blocks of the file it writes and nowhere else, and a reader stores nothing. This file proves
both of the model, call by call:

* `Op.Keeps P op`: from a state where `P` holds, `op` leaves one where `P` holds, whether it
  returns or not. `Keeps.bind`, `keeps_get_bind` and one lemma per primitive carry it through a
  `do` block, so each call's lemma follows the call's own text.
* `Confined s₀ s`: since `s₀` the writer has stored only into blocks of its file, and the blocks
  it has added were fresh, at or above the allocator's next free address at `s₀`. `writeImpl`,
  `initInternalBuffer` and `seek` keep it, since they store nothing; a copy keeps it when it has
  room in the buffer, which `Rep` places in a block of the file (`Confined.copied`). So `Rep`
  together with `Confined` is a `WriteInv`, and

> `WCall.run_confined`: a call on a writer that holds the array `a`, and that returns or throws,
> is one the array allows; the writer then holds the array the call gives, and has stored only
> into its own blocks.

  A `seek` past the high-water mark fails its assertion (`seek_past_end`): it is not a step.
* `InHeap h Q`: the stream is in the memory `h`, and the fields of its derived class satisfy
  `Q`. Every call of the data input interface keeps it when `fillImpl` does
  (`ReadCall.keeps_run`), and `RAMFileIndexInput`'s calls keep the memory and the file they read
  (`RAMFileIndexInput.keeps_run`).

`Rep.heap_congr` is the other half of the frame: a writer keeps its array in any memory that has
the same bytes in its blocks, with the blocks allocated.
-/

namespace Lucanthrope

namespace Op

variable {σ α β : Type} {P : σ → Prop}

/-- The state a call leaves, whether it returns or not. -/
def leaves : EStateM.Result Failure σ α → σ
  | .ok _ s => s
  | .error _ s => s

/-- `op` keeps `P`: from a state where `P` holds it leaves one where `P` holds, whether it
returns or not. -/
def Keeps (P : σ → Prop) (op : Op σ α) : Prop :=
  ∀ s, P s → P (leaves (op s))

theorem keeps_pure (a : α) : Keeps P (pure a : Op σ α) := fun _ h => h

theorem keeps_throw (e : Failure) : Keeps P (throw e : Op σ α) := fun _ h => h

theorem keeps_set {t : σ} (ht : P t) : Keeps P (set t : Op σ PUnit) := fun _ _ => ht

theorem keeps_modify {g : σ → σ} (hg : ∀ s, P s → P (g s)) : Keeps P (modify g : Op σ PUnit) :=
  hg

theorem keeps_modifyGet {g : σ → α × σ} (hg : ∀ s, P s → P (g s).2) :
    Keeps P (modifyGet g : Op σ α) :=
  hg

theorem keeps_assert (c : Bool) (what : String) : Keeps P (assert c what : Op σ Unit) := by
  intro s h; cases c <;> exact h

theorem Keeps.bind {x : Op σ α} {f : α → Op σ β} (hx : Keeps P x) (hf : ∀ a, Keeps P (f a)) :
    Keeps P (x >>= f) := by
  intro s h
  have := hx s h
  rw [bind_apply]
  cases hs : x s with
  | ok a s' => rw [hs] at this; exact hf a s' this
  | error e s' => rw [hs] at this; exact this

theorem keeps_get_bind {f : σ → Op σ β} (hf : ∀ s, P s → Keeps P (f s)) :
    Keeps P (get >>= f) :=
  fun s h => hf s h s h

theorem Keeps.map {x : Op σ α} (hx : Keeps P x) (g : α → β) : Keeps P (g <$> x) := by
  intro s h
  have := hx s h
  rw [map_apply]
  cases hs : x s <;> (rw [hs] at this; exact this)

theorem keeps_ite {c : Prop} [Decidable c] {x y : Op σ α} (hx : Keeps P x) (hy : Keeps P y) :
    Keeps P (if c then x else y) := by
  split <;> assumption

/-- A call that returned and keeps `P` returned in a state where `P` holds. -/
theorem Keeps.of_ok {op : Op σ α} (hk : Keeps P op) {s s' : σ} {a : α} (h : P s)
    (hs : op s = .ok a s') : P s' := by
  have := hk s h; rw [hs] at this; exact this

theorem Keeps.of_error {op : Op σ α} (hk : Keeps P op) {s s' : σ} {e : Failure} (h : P s)
    (hs : op s = .error e s') : P s' := by
  have := hk s h; rw [hs] at this; exact this

theorem Keeps.of_returns {op : Op σ α} (hk : Keeps P op) {s s' : σ} (hs : Returns op s s')
    (h : P s) : P s' := by
  rcases hs with ⟨_, hs⟩ | ⟨_, hs⟩
  · exact hk.of_ok h hs
  · exact hk.of_error h hs

end Op

theorem RAMFile.keeps_block {σ : Type} {P : σ → Prop} (f : RAMFile) (i : Nat) :
    Op.Keeps P (f.block i) := by
  unfold RAMFile.block; split
  · exact Op.keeps_pure _
  · exact Op.keeps_throw _

/-- Byte `x` of memory is in a block of `f`. -/
def RAMFile.Owns (f : RAMFile) (x : Nat) : Prop :=
  ∃ b ∈ f.blocks_, b ≤ x ∧ x < b + kBlockSize

/-- Byte `i` of a file that fits in its blocks is in one of them. -/
theorem RAMFile.owns_blockAddr (f : RAMFile) {i : Nat} (hi : i < f.blocks_.length * kBlockSize) :
    f.Owns (f.blockAddr i) := by
  have hdiv : i / kBlockSize < f.blocks_.length := by unfold kBlockSize at *; omega
  rw [RAMFile.blockAddr_of_lt _ hdiv]
  exact ⟨_, List.getElem_mem hdiv, Nat.le_add_right _ _,
    Nat.add_lt_add_left (Nat.mod_lt _ kBlockSize_pos) _⟩

namespace RAMFileIndexOutput

open Op

/-- Since `s₀`, the stream has stored only into blocks of its file, and the blocks it has added
were fresh. -/
structure Confined (s₀ s : IndexOutput RAMOut) : Prop where
  next_le : s₀.heap.next ≤ s.heap.next
  blocks : ∃ new, s.own.file.blocks_ = s₀.own.file.blocks_ ++ new ∧ ∀ b ∈ new, s₀.heap.next ≤ b
  mem : ∀ x, ¬ s.own.file.Owns x → s.heap.mem x = s₀.heap.mem x

namespace Confined

variable {s₀ s s' : IndexOutput RAMOut}

theorem refl (s : IndexOutput RAMOut) : Confined s s :=
  ⟨le_rfl, ⟨[], (List.append_nil _).symm, fun _ h => absurd h (List.not_mem_nil _)⟩, fun _ _ => rfl⟩

theorem not_owns (hb : ∃ new, s'.own.file.blocks_ = s.own.file.blocks_ ++ new) {x : Nat}
    (hx : ¬ s'.own.file.Owns x) : ¬ s.own.file.Owns x := by
  obtain ⟨new, hnew⟩ := hb
  rintro ⟨b, hb, h⟩
  exact hx ⟨b, by rw [hnew]; exact List.mem_append_left _ hb, h⟩

theorem trans (h₁ : Confined s₀ s) (h₂ : Confined s s') : Confined s₀ s' := by
  obtain ⟨n₁, e₁, f₁⟩ := h₁.blocks
  obtain ⟨n₂, e₂, f₂⟩ := h₂.blocks
  refine ⟨h₁.next_le.trans h₂.next_le, ⟨n₁ ++ n₂, by rw [e₂, e₁, List.append_assoc], ?_⟩,
    fun x hx => (h₂.mem x hx).trans (h₁.mem x (not_owns ⟨n₂, e₂⟩ hx))⟩
  intro b hb
  rcases List.mem_append.1 hb with hb | hb
  · exact f₁ b hb
  · exact h₁.next_le.trans (f₂ b hb)

/-- A change that leaves the memory and the blocks alone. -/
theorem of_eq (h : Confined s₀ s) (hh : s'.heap = s.heap)
    (hb : s'.own.file.blocks_ = s.own.file.blocks_) : Confined s₀ s' :=
  h.trans ⟨hh ▸ le_rfl, ⟨[], by rw [hb, List.append_nil], fun _ h => absurd h (List.not_mem_nil _)⟩,
    fun _ _ => by rw [hh]⟩

/-- `file->alloc()`: a fresh block, and no store. -/
theorem withBlock (h : Confined s₀ s) : Confined s₀ (withBlock s) :=
  h.trans ⟨Nat.le_add_right _ _, ⟨[s.heap.next], rfl, fun _ hb => (List.mem_singleton.1 hb).ge⟩,
    fun _ _ => rfl⟩

end Confined

section Calls

variable (s₀ : IndexOutput RAMOut)

theorem keeps_noteLength : Keeps (Confined s₀) noteLength :=
  keeps_modify fun _ h => h.of_eq rfl (RAMFile.noteLength_blocks _ _)

theorem keeps_allocBlock : Keeps (Confined s₀) allocBlock :=
  keeps_modify fun _ h => h.withBlock

theorem keeps_setBlock (i : Nat) : Keeps (Confined s₀) (setBlock i) :=
  keeps_get_bind fun _ h => (RAMFile.keeps_block _ _).bind fun _ => keeps_set (h.of_eq rfl rfl)

theorem keeps_writeImpl : Keeps (Confined s₀) writeImpl := by
  refine (keeps_noteLength s₀).bind fun _ => keeps_get_bind fun _ h =>
    keeps_ite ?_ (keeps_set (h.of_eq rfl rfl))
  refine keeps_ite ((keeps_allocBlock s₀).bind fun _ => ?_) ((keeps_pure _).bind fun _ => ?_) <;>
    exact (keeps_modify fun _ h => h.of_eq rfl rfl).bind fun _ =>
      keeps_get_bind fun _ _ => keeps_setBlock s₀ _

theorem keeps_initInternalBuffer : Keeps (Confined s₀) initInternalBuffer :=
  (keeps_allocBlock s₀).bind fun _ => (keeps_setBlock s₀ 0).bind fun _ =>
    keeps_modify fun _ h => h.of_eq rfl rfl

theorem keeps_seek (p : Nat) : Keeps (Confined s₀) (seek p) := by
  refine (keeps_noteLength s₀).bind fun _ => keeps_get_bind fun _ h =>
    (keeps_assert _ _).bind fun _ => (keeps_set ?_).bind fun _ => keeps_get_bind fun _ _ => ?_
  · exact h.of_eq rfl rfl
  refine keeps_ite ((keeps_allocBlock s₀).bind fun _ => ?_) ((keeps_pure _).bind fun _ => ?_) <;>
    exact keeps_get_bind fun _ _ => (keeps_setBlock s₀ _).bind fun _ =>
      keeps_modify fun _ h => h.of_eq rfl rfl

theorem keeps_flushNonEmpty : Keeps (Confined s₀) (IndexOutput.flushNonEmpty impl) :=
  keeps_get_bind fun _ _ => (keeps_assert _ _).bind fun _ => (keeps_writeImpl s₀).bind fun _ =>
    keeps_modify fun _ h => h.of_eq rfl rfl

end Calls

section Rep

variable {a : Cursor} {s s₀ : IndexOutput RAMOut}

/-- The bytes from the cursor to the end of the buffer are in a block of the file. -/
theorem Rep.owns_buffer (hr : Rep a s) {x : Nat} (h₁ : s.bufCur ≤ x) (h₂ : x < s.bufEnd) :
    s.own.file.Owns x := by
  by_cases h0 : s.bufStart = 0
  · obtain ⟨-, hc, he, -⟩ := hr.unbuffered h0
    omega
  · obtain ⟨b, hb⟩ := hr.buffered h0
    have := hb.start_ge
    have := hb.start_le_cur
    exact ⟨b, List.mem_iff_getElem?.2 ⟨_, hb.block⟩, by omega, hb.end_eq ▸ h₂⟩

/-- A copy with room in the buffer stores into a block of the file. -/
theorem Confined.copied (h : Confined s₀ s) (hr : Rep a s) {d : List UInt8}
    (hd : s.bufCur + d.length ≤ s.bufEnd) : Confined s₀ (IndexOutput.copied s d) :=
  h.trans ⟨le_rfl, ⟨[], (List.append_nil _).symm, fun _ h => absurd h (List.not_mem_nil _)⟩,
    fun x hx => if_neg fun hin => hx (hr.owns_buffer hin.1 (by omega))⟩

/-- `Rep` together with `Confined s₀` is a `WriteInv` for writing into the array. -/
theorem rep_confined_writeInv (s₀ : IndexOutput RAMOut) :
    IndexOutput.WriteInv impl Cursor.write fun a s => Rep a s ∧ Confined s₀ s where
  upd_nil := Cursor.write_nil
  upd_append := Cursor.write_append
  bounds _ _ h := h.1.bounds
  nonempty a s h := rep_writeInv.nonempty a s h.1
  copy _ _ d h hd := ⟨h.1.copy d hd, h.2.copied h.1 hd⟩
  flush _ _ h hne :=
    let ⟨s', hf, hr, hlt⟩ := h.1.flush hne
    ⟨s', hf, ⟨hr, (keeps_flushNonEmpty s₀).of_ok h.2 hf⟩, hlt⟩
  init _ _ h h0 :=
    let ⟨s', hi, hr⟩ := h.1.init h0
    ⟨s', hi, hr, (keeps_initInternalBuffer s₀).of_ok h.2 hi⟩

/-- `seek(p)` past the high-water mark fails its assertion. -/
theorem seek_past_end (hr : Rep a s) {p : Nat} (hp : a.data.length < p) :
    seek p s = .error (.assertion "Seeking past one-past-the-end of file is not supported!")
      (noted s) := by
  have := hr.length_eq
  have := hr.position
  have : ¬(p ≤ s.own.file.length ∨ p ≤ s.pos) := by omega
  simp [seek, noteLength, noted, this]

/-- A call on a writer that holds `a`, and that returns or throws: the call is one the array
allows, the writer holds the array the call gives, and it has stored only into its own blocks. -/
theorem WCall.run_confined (hr : Rep a s) (c : WCall) {s' : IndexOutput RAMOut}
    (hc : Returns c.run s s') : ∃ a', c.spec a = some a' ∧ Rep a' s' ∧ Confined s s' := by
  cases c with
  | call c =>
    obtain ⟨s₁, h₁, hr₁, hc₁⟩ :=
      IndexOutput.Call.run_inv (rep_confined_writeInv s) ⟨hr, Confined.refl s⟩ c
    obtain rfl := hc.eq_of_ok h₁
    exact ⟨_, rfl, hr₁, hc₁⟩
  | seek p =>
    cases ha : a.seek p with
    | none =>
      have hp : a.data.length < p := by
        unfold Cursor.seek at ha; split_ifs at ha with hp; omega
      rcases hc with ⟨_, h⟩ | ⟨_, h⟩ <;> rw [WCall.run, seek_past_end hr hp] at h <;> cases h
    | some a' =>
      obtain ⟨s₁, h₁, hr₁⟩ := seek_rep hr ha
      obtain rfl := hc.eq_of_ok h₁
      exact ⟨a', ha, hr₁, (keeps_seek s p).of_ok (Confined.refl s) h₁⟩

/-- A writer keeps its array in any memory that has the bytes of its blocks, with the blocks
allocated. -/
theorem Rep.heap_congr (hr : Rep a s) {heap : Heap}
    (hmem : ∀ x, s.own.file.Owns x → heap.mem x = s.heap.mem x) (hnext : s.heap.next ≤ heap.next) :
    Rep a { s with heap := heap } where
  stored := ⟨⟨hr.stored.placed.spaced, fun b hb => (hr.stored.placed.below b hb).trans hnext⟩,
    hr.stored.fits, fun i hi => by
      rw [hmem _ (s.own.file.owns_blockAddr (by have := hr.stored.fits; omega))]
      exact hr.stored.contents i hi⟩
  position := hr.position
  length_eq := hr.length_eq
  unbuffered := hr.unbuffered
  buffered h0 := (hr.buffered h0).imp fun _ hb =>
    ⟨hb.block, hb.start_ge, hb.start_lt, hb.start_le_cur, hb.cur_le_end, hb.end_eq, hb.cursor⟩

end Rep

end RAMFileIndexOutput

namespace IndexInput

open Op

variable {σ : Type} (impl : InputImpl σ) {h : Heap} {Q : σ → Prop}

/-- The stream is in the memory `h`, and the fields of its derived class satisfy `Q`. -/
def InHeap (h : Heap) (Q : σ → Prop) (t : IndexInput σ) : Prop :=
  t.heap = h ∧ Q t.own

section Calls

variable {impl} (hfill : Keeps (InHeap h Q) impl.fillImpl)
include hfill

theorem keeps_eof : Keeps (InHeap h Q) (eof impl) :=
  keeps_get_bind fun _ _ => keeps_ite (keeps_pure _) (hfill.bind fun _ => keeps_pure _)

theorem keeps_readByte : Keeps (InHeap h Q) (readByte impl) := by
  refine (keeps_eof hfill).bind fun _ =>
    keeps_ite ((keeps_throw _).bind fun _ => ?_) ((keeps_pure _).bind fun _ => ?_) <;>
  exact keeps_modifyGet fun _ hs => hs

theorem keeps_readLoop (size : Nat) (copied : List UInt8) :
    Keeps (InHeap h Q) (readLoop impl size copied) := by
  intro s hs
  induction copied, s using readLoop.induct impl size with
  | case1 copied s hl s' he ih =>
    have hs' : InHeap h Q s' := (keeps_eof hfill).of_ok hs he
    rw [readLoop_of_false impl hl he]
    exact ih hs'
  | case2 copied s hl s' he =>
    rw [readLoop_of_true impl hl he]
    exact (keeps_eof hfill).of_ok hs he
  | case3 copied s hl e s' he =>
    have : readLoop impl size copied s = .error e s' := by
      rw [readLoop, if_pos hl]
      split <;> simp_all
    rw [this]
    exact (keeps_eof hfill).of_error hs he
  | case4 copied s hl =>
    rw [readLoop_of_done impl hl]
    exact hs

theorem keeps_read (size : Nat) : Keeps (InHeap h Q) (read impl size) := by
  refine (keeps_readLoop hfill size []).bind fun _ => (keeps_modify ?_).bind fun _ => keeps_pure _
  exact fun _ hs => hs

theorem keeps_readFixed (n : Nat) (msg : String) : Keeps (InHeap h Q) (readFixed impl n msg) := by
  refine (keeps_read hfill n).bind fun _ =>
    keeps_ite ((keeps_throw _).bind fun _ => ?_) ((keeps_pure _).bind fun _ => ?_) <;>
  exact keeps_pure _

theorem keeps_varintLoop (w : Nat) :
    ∀ fuel i ret, Keeps (InHeap h Q) (varintLoop impl w fuel i ret : Op (IndexInput σ) _)
  | 0, _, _ => keeps_pure _
  | fuel + 1, i, _ => (keeps_eof hfill).bind fun _ => keeps_ite (keeps_pure _)
      ((keeps_readByte hfill).bind fun _ =>
        keeps_ite (keeps_pure _) (keeps_varintLoop w fuel (i + 1) _))

theorem keeps_readVarint (w kMax : Nat) (msg : String) :
    Keeps (InHeap h Q) (readVarint impl w kMax msg) :=
  (keeps_varintLoop hfill w kMax 0 0).bind fun r => by
    cases r
    · exact keeps_throw _
    · exact keeps_pure _

theorem keeps_readBytes : ∀ n, Keeps (InHeap h Q) (readBytes impl n)
  | 0 => keeps_pure _
  | n + 1 => (keeps_readByte hfill).bind fun _ => (keeps_readBytes n).bind fun _ => keeps_pure _

/-- No call of the data input interface changes the memory or the fields `fillImpl` keeps. -/
theorem ReadCall.keeps_run : ∀ c : ReadCall, Keeps (InHeap h Q) (c.run impl)
  | .readByte => (keeps_readByte hfill).map _
  | .read n => (keeps_read hfill n).map _
  | .eof => (keeps_eof hfill).map _
  | .readInt32 => ((keeps_readFixed hfill _ _).map _).map _
  | .readInt64 => ((keeps_readFixed hfill _ _).map _).map _
  | .readVarint32 => ((keeps_readVarint hfill _ _ _).map _).map _
  | .readVarint64 => ((keeps_readVarint hfill _ _ _).map _).map _
  | .readString =>
    ((keeps_readVarint hfill _ _ _).map _ |>.bind fun _ => keeps_readBytes hfill _).map _

end Calls

end IndexInput

namespace RAMFileIndexInput

open Op IndexInput

variable {h : Heap} {F : RAMFile}

theorem keeps_setBlock (i : Nat) : Keeps (InHeap h (·.file = F)) (setBlock i) :=
  keeps_get_bind fun _ hs => (RAMFile.keeps_block _ _).bind fun _ => keeps_set hs

theorem keeps_fillImpl : Keeps (InHeap h (·.file = F)) fillImpl := by
  refine keeps_get_bind fun _ _ => (keeps_assert _ _).bind fun _ => keeps_ite
    ((((keeps_setBlock 0).bind fun _ => (keeps_modify ?_).bind fun _ => keeps_modify ?_).bind
      fun _ => keeps_pure _)) (keeps_ite (keeps_pure _) ((keeps_modify ?_).bind fun _ =>
        keeps_get_bind fun _ _ => (keeps_setBlock _).bind fun _ => (keeps_modify ?_).bind fun _ =>
          (keeps_modify ?_).bind fun _ => keeps_pure _))
  all_goals intro t hs
  all_goals first | exact hs | split <;> exact hs

theorem keeps_seek (p : Nat) : Keeps (InHeap h (·.file = F)) (seek p) := by
  refine keeps_get_bind fun _ _ => (keeps_assert _ _).bind fun _ => (keeps_modify ?_).bind fun _ =>
    keeps_get_bind fun _ _ => (keeps_setBlock _).bind fun _ => (keeps_modify ?_).bind fun _ =>
      keeps_modify ?_
  all_goals intro t hs
  all_goals first | exact hs | split <;> exact hs

/-- A reader's calls leave the memory, and the file it reads, as they were. -/
theorem keeps_run : ∀ cs, Keeps (InHeap h (·.file = F)) (run cs)
  | [] => keeps_pure _
  | .read c :: cs => (ReadCall.keeps_run keeps_fillImpl c).bind fun _ => (keeps_run cs).bind
      fun _ => keeps_pure _
  | .seek p :: cs => (keeps_seek p).bind fun _ => keeps_run cs

end RAMFileIndexInput

end Lucanthrope
