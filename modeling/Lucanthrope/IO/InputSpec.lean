import Lucanthrope.IO.IndexInput

/-!
# `IndexInput` refines a byte sequence with a cursor

What `IndexInput` is for: the stream is a sequence of bytes `S`, and reading takes bytes off
its front, in order. The derived class supplies `S` in chunks: `Supplies impl I src` says that
its `fillImpl`, called with nothing pending and the source `src` not exhausted, places the next
non-empty chunk of the source at `[bufCur, sentinel)`, keeping the invariant `I` of the class,
and `FillEnds` that, with the source exhausted, it returns `false`. The bytes a stream has still
to deliver are then `remaining src s`, the pending range followed by the source.

`Reads op s a k` says that `op` returns `a` on `s` and takes exactly `k` bytes off the front of
`remaining src s`, with `pos` advanced by `k`; `Corrupt op s msg` that it throws
`IndexCorruption` with the message `msg`. The lemmas below give each operation of `IndexInput`
in those terms: `readByte_reads`, `readByte_corrupt`, `readLoop_spec`, `read_reads`, `eof_spec`.
`FillEnds` is needed only where the stream runs dry; a reader that stops before the end of its
data (`Supplies` alone) is what a stream whose end is not exact gives (the RAM reader).

> `runInput_spec`: for a class meeting both contracts, every sequence of `readByte`, `read` and
> `eof` calls on a stream with no buffer attached returns what the same calls return on the
> abstract sequence `S` (`InCall.spec`): `read(n)` the next `min(n, |S|)` bytes, `eof()` whether
> `S` is exhausted, `readByte` the next byte, or `IndexCorruption` once `S` is exhausted; and
> `getCurrentPosition()` counts the bytes delivered, the invariant (with the buffer bounds
> `bufStart ≤ bufCur ≤ sentinel ≤ bufEnd`) holding throughout.

An external buffer breaks this. `IndexInput::setExternalBuffer` moves `bufCur` to `bufEnd` and
leaves `sentinel` at `nullptr`, below `bufCur`: `getNumReadableBytes()` wraps around to a huge
`size_t`, and

> `readByte_external_buffer`: the first `readByte` after `setExternalBuffer(p, n)` calls no
> `fillImpl` and returns the byte at `p + n`, one past the buffer.

`listInput`, a class whose source is a list it owns, meets both contracts.
-/

namespace Lucanthrope

namespace IndexInput

variable {σ : Type} (impl : InputImpl σ) (I : IndexInput σ → Prop) (src : IndexInput σ → List UInt8)

/-- The bytes still to be delivered: the pending range `[bufCur, sentinel)`, then the source. -/
def remaining (s : IndexInput σ) : List UInt8 :=
  s.heap.load s.bufCur (s.sentinel - s.bufCur) ++ src s

/-- `s` with the cursor at `c` and the position at `p`: what taking bytes does to a stream. -/
def moveTo (s : IndexInput σ) (c p : Nat) : IndexInput σ :=
  { s with bufCur := c, pos := p }

/-- `bufCur ≤ sentinel`, and `bufStart ≤ bufCur ≤ sentinel ≤ bufEnd` once a buffer is
attached. -/
structure Bounds (s : IndexInput σ) : Prop where
  cur_le_sentinel : s.bufCur ≤ s.sentinel
  attached : s.bufStart ≠ 0 → s.bufStart ≤ s.bufCur ∧ s.sentinel ≤ s.bufEnd

/-- The derived class supplies the source `src` under its invariant `I`: taking pending bytes
keeps `I` and the source, and `fillImpl` with nothing pending and the source not exhausted
places the next non-empty chunk of the source at `[bufCur, sentinel)`. -/
structure Supplies : Prop where
  bounds : ∀ s, I s → Bounds s
  moveTo : ∀ s c p, I s → s.bufCur ≤ c → c ≤ s.sentinel →
    I (moveTo s c p) ∧ src (moveTo s c p) = src s
  fill_chunk : ∀ s, I s → s.bufCur = s.sentinel → src s ≠ [] →
    ∃ s', impl.fillImpl s = .ok true s' ∧ I s' ∧ s'.bufCur < s'.sentinel ∧
      remaining src s' = src s ∧ s'.pos = s.pos

/-- With nothing pending and the source exhausted, `fillImpl` returns `false`. -/
def FillEnds : Prop :=
  ∀ s, I s → s.bufCur = s.sentinel → src s = [] →
    ∃ s', impl.fillImpl s = .ok false s' ∧ I s' ∧ remaining src s' = [] ∧ s'.pos = s.pos

/-- `op` returns `a` on `s` and takes `k` bytes off the front of the stream. -/
def Reads {α : Type} (op : Op (IndexInput σ) α) (s : IndexInput σ) (a : α) (k : Nat) : Prop :=
  ∃ s', op s = .ok a s' ∧ I s' ∧ k ≤ (remaining src s).length ∧
    remaining src s' = (remaining src s).drop k ∧ s'.pos = s.pos + k

/-- `op` throws `IndexCorruption` on `s`, with the message `msg`. -/
def Corrupt {α : Type} (op : Op (IndexInput σ) α) (s : IndexInput σ) (msg : String) : Prop :=
  ∃ s', op s = .error (.exception ⟨.IndexCorruptionException, msg⟩) s'

/-! ## Composing reads -/

section Compose

variable {I src} {α β : Type} {s : IndexInput σ}

theorem Reads.bind {x : Op (IndexInput σ) α} {f : α → Op (IndexInput σ) β} {a : α} {b : β}
    {k k' : Nat} (h : Reads I src x s a k)
    (hf : ∀ s', I s' → remaining src s' = (remaining src s).drop k → Reads I src (f a) s' b k') :
    Reads I src (x >>= f) s b (k + k') := by
  obtain ⟨s₁, hx, h₁, hk, hr, hp⟩ := h
  obtain ⟨s₂, hf', h₂, hk', hr', hp'⟩ := hf s₁ h₁ hr
  rw [hr, List.length_drop] at hk'
  refine ⟨s₂, by rw [Op.bind_apply, hx]; exact hf', h₂, by omega, ?_, by omega⟩
  rw [hr', hr, List.drop_drop]

theorem Reads.map {x : Op (IndexInput σ) α} {a : α} {k : Nat} (h : Reads I src x s a k)
    (f : α → β) : Reads I src (f <$> x) s (f a) k := by
  obtain ⟨s₁, hx, h₁⟩ := h
  exact ⟨s₁, by rw [Op.map_apply, hx], h₁⟩

theorem Reads.pure (h : I s) (a : α) : Reads I src (pure a) s a 0 :=
  ⟨s, rfl, h, Nat.zero_le _, rfl, rfl⟩

theorem Corrupt.bind {x : Op (IndexInput σ) α} {f : α → Op (IndexInput σ) β} {msg : String}
    (h : Corrupt x s msg) : Corrupt (x >>= f) s msg := by
  obtain ⟨s', hx⟩ := h
  exact ⟨s', by rw [Op.bind_apply, hx]⟩

theorem Corrupt.map {x : Op (IndexInput σ) α} {msg : String} (h : Corrupt x s msg) (f : α → β) :
    Corrupt (f <$> x) s msg := by
  obtain ⟨s', hx⟩ := h
  exact ⟨s', by rw [Op.map_apply, hx]⟩

theorem Reads.bind_corrupt {x : Op (IndexInput σ) α} {f : α → Op (IndexInput σ) β} {a : α}
    {k : Nat} {msg : String} (h : Reads I src x s a k)
    (hf : ∀ s', I s' → remaining src s' = (remaining src s).drop k → Corrupt (f a) s' msg) :
    Corrupt (x >>= f) s msg := by
  obtain ⟨s₁, hx, h₁, -, hr, -⟩ := h
  obtain ⟨s₂, hf'⟩ := hf s₁ h₁ hr
  exact ⟨s₂, by rw [Op.bind_apply, hx]; exact hf'⟩

end Compose

/-! ## `eof`, `readByte`, `read` -/

section Ops

variable {impl I src} {s : IndexInput σ}

theorem remaining_moveTo (hs : Supplies impl I src) (h : I s) {k : Nat}
    (hk : s.bufCur + k ≤ s.sentinel) (p : Nat) :
    remaining src (moveTo s (s.bufCur + k) p) = (remaining src s).drop k := by
  rw [remaining, (hs.moveTo s _ p h (Nat.le_add_right _ _) hk).2, remaining,
    List.drop_append_of_le_length (by simp; omega), Heap.drop_load _ (by omega)]
  simp only [moveTo, Nat.sub_sub]

/-- The pending range is empty exactly when `bufCur = sentinel`. -/
theorem remaining_of_empty (hs : Supplies impl I src) (h : I s)
    (he : ¬s.bufCur < s.sentinel) : remaining src s = src s ∧ s.bufCur = s.sentinel := by
  have := (hs.bounds s h).cur_le_sentinel
  refine ⟨?_, by omega⟩
  rw [remaining, show s.sentinel - s.bufCur = 0 by omega]
  rfl

theorem eof_of_pending (hp : s.bufCur < s.sentinel) : eof impl s = .ok false s := by
  simp [eof, hasPendingData, getNumReadableBytes, ptrSub_of_le (Nat.le_of_lt hp),
    Nat.sub_pos_of_lt hp]

theorem eof_of_empty {r : Bool} {s' : IndexInput σ} (he : s.bufCur = s.sentinel)
    (hf : impl.fillImpl s = .ok r s') : eof impl s = .ok (!r) s' := by
  simp [eof, hasPendingData, getNumReadableBytes, he, hf]

theorem eof_of_empty_error {e : Failure} {s' : IndexInput σ} (he : s.bufCur = s.sentinel)
    (hf : impl.fillImpl s = .error e s') : eof impl s = .error e s' := by
  simp [eof, hasPendingData, getNumReadableBytes, he, hf]

/-- With bytes still to come, `eof()` is `false` and leaves bytes pending. -/
theorem eof_false (hs : Supplies impl I src) (h : I s) (hne : remaining src s ≠ []) :
    ∃ s', eof impl s = .ok false s' ∧ I s' ∧ s'.bufCur < s'.sentinel ∧
      remaining src s' = remaining src s ∧ s'.pos = s.pos := by
  by_cases hp : s.bufCur < s.sentinel
  · exact ⟨s, eof_of_pending hp, h, hp, rfl, rfl⟩
  · obtain ⟨hr, he⟩ := remaining_of_empty hs h hp
    obtain ⟨s', hf, h', hlt, hr', hpos⟩ := hs.fill_chunk s h he (hr ▸ hne)
    exact ⟨s', eof_of_empty he hf, h', hlt, hr'.trans hr.symm, hpos⟩

/-- With nothing to come, `eof()` is `true`. -/
theorem eof_true (hs : Supplies impl I src) (hend : FillEnds impl I src) (h : I s)
    (he : remaining src s = []) :
    ∃ s', eof impl s = .ok true s' ∧ I s' ∧ remaining src s' = [] ∧ s'.pos = s.pos := by
  have hp : ¬s.bufCur < s.sentinel := fun hp => by
    have := congrArg List.length he
    simp [remaining] at this
    omega
  obtain ⟨hr, hc⟩ := remaining_of_empty hs h hp
  obtain ⟨s', hf, h'⟩ := hend s h hc (hr ▸ he)
  exact ⟨s', eof_of_empty hc hf, h'⟩

/-- `eof()` is whether the stream is exhausted, and takes nothing. -/
theorem eof_spec (hs : Supplies impl I src) (h : I s)
    (hend : remaining src s ≠ [] ∨ FillEnds impl I src) :
    Reads I src (eof impl) s (remaining src s).isEmpty 0 := by
  by_cases he : remaining src s = []
  · obtain ⟨s', he', h', hr', hp'⟩ :=
      eof_true hs (hend.resolve_left (not_not.2 he)) h he
    exact ⟨s', by rw [he']; simp [he], h', Nat.zero_le _, by simp [hr', he], hp'⟩
  · obtain ⟨s', he', h', -, hr', hp'⟩ := eof_false hs h he
    exact ⟨s', by rw [he']; simp [List.isEmpty_iff, he], h', Nat.zero_le _, by simp [hr'], hp'⟩

theorem readByte_reads (hs : Supplies impl I src) (h : I s) {b : UInt8} {T : List UInt8}
    (hr : remaining src s = b :: T) : Reads I src (readByte impl) s b 1 := by
  obtain ⟨s₁, he, h₁, hlt, hr₁, hp₁⟩ := eof_false hs h (by simp [hr])
  have hmove := remaining_moveTo hs h₁ (k := 1) hlt (s₁.pos + 1)
  have hb : s₁.heap.mem s₁.bufCur = b := by
    rw [remaining, show s₁.sentinel - s₁.bufCur = (s₁.sentinel - s₁.bufCur - 1) + 1 by omega,
      Heap.load_succ, hr] at hr₁
    exact (List.cons.inj hr₁).1
  refine ⟨moveTo s₁ (s₁.bufCur + 1) (s₁.pos + 1), ?_,
    (hs.moveTo s₁ _ _ h₁ (Nat.le_succ _) hlt).1, by simp [hr], by rw [hmove, hr₁],
    by simp [moveTo, hp₁]⟩
  simp [readByte, he, hb, moveTo]

theorem readByte_corrupt (hs : Supplies impl I src) (hend : FillEnds impl I src) (h : I s)
    (hr : remaining src s = []) :
    Corrupt (readByte impl) s "in IndexInput::readByte(): cannot read a byte, EOF is reached" := by
  obtain ⟨s', he, -⟩ := eof_true hs hend h hr
  exact ⟨s', by simp [readByte, he]⟩

/-- `read`'s loop copies the next `size - copied.length` bytes, or all there are. -/
theorem readLoop_spec (hs : Supplies impl I src) {size : Nat} (copied : List UInt8)
    (h : I s) (hend : size - copied.length ≤ (remaining src s).length ∨ FillEnds impl I src) :
    ∃ s', readLoop impl size copied s =
        .ok (copied ++ (remaining src s).take (size - copied.length)) s' ∧
      I s' ∧ remaining src s' = (remaining src s).drop (size - copied.length) ∧
      s'.pos = s.pos := by
  induction copied, s using readLoop.induct impl size with
  | case1 copied s hl s₁ he ih =>
    have hne : remaining src s ≠ [] := fun h0 => by
      obtain ⟨_, he', -⟩ := eof_true hs (hend.resolve_left (by simp [h0]; omega)) h h0
      rw [he] at he'; cases he'
    obtain ⟨s₂, he₂, h₁, hlt, hr₁, hp₁⟩ := eof_false hs h hne
    rw [he] at he₂; cases he₂
    rw [readLoop_of_false impl hl he]
    have hk : getNumReadableBytes s₁ = s₁.sentinel - s₁.bufCur := ptrSub_of_le (le_of_lt hlt)
    generalize hkdef : min (getNumReadableBytes s₁) (size - copied.length) = k at ih ⊢
    have hkle : s₁.bufCur + k ≤ s₁.sentinel := by omega
    have hmove := remaining_moveTo hs h₁ hkle s₁.pos
    have hload : s₁.heap.load s₁.bufCur k = (remaining src s).take k := by
      rw [← hr₁, remaining, List.take_append_of_le_length (by simp; omega),
        Heap.take_load _ (by omega)]
    simp only [moveTo, hr₁] at hmove
    obtain ⟨s₃, hl₃, h₃, hr₃, hp₃⟩ := ih (hs.moveTo s₁ _ s₁.pos h₁ (Nat.le_add_right _ _) hkle).1
      (by rw [List.length_append, Heap.load_length, hmove]
          exact hend.imp_left fun _ => by simp; omega)
    rw [hmove, List.length_append, Heap.load_length] at hl₃ hr₃
    have hsum : k + (size - (copied.length + k)) = size - copied.length := by omega
    refine ⟨s₃, ?_, h₃, ?_, hp₃.trans hp₁⟩
    · rw [hl₃, hload, List.append_assoc, ← List.take_add, hsum]
    · rw [hr₃, List.drop_drop, hsum]
  | case2 copied s hl s₁ he =>
    have h0 : remaining src s = [] := by
      by_contra hne
      obtain ⟨_, he', -⟩ := eof_false hs h hne
      rw [he] at he'; cases he'
    obtain ⟨s₂, he₂, h₂, hr₂, hp₂⟩ := eof_true hs (hend.resolve_left (by simp [h0]; omega)) h h0
    rw [he] at he₂; cases he₂
    exact ⟨s₁, by rw [readLoop_of_true impl hl he, h0]; simp, h₂, by simp [hr₂, h0], hp₂⟩
  | case3 copied s hl e s₁ he =>
    by_cases h0 : remaining src s = []
    · obtain ⟨_, he', -⟩ := eof_true hs (hend.resolve_left (by simp [h0]; omega)) h h0
      rw [he] at he'; cases he'
    · obtain ⟨_, he', -⟩ := eof_false hs h h0
      rw [he] at he'; cases he'
  | case4 copied s hl =>
    rw [readLoop_of_done impl hl, Nat.sub_eq_zero_of_le (Nat.not_lt.1 hl)]
    exact ⟨s, by simp, h, by simp, rfl⟩

theorem drop_min_length {α : Type} (l : List α) (n : Nat) : l.drop (min n l.length) = l.drop n := by
  rcases le_total n l.length with hn | hn
  · rw [min_eq_left hn]
  · rw [min_eq_right hn, List.drop_length, List.drop_eq_nil_of_le hn]

theorem read_reads (hs : Supplies impl I src) (h : I s) {n : Nat}
    (hend : n ≤ (remaining src s).length ∨ FillEnds impl I src) :
    Reads I src (read impl n) s ((remaining src s).take n) (min n (remaining src s).length) := by
  obtain ⟨s₁, hl, h₁, hr₁, hp₁⟩ := readLoop_spec hs [] h (by simpa using hend)
  have hc : s₁.bufCur + 0 ≤ s₁.sentinel := (hs.bounds s₁ h₁).cur_le_sentinel
  have hmove := remaining_moveTo hs h₁ hc (s₁.pos + min n (remaining src s).length)
  refine ⟨moveTo s₁ (s₁.bufCur + 0) (s₁.pos + min n (remaining src s).length), ?_,
    (hs.moveTo s₁ _ _ h₁ (Nat.le_add_right _ _) hc).1, min_le_right _ _, ?_, ?_⟩
  · simp [read, hl, moveTo]
  · rw [hmove, hr₁]; simp [drop_min_length]
  · simp [moveTo, hp₁]

end Ops

/-! ## A stream that reads a list it owns -/

/-- The buffer `fillImpl` of `listInput` fills: the attached one, or a new one of `4` bytes. -/
def listBuffer (s : IndexInput (List UInt8)) : IndexInput (List UInt8) :=
  if s.bufStart = 0 then
    { s with heap := (s.heap.alloc 4).2, bufStart := s.heap.next, bufEnd := s.heap.next + 4 }
  else s

/-- `fillImpl` of `listInput` on the buffer of `t`: as much of the list as fits, at the start
of the buffer. -/
def listFill (t : IndexInput (List UInt8)) : IndexInput (List UInt8) :=
  { t with heap := t.heap.store t.bufStart (t.own.take (t.bufEnd - t.bufStart)),
           bufCur := t.bufStart,
           sentinel := t.bufStart + (t.own.take (t.bufEnd - t.bufStart)).length,
           own := t.own.drop (t.bufEnd - t.bufStart) }

/-- An `IndexInput` whose source is the list it owns, filling as much of its buffer as it
can; it accepts external buffers. -/
def listInput : InputImpl (List UInt8) where
  fillImpl s :=
    if s.own = [] then .ok false s
    else if (listBuffer s).own.take ((listBuffer s).bufEnd - (listBuffer s).bufStart) = [] then
      .error (.exception ⟨.IOErrorException, "buffer too small"⟩) (listBuffer s)
    else .ok true (listFill (listBuffer s))
  supportsExternalBuffer := true
  fillImpl_pending s s' h := by
    simp only at h
    split_ifs at h with h₁ h₂ <;> cases h
    simpa [ptrSub, listFill] using h₂

/-- The invariant of `listInput`: the bounds, and a buffer once attached is not empty. -/
def listInv (s : IndexInput (List UInt8)) : Prop :=
  Bounds s ∧ (s.bufStart ≠ 0 → s.bufStart < s.bufEnd)

theorem listBuffer_spec (s : IndexInput (List UInt8)) (h : listInv s) :
    (listBuffer s).bufStart ≠ 0 ∧ (listBuffer s).bufStart < (listBuffer s).bufEnd ∧
      (listBuffer s).own = s.own ∧ (listBuffer s).pos = s.pos := by
  unfold listBuffer
  split_ifs with h0
  · exact ⟨Nat.pos_iff_ne_zero.1 s.heap.next_pos, by simp, rfl, rfl⟩
  · exact ⟨h0, h.2 h0, rfl, rfl⟩

theorem listInput_supplies : Supplies listInput listInv (·.own) where
  bounds _ h := h.1
  moveTo s c p h hc hc' :=
    ⟨⟨⟨hc', fun h0 => ⟨le_trans (h.1.attached h0).1 hc, (h.1.attached h0).2⟩⟩, h.2⟩, rfl⟩
  fill_chunk s h _ hown := by
    obtain ⟨h0, hlt, hown', hpos⟩ := listBuffer_spec s h
    have hchunk :
        (listBuffer s).own.take ((listBuffer s).bufEnd - (listBuffer s).bufStart) ≠ [] := by
      simp [hown', hown]; omega
    refine ⟨listFill (listBuffer s), by simp only [listInput, if_neg hown, if_neg hchunk],
      ⟨⟨?_, fun _ => ⟨?_, ?_⟩⟩, fun _ => hlt⟩, ?_, ?_, hpos⟩
    all_goals
      have := List.length_pos.2 hchunk
      have := List.length_take_le ((listBuffer s).bufEnd - (listBuffer s).bufStart)
        (listBuffer s).own
      simp only [listFill, remaining]
    · omega
    · omega
    · omega
    · omega
    · rw [← hown', Nat.add_sub_cancel_left, Heap.load_store_self, List.take_append_drop]

theorem listInput_fillEnds : FillEnds listInput listInv (·.own) := by
  intro s h hc hown
  refine ⟨s, by simp [listInput, hown], h, ?_, rfl⟩
  simp [remaining, hc, hown]

/-! ## Runs -/

/-- A call of the data input interface that reads bytes. -/
inductive InCall where
  | readByte
  | read (n : Nat)
  | eof
  deriving DecidableEq, Repr

/-- What a call of the data input interface returns. -/
inductive InResult where
  | byte (b : UInt8)
  | bytes (bs : List UInt8)
  | eof (e : Bool)
  | u32 (v : UInt32)
  | u64 (v : UInt64)
  deriving DecidableEq, Repr

/-- The call, on the stream. -/
def InCall.run : InCall → Op (IndexInput σ) InResult
  | .readByte => .byte <$> IndexInput.readByte impl
  | .read n => .bytes <$> IndexInput.read impl n
  | .eof => .eof <$> IndexInput.eof impl

/-- The calls, one after another, and their results. -/
def runInputs : List InCall → Op (IndexInput σ) (List InResult)
  | [] => pure []
  | c :: cs => do
    let r ← c.run impl
    let rs ← runInputs cs
    pure (r :: rs)

/-- The call on the abstract sequence `S`: its result and the number of bytes it takes, or
`none` where it throws `IndexCorruption`. -/
def InCall.spec : InCall → List UInt8 → Option (InResult × Nat)
  | .readByte, [] => none
  | .readByte, b :: _ => some (.byte b, 1)
  | .read n, S => some (.bytes (S.take n), min n S.length)
  | .eof, S => some (.eof S.isEmpty, 0)

/-- The calls on the abstract sequence `S`. -/
def runSpec : List InCall → List UInt8 → Option (List InResult × Nat)
  | [], _ => some ([], 0)
  | c :: cs, S =>
    match c.spec S with
    | none => none
    | some (r, k) => (runSpec cs (S.drop k)).map fun (rs, k') => (r :: rs, k + k')

/-- The message of `readByte` at the end of the stream. -/
def readByteEofMsg : String :=
  "in IndexInput::readByte(): cannot read a byte, EOF is reached"

section Run

variable {impl I src} {s : IndexInput σ}

theorem InCall.run_spec (hs : Supplies impl I src) (hend : FillEnds impl I src) (h : I s)
    (c : InCall) :
    (∀ r k, c.spec (remaining src s) = some (r, k) → Reads I src (c.run impl) s r k) ∧
      (c.spec (remaining src s) = none → Corrupt (c.run impl) s readByteEofMsg) := by
  cases c with
  | readByte =>
    cases hr : remaining src s with
    | nil => exact ⟨by simp [InCall.spec], fun _ => (readByte_corrupt hs hend h hr).map _⟩
    | cons b T =>
      refine ⟨?_, by simp [InCall.spec]⟩
      rintro r k ⟨⟩
      exact (readByte_reads hs h hr).map _
  | read n =>
    refine ⟨?_, by simp [InCall.spec]⟩
    rintro r k ⟨⟩
    exact (read_reads hs h (.inr hend)).map _
  | eof =>
    refine ⟨?_, by simp [InCall.spec]⟩
    rintro r k ⟨⟩
    exact (eof_spec hs h (.inr hend)).map _

theorem runInputs_spec (hs : Supplies impl I src) (hend : FillEnds impl I src) (cs : List InCall) :
    ∀ {s}, I s →
      (∀ rs k, runSpec cs (remaining src s) = some (rs, k) → Reads I src (runInputs impl cs) s rs k) ∧
        (runSpec cs (remaining src s) = none → Corrupt (runInputs impl cs) s readByteEofMsg) := by
  induction cs with
  | nil => exact fun h => ⟨by rintro rs k ⟨⟩; exact Reads.pure h _, by simp [runSpec]⟩
  | cons c cs ih =>
    intro s h
    have hc := InCall.run_spec hs hend h c
    constructor
    · intro rs k hrun
      simp only [runSpec] at hrun
      split at hrun
      · cases hrun
      · rename_i r k₁ hspec
        obtain ⟨⟨rs', k'⟩, hrun', ⟨⟩⟩ := Option.map_eq_some'.1 hrun
        simpa only [Nat.add_zero] using (hc.1 r k₁ hspec).bind fun s' h' hr' =>
          ((ih h').1 rs' k' (hr' ▸ hrun')).bind fun _ h'' _ => Reads.pure h'' (r :: rs')
    · intro hrun
      simp only [runSpec] at hrun
      split at hrun
      · exact (hc.2 ‹_›).bind
      · rename_i r k₁ hspec
        refine (hc.1 r k₁ hspec).bind_corrupt fun s' h' hr' => ?_
        exact ((ih h').2 (by rw [hr']; simpa using hrun)).bind

end Run

/-- A new stream has nothing pending: it is to deliver exactly its source. -/
theorem remaining_create (heap : Heap) (own : σ) :
    remaining src (create heap own) = src (create heap own) := rfl

/-- Every sequence of `readByte`, `read` and `eof` calls returns what the same calls return on the
byte sequence the class supplies. -/
theorem runInput_spec (hs : Supplies impl I src) (hend : FillEnds impl I src) (heap : Heap)
    (own : σ) (h0 : I (create heap own)) (cs : List InCall) :
    (∀ rs k, runSpec cs (src (create heap own)) = some (rs, k) →
      Reads I src (runInputs impl cs) (create heap own) rs k) ∧
    (runSpec cs (src (create heap own)) = none →
      Corrupt (runInputs impl cs) (create heap own) readByteEofMsg) :=
  runInputs_spec hs hend cs h0

/-- Six bytes read as `read(3)`, `readByte`, `eof()`, `read(4)`. -/
theorem runInput_spec_listInput :
    (∀ rs k, runSpec [.read 3, .readByte, .eof, .read 4] [1, 2, 3, 4, 5, 6] = some (rs, k) →
      Reads listInv (·.own) (runInputs listInput [.read 3, .readByte, .eof, .read 4])
        (create Heap.zero [1, 2, 3, 4, 5, 6]) rs k) ∧
    (runSpec [.read 3, .readByte, .eof, .read 4] [1, 2, 3, 4, 5, 6] = none →
      Corrupt (runInputs listInput [.read 3, .readByte, .eof, .read 4])
        (create Heap.zero [1, 2, 3, 4, 5, 6]) readByteEofMsg) :=
  runInput_spec listInput listInv (·.own) listInput_supplies listInput_fillEnds Heap.zero [1, 2, 3, 4, 5, 6]
    ⟨⟨le_refl _, fun h => absurd rfl h⟩, fun h => absurd rfl h⟩ _

/-! ## An external buffer -/

/-- The first `readByte` after `setExternalBuffer(p, n)` calls no `fillImpl` and returns the byte
one past the buffer. -/
theorem readByte_external_buffer (hsup : impl.supportsExternalBuffer = true) {p n : Nat}
    (hp : p ≠ 0) (hpn : p + n < 2 ^ 64) (heap : Heap) (own : σ) :
    ∃ s, setExternalBuffer impl p n (create heap own) = .ok () s ∧
      readByte impl s = .ok (heap.mem (p + n)) { s with bufCur := p + n + 1, pos := 1 } := by
  refine ⟨_, by simp [setExternalBuffer, hsup, create, IndexIOBase.hasBuffer,
    IndexIOBase.empty]; rfl, ?_⟩
  have hpend := ptrSub_zero_ne_zero (p := p + n) (by omega) hpn
  simp [readByte, eof, hasPendingData, getNumReadableBytes, Nat.pos_iff_ne_zero.2 hpend, create,
    IndexIOBase.empty]

/-- A one-byte external buffer at address `1`: `readByte` returns the byte at address `2`. -/
theorem readByte_external_buffer_listInput :
    ∃ s, setExternalBuffer listInput 1 1 (create Heap.zero [5]) = .ok () s ∧
      readByte listInput s = .ok 0 { s with bufCur := 3, pos := 1 } :=
  readByte_external_buffer listInput rfl one_ne_zero (by decide) Heap.zero [5]

end IndexInput

end Lucanthrope
