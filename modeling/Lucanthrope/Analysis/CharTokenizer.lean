import Mathlib.Data.List.Basic
import Mathlib.Algebra.Group.Nat.Basic
import Mathlib.Algebra.Group.Int

/-!
# `CharTokenizer`: tokens are maximal runs

`CharTokenizer<Predicate, Normalizer>::next()` reads its `std::istream` one character at a time
with `get()`, skips the characters `isTokenChar` rejects, collects the run of characters it
accepts, normalized, into `buffer`, and stops at the first rejected character after the run,
or at `eof()`. The token is `Token(buffer, start_pos, start_pos + tok_len)`, where `start_pos`
is the `offset` of the run's first character.

A `std::istream` sets `eof()` only when a `get()` finds no character, and that `get()` still
returns: `EOF`, stored into `char c` as the byte `0xFF` (`eofChar`), which `next()` counts and
tests like any other character. So the stream delivers the text `s` followed by `eofChar`
(`Input.pending`), and the loop on it is `loopOn` (`loop_pending`). From there every call of
`next()` takes the first maximal run of `s ++ [eofChar]` after the last one (`next_at`), and
the calls one after another return the maximal runs in order, then `false` for ever
(`calls_at`):

> `calls_maxRuns`: for every predicate, normalizer and text `s`, the calls of `next()` return
> exactly the maximal runs `[a, b)` of `s ++ [eofChar]`, in order, each as the token with the
> characters of the run normalized, `startPos = a` and `endPos` the `int` conversion of `b`,
> and then `false` for ever.

`isalpha` rejects `EOF`, so the alphabetic tokenizers return the maximal runs of `s` itself;
`iswhitespace_predicate` accepts it, so a `WhiteSpaceTokenizer` adds it to the last token, or
makes it a token of its own:

> `alpha_tokens`: `AlphaCharTokenizer`, `LowerCaseTokenizer` and `UpperCaseTokenizer` return
> exactly the maximal runs of letters of `s`, in order, then `false` for ever.
>
> `whiteSpace_eof_token`: on every text, a `WhiteSpaceTokenizer` returns a token that holds the
> text's characters from its start on, then the normalized `EOF`, and ends at `|s| + 1`.

`Token::endPos` is an `int`, so an end at `2^31` or more is not kept (`toInt32`).

Mirroring notes:
- Characters are bytes. `isalpha`, `tolower` and `toupper` are those of the `"C"` locale, where
  the byte `0xFF` of `EOF` is no letter and is left alone. A `char` is signed, so the other bytes
  from `0x80` on reach them as negative values other than `EOF`, on which the C library leaves
  them undefined; the model gives those bytes the `"C"` locale's answer for the same byte read
  as `unsigned char`: no letter, left alone. On ASCII text and its `EOF` the model is exact.
- `offset`, `start_pos` and `Token::startPos` are `uint64_t`, kept as `Nat`: no text of `2^64`
  characters exists. `tok_len` is the size of `buffer`, the two grow together.
- `buffer` is cleared at the start of every call and read only by it; the model keeps it with
  the loop's locals (`Scan`). `start_pos` is uninitialized until the first token character sets
  it; the model starts it at `0`, which nothing reads.
- `Token::type` is left out: `CharTokenizer` leaves it empty. `tok` of a new tokenizer is a
  default `Token`, read by no one before `next()` returns `true`.
-/

namespace Lucanthrope

/-! ## The model -/

/-- `Token`: the text of a term, its start in the source text, and its end, an `int`. -/
structure Token where
  termText : List UInt8
  startPos : Nat
  endPos : Int
  deriving DecidableEq, Repr

/-- A `uint64_t` converted to `int`: its low 32 bits, read as two's complement. -/
def toInt32 (n : Nat) : Int :=
  if n % 2 ^ 32 < 2 ^ 31 then ((n % 2 ^ 32 : Nat) : Int) else ((n % 2 ^ 32 : Nat) : Int) - 2 ^ 32

theorem toInt32_of_lt {n : Nat} (h : n < 2 ^ 31) : toInt32 n = n := by
  have hn : n % 2 ^ 32 = n := Nat.mod_eq_of_lt (by omega)
  rw [toInt32, hn, if_pos h]

/-- `Token(text, start, end)`. -/
def Token.create (text : List UInt8) (start «end» : Nat) : Token :=
  ⟨text, start, toInt32 «end»⟩

/-- `EOF`, the `int` a failed `get()` returns, as the `char` it is stored in: `0xFF`. -/
def eofChar : UInt8 := 0xFF

/-- The `std::istream` of a tokenizer: the characters not yet extracted, and `eof()`. -/
structure Input where
  rest : List UInt8
  eof : Bool
  deriving DecidableEq, Repr

/-- What `get()` returns from here on until `eof()` is set: the characters not yet extracted,
then `EOF`. -/
def Input.pending : Input → List UInt8
  | ⟨rest, false⟩ => rest ++ [eofChar]
  | ⟨_, true⟩ => []

/-- The member `offset` and the locals of `next()`'s loop: `buffer`, whose size is `tok_len`,
and `start_pos`. -/
structure Scan where
  offset : Nat
  buffer : List UInt8
  start_pos : Nat
  deriving DecidableEq, Repr

/-- A `CharTokenizer`: its stream `input_`, `offset`, and `tok`, the last token. -/
structure CharTokenizer where
  input_ : Input
  offset : Nat
  tok : Token
  deriving DecidableEq, Repr

namespace CharTokenizer

variable (isTokenChar : UInt8 → Bool) (normalize : UInt8 → UInt8)

/-- The loop's body after `char c = input_.get()`: `offset++`; a token character goes to
`buffer`, and the first one sets `start_pos`; another character ends the token (`.inr`, the
`break`) or is skipped. -/
def step (c : UInt8) (sc : Scan) : Scan ⊕ Scan :=
  if isTokenChar c then
    .inl ⟨sc.offset + 1, sc.buffer ++ [normalize c],
      if sc.buffer.length = 0 then sc.offset + 1 - 1 else sc.start_pos⟩
  else if sc.buffer.length ≠ 0 then .inr { sc with offset := sc.offset + 1 }
  else .inl { sc with offset := sc.offset + 1 }

/-- A pass that finds `input_.eof()`: `break` when `tok_len` is not `0`, else `return false`. -/
def leaveAtEof (sc : Scan) (rest : List UInt8) : Bool × Scan × Input :=
  (sc.buffer.length != 0, sc, ⟨rest, true⟩)

/-- The `while (true)` of `next()` on the stream `⟨rest, eof⟩`: whether it leaves by `break`,
the locals then, and the stream. `get()` extracts the head of `rest`; on `[]` it fails, returns
`eofChar` and sets `eof()`, which the next pass finds. -/
def loop : List UInt8 → Bool → Scan → Bool × Scan × Input
  | rest, true, sc => leaveAtEof sc rest
  | [], false, sc =>
    match step isTokenChar normalize eofChar sc with
    | .inl sc => leaveAtEof sc []
    | .inr sc => (true, sc, ⟨[], true⟩)
  | c :: rest, false, sc =>
    match step isTokenChar normalize c sc with
    | .inl sc => loop rest false sc
    | .inr sc => (true, sc, ⟨rest, false⟩)

/-- `CharTokenizer::next`: the loop from an empty `buffer`; after a `break`, `tok` is
`Token(buffer, start_pos, start_pos + tok_len)` and the call returns `true`. -/
def next (t : CharTokenizer) : Bool × CharTokenizer :=
  match loop isTokenChar normalize t.input_.rest t.input_.eof ⟨t.offset, [], 0⟩ with
  | (true, sc, input) =>
    (true, ⟨input, sc.offset, .create sc.buffer sc.start_pos (sc.start_pos + sc.buffer.length)⟩)
  | (false, sc, input) => (false, ⟨input, sc.offset, t.tok⟩)

/-- `CharTokenizer(input)` on a stream over the text `s`. -/
def create (s : List UInt8) : CharTokenizer :=
  ⟨⟨s, false⟩, 0, ⟨[], 0, 0⟩⟩

/-- `k` calls of `next()`, one after another: for each, the token `getToken()` returns after
it, or `none` when it returns `false`. -/
def calls : Nat → CharTokenizer → List (Option Token)
  | 0, _ => []
  | k + 1, t =>
    let r := next isTokenChar normalize t
    (if r.1 then some r.2.tok else none) :: calls k r.2

end CharTokenizer

/-- `isalpha_predicate`: `std::isalpha` in the `"C"` locale. A byte from `0x80` to `0xFE` is a
negative `char` on which the call is undefined; the model answers no letter. -/
def isalphaPredicate (c : UInt8) : Bool :=
  (65 ≤ c && c ≤ 90) || (97 ≤ c && c ≤ 122)

/-- `iswhitespace_predicate`: anything but a space, a tab or a newline. -/
def iswhitespacePredicate (c : UInt8) : Bool :=
  if c = 32 ∨ c = 9 ∨ c = 10 then false else true

/-- `noop_normalizer`. -/
def noopNormalizer (c : UInt8) : UInt8 := c

/-- `tolower_normalizer`: `std::tolower` in the `"C"` locale; a byte from `0x80` to `0xFE`, on
which the call is undefined, is left alone. -/
def tolowerNormalizer (c : UInt8) : UInt8 :=
  if 65 ≤ c ∧ c ≤ 90 then c + 32 else c

/-- `toupper_normalizer`: `std::toupper` in the `"C"` locale; a byte from `0x80` to `0xFE`, on
which the call is undefined, is left alone. -/
def toupperNormalizer (c : UInt8) : UInt8 :=
  if 97 ≤ c ∧ c ≤ 122 then c - 32 else c

/-! ## Maximal runs -/

/-- `t[a, b)` is a maximal run of characters that satisfy `p`. -/
structure MaxRun (p : UInt8 → Bool) (t : List UInt8) (a b : Nat) : Prop where
  lt : a < b
  inside : ∀ i, a ≤ i → i < b → t[i]?.any p = true
  left : a = 0 ∨ t[a - 1]?.any p = false
  right : t[b]?.any p = false

/-- The token of the run `t[r.1, r.2)`: its characters normalized, from `r.1` to `r.2`. -/
def runToken (normalize : UInt8 → UInt8) (t : List UInt8) (r : Nat × Nat) : Token :=
  .create (((t.drop r.1).take (r.2 - r.1)).map normalize) r.1 r.2

namespace MaxRun

variable {p : UInt8 → Bool} {t : List UInt8} {a b : Nat}

theorem le_length (h : MaxRun p t a b) : b ≤ t.length := by
  have hin := h.inside (b - 1) (by have := h.lt; omega) (by have := h.lt; omega)
  by_contra hb
  rw [List.getElem?_eq_none (by omega)] at hin
  cases hin

/-- A maximal run depends only on which characters satisfy `p`. -/
theorem of_any {t' : List UInt8} (h : ∀ i : Nat, t'[i]?.any p = t[i]?.any p) (hr : MaxRun p t a b) :
    MaxRun p t' a b :=
  ⟨hr.lt, fun i h₁ h₂ => (h i).trans (hr.inside i h₁ h₂), hr.left.imp_right ((h _).trans),
    (h b).trans hr.right⟩

/-- Two maximal runs from the same start end at the same place. -/
theorem end_eq {b' : Nat} (h : MaxRun p t a b) (h' : MaxRun p t a b') : b = b' := by
  by_contra hne
  rcases Nat.lt_or_gt_of_ne hne with hlt | hlt
  · have hin := h'.inside b (by have := h.lt; omega) hlt
    rw [h.right] at hin
    cases hin
  · have hin := h.inside b' (by have := h'.lt; omega) hlt
    rw [h'.right] at hin
    cases hin

/-- A maximal run that starts inside another one, or right at its end, is that run. -/
theorem eq_of_start_mem {a' b' : Nat} (h : MaxRun p t a b) (h' : MaxRun p t a' b') (h₁ : a ≤ a')
    (h₂ : a' ≤ b) : a' = a ∧ b' = b := by
  rcases Nat.eq_or_lt_of_le h₁ with rfl | hlt
  · exact ⟨rfl, (h.end_eq h').symm⟩
  · have hin := h.inside (a' - 1) (by omega) (by omega)
    rcases h'.left with h0 | hl
    · omega
    · rw [hl] at hin
      cases hin

end MaxRun

/-- A character that satisfies `p` lies in a run that starts at `0` or after a character that
does not. -/
theorem exists_run_start (p : UInt8 → Bool) (t : List UInt8) : ∀ i, t[i]?.any p = true →
    ∃ a ≤ i, (∀ j, a ≤ j → j ≤ i → t[j]?.any p = true) ∧ (a = 0 ∨ t[a - 1]?.any p = false)
  | 0, h => ⟨0, le_rfl, fun j _ hj => by rwa [Nat.le_zero.1 hj], .inl rfl⟩
  | i + 1, h => by
    cases hp : t[i]?.any p with
    | false => exact ⟨i + 1, le_rfl, fun j h₁ h₂ => by rwa [Nat.le_antisymm h₂ h₁], .inr hp⟩
    | true =>
      obtain ⟨a, ha, hrun, hleft⟩ := exists_run_start p t i hp
      exact ⟨a, by omega, fun j h₁ h₂ => if hj : j = i + 1 then hj ▸ h else hrun j h₁ (by omega),
        hleft⟩

namespace CharTokenizer

variable {isTokenChar : UInt8 → Bool} {normalize : UInt8 → UInt8}

/-! ## The loop on what the stream delivers -/

variable (isTokenChar normalize) in
/-- The loop on a stream that delivers the characters `u` and then finds `eof()`: whether it
breaks, the locals then, and the characters left. -/
def loopOn : List UInt8 → Scan → Bool × Scan × List UInt8
  | [], sc => (sc.buffer.length != 0, sc, [])
  | c :: u, sc =>
    match step isTokenChar normalize c sc with
    | .inl sc => loopOn u sc
    | .inr sc => (true, sc, u)

/-- `loop` is `loopOn` on the characters the stream has still to deliver. -/
theorem loop_pending (rest : List UInt8) (eof : Bool) (sc : Scan) :
    Prod.map id (Prod.map id Input.pending) (loop isTokenChar normalize rest eof sc) =
      loopOn isTokenChar normalize (Input.pending ⟨rest, eof⟩) sc := by
  cases eof with
  | true => cases rest <;> rfl
  | false =>
    induction rest generalizing sc with
    | nil =>
      simp only [loop, Input.pending, List.nil_append, loopOn]
      split <;> rfl
    | cons c rest ih =>
      simp only [loop, Input.pending, List.cons_append, loopOn]
      split
      · exact ih _
      · rfl

theorem loopOn_skip {sep : List UInt8} (hsep : ∀ c ∈ sep, isTokenChar c = false)
    (u : List UInt8) (o st : Nat) :
    loopOn isTokenChar normalize (sep ++ u) ⟨o, [], st⟩ =
      loopOn isTokenChar normalize u ⟨o + sep.length, [], st⟩ := by
  induction sep generalizing o with
  | nil => rfl
  | cons c sep ih =>
    have hc := hsep c (List.mem_cons_self _ _)
    simp only [List.cons_append, loopOn, step, hc, Bool.false_eq_true, if_false,
      List.length_nil, ne_eq, not_true_eq_false, List.append_eq]
    rw [ih (fun c h => hsep c (List.mem_cons_of_mem _ h)), List.length_cons, Nat.add_assoc,
      Nat.add_comm 1]

theorem loopOn_take {run : List UInt8} (hrun : ∀ c ∈ run, isTokenChar c = true)
    (u : List UInt8) {o st : Nat} {buf : List UInt8} (hbuf : buf ≠ []) :
    loopOn isTokenChar normalize (run ++ u) ⟨o, buf, st⟩ =
      loopOn isTokenChar normalize u ⟨o + run.length, buf ++ run.map normalize, st⟩ := by
  induction run generalizing o buf with
  | nil => simp
  | cons c run ih =>
    have hc := hrun c (List.mem_cons_self _ _)
    have hlen : buf.length ≠ 0 := fun h => hbuf (List.eq_nil_of_length_eq_zero h)
    simp only [List.cons_append, loopOn, step, hc, if_true, hlen, if_false, List.append_eq]
    rw [ih (fun c h => hrun c (List.mem_cons_of_mem _ h)) (by simp), List.length_cons,
      List.map_cons, List.append_assoc, List.singleton_append, Nat.add_assoc, Nat.add_comm 1]

theorem loopOn_start {c : UInt8} (hc : isTokenChar c = true) (u : List UInt8) (o st : Nat) :
    loopOn isTokenChar normalize (c :: u) ⟨o, [], st⟩ =
      loopOn isTokenChar normalize u ⟨o + 1, [normalize c], o⟩ := by
  simp [loopOn, step, hc]

theorem loopOn_break {c : UInt8} (hc : isTokenChar c = false) (u : List UInt8) {o st : Nat}
    {buf : List UInt8} (hbuf : buf ≠ []) :
    loopOn isTokenChar normalize (c :: u) ⟨o, buf, st⟩ = (true, ⟨o + 1, buf, st⟩, u) := by
  have hlen : buf.length ≠ 0 := fun h => hbuf (List.eq_nil_of_length_eq_zero h)
  simp [loopOn, step, hc, hlen]

/-- From `k` on, with an empty `buffer`: with no token character left, the loop runs to the end
and returns `false`; otherwise it skips to the first token character, at `a`, takes the run
`[a, b)` from there, and breaks on the character at `b`, or at the end. -/
theorem loopOn_drop (T : List UInt8) (k : Nat) :
    (loopOn isTokenChar normalize (T.drop k) ⟨k, [], 0⟩ = (false, ⟨k + (T.length - k), [], 0⟩, []) ∧
        ∀ i, k ≤ i → T[i]?.any isTokenChar = false) ∨
    ∃ a b, k ≤ a ∧ a < b ∧ (∀ i, k ≤ i → i < a → T[i]?.any isTokenChar = false) ∧
      (∀ i, a ≤ i → i < b → T[i]?.any isTokenChar = true) ∧ T[b]?.any isTokenChar = false ∧
      loopOn isTokenChar normalize (T.drop k) ⟨k, [], 0⟩ =
        (true, ⟨min (b + 1) T.length, ((T.drop a).take (b - a)).map normalize, a⟩,
          T.drop (b + 1)) := by
  have hu := List.takeWhile_append_dropWhile (fun c => !isTokenChar c) (T.drop k)
  generalize hsep : (T.drop k).takeWhile (fun c => !isTokenChar c) = sep at hu
  have hsep' : ∀ c ∈ sep, isTokenChar c = false := fun c hc => by
    rw [← hsep] at hc; simpa using List.mem_takeWhile_imp hc
  have hskipAt : ∀ i, k ≤ i → i < k + sep.length → T[i]?.any isTokenChar = false := by
    intro i h₁ h₂
    obtain ⟨j, rfl⟩ := Nat.exists_eq_add_of_le h₁
    rw [← List.getElem?_drop, ← hu, List.getElem?_append_left (by omega),
      List.getElem?_eq_getElem (by omega), Option.any_some, hsep' _ (List.getElem_mem _)]
  have hskip := @loopOn_skip isTokenChar normalize _ hsep'
  cases hv : (T.drop k).dropWhile (fun c => !isTokenChar c) with
  | nil =>
    rw [hv, List.append_nil] at hu
    have hlen : sep.length = T.length - k := by rw [hu, List.length_drop]
    refine .inl ⟨by rw [← hu, ← List.append_nil sep, hskip, hlen]; rfl, fun i hi => ?_⟩
    by_cases h : i < k + sep.length
    · exact hskipAt i hi h
    · rw [List.getElem?_eq_none (by omega)]; rfl
  | cons c v =>
    rw [hv] at hu
    have hc : isTokenChar c = true := by
      simpa [hv] using List.head_dropWhile_not (fun c => !isTokenChar c) (T.drop k) (by simp [hv])
    have hv' := List.takeWhile_append_dropWhile isTokenChar v
    generalize hrun : v.takeWhile isTokenChar = run at hv'
    generalize hw : v.dropWhile isTokenChar = w at hv'
    have hrun' : ∀ c ∈ run, isTokenChar c = true := fun c h => by
      rw [← hrun] at h; exact List.mem_takeWhile_imp h
    have hda : T.drop (k + sep.length) = c :: (run ++ w) := by
      rw [← List.drop_drop, ← hu, List.drop_left, hv']
    have hdb : T.drop (k + sep.length + (1 + run.length)) = w := by
      rw [← List.drop_drop, hda, Nat.add_comm 1, List.drop_succ_cons, List.drop_left]
    have hlen : T.length = k + sep.length + (1 + run.length) + w.length := by
      have h₁ := congrArg List.length hda
      simp only [List.length_drop, List.length_cons, List.length_append] at h₁
      omega
    refine .inr ⟨k + sep.length, k + sep.length + (1 + run.length), Nat.le_add_right _ _,
      by omega, fun i h₁ h₂ => hskipAt i h₁ h₂, fun i h₁ h₂ => ?_, ?_, ?_⟩
    · obtain ⟨j, rfl⟩ := Nat.exists_eq_add_of_le h₁
      rw [← List.getElem?_drop, hda]
      cases j with
      | zero => simpa using hc
      | succ j =>
        rw [List.getElem?_cons_succ, List.getElem?_append_left (by omega),
          List.getElem?_eq_getElem (by omega), Option.any_some, hrun' _ (List.getElem_mem _)]
    · rw [← Nat.add_zero (k + sep.length + (1 + run.length)), ← List.getElem?_drop, hdb]
      cases hw' : w with
      | nil => rfl
      | cons c' w' =>
        have := List.head_dropWhile_not isTokenChar v (by simp [hw, hw'])
        simpa [hw, hw'] using this
    · have htext : ((T.drop (k + sep.length)).take (k + sep.length + (1 + run.length) -
          (k + sep.length))).map normalize = [normalize c] ++ run.map normalize := by
        rw [hda, Nat.add_sub_cancel_left, Nat.add_comm, List.take_succ_cons,
          List.take_left' rfl]; rfl
      rw [htext, ← hu, hskip, loopOn_start hc, ← hv', loopOn_take hrun' _ (List.cons_ne_nil _ _)]
      cases w with
      | nil =>
        simp only [List.length_nil, Nat.add_zero] at hlen
        rw [List.drop_eq_nil_of_le (by omega), min_eq_right (by omega)]
        simp [loopOn, hlen, Nat.add_assoc]
      | cons c' w' =>
        have hc' : isTokenChar c' = false := by
          simpa [hw] using List.head_dropWhile_not isTokenChar v (by simp [hw])
        rw [loopOn_break hc' _ (by simp), min_eq_left (by simp at hlen; omega),
          ← List.drop_drop, hdb, List.drop_one, List.tail_cons]
        simp [Nat.add_assoc]

/-! ## One call -/

variable (isTokenChar) in
/-- The tokenizer has taken the first `k` characters of `T` and stands at a token boundary. -/
structure At (T : List UInt8) (k : Nat) (t : CharTokenizer) : Prop where
  pending : t.input_.pending = T.drop k
  offset : t.offset = k
  boundary : k = 0 ∨ T.length ≤ k ∨ T[k - 1]?.any isTokenChar = false

theorem at_create (s : List UInt8) : At isTokenChar (s ++ [eofChar]) 0 (create s) :=
  ⟨rfl, rfl, .inl rfl⟩

/-- `next()` sees only what the stream has still to deliver. -/
theorem next_eq (t : CharTokenizer) :
    let r := loopOn isTokenChar normalize t.input_.pending ⟨t.offset, [], 0⟩
    (next isTokenChar normalize t).1 = r.1 ∧ (next isTokenChar normalize t).2.offset = r.2.1.offset ∧
      (next isTokenChar normalize t).2.input_.pending = r.2.2 ∧
      ((next isTokenChar normalize t).1 = true → (next isTokenChar normalize t).2.tok =
        .create r.2.1.buffer r.2.1.start_pos (r.2.1.start_pos + r.2.1.buffer.length)) := by
  obtain ⟨⟨rest, eof⟩, offset, tok⟩ := t
  have h := @loop_pending isTokenChar normalize rest eof
    ⟨offset, [], 0⟩
  simp only [next]
  rcases hl : loop isTokenChar normalize rest eof ⟨offset, [], 0⟩ with ⟨_ | _, sc, input⟩ <;>
    simp only [hl, Prod.map, id] at h <;> simp [← h]

/-- With nothing left to deliver, `next()` returns `false` and changes nothing. -/
theorem next_of_pending_nil {t : CharTokenizer} (ht : t.input_.pending = []) :
    next isTokenChar normalize t = (false, t) := by
  obtain ⟨⟨rest, _ | _⟩, offset, tok⟩ := t
  · simp [Input.pending] at ht
  · cases rest <;> rfl

theorem calls_of_pending_nil {t : CharTokenizer} (ht : t.input_.pending = []) (j : Nat) :
    calls isTokenChar normalize j t = List.replicate j none := by
  induction j with
  | zero => rfl
  | succ j ih => simp [calls, next_of_pending_nil ht, ih, List.replicate_succ]

/-- One call at a boundary `k` of `T`: with no token character from `k` on, it returns `false`
and the stream has nothing left; otherwise it returns the first maximal run from `k` on and
stands at the next boundary. -/
theorem next_at {T : List UInt8} {k : Nat} {t : CharTokenizer} (ht : At isTokenChar T k t) :
    ((next isTokenChar normalize t).1 = false ∧ (next isTokenChar normalize t).2.input_.pending = [] ∧
        ∀ i, k ≤ i → T[i]?.any isTokenChar = false) ∨
    ∃ a b, k ≤ a ∧ MaxRun isTokenChar T a b ∧ (∀ i, k ≤ i → i < a → T[i]?.any isTokenChar = false) ∧
      (next isTokenChar normalize t).1 = true ∧
      (next isTokenChar normalize t).2.tok = runToken normalize T (a, b) ∧
      At isTokenChar T (min (b + 1) T.length) (next isTokenChar normalize t).2 := by
  obtain ⟨h₁, h₂, h₃, h₄⟩ := @next_eq isTokenChar normalize t
  rw [ht.pending, ht.offset] at h₁ h₂ h₃ h₄
  rcases @loopOn_drop isTokenChar normalize T k with ⟨hl, hnone⟩ |
    ⟨a, b, hka, hab, hskip, hin, hright, hl⟩
  · rw [hl] at h₁ h₃
    exact .inl ⟨h₁, h₃, hnone⟩
  · rw [hl] at h₁ h₂ h₃ h₄
    dsimp only at h₁ h₂ h₃ h₄
    have hrun : MaxRun isTokenChar T a b := by
      refine ⟨hab, hin, ?_, hright⟩
      rcases Nat.eq_or_lt_of_le hka with rfl | hka'
      · rcases ht.boundary with h | h | h
        · exact .inl h
        · have hin := hin _ le_rfl hab
          rw [List.getElem?_eq_none h] at hin
          cases hin
        · exact .inr h
      · exact .inr (hskip (a - 1) (by omega) (by omega))
    have hb := hrun.le_length
    refine .inr ⟨a, b, hka, hrun, hskip, h₁, ?_, ?_, h₂, ?_⟩
    · rw [h₄ h₁]
      simp only [runToken, Token.create, List.length_map, List.length_take, List.length_drop]
      congr 2
      omega
    · rw [h₃]
      rcases Nat.lt_or_ge b T.length with h | h
      · rw [min_eq_left h]
      · rw [min_eq_right (by omega), List.drop_eq_nil_of_le (by omega), List.drop_length]
    · rcases Nat.lt_or_ge b T.length with h | h
      · rw [min_eq_left h]; exact .inr (.inr (by simpa using hright))
      · rw [min_eq_right (by omega)]; exact .inr (.inl le_rfl)

/-! ## Every call -/

theorem take_append_replicate {α : Type} (l : List α) (a : α) (j : Nat) :
    (l ++ List.replicate (j + 1) a).take j = (l ++ List.replicate j a).take j := by
  simp only [List.take_append_eq_append_take, List.take_replicate]
  congr 2
  omega

/-- From a boundary `k` of `T`, the calls return the maximal runs that start at `k` or later, in
order, and then `false` for ever. -/
theorem calls_at (T : List UInt8) : ∀ (m k : Nat) (t : CharTokenizer), T.length - k = m →
    At isTokenChar T k t →
    ∃ spans : List (Nat × Nat), spans.Pairwise (fun x y => x.2 < y.1) ∧
      (∀ a b, (a, b) ∈ spans ↔ MaxRun isTokenChar T a b ∧ k ≤ a) ∧
      ∀ j, calls isTokenChar normalize j t =
        (spans.map (some ∘ runToken normalize T) ++ List.replicate j none).take j := by
  intro m
  induction m using Nat.strong_induction_on with
  | _ m ih =>
    intro k t hm ht
    rcases @next_at isTokenChar normalize _ _ _ ht with ⟨hf, hp, hnone⟩ |
      ⟨a, b, hka, hrun, hskip, ht₁, htok, hat⟩
    · refine ⟨[], List.Pairwise.nil, fun a b => ⟨fun h => absurd h (List.not_mem_nil _),
        fun ⟨h, hk⟩ => ?_⟩, fun j => ?_⟩
      · have := h.inside a le_rfl h.lt
        rw [hnone a hk] at this
        cases this
      · cases j with
        | zero => rfl
        | succ j =>
          simp [calls, hf, calls_of_pending_nil hp, List.replicate_succ]
    · have hb := hrun.le_length
      have hab := hrun.lt
      obtain ⟨spans, hpair, hmem, hcalls⟩ :=
        ih _ (by omega) _ _ rfl hat
      have hafter : ∀ x ∈ spans, b < x.1 := fun x hx => by
        obtain ⟨hx', hk⟩ := (hmem x.1 x.2).1 hx
        have := hx'.lt
        have := hx'.le_length
        omega
      refine ⟨(a, b) :: spans, List.pairwise_cons.2 ⟨hafter, hpair⟩, fun a' b' => ?_, fun j => ?_⟩
      · constructor
        · rintro (⟨⟩ | ⟨_, hx⟩)
          · exact ⟨hrun, hka⟩
          · obtain ⟨hx', hk⟩ := (hmem a' b').1 hx
            exact ⟨hx', by omega⟩
        · rintro ⟨hr, hk⟩
          by_cases hlate : min (b + 1) T.length ≤ a'
          · exact List.mem_cons_of_mem _ ((hmem a' b').2 ⟨hr, hlate⟩)
          · have ha : a ≤ a' := by
              by_contra h
              have hin := hr.inside a' le_rfl hr.lt
              rw [hskip a' hk (by omega)] at hin
              cases hin
            obtain ⟨rfl, rfl⟩ := hrun.eq_of_start_mem hr ha (by omega)
            exact List.mem_cons_self _ _
      · cases j with
        | zero => rfl
        | succ j =>
          simp only [calls, ht₁, if_true, htok, hcalls j, List.map_cons, List.cons_append,
            List.take_succ_cons, Function.comp_apply, take_append_replicate]

end CharTokenizer

open CharTokenizer

/-- The calls of `next()` return the maximal runs of `s ++ [eofChar]`, in order, each
normalized, then `false` for ever. -/
theorem calls_maxRuns (isTokenChar : UInt8 → Bool) (normalize : UInt8 → UInt8)
    (s : List UInt8) :
    ∃ spans : List (Nat × Nat), spans.Pairwise (fun x y => x.2 < y.1) ∧
      (∀ a b, (a, b) ∈ spans ↔ MaxRun isTokenChar (s ++ [eofChar]) a b) ∧
      ∀ j, calls isTokenChar normalize j (create s) =
        (spans.map (some ∘ runToken normalize (s ++ [eofChar])) ++ List.replicate j none).take j :=
  let ⟨spans, hpair, hmem, hcalls⟩ := @calls_at isTokenChar normalize _ _ 0 _ rfl (at_create s)
  ⟨spans, hpair, fun a b => (hmem a b).trans (and_iff_left (Nat.zero_le a)), hcalls⟩

/-! ## The tokenizers of the library -/

section Eof

variable {p : UInt8 → Bool} (hp : p eofChar = false) (s : List UInt8)
include hp

/-- A predicate that rejects `EOF` sees `s ++ [eofChar]` as it sees `s`. -/
theorem any_append_eof (i : Nat) : (s ++ [eofChar])[i]?.any p = s[i]?.any p := by
  rcases Nat.lt_trichotomy i s.length with h | rfl | h
  · rw [List.getElem?_append_left h]
  · simp [hp]
  · rw [List.getElem?_eq_none (by simp; omega), List.getElem?_eq_none (by omega)]

theorem maxRun_append_eof {a b : Nat} :
    MaxRun p (s ++ [eofChar]) a b ↔ MaxRun p s a b :=
  ⟨.of_any fun i => (any_append_eof hp s i).symm, .of_any (any_append_eof hp s)⟩

end Eof

/-- The alphabetic tokenizers return exactly the maximal runs of letters of `s`, in order, then
`false` for ever. -/
theorem alpha_tokens (normalize : UInt8 → UInt8) (s : List UInt8) :
    ∃ spans : List (Nat × Nat), spans.Pairwise (fun x y => x.2 < y.1) ∧
      (∀ a b, (a, b) ∈ spans ↔ MaxRun isalphaPredicate s a b) ∧
      ∀ j, calls isalphaPredicate normalize j (create s) =
        (spans.map (some ∘ runToken normalize s) ++ List.replicate j none).take j := by
  have hp : isalphaPredicate eofChar = false := rfl
  obtain ⟨spans, hpair, hmem, hcalls⟩ := calls_maxRuns isalphaPredicate normalize s
  have hmem' : ∀ a b, (a, b) ∈ spans ↔ MaxRun isalphaPredicate s a b := fun a b =>
    (hmem a b).trans (maxRun_append_eof hp s)
  refine ⟨spans, hpair, hmem', fun j => ?_⟩
  rw [hcalls j]
  congr 2
  refine List.map_congr_left fun x hx => ?_
  have hb := ((hmem' x.1 x.2).1 hx).le_length
  have hab := ((hmem' x.1 x.2).1 hx).lt
  simp only [Function.comp_apply, runToken, List.drop_append_of_le_length (by omega : x.1 ≤ s.length),
    List.take_append_of_le_length (by simp; omega : x.2 - x.1 ≤ (s.drop x.1).length)]

/-- `"Hi, you"` through a `LowerCaseTokenizer`: `hi` at `[0, 2)`, `you` at `[4, 7)`, then
`false`. -/
example : calls isalphaPredicate tolowerNormalizer 3 (create [72, 105, 44, 32, 121, 111, 117]) =
    [some ⟨[104, 105], 0, 2⟩, some ⟨[121, 111, 117], 4, 7⟩, none] := by
  decide

/-- A `WhiteSpaceTokenizer` ends its last token with the normalized `EOF`, at `|s| + 1`. -/
theorem whiteSpace_eof_token (normalize : UInt8 → UInt8) (s : List UInt8) :
    ∃ tokens : List Token,
      (∀ j, calls iswhitespacePredicate normalize j (create s) =
        (tokens.map some ++ List.replicate j none).take j) ∧
      ∃ tok ∈ tokens, tok.startPos ≤ s.length ∧
        tok.termText = (s.drop tok.startPos).map normalize ++ [normalize eofChar] ∧
        tok.endPos = toInt32 (s.length + 1) := by
  obtain ⟨spans, -, hmem, hcalls⟩ := calls_maxRuns iswhitespacePredicate normalize s
  have heof : (s ++ [eofChar])[s.length]?.any iswhitespacePredicate = true := by simp; rfl
  obtain ⟨a, ha, hrun, hleft⟩ := exists_run_start _ _ _ heof
  have hmax : MaxRun iswhitespacePredicate (s ++ [eofChar]) a (s.length + 1) :=
    ⟨by omega, fun i h₁ h₂ => hrun i h₁ (by omega), hleft,
      by rw [List.getElem?_eq_none (by simp)]; rfl⟩
  refine ⟨spans.map (runToken normalize (s ++ [eofChar])), fun j => by rw [hcalls j, List.map_map],
    _, List.mem_map_of_mem _ ((hmem _ _).2 hmax), ha, ?_, rfl⟩
  simp only [runToken, Token.create, List.drop_append_of_le_length ha]
  rw [List.take_of_length_le (by simp; omega), List.map_append, List.map_singleton]

/-- `"a b"` through a `WhiteSpaceTokenizer`: the second token is `b` and `EOF`, over `[2, 4)`. -/
example : calls iswhitespacePredicate noopNormalizer 3 (create [97, 32, 98]) =
    [some ⟨[97], 0, 1⟩, some ⟨[98, 0xFF], 2, 4⟩, none] := by
  decide

end Lucanthrope
