import Lucanthrope.Analysis.CharTokenizer

/-!
# Token streams, and the filters on them

`TokenStream::next()` is virtual: a `Tokenizer` reads characters, and a `TokenFilter` calls
`next()` of the stream it owns and passes on, changes or drops what that returns.
`TokenStream σ` is one such class: `next()` on its state, the `tok` that `getToken()` returns,
and a `rank` that every `next()` returning `true` lowers. The rank is what ends `StopFilter`'s
`while (input_->next())`; the model runs that loop with fuel `rank + 1`, which is never used up
(`StopFilter.loop_congr`).

What a stream does over all its calls is `Emits S s ts`: from `s`, `next()` returns `true` with
the tokens `ts`, in order, and then `false` for ever. It is read one call at a time
(`emits_cons`, `emits_nil`), and a filter is shown to emit a list by what it does with one call
(`emits_of_step`):

> `lowerCaseFilter_emits`: over any stream that emits `ts`, `LowerCaseFilter` emits `ts` with
> every character of every term passed through `std::tolower`.
>
> `stopFilter_emits`: over any stream that emits `ts`, `StopFilter` emits the tokens of `ts`
> whose text is not a stop word, in order: none is lost, repeated or reordered.

A `CharTokenizer` is a stream whose rank is what its `std::istream` has still to deliver
(`charTokenizer`). Normalizing in the tokenizer and lower-casing after it are the same thing,
call by call, from any state:

> `lowerCaseFilter_charTokenizer`: `LowerCaseFilter` over `CharTokenizer<P, N>` returns what
> `CharTokenizer<P, tolower ∘ N>` returns, at every call; in particular `LowerCaseFilter` over
> `AlphaCharTokenizer<>` is `LowerCaseTokenizer`.
-/

namespace Lucanthrope

/-- A class derived from `TokenStream`: `next()` on its state, the `tok` that `getToken()`
returns, and a measure that every `next()` returning `true` lowers. -/
structure TokenStream (σ : Type) where
  next : σ → Bool × σ
  getToken : σ → Token
  rank : σ → Nat
  rank_lt : ∀ s, (next s).1 = true → rank (next s).2 < rank s

namespace TokenStream

variable {σ : Type} (S : TokenStream σ)

/-- `k` calls of `next()`, one after another: for each, the token `getToken()` returns after
it, or `none` when it returns `false`. -/
def calls : Nat → σ → List (Option Token)
  | 0, _ => []
  | k + 1, s =>
    let r := S.next s
    (if r.1 then some (S.getToken r.2) else none) :: calls k r.2

/-- From `s`, the calls of `next()` return the tokens `ts`, in order, then `false` for ever. -/
def Emits (s : σ) (ts : List Token) : Prop :=
  ∀ j, S.calls j s = (ts.map some ++ List.replicate j none).take j

variable {S}

theorem emits_iff_succ {s : σ} {ts : List Token} :
    S.Emits s ts ↔
      ∀ j, S.calls (j + 1) s = (ts.map some ++ List.replicate (j + 1) none).take (j + 1) :=
  ⟨fun h j => h (j + 1), fun h j => by cases j with | zero => rfl | succ j => exact h j⟩

theorem emits_cons {s : σ} {t : Token} {ts : List Token} :
    S.Emits s (t :: ts) ↔
      (S.next s).1 = true ∧ S.getToken (S.next s).2 = t ∧ S.Emits (S.next s).2 ts := by
  rw [emits_iff_succ]
  simp only [calls, List.map_cons, List.cons_append, List.take_succ_cons, List.cons.injEq,
    CharTokenizer.take_append_replicate, forall_and, forall_const]
  constructor
  · rintro ⟨h, hts⟩
    split at h
    · exact ⟨‹_›, Option.some.inj h, hts⟩
    · cases h
  · rintro ⟨h₁, h₂, hts⟩
    exact ⟨by rw [if_pos h₁, h₂], hts⟩

theorem emits_nil {s : σ} :
    S.Emits s [] ↔ (S.next s).1 = false ∧ S.Emits (S.next s).2 [] := by
  rw [emits_iff_succ]
  simp only [calls, List.map_nil, List.nil_append, List.replicate_succ, List.take_succ_cons,
    List.cons.injEq, forall_and, forall_const]
  constructor
  · rintro ⟨h, hts⟩
    cases hb : (S.next s).1
    · exact ⟨rfl, hts⟩
    · rw [hb, if_pos rfl] at h
      cases h
  · rintro ⟨h₁, hts⟩
    exact ⟨by rw [h₁]; rfl, hts⟩

/-- A relation between states and token lists that each `next()` follows, one token at a time,
holds only of what the stream emits. -/
theorem emits_of_step (P : σ → List Token → Prop)
    (hnil : ∀ s, P s [] → (S.next s).1 = false ∧ P (S.next s).2 [])
    (hcons : ∀ s t ts, P s (t :: ts) →
      (S.next s).1 = true ∧ S.getToken (S.next s).2 = t ∧ P (S.next s).2 ts)
    {s : σ} {ts : List Token} (h : P s ts) : S.Emits s ts := by
  intro j
  induction j generalizing s ts with
  | zero => rfl
  | succ j ih =>
    cases ts with
    | nil =>
      obtain ⟨h₁, h₂⟩ := hnil s h
      simp only [calls, h₁, Bool.false_eq_true, if_false, ih h₂, List.map_nil, List.nil_append,
        List.replicate_succ, List.take_succ_cons]
    | cons t ts =>
      obtain ⟨h₁, h₂, h₃⟩ := hcons s t ts h
      simp only [calls, h₁, if_true, h₂, ih h₃, List.map_cons, List.cons_append,
        List.take_succ_cons, CharTokenizer.take_append_replicate]

end TokenStream

/-! ## `CharTokenizer` as a stream -/

namespace CharTokenizer

variable {isTokenChar : UInt8 → Bool} {normalize : UInt8 → UInt8}

theorem loopOn_rest_le : ∀ (u : List UInt8) (sc : Scan),
    (loopOn isTokenChar normalize u sc).2.2.length ≤ u.length
  | [], _ => le_rfl
  | c :: u, sc => by
    simp only [loopOn]
    split
    · exact (loopOn_rest_le u _).trans (Nat.le_succ _)
    · exact Nat.le_succ _

/-- From an empty `buffer`, a loop that breaks has taken a character. -/
theorem loopOn_rest_lt {u : List UInt8} {sc : Scan} (h : (loopOn isTokenChar normalize u sc).1 = true)
    (hbuf : sc.buffer = []) : (loopOn isTokenChar normalize u sc).2.2.length < u.length := by
  cases u with
  | nil => simp [loopOn, hbuf] at h
  | cons c u =>
    simp only [loopOn]
    split
    · exact Nat.lt_succ_of_le (loopOn_rest_le u _)
    · exact Nat.lt_succ_self _

/-- A call of `next()` that returns `true` has taken characters from the stream. -/
theorem next_pending_lt {t : CharTokenizer} (h : (next isTokenChar normalize t).1 = true) :
    (next isTokenChar normalize t).2.input_.pending.length < t.input_.pending.length := by
  obtain ⟨h₁, -, h₃, -⟩ := @next_eq isTokenChar normalize t
  rw [h₃]
  exact loopOn_rest_lt (h₁ ▸ h) rfl

end CharTokenizer

open CharTokenizer

/-- `CharTokenizer<Predicate, Normalizer>` as a `TokenStream`: `getToken()` is `tok`, and the
rank is what the `std::istream` has still to deliver. -/
def charTokenizer (isTokenChar : UInt8 → Bool) (normalize : UInt8 → UInt8) :
    TokenStream CharTokenizer where
  next := next isTokenChar normalize
  getToken t := t.tok
  rank t := t.input_.pending.length
  rank_lt _ h := next_pending_lt h

section Tokenizer

variable {isTokenChar : UInt8 → Bool} {normalize : UInt8 → UInt8}

@[simp] theorem charTokenizer_next :
    (charTokenizer isTokenChar normalize).next = next isTokenChar normalize := rfl

@[simp] theorem charTokenizer_getToken (t : CharTokenizer) :
    (charTokenizer isTokenChar normalize).getToken t = t.tok := rfl

theorem charTokenizer_calls (j : Nat) (t : CharTokenizer) :
    (charTokenizer isTokenChar normalize).calls j t = calls isTokenChar normalize j t := by
  induction j generalizing t with
  | zero => rfl
  | succ j ih => simp only [TokenStream.calls, CharTokenizer.calls, ih]; rfl

theorem charTokenizer_emits_nil {t : CharTokenizer} (ht : t.input_.pending = []) :
    (charTokenizer isTokenChar normalize).Emits t [] := fun j => by
  rw [charTokenizer_calls, calls_of_pending_nil ht]
  simp

variable (isTokenChar normalize) in
/-- A tokenizer on the text `s` emits the tokens of the maximal runs of `s ++ [eofChar]`. -/
theorem charTokenizer_emits (s : List UInt8) :
    ∃ spans : List (Nat × Nat), spans.Pairwise (fun x y => x.2 < y.1) ∧
      (∀ a b, (a, b) ∈ spans ↔ MaxRun isTokenChar (s ++ [eofChar]) a b) ∧
      (charTokenizer isTokenChar normalize).Emits (create s)
        (spans.map (runToken normalize (s ++ [eofChar]))) :=
  let ⟨spans, hpair, hmem, hcalls⟩ := calls_maxRuns isTokenChar normalize s
  ⟨spans, hpair, hmem, fun j => by rw [charTokenizer_calls, hcalls, List.map_map]⟩

/-- The token of a run that ends inside `s` is the same in `s` and in any extension of it. -/
theorem runToken_append_of_le (u : List UInt8) {s : List UInt8} {a b : Nat} (hab : a ≤ b)
    (hb : b ≤ s.length) : runToken normalize (s ++ u) (a, b) = runToken normalize s (a, b) := by
  simp only [runToken, List.drop_append_of_le_length (hab.trans hb : a ≤ s.length),
    List.take_append_of_le_length (by simp; omega : b - a ≤ (s.drop a).length)]

variable (normalize) in
/-- A tokenizer whose predicate rejects `EOF` emits the tokens of the maximal runs of `s`. -/
theorem charTokenizer_emits_of_eof (hp : isTokenChar eofChar = false) (s : List UInt8) :
    ∃ spans : List (Nat × Nat), spans.Pairwise (fun x y => x.2 < y.1) ∧
      (∀ a b, (a, b) ∈ spans ↔ MaxRun isTokenChar s a b) ∧
      (charTokenizer isTokenChar normalize).Emits (create s) (spans.map (runToken normalize s)) := by
  obtain ⟨spans, hpair, hmem, hemits⟩ := charTokenizer_emits isTokenChar normalize s
  have hmem' : ∀ a b, (a, b) ∈ spans ↔ MaxRun isTokenChar s a b := fun a b =>
    (hmem a b).trans (maxRun_append_eof hp s)
  refine ⟨spans, hpair, hmem', ?_⟩
  rwa [List.map_congr_left fun x hx => ?_] at hemits
  have hx' := (hmem' x.1 x.2).1 hx
  exact runToken_append_of_le _ hx'.lt.le hx'.le_length

end Tokenizer

/-! ## `TokenFilter`s -/

/-- The members of a `TokenFilter`: `input_`, the stream it owns, and its own `tok`. -/
structure Filtered (σ : Type) where
  input_ : σ
  tok : Token

/-- A filter constructed on the stream in state `s`: `tok` is a default `Token`. -/
def Filtered.create {σ : Type} (s : σ) : Filtered σ :=
  ⟨s, ⟨[], 0, 0⟩⟩

/-- The token with every character of its text passed through `std::tolower`. -/
def lowerCase (t : Token) : Token :=
  { t with termText := t.termText.map tolowerNormalizer }

namespace LowerCaseFilter

variable {σ : Type} (S : TokenStream σ)

/-- `LowerCaseFilter::next()`: after `true` from `input_->next()`, `tok` is the input's token
with its text lower-cased. -/
def next (f : Filtered σ) : Bool × Filtered σ :=
  let r := S.next f.input_
  if r.1 then (true, ⟨r.2, lowerCase (S.getToken r.2)⟩) else (false, { f with input_ := r.2 })

variable {S} {f : Filtered σ}

theorem next_of_true (h : (S.next f.input_).1 = true) :
    next S f = (true, ⟨(S.next f.input_).2, lowerCase (S.getToken (S.next f.input_).2)⟩) := by
  simp [next, h]

theorem next_of_false (h : (S.next f.input_).1 = false) :
    next S f = (false, { f with input_ := (S.next f.input_).2 }) := by
  simp [next, h]

end LowerCaseFilter

/-- `LowerCaseFilter` over the stream `S`. -/
def lowerCaseFilter {σ : Type} (S : TokenStream σ) : TokenStream (Filtered σ) where
  next := LowerCaseFilter.next S
  getToken f := f.tok
  rank f := S.rank f.input_
  rank_lt f h := by
    cases hb : (S.next f.input_).1
    · rw [LowerCaseFilter.next_of_false hb] at h; cases h
    · rw [LowerCaseFilter.next_of_true hb]; exact S.rank_lt _ hb

@[simp] theorem lowerCaseFilter_next {σ : Type} (S : TokenStream σ) :
    (lowerCaseFilter S).next = LowerCaseFilter.next S := rfl

@[simp] theorem lowerCaseFilter_getToken {σ : Type} (S : TokenStream σ) (f : Filtered σ) :
    (lowerCaseFilter S).getToken f = f.tok := rfl

namespace StopFilter

variable {σ : Type} (S : TokenStream σ) (stopWords : List (List UInt8))

/-- The `while (input_->next())` of `StopFilter::next()`, run for at most `fuel` passes: a token
whose text is not in `stopWords` becomes `tok` and the call returns `true`, one whose text is
is skipped, and `false` from `input_->next()` ends the call with `false`. -/
def loop : Nat → Filtered σ → Bool × Filtered σ
  | 0, f => (false, f)
  | fuel + 1, f =>
    let r := S.next f.input_
    if r.1 then
      if (S.getToken r.2).termText ∈ stopWords then loop fuel { f with input_ := r.2 }
      else (true, ⟨r.2, S.getToken r.2⟩)
    else (false, { f with input_ := r.2 })

/-- `StopFilter::next()`: the loop, with one pass more than `input_->next()` can return `true`. -/
def next (f : Filtered σ) : Bool × Filtered σ :=
  loop S stopWords (S.rank f.input_ + 1) f

variable {S stopWords} {f : Filtered σ} {fuel : Nat}

theorem loop_of_false (h : (S.next f.input_).1 = false) :
    loop S stopWords (fuel + 1) f = (false, { f with input_ := (S.next f.input_).2 }) := by
  simp [loop, h]

theorem loop_of_stop (h : (S.next f.input_).1 = true)
    (hw : (S.getToken (S.next f.input_).2).termText ∈ stopWords) :
    loop S stopWords (fuel + 1) f = loop S stopWords fuel { f with input_ := (S.next f.input_).2 } := by
  simp [loop, h, hw]

theorem loop_of_keep (h : (S.next f.input_).1 = true)
    (hw : (S.getToken (S.next f.input_).2).termText ∉ stopWords) :
    loop S stopWords (fuel + 1) f = (true, ⟨(S.next f.input_).2, S.getToken (S.next f.input_).2⟩) := by
  simp [loop, h, hw]

/-- A call that returns `true` has had `true` from `input_->next()`. -/
theorem loop_rank : ∀ {fuel : Nat} {f : Filtered σ}, (loop S stopWords fuel f).1 = true →
    S.rank (loop S stopWords fuel f).2.input_ < S.rank f.input_
  | 0, _, h => by cases h
  | fuel + 1, f, h => by
    cases hb : (S.next f.input_).1
    · rw [loop_of_false hb] at h; cases h
    · have hr := S.rank_lt _ hb
      by_cases hw : (S.getToken (S.next f.input_).2).termText ∈ stopWords
      · rw [loop_of_stop hb hw] at h ⊢
        exact (loop_rank h).trans hr
      · rw [loop_of_keep hb hw]
        exact hr

/-- Any fuel above the rank gives the same result: the loop ends before the fuel does. -/
theorem loop_congr : ∀ {fuel fuel' : Nat} {f : Filtered σ}, S.rank f.input_ < fuel →
    S.rank f.input_ < fuel' → loop S stopWords fuel f = loop S stopWords fuel' f
  | 0, _, _, h, _ => absurd h (Nat.not_lt_zero _)
  | _, 0, _, _, h => absurd h (Nat.not_lt_zero _)
  | fuel + 1, fuel' + 1, f, h, h' => by
    cases hb : (S.next f.input_).1
    · rw [loop_of_false hb, loop_of_false hb]
    · have hr := S.rank_lt _ hb
      by_cases hw : (S.getToken (S.next f.input_).2).termText ∈ stopWords
      · rw [loop_of_stop hb hw, loop_of_stop hb hw]
        exact loop_congr (show S.rank (S.next f.input_).2 < fuel by omega)
          (show S.rank (S.next f.input_).2 < fuel' by omega)
      · rw [loop_of_keep hb hw, loop_of_keep hb hw]

end StopFilter

/-- `StopFilter` over the stream `S`, with the set `stopWords`. -/
def stopFilter {σ : Type} (S : TokenStream σ) (stopWords : List (List UInt8)) :
    TokenStream (Filtered σ) where
  next := StopFilter.next S stopWords
  getToken f := f.tok
  rank f := S.rank f.input_
  rank_lt _ h := StopFilter.loop_rank h

/-! ## What the filters emit -/

section Filters

variable {σ : Type} {S : TokenStream σ}

open TokenStream

/-- `LowerCaseFilter` emits the tokens of its input with every character lower-cased. -/
theorem lowerCaseFilter_emits {s : σ} {ts : List Token} (h : S.Emits s ts) (tok : Token) :
    (lowerCaseFilter S).Emits ⟨s, tok⟩ (ts.map lowerCase) := by
  refine emits_of_step (fun f us => ∃ ts, S.Emits f.input_ ts ∧ ts.map lowerCase = us)
    (fun f ⟨ts, hts, hus⟩ => ?_) (fun f u us ⟨ts, hts, hus⟩ => ?_) ⟨ts, h, rfl⟩
  · obtain rfl := List.map_eq_nil_iff.1 hus
    obtain ⟨hb, hts'⟩ := emits_nil.1 hts
    rw [lowerCaseFilter_next, LowerCaseFilter.next_of_false hb]
    exact ⟨rfl, [], hts', rfl⟩
  · obtain ⟨t, ts', rfl, rfl, rfl⟩ := List.map_eq_cons_iff.1 hus
    obtain ⟨hb, ht, hts'⟩ := emits_cons.1 hts
    rw [lowerCaseFilter_next, LowerCaseFilter.next_of_true hb]
    exact ⟨rfl, congrArg lowerCase ht, ts', hts', rfl⟩

namespace StopFilter

variable {stopWords : List (List UInt8)}

/-- Over a stream that emits only stop words, the loop reads them all and returns `false`. -/
theorem loop_of_filter_nil : ∀ {ts : List Token} {fuel : Nat} {f : Filtered σ},
    S.Emits f.input_ ts → ts.filter (fun t => t.termText ∉ stopWords) = [] →
    S.rank f.input_ < fuel →
    (loop S stopWords fuel f).1 = false ∧ S.Emits (loop S stopWords fuel f).2.input_ []
  | _, 0, _, _, _, hr => absurd hr (Nat.not_lt_zero _)
  | [], fuel + 1, f, h, _, _ => by
    obtain ⟨hb, h'⟩ := emits_nil.1 h
    rw [loop_of_false hb]
    exact ⟨rfl, h'⟩
  | t :: ts, fuel + 1, f, h, hf, hr => by
    obtain ⟨hb, ht, h'⟩ := emits_cons.1 h
    by_cases hw : t.termText ∈ stopWords
    · rw [List.filter_cons_of_neg (by simpa using hw)] at hf
      rw [loop_of_stop hb (ht ▸ hw)]
      exact loop_of_filter_nil h' hf
        (show S.rank (S.next f.input_).2 < fuel by have := S.rank_lt _ hb; omega)
    · rw [List.filter_cons_of_pos (by simpa using hw)] at hf
      cases hf

/-- Over a stream whose first token that is not a stop word is `u`, the loop skips the stop
words before it and returns `true` with `u`. -/
theorem loop_of_filter_cons : ∀ {ts : List Token} {fuel : Nat} {f : Filtered σ} {u : Token}
    {us : List Token}, S.Emits f.input_ ts →
    ts.filter (fun t => t.termText ∉ stopWords) = u :: us → S.rank f.input_ < fuel →
    (loop S stopWords fuel f).1 = true ∧ (loop S stopWords fuel f).2.tok = u ∧
      ∃ rest, S.Emits (loop S stopWords fuel f).2.input_ rest ∧
        rest.filter (fun t => t.termText ∉ stopWords) = us
  | _, 0, _, _, _, _, _, hr => absurd hr (Nat.not_lt_zero _)
  | [], _ + 1, _, _, _, _, hf, _ => by cases hf
  | t :: ts, fuel + 1, f, u, us, h, hf, hr => by
    obtain ⟨hb, ht, h'⟩ := emits_cons.1 h
    by_cases hw : t.termText ∈ stopWords
    · rw [List.filter_cons_of_neg (by simpa using hw)] at hf
      rw [loop_of_stop hb (ht ▸ hw)]
      exact loop_of_filter_cons h' hf
        (show S.rank (S.next f.input_).2 < fuel by have := S.rank_lt _ hb; omega)
    · rw [List.filter_cons_of_pos (by simpa using hw), List.cons.injEq] at hf
      obtain ⟨rfl, rfl⟩ := hf
      rw [loop_of_keep hb (ht ▸ hw)]
      exact ⟨rfl, ht, ts, h', rfl⟩

end StopFilter

/-- Over a stream that emits `ts`, the filter emits the tokens of `ts` that are not stop
words. -/
theorem StopFilter.emits (stopWords : List (List UInt8)) {s : σ} {ts : List Token}
    (h : S.Emits s ts) (tok : Token) :
    (stopFilter S stopWords).Emits ⟨s, tok⟩ (ts.filter fun t => t.termText ∉ stopWords) :=
  emits_of_step
    (fun f us => ∃ ts, S.Emits f.input_ ts ∧ ts.filter (fun t => t.termText ∉ stopWords) = us)
    (fun _ ⟨_, hts, hus⟩ =>
      let ⟨h₁, h₂⟩ := StopFilter.loop_of_filter_nil hts hus (Nat.lt_succ_self _)
      ⟨h₁, [], h₂, rfl⟩)
    (fun _ _ _ ⟨_, hts, hus⟩ => StopFilter.loop_of_filter_cons hts hus (Nat.lt_succ_self _))
    ⟨ts, h, rfl⟩

/-- `StopFilter` emits the tokens of its input whose text is not a stop word, in order. -/
theorem stopFilter_emits (stopWords : List (List UInt8)) {s : σ} {ts : List Token}
    (h : S.Emits s ts) (tok : Token) :
    (stopFilter S stopWords).Emits ⟨s, tok⟩ (ts.filter fun t => t.termText ∉ stopWords) :=
  StopFilter.emits stopWords h tok

end Filters

/-- `"a b"` through `AlphaCharTokenizer<>` emits `a` and `b`, and a `StopFilter` with the stop
word `a` over it emits `b`. -/
theorem stopFilter_emits_a_b :
    (charTokenizer isalphaPredicate noopNormalizer).Emits (CharTokenizer.create [97, 32, 98])
        [⟨[97], 0, 1⟩, ⟨[98], 2, 3⟩] ∧
      (stopFilter (charTokenizer isalphaPredicate noopNormalizer) [[97]]).Emits
        ⟨CharTokenizer.create [97, 32, 98], ⟨[], 0, 0⟩⟩
        ([⟨[97], 0, 1⟩, ⟨[98], 2, 3⟩].filter fun t => t.termText ∉ [[97]]) :=
  have h : (charTokenizer isalphaPredicate noopNormalizer).Emits
      (CharTokenizer.create [97, 32, 98]) [⟨[97], 0, 1⟩, ⟨[98], 2, 3⟩] :=
    TokenStream.emits_cons.2 ⟨rfl, rfl,
      TokenStream.emits_cons.2 ⟨rfl, rfl, charTokenizer_emits_nil rfl⟩⟩
  ⟨h, stopFilter_emits [[97]] h ⟨[], 0, 0⟩⟩

/-- `"A b"` through `AlphaCharTokenizer<>` emits `A` and `b`, and `LowerCaseFilter` over it
emits `a` and `b`. -/
theorem lowerCaseFilter_emits_A_b :
    (charTokenizer isalphaPredicate noopNormalizer).Emits (CharTokenizer.create [65, 32, 98])
        [⟨[65], 0, 1⟩, ⟨[98], 2, 3⟩] ∧
      (lowerCaseFilter (charTokenizer isalphaPredicate noopNormalizer)).Emits
        ⟨CharTokenizer.create [65, 32, 98], ⟨[], 0, 0⟩⟩
        ([⟨[65], 0, 1⟩, ⟨[98], 2, 3⟩].map lowerCase) :=
  have h : (charTokenizer isalphaPredicate noopNormalizer).Emits
      (CharTokenizer.create [65, 32, 98]) [⟨[65], 0, 1⟩, ⟨[98], 2, 3⟩] :=
    TokenStream.emits_cons.2 ⟨rfl, rfl,
      TokenStream.emits_cons.2 ⟨rfl, rfl, charTokenizer_emits_nil rfl⟩⟩
  ⟨h, lowerCaseFilter_emits h ⟨[], 0, 0⟩⟩

/-! ## Lower-casing in the tokenizer or after it -/

/-- The locals with `g` applied to every character of `buffer`. -/
def Scan.mapBuffer (g : UInt8 → UInt8) (sc : Scan) : Scan :=
  { sc with buffer := sc.buffer.map g }

namespace CharTokenizer

variable {isTokenChar : UInt8 → Bool} {normalize g : UInt8 → UInt8}

theorem step_mapBuffer (c : UInt8) (sc : Scan) :
    step isTokenChar (g ∘ normalize) c (sc.mapBuffer g) =
      Sum.map (Scan.mapBuffer g) (Scan.mapBuffer g) (step isTokenChar normalize c sc) := by
  unfold step Scan.mapBuffer
  by_cases hc : isTokenChar c <;> by_cases hb : sc.buffer.length = 0 <;> simp [hc, hb]

theorem loop_mapBuffer : ∀ (rest : List UInt8) (eof : Bool) (sc : Scan),
    loop isTokenChar (g ∘ normalize) rest eof (sc.mapBuffer g) =
      Prod.map id (Prod.map (Scan.mapBuffer g) id) (loop isTokenChar normalize rest eof sc)
  | rest, true, sc => by simp [loop, leaveAtEof, Scan.mapBuffer]
  | [], false, sc => by
    simp only [loop, step_mapBuffer]
    cases step isTokenChar normalize eofChar sc <;> simp [leaveAtEof, Scan.mapBuffer]
  | c :: rest, false, sc => by
    simp only [loop, step_mapBuffer]
    cases step isTokenChar normalize c sc <;> simp [loop_mapBuffer rest]

/-- `next()` normalizing with `g ∘ normalize` is `next()` normalizing with `normalize`, with
`g` applied to the text of the token it makes. -/
theorem next_comp (t : CharTokenizer) (tok : Token) :
    next isTokenChar (g ∘ normalize) { t with tok := tok } =
      ((next isTokenChar normalize t).1,
        { (next isTokenChar normalize t).2 with
          tok := if (next isTokenChar normalize t).1 then
              { (next isTokenChar normalize t).2.tok with
                termText := (next isTokenChar normalize t).2.tok.termText.map g }
            else tok }) := by
  obtain ⟨⟨rest, eof⟩, offset, tok₀⟩ := t
  have h : loop isTokenChar (g ∘ normalize) rest eof ⟨offset, [], 0⟩ =
      Prod.map id (Prod.map (Scan.mapBuffer g) id)
        (loop isTokenChar normalize rest eof ⟨offset, [], 0⟩) :=
    loop_mapBuffer rest eof ⟨offset, [], 0⟩
  simp only [next, h]
  rcases loop isTokenChar normalize rest eof ⟨offset, [], 0⟩ with ⟨_ | _, sc, input⟩ <;>
    simp [Token.create, Scan.mapBuffer]

end CharTokenizer

/-- `LowerCaseFilter` over `CharTokenizer<P, N>` is `CharTokenizer<P, tolower ∘ N>`, call by
call. -/
theorem lowerCaseFilter_charTokenizer (isTokenChar : UInt8 → Bool) (normalize : UInt8 → UInt8)
    (t : CharTokenizer) (tok tok' : Token) (j : Nat) :
    (lowerCaseFilter (charTokenizer isTokenChar normalize)).calls j ⟨t, tok⟩ =
      (charTokenizer isTokenChar (tolowerNormalizer ∘ normalize)).calls j { t with tok := tok' } := by
  induction j generalizing t tok tok' with
  | zero => rfl
  | succ j ih =>
    simp only [TokenStream.calls, lowerCaseFilter_next, charTokenizer_next, next_comp]
    cases hb : (next isTokenChar normalize t).1
    · rw [LowerCaseFilter.next_of_false hb]
      simp only [hb]
      exact congrArg₂ List.cons rfl (ih _ _ _)
    · rw [LowerCaseFilter.next_of_true hb]
      simp only [hb]
      exact congrArg₂ List.cons rfl (ih _ _ _)

end Lucanthrope
