import Lucanthrope.Analysis.TokenStream

/-!
# Analyzers

An `Analyzer`'s `getTokenStream(input, fieldName)` builds the token stream that breaks the text
of a field into index terms: `SimpleAnalyzer` a `LowerCaseTokenizer`, `WhiteSpaceAnalyzer` a
`WhiteSpaceTokenizer<>`, `StopAnalyzer` a `StopFilter` over a `LowerCaseTokenizer`, and
`PerFieldAnalyzerWrapper` whatever the analyzer added for the field builds.

The terms of a `StopAnalyzer` are the lower-cased maximal runs of letters of the text, less the
stop words. Its stop words are kept as they are given, so only lower-case ones can match:

> `stopAnalyzer_tokens`: for every set of stop words and every text, a `StopAnalyzer` returns
> the maximal runs of letters of the text, in order, lower-cased, except those whose
> lower-cased text is a stop word, then `false` for ever.
>
> `stopAnalyzer_lowerCase_words`: a stop word that is empty or holds a byte other than `a`–`z`
> removes nothing: `StopAnalyzer(words)` returns what it returns without such words.

`PerFieldAnalyzerWrapper` keeps the analyzers added by field name in an `unordered_map`, and
calls the one it finds with the default field name:

> `perField_getTokenStream`: after any sequence of `addAnalyzer` calls, `getTokenStream` on a
> non-empty field name builds what the analyzer last added under that name builds, or the
> default analyzer's stream when there is none; on the empty name it builds the default
> analyzer's stream, whatever was added under it.

Mirroring notes:
- `getTokenStream` takes the `std::istream` of a field; it is modelled by its text, which the
  tokenizer reads through `CharTokenizer.create`.
- An `std::unordered_set<std::string>` is modelled by the list of the words inserted into it:
  `find` is membership.
- The map of `PerFieldAnalyzerWrapper` holds `Analyzer *`; the model holds the analyzers, so a
  null pointer, whose call would be undefined, cannot be added.
-/

namespace Lucanthrope

/-- What `getTokenStream()` returns, an `std::unique_ptr<TokenStream>`: the class of the stream
and its state. -/
structure Tokens where
  {σ : Type}
  stream : TokenStream σ
  state : σ

/-- `k` calls of `next()` on the stream. -/
def Tokens.calls (t : Tokens) (k : Nat) : List (Option Token) :=
  t.stream.calls k t.state

/-- The calls of `next()` on the stream return the tokens `ts`, in order, then `false`. -/
def Tokens.Emits (t : Tokens) (ts : List Token) : Prop :=
  t.stream.Emits t.state ts

/-- A class derived from `Analyzer`: `getTokenStream(input, fieldName)` on the text of
`input`. -/
structure Analyzer where
  getTokenStream : List UInt8 → String → Tokens

/-- `SimpleAnalyzer`: a `LowerCaseTokenizer` on the input. -/
def simpleAnalyzer : Analyzer :=
  ⟨fun input _ => ⟨charTokenizer isalphaPredicate tolowerNormalizer, CharTokenizer.create input⟩⟩

/-- `WhiteSpaceAnalyzer`: a `WhiteSpaceTokenizer<>` on the input. -/
def whiteSpaceAnalyzer : Analyzer :=
  ⟨fun input _ => ⟨charTokenizer iswhitespacePredicate noopNormalizer, CharTokenizer.create input⟩⟩

/-! ## `StopAnalyzer` -/

/-- The bytes of a string literal of ASCII characters, as `std::string` copies them. -/
def bytesOf (s : String) : List UInt8 :=
  s.toList.map fun c => c.toNat.toUInt8

/-- `StopAnalyzer::EnglishStopWords`. -/
def englishStopWords : List String :=
  ["a", "an", "and", "are", "as", "at", "be", "been", "but", "by", "for",
   "if", "in", "into", "is", "it", "no", "not", "of", "on",
   "or", "s", "such", "t", "that", "the", "their", "then", "there",
   "these", "those", "they", "this", "to", "was", "were", "will", "with"]

/-- A `StopAnalyzer`: the set `stopWords`. -/
structure StopAnalyzer where
  stopWords : List (List UInt8)

namespace StopAnalyzer

/-- `StopAnalyzer()`: the set of `EnglishStopWords`. -/
def create : StopAnalyzer :=
  ⟨englishStopWords.map bytesOf⟩

/-- `StopAnalyzer(words)`. -/
def ofWords (words : List (List UInt8)) : StopAnalyzer :=
  ⟨words⟩

/-- `StopAnalyzer::getTokenStream`: a `StopFilter` with `stopWords` over a
`LowerCaseTokenizer` on the input. -/
def getTokenStream (a : StopAnalyzer) (input : List UInt8) (_fieldName : String) : Tokens :=
  ⟨stopFilter (charTokenizer isalphaPredicate tolowerNormalizer) a.stopWords,
    Filtered.create (CharTokenizer.create input)⟩

/-- The `StopAnalyzer` as an `Analyzer`. -/
def toAnalyzer (a : StopAnalyzer) : Analyzer :=
  ⟨a.getTokenStream⟩

end StopAnalyzer

/-- `EOF` is no letter. -/
theorem isalpha_eof : isalphaPredicate eofChar = false := rfl

/-- A `StopAnalyzer` returns the lower-cased maximal runs of letters of the text that are not stop
words, in order. -/
theorem stopAnalyzer_tokens (a : StopAnalyzer) (input : List UInt8) (fieldName : String) :
    ∃ spans : List (Nat × Nat), spans.Pairwise (fun x y => x.2 < y.1) ∧
      (∀ b e, (b, e) ∈ spans ↔ MaxRun isalphaPredicate input b e) ∧
      (a.getTokenStream input fieldName).Emits
        ((spans.map (runToken tolowerNormalizer input)).filter fun t => t.termText ∉ a.stopWords) :=
  let ⟨spans, hpair, hmem, hemits⟩ := charTokenizer_emits_of_eof tolowerNormalizer isalpha_eof input
  ⟨spans, hpair, hmem, StopFilter.emits _ hemits _⟩

/-- `std::tolower` takes a letter to one of `a`–`z`. -/
theorem tolower_of_isalpha (c : UInt8) (h : isalphaPredicate c = true) :
    97 ≤ tolowerNormalizer c ∧ tolowerNormalizer c ≤ 122 := by
  obtain ⟨v⟩ := c
  revert v h
  decide

/-- The characters of the term of a run of letters are `a`–`z`. -/
theorem runToken_lower {input : List UInt8} {b e : Nat} (h : MaxRun isalphaPredicate input b e) :
    ∀ c ∈ (runToken tolowerNormalizer input (b, e)).termText, 97 ≤ c ∧ c ≤ 122 := by
  intro c hc
  obtain ⟨d, hd, rfl⟩ := List.mem_map.1 hc
  obtain ⟨i, hi, rfl⟩ := List.getElem_of_mem hd
  simp only [List.length_take, List.length_drop, List.getElem_take, List.getElem_drop] at hi ⊢
  have hin := h.inside (b + i) (Nat.le_add_right _ _) (by omega)
  rw [List.getElem?_eq_getElem (by omega), Option.any_some] at hin
  exact tolower_of_isalpha _ hin

/-- A stop word that can match a term: not empty, and made of `a`–`z`. -/
def lowerCaseWord (w : List UInt8) : Bool :=
  w ≠ [] && w.all fun c => 97 ≤ c && c ≤ 122

/-- A stop word that is empty or holds a byte other than `a`–`z` removes nothing. -/
theorem stopAnalyzer_lowerCase_words (words : List (List UInt8)) (input : List UInt8)
    (fieldName : String) (j : Nat) :
    ((StopAnalyzer.ofWords words).getTokenStream input fieldName).calls j =
      ((StopAnalyzer.ofWords (words.filter lowerCaseWord)).getTokenStream input fieldName).calls j := by
  obtain ⟨spans, -, hmem, hemits⟩ := charTokenizer_emits_of_eof tolowerNormalizer isalpha_eof input
  have hsame : (spans.map (runToken tolowerNormalizer input)).filter
        (fun t => t.termText ∉ words) =
      (spans.map (runToken tolowerNormalizer input)).filter
        (fun t => t.termText ∉ words.filter lowerCaseWord) := by
    refine List.filter_congr fun t ht => ?_
    obtain ⟨⟨b, e⟩, hbe, rfl⟩ := List.mem_map.1 ht
    have hrun := (hmem b e).1 hbe
    have hword : lowerCaseWord (runToken tolowerNormalizer input (b, e)).termText = true := by
      simp only [lowerCaseWord, Bool.and_eq_true, List.all_eq_true, Bool.and_eq_true,
        decide_eq_true_eq]
      refine ⟨List.ne_nil_of_length_pos ?_, runToken_lower hrun⟩
      have := hrun.lt
      have := hrun.le_length
      simp only [runToken, Token.create, List.length_map, List.length_take, List.length_drop]
      omega
    simp [List.mem_filter, hword]
  have h₁ := StopFilter.emits words hemits ⟨[], 0, 0⟩ j
  have h₂ := StopFilter.emits (words.filter lowerCaseWord) hemits ⟨[], 0, 0⟩ j
  rw [hsame] at h₁
  exact h₁.trans h₂.symm

/-! ## `PerFieldAnalyzerWrapper` -/

/-- A `PerFieldAnalyzerWrapper`: `analyzerMap`, read only by `find`, as the function from a name
to what `find` gives, and `defaultAnalyzer`. -/
structure PerFieldAnalyzerWrapper where
  analyzerMap : String → Option Analyzer
  defaultAnalyzer : Analyzer

namespace PerFieldAnalyzerWrapper

/-- `PerFieldAnalyzerWrapper(default_)`. -/
def create (default_ : Analyzer) : PerFieldAnalyzerWrapper :=
  ⟨fun _ => none, default_⟩

/-- `addAnalyzer(filedName, analyzer)`: `analyzerMap[filedName] = analyzer`. -/
def addAnalyzer (w : PerFieldAnalyzerWrapper) (filedName : String) (analyzer : Analyzer) :
    PerFieldAnalyzerWrapper :=
  { w with analyzerMap := fun n => if n = filedName then some analyzer else w.analyzerMap n }

/-- `getTokenStream(input, fieldName)`: for the empty name the default analyzer's stream, else
that of the analyzer found under the name, or the default's; either is built with the default
field name. -/
def getTokenStream (w : PerFieldAnalyzerWrapper) (input : List UInt8) (fieldName : String) :
    Tokens :=
  if fieldName.isEmpty then w.defaultAnalyzer.getTokenStream input ""
  else
    match w.analyzerMap fieldName with
    | some a => a.getTokenStream input ""
    | none => w.defaultAnalyzer.getTokenStream input ""

/-- The `PerFieldAnalyzerWrapper` as an `Analyzer`. -/
def toAnalyzer (w : PerFieldAnalyzerWrapper) : Analyzer :=
  ⟨w.getTokenStream⟩

/-- The analyzer that the calls `addAnalyzer(p.1, p.2)`, for `p` in `adds` in order, leave under
`name`: the last one added under it. -/
def lastAdded (adds : List (String × Analyzer)) (name : String) : Option Analyzer :=
  (adds.reverse.find? fun p => p.1 = name).map Prod.snd

theorem lastAdded_cons (p : String × Analyzer) (adds : List (String × Analyzer)) (name : String) :
    lastAdded (p :: adds) name =
      (lastAdded adds name).or (if name = p.1 then some p.2 else none) := by
  by_cases h : name = p.1
  · subst h
    cases hf : (adds.reverse.find? fun q => q.1 = p.1) <;> simp [lastAdded, List.find?_append, hf]
  · simp [lastAdded, List.find?_append, Ne.symm h, h]

/-- A run of `addAnalyzer` calls keeps the default, and leaves under `name` the last analyzer it
added there, or what was there before. -/
theorem foldl_addAnalyzer (name : String) : ∀ (adds : List (String × Analyzer))
    (w : PerFieldAnalyzerWrapper),
    (adds.foldl (fun w p => w.addAnalyzer p.1 p.2) w).defaultAnalyzer = w.defaultAnalyzer ∧
      (adds.foldl (fun w p => w.addAnalyzer p.1 p.2) w).analyzerMap name =
        (lastAdded adds name).or (w.analyzerMap name)
  | [], w => ⟨rfl, by simp [lastAdded]⟩
  | p :: adds, w => by
    obtain ⟨h₁, h₂⟩ := foldl_addAnalyzer name adds (w.addAnalyzer p.1 p.2)
    refine ⟨h₁, ?_⟩
    rw [List.foldl_cons, h₂, lastAdded_cons, addAnalyzer]
    by_cases h : name = p.1
    · cases lastAdded adds name <;> simp [h]
    · simp [h]

end PerFieldAnalyzerWrapper

open PerFieldAnalyzerWrapper in
/-- `getTokenStream` uses the analyzer last added under a non-empty field name, and the default
analyzer otherwise. -/
theorem perField_getTokenStream (default_ : Analyzer) (adds : List (String × Analyzer))
    (input : List UInt8) (fieldName : String) :
    (adds.foldl (fun w p => w.addAnalyzer p.1 p.2) (create default_)).getTokenStream input
        fieldName =
      match if fieldName.isEmpty then none else lastAdded adds fieldName with
      | some a => a.getTokenStream input ""
      | none => default_.getTokenStream input "" := by
  obtain ⟨h₁, h₂⟩ := foldl_addAnalyzer fieldName adds (create default_)
  rw [getTokenStream, h₁, h₂]
  by_cases h : fieldName.isEmpty <;> simp [h, create]

end Lucanthrope
