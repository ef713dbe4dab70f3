import Lucanthrope.Common.Exception
import Mathlib.Data.String.Basic

/-!
# Fields and documents

A `Field` is a name and a value, a string or an owned `std::istream`, with the flags that say
whether the value is stored, indexed and tokenized. Its constructors assert that the name and the
value are not empty, and the stream is not null; the stream constructor, the only one that makes
a stream-valued field, fixes its flags to not stored and tokenized.

A `Document` is the vector of the fields added to it, and `find(name)` walks it from the start
to the first field of that name:

> `find_first_added`: after any sequence of `add` calls on a new document, `find(name)` is the
> position of the first field added with that name, or the end when no field has it.

Mirroring notes:
- An `std::istream` is modelled by the text it will give; `getIStreamValue()` returns that text.
  The null `std::unique_ptr` is `none`.
- `getName()`, `isStored()`, `isIndexed()` and `isTokenized()` read a member: they are the fields
  of the structure.
- A moved-from `Field` is never used again; moves are not modelled.
- The two overloads `Field::text` are `text` and `textIStream`; the iterator `find` returns is its
  index, `end()` the number of fields.
-/

namespace Lucanthrope

/-- `Field::value_`: an `std::string`, or an owned `std::istream`. -/
inductive FieldValue where
  | string (s : String)
  | istream (s : String)
  deriving DecidableEq, Repr

/-- A `Field`. -/
structure Field where
  name_ : String
  value_ : FieldValue
  isStored_ : Bool
  isIndexed_ : Bool
  isTokenized_ : Bool
  deriving DecidableEq, Repr

namespace Field

variable {σ : Type}

/-- `Field(name, value, store, index, token)`. -/
def construct (name value : String) (store index token : Bool) : Op σ Field := do
  assert (!name.isEmpty) "Name cannot be empty!"
  assert (!value.isEmpty) "Value cannot be empty!"
  pure ⟨name, .string value, store, index, token⟩

/-- `Field(name, value)` on an `std::unique_ptr<std::istream>`, which it takes. -/
def constructIStream (name : String) (value : Option String) : Op σ Field := do
  assert (!name.isEmpty) "Name cannot be empty!"
  match value with
  | none => throw (.assertion "Value cannot be null!")
  | some s => pure ⟨name, .istream s, false, true, true⟩

/-- `Field::keyword`: indexed and stored, not tokenized. -/
def keyword (name value : String) : Op σ Field :=
  construct name value true true false

/-- `Field::unindexed`: stored only. -/
def unindexed (name value : String) : Op σ Field :=
  construct name value true false false

/-- `Field::text` on a string: tokenized, indexed and stored. -/
def text (name value : String) : Op σ Field :=
  construct name value true true true

/-- `Field::unstored`: tokenized and indexed, not stored. -/
def unstored (name value : String) : Op σ Field :=
  construct name value false true true

/-- `Field::text` on an `std::istream`. -/
def textIStream (name : String) (value : Option String) : Op σ Field :=
  constructIStream name value

/-- `isStringValue()`. -/
def isStringValue (f : Field) : Bool :=
  match f.value_ with
  | .string _ => true
  | .istream _ => false

/-- `isIStreamValue()`. -/
def isIStreamValue (f : Field) : Bool :=
  match f.value_ with
  | .string _ => false
  | .istream _ => true

/-- `getStringValue()`: `assert(isStringValue())`. -/
def getStringValue (f : Field) : Op σ String :=
  match f.value_ with
  | .string s => pure s
  | .istream _ => throw (.assertion "isStringValue()")

/-- `getIStreamValue()`: `assert(isIStreamValue())`. -/
def getIStreamValue (f : Field) : Op σ String :=
  match f.value_ with
  | .string _ => throw (.assertion "isIStreamValue()")
  | .istream s => pure s

/-- `Field::toString`. -/
def toString (f : Field) : String :=
  f.name_ ++ "(" ++ (if f.isStored_ then "stored," else "not stored,") ++
    (if f.isIndexed_ then "indexed," else "not indexed,") ++
    (if f.isTokenized_ then "tokenized," else "not tokenized,") ++
    (if f.isStringValue then "string value)" else "istream value)")

end Field

/-- A `Document`: `fields_`, in the order they were added. -/
structure Document where
  fields_ : List Field
  deriving DecidableEq, Repr

namespace Document

/-- `Document()`. -/
def create : Document :=
  ⟨[]⟩

/-- `add(field)`: `fields_.push_back(field)`. -/
def add (d : Document) (field : Field) : Document :=
  ⟨d.fields_ ++ [field]⟩

/-- The loop of `find(name)` from the field at index `i`, the rest of the vector being `fs`. -/
def findLoop (name : String) : List Field → Nat → Nat
  | [], i => i
  | f :: fs, i => if f.name_ = name then i else findLoop name fs (i + 1)

/-- `find(name)`: the index of the iterator it returns. -/
def find (d : Document) (name : String) : Nat :=
  findLoop name d.fields_ 0

/-- `Document::toString`. -/
def toString (d : Document) : String :=
  let ret := "Document<"
  let ret := match d.fields_ with
    | [] => ret
    | f₀ :: fs => fs.foldl (fun ret (f : Field) => ret ++ ", " ++ f.toString) (ret ++ f₀.toString)
  ret.push '>'

/-- The loop of `toString` from the second field on. -/
theorem foldl_toString (fs : List Field) (pre acc : String) :
    fs.foldl (fun ret (f : Field) => ret ++ ", " ++ f.toString) (pre ++ acc) =
      pre ++ String.intercalate.go acc ", " (fs.map Field.toString) := by
  induction fs generalizing acc with
  | nil => rfl
  | cons f fs ih => simp only [List.foldl_cons, List.map_cons, String.intercalate.go, ← ih,
      String.append_assoc]

/-- `toString` lists the fields, separated by `, `, between `Document<` and `>`. -/
theorem toString_eq (d : Document) :
    d.toString = ("Document<" ++ ", ".intercalate (d.fields_.map Field.toString)).push '>' := by
  rcases d with ⟨_ | ⟨f₀, fs⟩⟩
  · rfl
  · simp only [toString, foldl_toString, List.map_cons, String.intercalate]

/-- What `Document_test` prints first. -/
example : ((create.add ⟨"some field 1", .string "some string value", true, true, true⟩).add
    ⟨"some field 2", .istream "some istream value", false, true, true⟩).toString =
    "Document<some field 1(stored,indexed,tokenized,string value), " ++
      "some field 2(not stored,indexed,tokenized,istream value)>" := by decide

theorem fields_foldl_add (adds : List Field) (d : Document) :
    (adds.foldl add d).fields_ = d.fields_ ++ adds := by
  induction adds generalizing d with
  | nil => simp
  | cons f adds ih => simp [ih, add]

/-- The loop stops at the first field named `name`, or at the end. -/
theorem findLoop_first (name : String) (fs : List Field) (i : Nat) :
    ∃ j, findLoop name fs i = i + j ∧ j ≤ fs.length ∧ (∀ f ∈ fs.take j, f.name_ ≠ name) ∧
      ∀ f, fs[j]? = some f → f.name_ = name := by
  induction fs generalizing i with
  | nil => exact ⟨0, rfl, le_rfl, by simp, by simp⟩
  | cons g fs ih =>
    by_cases hg : g.name_ = name
    · exact ⟨0, by simp [findLoop, hg], Nat.zero_le _, by simp, by simp [hg]⟩
    · obtain ⟨j, hj, hle, hbefore, hat⟩ := ih (i + 1)
      refine ⟨j + 1, by rw [findLoop, if_neg hg, hj]; omega, by simpa using hle,
        by simpa [hg] using hbefore, by simpa using hat⟩

/-- `find(name)` on a document built by `add` calls is the position of the first field added with
that name, or the end. -/
theorem find_first_added (adds : List Field) (name : String) :
    ∃ i, (adds.foldl add create).find name = i ∧ i ≤ adds.length ∧
      (∀ f ∈ adds.take i, f.name_ ≠ name) ∧ ∀ f, adds[i]? = some f → f.name_ = name := by
  obtain ⟨j, hj, hrest⟩ := findLoop_first name adds 0
  exact ⟨j, by rw [find, fields_foldl_add, create, List.nil_append, hj, Nat.zero_add], hrest⟩

example : ((create.add ⟨"some field 1", .string "some string value", true, true, true⟩).add
    ⟨"some field 2", .istream "some istream value", false, true, true⟩).find "some field 2" =
      1 := by decide

end Document

end Lucanthrope
