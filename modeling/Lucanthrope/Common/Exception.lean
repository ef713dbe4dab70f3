import Mathlib.Logic.Basic

/-!
# Exceptions, assertions and the operation monad

`common/Exception.h` gives the library a single exception class: a `Code` and a message. The
storage engine reports user-facing failures through it and treats broken invariants with
`assert`, which aborts the process. Every operation of the model is a state transformer
`Op σ α := EStateM Failure σ α` over the objects it touches, and a call ends in one of four ways:

* it returns a value and the new state (`.ok`);
* it throws an `Exception` (`.error (.exception e) s`): the objects stay as the call left them
  at the `throw`, and the caller may go on using them;
* an `assert` fails (`.error (.assertion what) _`): the process is gone;
* it does something the C++ standard leaves undefined (`.error .undefined _`), such as indexing
  a `std::vector` out of range or incrementing an iterator whose element was erased.

The `@[simp]` lemmas at the end unfold a `do` block applied to a state, so that a spec lemma
of a model function is `simp [f, hyps]`.
-/

namespace Lucanthrope

/-- `Exception::Code`. -/
inductive Code where
  | FileAlreadyExistsException
  | FileNotFoundException
  | IOErrorException
  | IndexCorruptionException
  deriving DecidableEq, Repr

/-- `lucanthrope::Exception`: what went wrong, and a message for `what()`. -/
structure Exception where
  code : Code
  msg : String
  deriving DecidableEq, Repr

/-- How a call of the model ends when it does not return. -/
inductive Failure where
  | exception (e : Exception)
  | assertion (what : String)
  | undefined
  deriving DecidableEq, Repr

/-- An operation on objects of type `σ` returning an `α`. -/
abbrev Op (σ α : Type) := EStateM Failure σ α

variable {σ α β : Type}

/-- `assert(c && what)`. -/
def assert (c : Bool) (what : String) : Op σ Unit :=
  if c then pure () else throw (.assertion what)

/-- `throw Exception(code, msg)`. -/
def raise (code : Code) (msg : String) : Op σ α :=
  throw (.exception ⟨code, msg⟩)

/-- Undefined behaviour at this point of the call. -/
def undefinedBehaviour : Op σ α :=
  throw .undefined

namespace Op

@[simp] theorem bind_apply (x : Op σ α) (f : α → Op σ β) (s : σ) :
    (x >>= f) s = match x s with
      | .ok a s' => f a s'
      | .error e s' => .error e s' := by
  show EStateM.bind _ _ s = _
  unfold EStateM.bind
  cases x s <;> rfl

@[simp] theorem map_apply (f : α → β) (x : Op σ α) (s : σ) :
    (f <$> x) s = match x s with
      | .ok a s' => .ok (f a) s'
      | .error e s' => .error e s' := by
  show EStateM.map _ _ s = _
  unfold EStateM.map
  cases x s <;> rfl

@[simp] theorem pure_apply (a : α) (s : σ) : (pure a : Op σ α) s = .ok a s := rfl

@[simp] theorem get_apply (s : σ) : (get : Op σ σ) s = .ok s s := rfl

@[simp] theorem set_apply (s s' : σ) : (set s' : Op σ PUnit) s = .ok ⟨⟩ s' := rfl

@[simp] theorem modify_apply (f : σ → σ) (s : σ) : (modify f : Op σ PUnit) s = .ok ⟨⟩ (f s) :=
  rfl

@[simp] theorem modifyGet_apply (f : σ → α × σ) (s : σ) :
    (modifyGet f : Op σ α) s = .ok (f s).1 (f s).2 := rfl

@[simp] theorem throw_apply (e : Failure) (s : σ) : (throw e : Op σ α) s = .error e s := rfl

/-- Inverting a bind that returned: both parts returned. -/
theorem bind_eq_ok {x : Op σ α} {f : α → Op σ β} {s s'' : σ} {b : β} :
    (x >>= f) s = .ok b s'' ↔ ∃ a s', x s = .ok a s' ∧ f a s' = .ok b s'' := by
  rw [bind_apply]
  cases x s <;> simp [and_assoc]

end Op

@[simp] theorem assert_apply (c : Bool) (what : String) (s : σ) :
    (assert c what : Op σ Unit) s = if c then .ok () s else .error (.assertion what) s := by
  cases c <;> rfl

theorem assert_eq_ok {c : Bool} {what : String} {s s' : σ} {u : Unit} :
    (assert c what : Op σ Unit) s = .ok u s' ↔ c = true ∧ s' = s := by
  cases c <;> simp [eq_comm]

/-- `x` returns on `s`, or throws an `Exception`, and leaves `s'`: the call did not end the
process. -/
def Returns (x : Op σ α) (s s' : σ) : Prop :=
  (∃ a, x s = .ok a s') ∨ ∃ e, x s = .error (.exception e) s'

/-- `x` throws the `Exception` `e` on `s` and leaves `s` as it was. -/
def Throws (x : Op σ α) (s : σ) (e : Exception) : Prop :=
  x s = .error (.exception e) s

/-- A call that returns on `s` leaves the state it returns with. -/
theorem Returns.eq_of_ok {x : Op σ α} {s s' s₁ : σ} {a : α} (hc : Returns x s s')
    (h : x s = .ok a s₁) : s' = s₁ := by
  rcases hc with ⟨_, hc⟩ | ⟨_, hc⟩ <;> rw [h] at hc <;> cases hc
  rfl

/-- A call whose result is dropped returns when the call does. -/
theorem returns_discard {x : Op σ α} {s s' : σ} (h : Returns (do let _ ← x) s s') :
    Returns x s s' := by
  rcases h with ⟨u, h⟩ | ⟨e, h⟩ <;> rw [Op.bind_apply] at h <;> cases hx : x s <;>
    rw [hx] at h <;> cases h
  · exact .inl ⟨_, hx⟩
  · exact .inr ⟨e, hx⟩

@[simp] theorem raise_apply (code : Code) (msg : String) (s : σ) :
    (raise code msg : Op σ α) s = .error (.exception ⟨code, msg⟩) s := rfl

@[simp] theorem undefinedBehaviour_apply (s : σ) :
    (undefinedBehaviour : Op σ α) s = .error .undefined s := rfl

end Lucanthrope
