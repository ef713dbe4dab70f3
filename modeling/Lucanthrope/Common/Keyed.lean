import Mathlib.Data.List.Nodup

/-!
# Keyed lists: the model of an `std::unordered_map`

`RAMDirectory::files` maps names to `RAMFile *` in an `std::unordered_map`, and the live objects
of a process (streams, lock handles, committed files) are found by their addresses. A keyed list
is the model of either: key–value pairs in iteration order. `find? k` is `find(k)`, `set k v` is
`m[k] = v`, `modify k f` changes the value of `k` where it stands, and `erase k` is `erase(k)`.

A key occurs once in an `unordered_map`: `(keys l).Nodup`. Under it a key that is found splits
the list around its one pair, so a count over the values changes by what the operation does to
that pair:

> `countP_erase`, `countP_modify`: erasing or changing the value `v` of a key found in the list
> takes `v` out of every count and puts its new value in.

Mirroring note: `m[k] = v` with `k` absent inserts the pair at a place the library chooses; the
model appends it. Nothing proved here depends on where.
-/

namespace Lucanthrope

namespace Keyed

variable {κ α : Type}

/-- The keys, in iteration order. -/
def keys (l : List (κ × α)) : List κ :=
  l.map Prod.fst

@[simp] theorem keys_nil : keys ([] : List (κ × α)) = [] := rfl

@[simp] theorem keys_cons (p : κ × α) (l : List (κ × α)) : keys (p :: l) = p.1 :: keys l := rfl

@[simp] theorem keys_append (l₁ l₂ : List (κ × α)) : keys (l₁ ++ l₂) = keys l₁ ++ keys l₂ :=
  List.map_append _ _ _

@[simp] theorem keys_map {β : Type} (g : α → β) (l : List (κ × α)) :
    keys (l.map fun p => (p.1, g p.2)) = keys l := by
  simp [keys, Function.comp_def]

variable [DecidableEq κ]

/-- `find(k)`: the value of the pair with key `k`. -/
def find? (k : κ) : List (κ × α) → Option α
  | [] => none
  | p :: l => if p.1 = k then some p.2 else find? k l

/-- The value of `k` changed by `f` where it stands. -/
def modify (k : κ) (f : α → α) (l : List (κ × α)) : List (κ × α) :=
  l.map fun p => if p.1 = k then (p.1, f p.2) else p

/-- `m[k] = v`: the value of `k` replaced where it stands, or the pair added. -/
def set (k : κ) (v : α) (l : List (κ × α)) : List (κ × α) :=
  if k ∈ keys l then modify k (fun _ => v) l else l ++ [(k, v)]

/-- `erase(k)`. -/
def erase (k : κ) (l : List (κ × α)) : List (κ × α) :=
  l.filter fun p => p.1 ≠ k

variable {k k' : κ} {v : α} {l : List (κ × α)}

@[simp] theorem find?_nil : find? k ([] : List (κ × α)) = none := rfl

theorem find?_cons (p : κ × α) (l : List (κ × α)) :
    find? k (p :: l) = if p.1 = k then some p.2 else find? k l := rfl

theorem find?_eq_none : find? k l = none ↔ k ∉ keys l := by
  induction l with
  | nil => simp
  | cons p l ih =>
    by_cases h : p.1 = k
    · simp [find?_cons, h]
    · have : k ≠ p.1 := Ne.symm h
      simp [find?_cons, h, ih, this]

theorem mem_of_find? (h : find? k l = some v) : (k, v) ∈ l := by
  induction l with
  | nil => cases h
  | cons p l ih =>
    rw [find?_cons] at h
    split_ifs at h with hp
    · cases h; exact hp ▸ List.mem_cons_self _ _
    · exact List.mem_cons_of_mem _ (ih h)

theorem mem_keys_of_find? (h : find? k l = some v) : k ∈ keys l :=
  List.mem_map.2 ⟨_, mem_of_find? h, rfl⟩

theorem find?_of_mem (hl : (keys l).Nodup) (h : (k, v) ∈ l) : find? k l = some v := by
  induction l with
  | nil => cases h
  | cons p l ih =>
    rw [keys_cons, List.nodup_cons] at hl
    rcases List.mem_cons.1 h with rfl | h
    · simp [find?_cons]
    · have hne : p.1 ≠ k := fun he => hl.1 (he ▸ List.mem_map.2 ⟨_, h, rfl⟩)
      rw [find?_cons, if_neg hne, ih hl.2 h]

@[simp] theorem keys_modify (f : α → α) : keys (modify k f l) = keys l := by
  simp only [keys, modify, List.map_map]
  congr 1
  funext p
  simp only [Function.comp_apply]
  split_ifs <;> rfl

theorem find?_modify (f : α → α) :
    find? k' (modify k f l) = if k' = k then (find? k' l).map f else find? k' l := by
  induction l with
  | nil => simp [modify]
  | cons p l ih =>
    by_cases hp : p.1 = k
    · have hmod : modify k f (p :: l) = (p.1, f p.2) :: modify k f l := by simp [modify, hp]
      rw [hmod, find?_cons, find?_cons, ih]
      by_cases hk : p.1 = k'
      · rw [if_pos hk, if_pos hk, if_pos (hk.symm.trans hp)]; rfl
      · rw [if_neg hk, if_neg hk]
    · have hmod : modify k f (p :: l) = p :: modify k f l := by simp [modify, hp]
      rw [hmod, find?_cons, find?_cons, ih]
      by_cases hk : p.1 = k'
      · rw [if_pos hk, if_pos hk, if_neg (fun h => hp (hk.trans h))]
      · rw [if_neg hk, if_neg hk]

theorem modify_of_not_mem (f : α → α) (h : k ∉ keys l) : modify k f l = l := by
  induction l with
  | nil => rfl
  | cons p l ih =>
    rw [keys_cons, List.mem_cons, not_or] at h
    simp only [modify, List.map_cons] at ih ⊢
    rw [if_neg (Ne.symm h.1), ih h.2]

@[simp] theorem keys_erase : keys (erase k l) = (keys l).filter (· ≠ k) := by
  simp only [keys, erase, List.filter_map]
  rfl

theorem nodup_erase (hl : (keys l).Nodup) : (keys (erase k l)).Nodup := by
  rw [keys_erase]; exact hl.filter _

theorem find?_erase : find? k' (erase k l) = if k' = k then none else find? k' l := by
  induction l with
  | nil => simp [erase]
  | cons p l ih =>
    by_cases hp : p.1 = k
    · have he : erase k (p :: l) = erase k l := by simp [erase, hp]
      rw [he, ih, find?_cons]
      by_cases hk : k' = k
      · rw [if_pos hk, if_pos hk]
      · rw [if_neg hk, if_neg hk, if_neg (fun h => hk (h.symm.trans hp))]
    · have he : erase k (p :: l) = p :: erase k l := by simp [erase, hp]
      rw [he, find?_cons, ih, find?_cons]
      by_cases hk : k' = k
      · rw [if_pos hk, if_pos hk, if_neg (fun h => hp (h.trans hk))]
      · rw [if_neg hk, if_neg hk]

theorem erase_of_not_mem (h : k ∉ keys l) : erase k l = l := by
  induction l with
  | nil => rfl
  | cons p l ih =>
    rw [keys_cons, List.mem_cons, not_or] at h
    simp only [erase, List.filter_cons] at ih ⊢
    rw [if_pos (by simpa using Ne.symm h.1), ih h.2]

theorem set_of_mem (h : k ∈ keys l) : set k v l = modify k (fun _ => v) l := if_pos h

theorem set_of_find?_none (h : find? k l = none) : set k v l = l ++ [(k, v)] :=
  if_neg (find?_eq_none.1 h)

theorem find?_set : find? k' (set k v l) = if k' = k then some v else find? k' l := by
  by_cases h : k ∈ keys l
  · rw [set_of_mem h, find?_modify]
    split_ifs with hk
    · subst hk
      obtain ⟨v', hv'⟩ := Option.ne_none_iff_exists'.1 (mt find?_eq_none.1 (not_not.2 h))
      rw [hv']; rfl
    · rfl
  · rw [set, if_neg h]
    induction l with
    | nil =>
      by_cases hk : k' = k
      · subst hk; simp [find?_cons]
      · simp [find?_cons, hk, Ne.symm hk]
    | cons p l ih =>
      rw [keys_cons, List.mem_cons, not_or] at h
      rw [List.cons_append, find?_cons, ih h.2, find?_cons]
      by_cases hk : k' = k
      · rw [if_pos hk, if_pos hk, if_neg (hk ▸ Ne.symm h.1)]
      · rw [if_neg hk, if_neg hk]

theorem nodup_set (hl : (keys l).Nodup) : (keys (set k v l)).Nodup := by
  by_cases h : k ∈ keys l
  · rw [set_of_mem h, keys_modify]; exact hl
  · rw [set, if_neg h, keys_append, List.nodup_append]
    refine ⟨hl, List.nodup_singleton _, ?_⟩
    intro a ha hb
    rw [keys_cons, keys_nil, List.mem_singleton] at hb
    exact h (by rwa [hb] at ha)

theorem mem_keys_erase : k' ∈ keys (erase k l) ↔ k' ∈ keys l ∧ k' ≠ k := by
  rw [keys_erase, List.mem_filter, decide_eq_true_iff]

/-! ## Values seen through a function -/

section Map

variable {β : Type} (g : α → β)

theorem find?_map : find? k (l.map fun p => (p.1, g p.2)) = (find? k l).map g := by
  induction l with
  | nil => rfl
  | cons p l ih => by_cases h : p.1 = k <;> simp [find?_cons, h, ih]

theorem erase_map : erase k (l.map fun p => (p.1, g p.2)) = (erase k l).map fun p => (p.1, g p.2) := by
  simp only [erase, List.filter_map]
  rfl

theorem modify_map {f : α → α} (hf : ∀ v, g (f v) = g v) :
    (modify k f l).map (fun p => (p.1, g p.2)) = l.map fun p => (p.1, g p.2) := by
  simp only [modify, List.map_map]
  congr 1
  funext p
  simp only [Function.comp_apply]
  split_ifs with h <;> simp [h, hf]

end Map

/-! ## Counting values -/

/-- A key found in a list with unique keys splits it around its one pair. -/
theorem split_of_find? (hl : (keys l).Nodup) (h : find? k l = some v) :
    ∃ l₁ l₂, l = l₁ ++ (k, v) :: l₂ ∧ k ∉ keys l₁ ∧ k ∉ keys l₂ := by
  obtain ⟨l₁, l₂, rfl⟩ := List.append_of_mem (mem_of_find? h)
  rw [keys_append, keys_cons, List.nodup_append, List.nodup_cons] at hl
  exact ⟨l₁, l₂, rfl, fun h₁ => hl.2.2 h₁ (List.mem_cons_self _ _), hl.2.1.1⟩

theorem modify_append (f : α → α) (l₁ l₂ : List (κ × α)) :
    modify k f (l₁ ++ l₂) = modify k f l₁ ++ modify k f l₂ :=
  List.map_append _ _ _

theorem modify_cons_self (f : α → α) (l : List (κ × α)) :
    modify k f ((k, v) :: l) = (k, f v) :: modify k f l := by
  simp [modify]

theorem erase_append (l₁ l₂ : List (κ × α)) : erase k (l₁ ++ l₂) = erase k l₁ ++ erase k l₂ :=
  List.filter_append _ _

theorem erase_cons_self (l : List (κ × α)) : erase k ((k, v) :: l) = erase k l := by
  simp [erase]

variable (P : α → Bool)

theorem countP_erase (hl : (keys l).Nodup) (h : find? k l = some v) :
    (erase k l).countP (fun p => P p.2) + (if P v then 1 else 0) =
      l.countP (fun p => P p.2) := by
  obtain ⟨l₁, l₂, rfl, h₁, h₂⟩ := split_of_find? hl h
  simp only [erase_append, erase_cons_self, erase_of_not_mem h₁, erase_of_not_mem h₂,
    List.countP_append, List.countP_cons]
  omega

theorem countP_modify (hl : (keys l).Nodup) (h : find? k l = some v) (f : α → α) :
    (modify k f l).countP (fun p => P p.2) + (if P v then 1 else 0) =
      l.countP (fun p => P p.2) + (if P (f v) then 1 else 0) := by
  obtain ⟨l₁, l₂, rfl, h₁, h₂⟩ := split_of_find? hl h
  simp only [modify_append, modify_cons_self, modify_of_not_mem f h₁, modify_of_not_mem f h₂,
    List.countP_append, List.countP_cons]
  omega

end Keyed

end Lucanthrope
