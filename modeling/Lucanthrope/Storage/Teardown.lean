import Lucanthrope.Storage.Reading

/-!
# The destructor of the directory

`~RAMDirectory` requires that no one holds a file for reading or writing. Under `mu_` it walks
`files`, and for each name bound to a committed file it asserts that the entry is the file's
only reference (`refs_ == 1`, or `Attempt to deallocate a file that is open for reading!`),
takes that reference away so that the assertion of `~RAMFile` passes, and deletes the file.
Names bound to `&dummy_file`, those of writers and lock handles, are skipped.

Reference counting (`Accounted`) is what makes the walk safe: every name bound to a file leads
to a live file, no file has two names, and a file's `refs_` counts its name and its readers. So
in every reachable state the destructor never reaches undefined behaviour and the assertion of
`~RAMFile` never fails:

> `destroyDirectory_deletes_named`: in every reachable state in which no open reader reads a
> file that has a name, `~RAMDirectory` returns, and the committed files still alive after it
> are exactly those a call owes a `delete` or an open reader holds, as they were. Under the
> requirement of the destructor, no reader at all, these are the deletes owed: no file leaks
> and none is deleted twice.
>
> `destroyDirectory_reader_asserts`: in every reachable state in which an open reader reads a
> file that has a name, `~RAMDirectory` fails its assertion.

A reader of a file whose name was deleted is not seen by the walk: the destructor then returns
and leaves the file alive.

Mirroring notes:
- The walk visits `files` in the order of the model's table; which order the library's hash map
  has is its own policy, and the two theorems hold whatever the order, since the loop lemmas
  below are about any list of entries.
- `files` and `mu_` go with the directory; the model keeps `files` as it was and says nothing of
  it after the destructor.
-/

namespace Lucanthrope

namespace RAMDirectory

/-- The body of the loop of `~RAMDirectory`, on one value of `files`. -/
def deallocate : Entry → Op World Unit
  | .dummy => pure ()
  | .file id => do
    let w ← get
    match Keyed.find? id w.objs with
    | none => undefinedBehaviour
    | some f =>
      assert (f.refs_ == 1) "Attempt to deallocate a file that is open for reading!"
      set { w with objs := Keyed.modify id (fun f => { f with refs_ := f.refs_ - 1 }) w.objs }
      free id

/-- `RAMDirectory::~RAMDirectory`. -/
def destroyDirectory : Op World Unit := do
  let w ← get
  w.files.entries.forM fun p => deallocate p.2

section Deallocate

variable {w : World} {id : Nat} {f : RAMFile} (hf : Keyed.find? id w.objs = some f)
include hf

/-- A committed file whose name is its only reference is deleted, and nothing else is. -/
theorem deallocate_file_ok (hr : f.refs_ = 1) :
    ∃ w₁, deallocate (.file id) w = .ok () w₁ ∧
      ∀ id', Keyed.find? id' w₁.objs = if id' = id then none else Keyed.find? id' w.objs := by
  refine ⟨{ w with
    objs := Keyed.erase id (Keyed.modify id (fun f => { f with refs_ := f.refs_ - 1 }) w.objs),
    frees := w.frees.erase id }, by simp [deallocate, free, hf, hr, Keyed.find?_modify],
    fun id' => ?_⟩
  by_cases he : id' = id <;> simp [Keyed.find?_erase, Keyed.find?_modify, he]

/-- A committed file with another reference than its name fails the assertion. -/
theorem deallocate_file_asserts (hr : f.refs_ ≠ 1) :
    deallocate (.file id) w =
      .error (.assertion "Attempt to deallocate a file that is open for reading!") w := by
  simp [deallocate, hf, hr]

end Deallocate

end RAMDirectory

open RAMDirectory

section Walk

/-- The number of names of `L` bound to the committed file at `id`. -/
def namesOf (L : List (String × Entry)) (id : Nat) : Nat :=
  L.countP fun p => p.2 = .file id

variable {L : List (String × Entry)} {w : World} {n : String}

@[simp] theorem namesOf_nil (id : Nat) : namesOf [] id = 0 := rfl

@[simp] theorem namesOf_cons_dummy (id : Nat) : namesOf ((n, .dummy) :: L) id = namesOf L id := by
  simp [namesOf, List.countP_cons]

@[simp] theorem namesOf_cons_file (id₀ id : Nat) :
    namesOf ((n, .file id₀) :: L) id = namesOf L id + if id₀ = id then 1 else 0 := by
  simp [namesOf, List.countP_cons]

theorem namesOf_tail_le {e : Entry} (hd : ∀ id, namesOf ((n, e) :: L) id ≤ 1) (id : Nat) :
    namesOf L id ≤ 1 := by
  have := hd id
  cases e <;> simp only [namesOf_cons_dummy, namesOf_cons_file] at this <;> omega

/-- A file has one name at most, so the names after its own are bound to other files. -/
theorem namesOf_tail_ne {id₀ : Nat} (hd : ∀ id, namesOf ((n, .file id₀) :: L) id ≤ 1) {id : Nat}
    (h : namesOf L id ≠ 0) : id ≠ id₀ := fun he => by
  have := hd id
  rw [namesOf_cons_file, if_pos he.symm] at this
  omega

/-- The walk over names each bound to a live file whose only reference it is deletes exactly
those files. -/
theorem forM_deallocate_ok (hd : ∀ id, namesOf L id ≤ 1)
    (h1 : ∀ id, namesOf L id ≠ 0 → ∃ f, Keyed.find? id w.objs = some f ∧ f.refs_ = 1) :
    ∃ w', L.forM (fun p => deallocate p.2) w = .ok () w' ∧
      ∀ id, Keyed.find? id w'.objs = if namesOf L id = 0 then Keyed.find? id w.objs else none := by
  induction L generalizing w with
  | nil => exact ⟨w, rfl, fun _ => rfl⟩
  | cons p L ih =>
    obtain ⟨n, e⟩ := p
    cases e with
    | dummy =>
      simp only [namesOf_cons_dummy] at hd h1 ⊢
      obtain ⟨w', hw', hobj⟩ := ih hd h1
      exact ⟨w', by simpa [deallocate] using hw', hobj⟩
    | file id₀ =>
      obtain ⟨f₀, hf₀, hr₀⟩ := h1 id₀ (by simp)
      obtain ⟨w₁, hw₁, hobj₁⟩ := deallocate_file_ok hf₀ hr₀
      have hL : ∀ {id}, namesOf L id ≠ 0 → id ≠ id₀ := namesOf_tail_ne hd
      obtain ⟨w', hw', hobj⟩ := ih (namesOf_tail_le hd) fun id h => by
        rw [hobj₁, if_neg (hL h)]
        exact h1 id (by rw [namesOf_cons_file]; omega)
      refine ⟨w', by simpa [hw₁] using hw', fun id => ?_⟩
      rw [hobj, hobj₁, namesOf_cons_file]
      by_cases he : id = id₀
      · subst he; simp [fun h => hL h rfl]
      · simp [he, Ne.symm he]

/-- The walk over names each bound to a live file fails its assertion when one of those files
has another reference. -/
theorem forM_deallocate_asserts (hd : ∀ id, namesOf L id ≤ 1)
    (hlive : ∀ id, namesOf L id ≠ 0 → ∃ f, Keyed.find? id w.objs = some f)
    {id : Nat} {f : RAMFile} (hid : namesOf L id ≠ 0) (hf : Keyed.find? id w.objs = some f)
    (hr : f.refs_ ≠ 1) :
    ∃ w', L.forM (fun p => deallocate p.2) w =
      .error (.assertion "Attempt to deallocate a file that is open for reading!") w' := by
  induction L generalizing w with
  | nil => simp at hid
  | cons p L ih =>
    obtain ⟨n, e⟩ := p
    cases e with
    | dummy =>
      simp only [namesOf_cons_dummy] at hd hlive hid
      simpa [deallocate] using ih hd hlive hid hf
    | file id₀ =>
      obtain ⟨f₀, hf₀⟩ := hlive id₀ (by simp)
      by_cases hr₀ : f₀.refs_ = 1
      · obtain ⟨w₁, hw₁, hobj₁⟩ := deallocate_file_ok hf₀ hr₀
        have hL : ∀ {id}, namesOf L id ≠ 0 → id ≠ id₀ := namesOf_tail_ne hd
        have hne : id ≠ id₀ := fun he => hr (by rw [he, hf₀] at hf; cases hf; exact hr₀)
        obtain ⟨w', hw'⟩ := ih (namesOf_tail_le hd)
          (fun id' h => by
            rw [hobj₁, if_neg (hL h)]
            exact hlive id' (by rw [namesOf_cons_file]; omega))
          (by simpa [Ne.symm hne] using hid) (by rw [hobj₁, if_neg hne]; exact hf)
        exact ⟨w', by simpa [hw₁] using hw'⟩
      · exact ⟨w, by simp [deallocate_file_asserts hf₀ hr₀]⟩

end Walk

section Destroy

variable {w : World}

/-- The `refs_` of a live file counts the names bound to it and its open readers. -/
theorem Accounted.refs_names_readers (h : Accounted w) {id : Nat} {f : RAMFile}
    (hf : Keyed.find? id w.objs = some f) :
    f.refs_ = w.files.count (.file id) + w.readers.countP fun r => r.2.fid = id := by
  rw [h.refs_eq id f hf, World.refCount, World.readerFiles, List.countP_map]
  push_cast
  rfl

/-- A name bound to a file leads to a live file whose `refs_` counts that name and the file's
readers. -/
theorem Accounted.named_refs (h : Accounted w) {id : Nat} (hn : w.files.count (.file id) ≠ 0) :
    ∃ f, Keyed.find? id w.objs = some f ∧
      f.refs_ = 1 + w.readers.countP fun r => r.2.fid = id := by
  obtain ⟨f, hf⟩ := Option.ne_none_iff_exists'.1 fun hf =>
    Keyed.find?_eq_none.1 hf (h.files_live id hn)
  have := h.bound_le_one id
  exact ⟨f, hf, by rw [h.refs_names_readers hf]; omega⟩

/-- In every reachable state in which no open reader reads a file that has a name,
`~RAMDirectory` returns, and the files alive after it are those a call owes a `delete` or an open
reader holds, as they were. -/
theorem destroyDirectory_deletes_named (hw : Reachable w)
    (hr : ∀ r ∈ w.readers, w.files.count (.file r.2.fid) = 0) :
    ∃ w', destroyDirectory w = .ok () w' ∧ ∀ id f, Keyed.find? id w'.objs = some f ↔
      Keyed.find? id w.objs = some f ∧ (id ∈ w.frees ∨ ∃ r ∈ w.readers, r.2.fid = id) := by
  have h := hw.accounted
  obtain ⟨w', hw', hobj⟩ := forM_deallocate_ok h.bound_le_one fun id hn => by
    obtain ⟨f, hf, hrefs⟩ := h.named_refs hn
    have hc : w.readers.countP (fun r => r.2.fid = id) = 0 :=
      List.countP_eq_zero.2 fun r hr' he => hn (of_decide_eq_true he ▸ hr r hr')
    exact ⟨f, hf, by rw [hrefs, hc]; rfl⟩
  refine ⟨w', by simpa [destroyDirectory] using hw', fun id f => ?_⟩
  rw [hobj id, show namesOf w.files.entries id = w.files.count (.file id) from rfl]
  by_cases hn : w.files.count (.file id) = 0
  · rw [if_pos hn]
    refine ⟨fun hf => ⟨hf, ?_⟩, And.left⟩
    have hrefs := h.refs_names_readers hf
    rcases Nat.eq_zero_or_pos (w.readers.countP fun r => r.2.fid = id) with hc | hc
    · exact .inl ((h.frees_iff id f hf).2 (by omega))
    · exact .inr (by simpa using List.countP_pos_iff.1 hc)
  · rw [if_neg hn]
    refine ⟨nofun, fun ⟨hf, hown⟩ =>
      hown.elim (fun hm => ?_) fun ⟨r, hr', he⟩ => absurd (he ▸ hr r hr') hn⟩
    have := h.refs_names_readers hf
    have := (h.frees_iff id f hf).1 hm
    omega

/-- `"a"` written, committed at address `1`, opened by reader `2` and deleted; `"b"` committed at
`4`: the destructor deletes the file of `"b"` and leaves the one the reader holds. -/
theorem destroyDirectory_deletes_named_read :
    ∃ w, Reachable w ∧ Keyed.keys w.objs = [4, 1] ∧ w.frees = [] ∧
      (∀ r ∈ w.readers, w.files.count (.file r.2.fid) = 0) ∧
      ∃ w', destroyDirectory w = .ok () w' ∧ ∀ id f, Keyed.find? id w'.objs = some f ↔
        Keyed.find? id w.objs = some f ∧ (id ∈ w.frees ∨ ∃ r ∈ w.readers, r.2.fid = id) := by
  have hw : Reachable _ :=
    ((((((((Reachable.init Heap.zero).step ⟨.createOutput "a", trivial, .inl ⟨(), rfl⟩⟩).step
      ⟨.write 0 (.seek 0), trivial, .inl ⟨(), rfl⟩⟩).step
      ⟨.write 0 (.call (.write [7, 8])), trivial,
        write_returns (by rfl) (by exact (IndexOutput.write_of_fits _ (by decide)).trans rfl)⟩).step
      ⟨.destroyOutput 0, trivial, .inl ⟨(), rfl⟩⟩).step
      ⟨.openInput "a", trivial, .inl ⟨(), by rfl⟩⟩).step
      ⟨.deleteFile "a", trivial, .inl ⟨(), by rfl⟩⟩).step
      ⟨.createOutput "b", trivial, .inl ⟨(), by rfl⟩⟩).step
      ⟨.destroyOutput 3, trivial, .inl ⟨(), by rfl⟩⟩
  exact ⟨_, hw, by rfl, by rfl, by decide, destroyDirectory_deletes_named hw (by decide)⟩

/-- In every reachable state in which an open reader reads a file that has a name,
`~RAMDirectory` fails its assertion. -/
theorem destroyDirectory_reader_asserts (hw : Reachable w) {r : Nat × Reader} (hr : r ∈ w.readers)
    (hn : w.files.count (.file r.2.fid) ≠ 0) :
    ∃ w', destroyDirectory w =
      .error (.assertion "Attempt to deallocate a file that is open for reading!") w' := by
  have h := hw.accounted
  obtain ⟨f, hf, hrefs⟩ := h.named_refs hn
  have hpos : 0 < w.readers.countP fun r' => r'.2.fid = r.2.fid :=
    List.countP_pos_iff.2 ⟨r, hr, by simp⟩
  obtain ⟨w', hw'⟩ := forM_deallocate_asserts h.bound_le_one
    (fun id hn => (h.named_refs hn).imp fun _ => And.left) hn hf (by omega)
  exact ⟨w', by simpa [destroyDirectory] using hw'⟩

/-- `"a"` written, committed at address `1` and opened by reader `2`: the destructor stops at the
file the reader holds. -/
theorem destroyDirectory_reader_asserts_open :
    ∃ w r, Reachable w ∧ r ∈ w.readers ∧ w.files.count (.file r.2.fid) ≠ 0 ∧
      ∃ w', destroyDirectory w =
        .error (.assertion "Attempt to deallocate a file that is open for reading!") w' := by
  have hw : Reachable _ :=
    (((((Reachable.init Heap.zero).step ⟨.createOutput "a", trivial, .inl ⟨(), rfl⟩⟩).step
      ⟨.write 0 (.seek 0), trivial, .inl ⟨(), rfl⟩⟩).step
      ⟨.write 0 (.call (.write [7, 8])), trivial,
        write_returns (by rfl) (by exact (IndexOutput.write_of_fits _ (by decide)).trans rfl)⟩).step
      ⟨.destroyOutput 0, trivial, .inl ⟨(), rfl⟩⟩).step
      ⟨.openInput "a", trivial, .inl ⟨(), by rfl⟩⟩
  exact ⟨_, _, hw, List.mem_cons_self _ _, by decide,
    destroyDirectory_reader_asserts hw (List.mem_cons_self _ _) (by decide)⟩

end Destroy

end Lucanthrope
