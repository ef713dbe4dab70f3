import Lucanthrope.Storage.References

/-!
# Names that are absent or taken

`createOutput`, `rename`, `deleteFile`, `fileLength`, `openInput` and `obtainLock` look their
names up in `files` before anything else. A lookup that fails ends the call before it changes
anything: `createOutput` and `rename` throw `FileAlreadyExistsException` for a name they would
bind and find taken, the calls throw `FileNotFoundException` for a name they need and find
absent (`rename` checks its source first), and `obtainLock` returns an empty handle instead.
`LookupLaw w` says so for every name, with the converse: once the lookups pass, the call
returns. On a placeholder `deleteFile` and `openInput` fail an assertion, a caller's error, so
their converse is about committed files, and there `openInput` still asserts that the file is
not empty.

The failing lookups need nothing of the state; the converse needs a committed name to lead to a
live file, which reference counting gives in every reachable state
(`Accounted.files_live`):

> `reachable_lookupLaw`: in every reachable state, each of these calls with a failing lookup
> throws the exception the law names and leaves the state as it was, `obtainLock` of a taken
> name returns an empty handle and changes nothing, and with the lookups passing no call
> throws: `openInput` of a committed file returns a reader, or on an empty file fails the
> assertion `File is empty!` of the reader's constructor.
-/

namespace Lucanthrope

open RAMDirectory

/-- The error law of the calls that look a name up, in the state `w`. -/
structure LookupLaw (w : World) : Prop where
  createOutput_taken : ∀ fname, w.files.find? fname ≠ none →
    Throws (createOutput fname) w ⟨.FileAlreadyExistsException, alreadyExists "createOutput" fname⟩
  createOutput_free : ∀ fname, w.files.find? fname = none → ∃ h w', createOutput fname w = .ok h w'
  rename_missing : ∀ src target, w.files.find? src = none →
    Throws (rename src target) w ⟨.FileNotFoundException, notFound "rename" src⟩
  rename_taken : ∀ src target, w.files.find? src ≠ none → w.files.find? target ≠ none →
    Throws (rename src target) w ⟨.FileAlreadyExistsException, alreadyExists "rename" target⟩
  rename_free : ∀ src target, w.files.find? src ≠ none → w.files.find? target = none →
    ∃ w', rename src target w = .ok () w'
  deleteFile_missing : ∀ fname, w.files.find? fname = none →
    Throws (deleteFile fname) w ⟨.FileNotFoundException, notFound "deleteFile" fname⟩
  deleteFile_committed : ∀ fname id, w.files.find? fname = some (.file id) →
    ∃ w', deleteFile fname w = .ok () w'
  fileLength_missing : ∀ fname, w.files.find? fname = none →
    Throws (fileLength fname) w ⟨.FileNotFoundException, notFound "fileLength" fname⟩
  fileLength_present : ∀ fname, w.files.find? fname ≠ none → ∃ len, fileLength fname w = .ok len w
  openInput_missing : ∀ fname, w.files.find? fname = none →
    Throws (openInput fname) w ⟨.FileNotFoundException, notFound "openInput" fname⟩
  openInput_committed : ∀ fname id, w.files.find? fname = some (.file id) →
    (∃ r w', openInput fname w = .ok r w') ∨
      ∃ w', openInput fname w = .error (.assertion "File is empty!") w'
  obtainLock_taken : ∀ fname, w.files.find? fname ≠ none → obtainLock fname w = .ok none w
  obtainLock_free : ∀ fname, w.files.find? fname = none →
    ∃ l w', obtainLock fname w = .ok (some l) w'

/-- A committed name leads to a live file. -/
theorem Accounted.find_objs {w : World} (h : Accounted w) {fname : String} {id : Nat}
    (hn : w.files.find? fname = some (.file id)) : ∃ f, Keyed.find? id w.objs = some f :=
  Option.ne_none_iff_exists'.1 fun hf =>
    Keyed.find?_eq_none.1 hf (h.files_live id (Table.count_pos hn).ne')

/-- Every reachable state meets the lookup law: a failing lookup throws its exception and changes
nothing, and a passing one throws none. -/
theorem reachable_lookupLaw {w : World} (hw : Reachable w) : LookupLaw w where
  createOutput_taken fname h := by
    obtain ⟨e, he⟩ := Option.ne_none_iff_exists'.1 h
    simp [Throws, createOutput, he]
  createOutput_free fname h := by simp [createOutput, h]
  rename_missing src target h := by simp [Throws, rename, h]
  rename_taken src target h h' := by
    obtain ⟨e, he⟩ := Option.ne_none_iff_exists'.1 h
    obtain ⟨e', he'⟩ := Option.ne_none_iff_exists'.1 h'
    simp [Throws, rename, he, he']
  rename_free src target h h' := by
    obtain ⟨e, he⟩ := Option.ne_none_iff_exists'.1 h
    simp [rename, he, h']
  deleteFile_missing fname h := by simp [Throws, deleteFile, h]
  deleteFile_committed fname id h := by
    obtain ⟨f, hf⟩ := hw.accounted.find_objs h
    simp [deleteFile, release, h, hf]
  fileLength_missing fname h := by simp [Throws, fileLength, h]
  fileLength_present fname h := by
    obtain ⟨e, he⟩ := Option.ne_none_iff_exists'.1 h
    cases e with
    | dummy => simp [fileLength, he]
    | file id =>
      obtain ⟨f, hf⟩ := hw.accounted.find_objs he
      simp [fileLength, he, hf]
  openInput_missing fname h := by simp [Throws, openInput, h]
  openInput_committed fname id h := by
    obtain ⟨f, hf⟩ := hw.accounted.find_objs h
    by_cases hL : f.length = 0
    · exact .inr ⟨w, by simp [openInput, RAMFileIndexInput.construct, h, hf, hL]⟩
    · exact .inl (by simp [openInput, RAMFileIndexInput.construct, h, hf, hL])
  obtainLock_taken fname h := by
    obtain ⟨e, he⟩ := Option.ne_none_iff_exists'.1 h
    simp [obtainLock, he]
  obtainLock_free fname h := by simp [obtainLock, h]

/-- `createOutput("a")` and the writer's destructor: `"a"` is committed, and the law holds. -/
theorem reachable_lookupLaw_committed :
    ∃ w, Reachable w ∧ w.files.find? "a" = some (.file 1) ∧ LookupLaw w :=
  have hw : Reachable _ :=
    ((Reachable.init Heap.zero).step ⟨.createOutput "a", trivial, .inl ⟨(), rfl⟩⟩).step
      ⟨.destroyOutput 0, trivial, .inl ⟨(), rfl⟩⟩
  ⟨_, hw, rfl, reachable_lookupLaw hw⟩

end Lucanthrope
