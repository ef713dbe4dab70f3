import Lucanthrope.Common.Keyed
import Lucanthrope.IO.RAMFileIndexOutput
import Lucanthrope.IO.RAMFileIndexInput

/-!
# `RAMDirectory` and the objects of its clients

`RAMDirectory` maps names to `RAMFile *` in `files`, under the mutex `mu_`. A name is bound to
the shared `&dummy_file` while a writer or a lock handle holds it (`Entry.dummy`), and to its
`RAMFile` once the writer is destroyed and commits it (`Entry.file id`, where `id` is the
address of the `RAMFile`). A committed `RAMFile` counts its references in `refs_`: one for the
entry of `files`, one for each open reader. The call whose decrement brings `refs_` to `0`
deletes the file after releasing `mu_`.

`World` is a `RAMDirectory` together with the objects its clients hold: the committed
`RAMFile`s (`objs`, by address), the live writers, readers and lock handles (by address), the
memory of the process, the deletions owed by calls that have released `mu_` (`frees`), and the
next fresh address. Each public function of the class, and each destructor of a handle, is an
operation on `World`, with the messages and codes of the code; the destructors call the private
`commit`, `unrefReader` and `releaseLock` as the code does. `Event` is a step a client takes,
and `Step` is the step relation of the whole system: one event that returns or throws an
`Exception`, each atomic under `mu_` as the code makes it, in any interleaving of any number of
clients. An event that fails an assertion or is undefined ends the process: it has no next
state. `Reachable` is every state the system reaches from a new directory.

Mirroring notes:
- Addresses of objects are `Nat`s from one counter, `nextId`: a new object never has the address
  of an object that is still alive, which is what the allocator guarantees.
- `files[fname]` in `commit` inserts a null entry when `fname` is absent, and the assertion then
  fails: the insertion is not observable and is left out.
- `rename` erases `it_src` after `files[target]` inserted `target`. An insertion that rehashes the
  table invalidates `it_src`, and when the library rehashes is its own policy; the model has no
  buckets, and `rename` is the move of an entry it is meant to be.
- `deleteSegment` erases the entry its range-`for` stands on, and the loop then increments the
  iterator of the erased entry: undefined behaviour, on the first entry that matches.
- The prefix test `pair.first.size() >= size && segment == pair.first.substr(0, size)` compares
  bytes of UTF-8 strings; on valid strings that is the prefix order on their characters
  (`inSegment`).
- The warning `releaseLock` writes on `std::cerr` is not modelled; the destructor of the
  directory, which requires that no handle is alive, is not a step (`destroyDirectory` models it
  on its own).
-/

namespace Lucanthrope

/-- A value of `files`: `&dummy_file`, or the committed `RAMFile` at address `id`. -/
inductive Entry where
  | dummy
  | file (id : Nat)
  deriving DecidableEq, Repr

/-- `RAMDirectory::files`: each name occurs once. -/
structure Table where
  entries : List (String × Entry)
  nodup : (Keyed.keys entries).Nodup

namespace Table

/-- An empty table. -/
def empty : Table :=
  ⟨[], List.nodup_nil⟩

/-- `files.find(fname)`. -/
def find? (t : Table) (fname : String) : Option Entry :=
  Keyed.find? fname t.entries

/-- `files[fname] = e`. -/
def set (t : Table) (fname : String) (e : Entry) : Table :=
  ⟨Keyed.set fname e t.entries, Keyed.nodup_set t.nodup⟩

/-- `files.erase(fname)`. -/
def erase (t : Table) (fname : String) : Table :=
  ⟨Keyed.erase fname t.entries, Keyed.nodup_erase t.nodup⟩

/-- The number of names bound to `e`. -/
def count (t : Table) (e : Entry) : Nat :=
  t.entries.countP fun p => p.2 = e

variable {t : Table} {fname fname' : String} {e e₀ : Entry}

theorem find?_set : (t.set fname e).find? fname' = if fname' = fname then some e else t.find? fname' :=
  Keyed.find?_set

theorem find?_erase : (t.erase fname).find? fname' = if fname' = fname then none else t.find? fname' :=
  Keyed.find?_erase

/-- Binding a new name adds one name bound to `e`. -/
theorem count_set_of_none (h : t.find? fname = none) (e' : Entry) :
    (t.set fname e).count e' = t.count e' + if e = e' then 1 else 0 := by
  simp [count, set, Keyed.set_of_find?_none h, List.countP_append, List.countP_cons]

/-- Rebinding a name moves it from `e₀` to `e`. -/
theorem count_set_of_some (h : t.find? fname = some e₀) (e' : Entry) :
    (t.set fname e).count e' + (if e₀ = e' then 1 else 0) =
      t.count e' + if e = e' then 1 else 0 := by
  simpa [count, set, Keyed.set_of_mem (Keyed.mem_keys_of_find? h)] using
    Keyed.countP_modify (fun x => decide (x = e')) t.nodup h (fun _ => e)

/-- Erasing a name bound to `e₀` removes one name bound to `e₀`. -/
theorem count_erase (h : t.find? fname = some e₀) (e' : Entry) :
    (t.erase fname).count e' + (if e₀ = e' then 1 else 0) = t.count e' := by
  simpa [count, erase] using Keyed.countP_erase (fun x => decide (x = e')) t.nodup h

theorem count_pos (h : t.find? fname = some e₀) : 0 < t.count e₀ := by
  have := count_erase h e₀
  simp only [if_true] at this
  omega

end Table

/-- A live `RAMFileIndexOutput`: the `const` name of its `RAMFile`, and the stream. -/
structure Writer where
  name : String
  stream : IndexOutput RAMOut

/-- A live `RAMFileIndexInput`: the address of the `RAMFile` it reads, and the stream. -/
structure Reader where
  fid : Nat
  stream : IndexInput RAMIn

/-- A `RAMDirectory`, the objects it refers to, and the handles its clients hold. -/
structure World where
  files : Table
  objs : List (Nat × RAMFile)
  /-- `dummy_file.refs_`. -/
  dummyRefs : Int
  heap : Heap
  writers : List (Nat × Writer)
  readers : List (Nat × Reader)
  locks : List (Nat × String)
  /-- The committed files a call is to `delete` after releasing `mu_`. -/
  frees : List Nat
  nextId : Nat

/-- `RAMDirectory()`, in a process whose memory is `heap`. -/
def World.init (heap : Heap) : World :=
  ⟨Table.empty, [], 0, heap, [], [], [], [], 0⟩

namespace RAMDirectory

/-- The message of the `FileNotFoundException` of `RAMDirectory::f()`. -/
def notFound (f fname : String) : String :=
  "In RAMDirectory::" ++ f ++ "(): File named " ++ fname ++ " is not found in RAMDirectory"

/-- The message of the `FileAlreadyExistsException` of `RAMDirectory::f()`. -/
def alreadyExists (f fname : String) : String :=
  "In RAMDirectory::" ++ f ++ "(): File named " ++ fname ++ " already exists in RAMDirectory"

/-- `RAMDirectory::createOutput`: the address of the new writer. -/
def createOutput (fname : String) : Op World Nat := do
  let w ← get
  if (w.files.find? fname).isSome then
    raise .FileAlreadyExistsException (alreadyExists "createOutput" fname)
  else
    set { w with
      writers := (w.nextId, ⟨fname, RAMFileIndexOutput.construct w.heap⟩) :: w.writers,
      files := w.files.set fname .dummy, nextId := w.nextId + 1 }
    pure w.nextId

/-- `RAMDirectory::commit`: the file becomes the committed `RAMFile` at a fresh address, with
`refs_ = 1`. -/
def commit (fname : String) (file : RAMFile) : Op World Unit := do
  let w ← get
  assert (w.files.find? fname == some .dummy)
    "File name is not registered, RAMDirectory\x27s invariants do not hold!"
  set { w with files := w.files.set fname (.file w.nextId),
               objs := (w.nextId, { file with refs_ := 1 }) :: w.objs, nextId := w.nextId + 1 }

/-- `~RAMFileIndexOutput`: `length` raised to `pos`, then `finish_writing()`, which is
`commit(name, file)`. -/
def destroyOutput (h : Nat) : Op World Unit := do
  let w ← get
  match Keyed.find? h w.writers with
  | none => undefinedBehaviour
  | some wr =>
    set { w with writers := Keyed.erase h w.writers }
    commit wr.name (RAMFileIndexOutput.finish wr.stream)

/-- `--file->refs_` under `mu_`, and the `delete file` the call owes once it is `0`: the
decrement of `unrefReader` and `deleteFile`. -/
def release (id : Nat) : Op World Unit := do
  let w ← get
  match Keyed.find? id w.objs with
  | none => undefinedBehaviour
  | some f =>
    set { w with objs := Keyed.modify id (fun f => { f with refs_ := f.refs_ - 1 }) w.objs,
                 frees := if f.refs_ - 1 = 0 then id :: w.frees else w.frees }

/-- `RAMDirectory::unrefReader`. -/
def unrefReader (id : Nat) : Op World Unit :=
  release id

/-- `~RAMFileIndexInput`: `finish_reading()`, which is `unrefReader(file)`. -/
def destroyInput (r : Nat) : Op World Unit := do
  let w ← get
  match Keyed.find? r w.readers with
  | none => undefinedBehaviour
  | some rd =>
    set { w with readers := Keyed.erase r w.readers }
    unrefReader rd.fid

/-- `RAMDirectory::openInput`: the address of the new reader. -/
def openInput (fname : String) : Op World Nat := do
  let w ← get
  match w.files.find? fname with
  | none => raise .FileNotFoundException (notFound "openInput" fname)
  | some .dummy =>
    throw (.assertion
      "Attempt to read an uncommited file; a file may be read only after it were commited")
  | some (.file id) =>
    match Keyed.find? id w.objs with
    | none => undefinedBehaviour
    | some f =>
      let own ← RAMFileIndexInput.construct f
      set { w with objs := Keyed.modify id (fun f => { f with refs_ := f.refs_ + 1 }) w.objs,
                   readers := (w.nextId, ⟨id, IndexInput.create w.heap own⟩) :: w.readers,
                   nextId := w.nextId + 1 }
      pure w.nextId

/-- `RAMDirectory::deleteFile`. -/
def deleteFile (fname : String) : Op World Unit := do
  let w ← get
  match w.files.find? fname with
  | none => raise .FileNotFoundException (notFound "deleteFile" fname)
  | some .dummy =>
    throw (.assertion
      "Attempt to delete an uncommited file; a file may be deleted only after it were commited")
  | some (.file id) =>
    set { w with files := w.files.erase fname }
    release id

/-- `RAMDirectory::rename`, on the runs where inserting `target` does not rehash `files` and
leaves `it_src` valid (see the mirroring notes). -/
def rename (src target : String) : Op World Unit := do
  let w ← get
  match w.files.find? src with
  | none => raise .FileNotFoundException (notFound "rename" src)
  | some e =>
    if (w.files.find? target).isSome then
      raise .FileAlreadyExistsException (alreadyExists "rename" target)
    else
      set { w with files := (w.files.set target e).erase src }

/-- `RAMDirectory::obtainLock`: the address of the new lock handle, or `none` when the name is
taken. -/
def obtainLock (fname : String) : Op World (Option Nat) := do
  let w ← get
  if (w.files.find? fname).isSome then
    pure none
  else
    set { w with locks := (w.nextId, fname) :: w.locks, files := w.files.set fname .dummy,
                 nextId := w.nextId + 1 }
    pure (some w.nextId)

/-- `RAMDirectory::releaseLock`: an absent name is a warning. -/
def releaseLock (fname : String) : Op World Unit := do
  let w ← get
  match w.files.find? fname with
  | none => pure ()
  | some e =>
    assert (e == .dummy)
      "Lock file refers to unknown RAMFile, RAMDirectory\x27s invariants do not hold!"
    set { w with files := w.files.erase fname }

/-- `~RAMDirectoryLockFile`: `releaseLock(name)`. -/
def destroyLock (l : Nat) : Op World Unit := do
  let w ← get
  match Keyed.find? l w.locks with
  | none => undefinedBehaviour
  | some fname =>
    set { w with locks := Keyed.erase l w.locks }
    releaseLock fname

/-- `RAMDirectory::listAll`. -/
def listAll : Op World (List String) := do
  let w ← get
  pure (Keyed.keys w.files.entries)

/-- `RAMDirectory::fileExists`. -/
def fileExists (fname : String) : Op World Bool := do
  let w ← get
  pure (w.files.find? fname).isSome

/-- `RAMDirectory::fileLength`: `dummy_file.length` is `0`. -/
def fileLength (fname : String) : Op World Nat := do
  let w ← get
  match w.files.find? fname with
  | none => raise .FileNotFoundException (notFound "fileLength" fname)
  | some .dummy => pure 0
  | some (.file id) =>
    match Keyed.find? id w.objs with
    | none => undefinedBehaviour
    | some f => pure f.length

/-- `pair.first.size() >= size && segment == pair.first.substr(0, size)`. -/
def inSegment (segment fname : String) : Bool :=
  segment.data.isPrefixOf fname.data

/-- `RAMDirectory::deleteSegment`: at the first entry that matches, the assertion, the erase,
`--file->refs_` on `&dummy_file`, and the increment of the erased entry's iterator. -/
def deleteSegment (segment : String) : Op World Unit := do
  let w ← get
  match w.files.entries.find? (fun p => inSegment segment p.1) with
  | none => pure ()
  | some (fname, e) =>
    assert (e == .dummy)
      ("Attempt to delete an uncommited file in exception handler; it is should not be " ++
        "possible with RAMDirectory\x27s invariants, something is broken!")
    set { w with files := w.files.erase fname, dummyRefs := w.dummyRefs - 1 }
    undefinedBehaviour

/-- `delete file`, by a call that owes it after releasing `mu_`: `~RAMFile` asserts
`refs_ == 0`. -/
def free (id : Nat) : Op World Unit := do
  let w ← get
  match Keyed.find? id w.objs with
  | none => undefinedBehaviour
  | some f =>
    assert (f.refs_ == 0) "Reference count is not zero"
    set { w with objs := Keyed.erase id w.objs, frees := w.frees.erase id }

/-- `w` after a call on writer `h` left its stream at `s`, and the memory as `s` has it. -/
def setWriter (w : World) (h : Nat) (s : IndexOutput RAMOut) : World :=
  { w with heap := s.heap, writers := Keyed.modify h (fun wr => { wr with stream := s }) w.writers }

/-- `w` after a call on reader `r` left its stream at `s`, and the memory as `s` has it. -/
def setReader (w : World) (r : Nat) (s : IndexInput RAMIn) : World :=
  { w with heap := s.heap, readers := Keyed.modify r (fun rd => { rd with stream := s }) w.readers }

/-- A call on the stream of writer `h`, in the memory of the process. -/
def onWriter {α : Type} (h : Nat) (op : Op (IndexOutput RAMOut) α) : Op World α := fun w =>
  match Keyed.find? h w.writers with
  | none => .error .undefined w
  | some wr =>
    match op { wr.stream with heap := w.heap } with
    | .ok a s => .ok a (setWriter w h s)
    | .error e s => .error e (setWriter w h s)

/-- A call on the stream of reader `r`, in the memory of the process. -/
def onReader {α : Type} (r : Nat) (op : Op (IndexInput RAMIn) α) : Op World α := fun w =>
  match Keyed.find? r w.readers with
  | none => .error .undefined w
  | some rd =>
    match op { rd.stream with heap := w.heap } with
    | .ok a s => .ok a (setReader w r s)
    | .error e s => .error e (setReader w r s)


/-! ## What each call does -/

section Spec

variable {w w' : World}

theorem createOutput_ok {fname : String} {h : Nat} (hc : createOutput fname w = .ok h w') :
    w.files.find? fname = none ∧ h = w.nextId ∧
      w' = { w with
        writers := (w.nextId, ⟨fname, RAMFileIndexOutput.construct w.heap⟩) :: w.writers,
        files := w.files.set fname .dummy, nextId := w.nextId + 1 } := by
  simp only [createOutput, Op.bind_apply, Op.get_apply] at hc
  split_ifs at hc with hf
  · simp at hc
  · simp only [Op.bind_apply, Op.set_apply, Op.pure_apply] at hc
    cases hc
    exact ⟨Option.not_isSome_iff_eq_none.1 hf, rfl, rfl⟩

theorem createOutput_exception {fname : String} {e} (hc : createOutput fname w = .error (.exception e) w') : w' = w := by
  simp only [createOutput, Op.bind_apply, Op.get_apply] at hc
  split_ifs at hc with hf
  · simp at hc; exact hc.2.symm
  · simp at hc

theorem destroyOutput_exception {h : Nat} {e : Exception}
    (hc : destroyOutput h w = .error (.exception e) w') : False := by
  cases hwr : Keyed.find? h w.writers with
  | none => simp [destroyOutput, hwr] at hc
  | some wr =>
    simp only [destroyOutput, hwr, commit, Op.bind_apply, Op.get_apply, Op.set_apply,
      assert_apply] at hc
    split_ifs at hc
    simp at hc

theorem destroyOutput_ok {h : Nat} (hc : destroyOutput h w = .ok () w') :
    ∃ wr, Keyed.find? h w.writers = some wr ∧ w.files.find? wr.name = some .dummy ∧
      w' = { w with
        writers := Keyed.erase h w.writers, files := w.files.set wr.name (.file w.nextId),
        objs := (w.nextId, { RAMFileIndexOutput.finish wr.stream with refs_ := 1 }) :: w.objs,
        nextId := w.nextId + 1 } := by
  cases hwr : Keyed.find? h w.writers with
  | none => simp [destroyOutput, hwr] at hc
  | some wr =>
    simp only [destroyOutput, hwr, commit, Op.bind_apply, Op.get_apply, Op.set_apply,
      assert_apply] at hc
    split_ifs at hc with hd
    cases hc
    exact ⟨wr, rfl, by simpa using hd, rfl⟩

theorem release_ok {id : Nat} (hc : release id w = .ok () w') :
    ∃ f, Keyed.find? id w.objs = some f ∧
      w' = { w with
        objs := Keyed.modify id (fun f => { f with refs_ := f.refs_ - 1 }) w.objs,
        frees := if f.refs_ - 1 = 0 then id :: w.frees else w.frees } := by
  cases hf : Keyed.find? id w.objs with
  | none => simp [release, hf] at hc
  | some f =>
    simp only [release, hf, Op.bind_apply, Op.get_apply, Op.set_apply] at hc
    cases hc
    exact ⟨f, rfl, rfl⟩

theorem release_exception {id : Nat} {e : Exception} (hc : release id w = .error (.exception e) w') :
    False := by
  cases hf : Keyed.find? id w.objs <;> simp [release, hf] at hc

theorem destroyInput_ok {r : Nat} (hc : destroyInput r w = .ok () w') :
    ∃ rd f, Keyed.find? r w.readers = some rd ∧ Keyed.find? rd.fid w.objs = some f ∧
      w' = { w with
        readers := Keyed.erase r w.readers,
        objs := Keyed.modify rd.fid (fun f => { f with refs_ := f.refs_ - 1 }) w.objs,
        frees := if f.refs_ - 1 = 0 then rd.fid :: w.frees else w.frees } := by
  cases hr : Keyed.find? r w.readers with
  | none => simp [destroyInput, hr] at hc
  | some rd =>
    simp only [destroyInput, unrefReader, hr, Op.bind_apply, Op.get_apply, Op.set_apply] at hc
    obtain ⟨f, hf, rfl⟩ := release_ok hc
    exact ⟨rd, f, rfl, hf, rfl⟩

theorem destroyInput_exception {r : Nat} {e : Exception}
    (hc : destroyInput r w = .error (.exception e) w') : False := by
  cases hr : Keyed.find? r w.readers with
  | none => simp [destroyInput, hr] at hc
  | some rd =>
    simp only [destroyInput, unrefReader, hr, Op.bind_apply, Op.get_apply, Op.set_apply] at hc
    exact release_exception hc

theorem openInput_ok {fname : String} {r : Nat} (hc : openInput fname w = .ok r w') :
    ∃ id f, w.files.find? fname = some (.file id) ∧ Keyed.find? id w.objs = some f ∧
      f.length ≠ 0 ∧ r = w.nextId ∧
      w' = { w with
        objs := Keyed.modify id (fun f => { f with refs_ := f.refs_ + 1 }) w.objs,
        readers := (w.nextId, ⟨id, IndexInput.create w.heap (RAMFileIndexInput.fields f)⟩) ::
          w.readers,
        nextId := w.nextId + 1 } := by
  cases hn : w.files.find? fname with
  | none => simp [openInput, hn] at hc
  | some e =>
    cases e with
    | dummy => simp [openInput, hn] at hc
    | file id =>
      cases hf : Keyed.find? id w.objs with
      | none => simp [openInput, hn, hf] at hc
      | some f =>
        simp only [openInput, hn, hf, RAMFileIndexInput.construct, Op.bind_apply, Op.get_apply,
          Op.set_apply, Op.pure_apply, assert_apply] at hc
        split_ifs at hc with hl
        cases hc
        exact ⟨id, f, rfl, hf, by simpa using hl, rfl, rfl⟩

theorem openInput_exception {fname : String} {e : Exception}
    (hc : openInput fname w = .error (.exception e) w') : w' = w := by
  cases hn : w.files.find? fname with
  | none => simp [openInput, hn] at hc; exact hc.2.symm
  | some e =>
    cases e with
    | dummy => simp [openInput, hn] at hc
    | file id =>
      cases hf : Keyed.find? id w.objs with
      | none => simp [openInput, hn, hf] at hc
      | some f =>
        simp only [openInput, hn, hf, RAMFileIndexInput.construct, Op.bind_apply, Op.get_apply,
          Op.set_apply, Op.pure_apply, assert_apply] at hc
        split_ifs at hc
        simp at hc

theorem deleteFile_ok {fname : String} (hc : deleteFile fname w = .ok () w') :
    ∃ id f, w.files.find? fname = some (.file id) ∧ Keyed.find? id w.objs = some f ∧
      w' = { w with
        files := w.files.erase fname,
        objs := Keyed.modify id (fun f => { f with refs_ := f.refs_ - 1 }) w.objs,
        frees := if f.refs_ - 1 = 0 then id :: w.frees else w.frees } := by
  cases hn : w.files.find? fname with
  | none => simp [deleteFile, hn] at hc
  | some e =>
    cases e with
    | dummy => simp [deleteFile, hn] at hc
    | file id =>
      simp only [deleteFile, hn, Op.bind_apply, Op.get_apply, Op.set_apply] at hc
      obtain ⟨f, hf, rfl⟩ := release_ok hc
      exact ⟨id, f, rfl, hf, rfl⟩

theorem deleteFile_exception {fname : String} {e : Exception}
    (hc : deleteFile fname w = .error (.exception e) w') : w' = w := by
  cases hn : w.files.find? fname with
  | none => simp [deleteFile, hn] at hc; exact hc.2.symm
  | some e =>
    cases e with
    | dummy => simp [deleteFile, hn] at hc
    | file id =>
      simp only [deleteFile, hn, Op.bind_apply, Op.get_apply, Op.set_apply] at hc
      exact (release_exception hc).elim

theorem rename_ok {src target : String} (hc : rename src target w = .ok () w') :
    ∃ e, w.files.find? src = some e ∧ w.files.find? target = none ∧
      w' = { w with files := (w.files.set target e).erase src } := by
  cases hn : w.files.find? src with
  | none => simp [rename, hn] at hc
  | some e =>
    simp only [rename, hn, Op.bind_apply, Op.get_apply] at hc
    split_ifs at hc with ht
    · simp at hc
    · cases hc
      exact ⟨e, rfl, Option.not_isSome_iff_eq_none.1 ht, rfl⟩

theorem rename_exception {src target : String} {e : Exception}
    (hc : rename src target w = .error (.exception e) w') : w' = w := by
  cases hn : w.files.find? src with
  | none => simp [rename, hn] at hc; exact hc.2.symm
  | some e =>
    simp only [rename, hn, Op.bind_apply, Op.get_apply] at hc
    split_ifs at hc with ht
    · simp at hc; exact hc.2.symm
    · simp at hc

theorem obtainLock_ok {fname : String} {l : Option Nat} (hc : obtainLock fname w = .ok l w') :
    w' = w ∨ w.files.find? fname = none ∧
      w' = { w with
        locks := (w.nextId, fname) :: w.locks, files := w.files.set fname .dummy,
        nextId := w.nextId + 1 } := by
  simp only [obtainLock, Op.bind_apply, Op.get_apply] at hc
  split_ifs at hc with hf
  · cases hc; exact .inl rfl
  · simp only [Op.bind_apply, Op.set_apply, Op.pure_apply] at hc
    cases hc
    exact .inr ⟨Option.not_isSome_iff_eq_none.1 hf, rfl⟩

theorem obtainLock_exception {fname : String} {e : Exception}
    (hc : obtainLock fname w = .error (.exception e) w') : False := by
  simp only [obtainLock, Op.bind_apply, Op.get_apply] at hc
  split_ifs at hc <;> simp at hc

theorem destroyLock_ok {l : Nat} (hc : destroyLock l w = .ok () w') :
    ∃ fname, Keyed.find? l w.locks = some fname ∧
      (w.files.find? fname = none ∧ w' = { w with locks := Keyed.erase l w.locks } ∨
        w.files.find? fname = some .dummy ∧
          w' = { w with locks := Keyed.erase l w.locks, files := w.files.erase fname }) := by
  cases hl : Keyed.find? l w.locks with
  | none => simp [destroyLock, hl] at hc
  | some fname =>
    refine ⟨fname, rfl, ?_⟩
    cases hn : w.files.find? fname with
    | none =>
      simp only [destroyLock, releaseLock, hl, hn, Op.bind_apply, Op.get_apply, Op.set_apply,
        Op.pure_apply] at hc
      cases hc
      exact .inl ⟨rfl, rfl⟩
    | some e =>
      simp only [destroyLock, releaseLock, hl, hn, Op.bind_apply, Op.get_apply, Op.set_apply,
        assert_apply] at hc
      split_ifs at hc with he
      cases hc
      exact .inr ⟨by simpa using he, rfl⟩

theorem destroyLock_exception {l : Nat} {e : Exception}
    (hc : destroyLock l w = .error (.exception e) w') : False := by
  cases hl : Keyed.find? l w.locks with
  | none => simp [destroyLock, hl] at hc
  | some fname =>
    cases hn : w.files.find? fname with
    | none => simp [destroyLock, releaseLock, hl, hn] at hc
    | some e =>
      simp only [destroyLock, releaseLock, hl, hn, Op.bind_apply, Op.get_apply, Op.set_apply,
        assert_apply] at hc
      split_ifs at hc
      simp at hc

theorem free_ok {id : Nat} (hc : free id w = .ok () w') :
    ∃ f, Keyed.find? id w.objs = some f ∧ f.refs_ = 0 ∧
      w' = { w with objs := Keyed.erase id w.objs, frees := w.frees.erase id } := by
  cases hf : Keyed.find? id w.objs with
  | none => simp [free, hf] at hc
  | some f =>
    simp only [free, hf, Op.bind_apply, Op.get_apply, Op.set_apply, assert_apply] at hc
    split_ifs at hc with hr
    cases hc
    exact ⟨f, rfl, by simpa using hr, rfl⟩

theorem free_exception {id : Nat} {e : Exception} (hc : free id w = .error (.exception e) w') :
    False := by
  cases hf : Keyed.find? id w.objs with
  | none => simp [free, hf] at hc
  | some f =>
    simp only [free, hf, Op.bind_apply, Op.get_apply, Op.set_apply, assert_apply] at hc
    split_ifs at hc
    simp at hc

/-- `deleteSegment` returns only when no name is in the segment, and then changes nothing. -/
theorem deleteSegment_ok_iff {segment : String} :
    deleteSegment segment w = .ok () w' ↔
      (∀ p ∈ w.files.entries, inSegment segment p.1 = false) ∧ w' = w := by
  cases hm : w.files.entries.find? (fun p => inSegment segment p.1) with
  | none =>
    simp only [deleteSegment, hm, Op.bind_apply, Op.get_apply, Op.pure_apply]
    simp only [List.find?_eq_none] at hm
    exact ⟨fun h => by cases h; exact ⟨fun p hp => by simpa using hm p hp, rfl⟩,
      fun h => by rw [h.2]⟩
  | some p =>
    obtain ⟨fname, e⟩ := p
    have hin := List.find?_some hm
    simp only [deleteSegment, hm, Op.bind_apply, Op.get_apply, Op.set_apply, assert_apply,
      undefinedBehaviour_apply]
    refine ⟨fun h => by split_ifs at h, fun h => ?_⟩
    exact absurd (h.1 _ (List.mem_of_find?_eq_some hm)) (by simpa using hin)

theorem deleteSegment_exception {segment : String} {e : Exception}
    (hc : deleteSegment segment w = .error (.exception e) w') : False := by
  cases hm : w.files.entries.find? (fun p => inSegment segment p.1) with
  | none => simp [deleteSegment, hm] at hc
  | some p =>
    simp only [deleteSegment, hm, Op.bind_apply, Op.get_apply, Op.set_apply, assert_apply,
      undefinedBehaviour_apply] at hc
    split_ifs at hc <;> simp at hc

theorem fileExists_ok {fname : String} {b : Bool} (hc : fileExists fname w = .ok b w') : w' = w := by
  simp only [fileExists, Op.bind_apply, Op.get_apply, Op.pure_apply] at hc
  cases hc; rfl

theorem listAll_ok {names : List String} (hc : listAll w = .ok names w') : w' = w := by
  simp only [listAll, Op.bind_apply, Op.get_apply, Op.pure_apply] at hc
  cases hc; rfl

/-- `fileLength` changes nothing, whether it returns or throws. -/
theorem fileLength_state {fname : String} (hc : Returns (fileLength fname) w w') : w' = w := by
  cases hn : w.files.find? fname with
  | none => simp [Returns, fileLength, hn] at hc; exact hc.symm
  | some e =>
    cases e with
    | dummy => simp [Returns, fileLength, hn] at hc; exact hc.symm
    | file id =>
      cases hf : Keyed.find? id w.objs <;> simp [Returns, fileLength, hn, hf] at hc
      exact hc.symm

/-- A call on a writer, returned or not, changes its stream and the memory, or nothing. -/
theorem onWriter_state {α : Type} {h : Nat} {op : Op (IndexOutput RAMOut) α}
    (hc : (∃ a, onWriter h op w = .ok a w') ∨ ∃ e, onWriter h op w = .error e w') :
    w' = w ∨ ∃ s, w' = setWriter w h s := by
  unfold onWriter at hc
  split at hc
  · simp at hc; exact .inl hc.symm
  · split at hc <;> simp at hc <;> exact .inr ⟨_, hc.symm⟩

/-- A call on a reader, returned or not, changes its stream and the memory, or nothing. -/
theorem onReader_state {α : Type} {r : Nat} {op : Op (IndexInput RAMIn) α}
    (hc : (∃ a, onReader r op w = .ok a w') ∨ ∃ e, onReader r op w = .error e w') :
    w' = w ∨ ∃ s, w' = setReader w r s := by
  unfold onReader at hc
  split at hc
  · simp at hc; exact .inl hc.symm
  · split at hc <;> simp at hc <;> exact .inr ⟨_, hc.symm⟩

end Spec

end RAMDirectory

open RAMDirectory

/-- A step of a client: a call of the directory, a call on a handle it holds or its destruction,
or the `delete` a call owes after releasing `mu_`. -/
inductive Event where
  | createOutput (fname : String)
  | destroyOutput (h : Nat)
  | obtainLock (fname : String)
  | destroyLock (l : Nat)
  | openInput (fname : String)
  | destroyInput (r : Nat)
  | deleteFile (fname : String)
  | rename (src target : String)
  | deleteSegment (segment : String)
  | fileExists (fname : String)
  | fileLength (fname : String)
  | listAll
  | write (h : Nat) (c : RAMFileIndexOutput.WCall)
  | read (r : Nat) (c : RAMFileIndexInput.RCall)
  | free (id : Nat)

/-- The event, on the system; its result goes to the client. -/
def Event.run : Event → Op World Unit
  | .createOutput fname => do let _ ← RAMDirectory.createOutput fname
  | .destroyOutput h => RAMDirectory.destroyOutput h
  | .obtainLock fname => do let _ ← RAMDirectory.obtainLock fname
  | .destroyLock l => RAMDirectory.destroyLock l
  | .openInput fname => do let _ ← RAMDirectory.openInput fname
  | .destroyInput r => RAMDirectory.destroyInput r
  | .deleteFile fname => RAMDirectory.deleteFile fname
  | .rename src target => RAMDirectory.rename src target
  | .deleteSegment segment => RAMDirectory.deleteSegment segment
  | .fileExists fname => do let _ ← RAMDirectory.fileExists fname
  | .fileLength fname => do let _ ← RAMDirectory.fileLength fname
  | .listAll => do let _ ← RAMDirectory.listAll
  | .write h c => onWriter h c.run
  | .read r c => do let _ ← onReader r (RAMFileIndexInput.run [c])
  | .free id => RAMDirectory.free id

/-- An event a client can take in `w`: a `delete` only by a call that owes it. -/
def Event.enabled (w : World) : Event → Prop
  | .free id => id ∈ w.frees
  | _ => True

/-- One step of the system: an enabled event that returns or throws an `Exception`. -/
def Step (w w' : World) : Prop :=
  ∃ ev : Event, ev.enabled w ∧ Returns ev.run w w'

/-- The states a new directory reaches, in any memory. -/
inductive Reachable : World → Prop
  | init (heap : Heap) : Reachable (World.init heap)
  | step {w w' : World} : Reachable w → Step w w' → Reachable w'

end Lucanthrope
