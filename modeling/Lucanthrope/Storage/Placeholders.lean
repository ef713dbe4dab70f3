import Lucanthrope.Storage.RAMDirectory

/-!
# Placeholder entries

`createOutput` and `obtainLock` bind a name to `&dummy_file`, and the handle's destructor
expects to find it there: `commit` asserts `files[fname] == &dummy_file`, `releaseLock` that an
entry it finds is `&dummy_file`. Nothing in `RAMDirectory` keeps the entry there. `rename` moves
any entry, a placeholder included, so a writer whose name was renamed away cannot commit:

> `rename_live_writer`: in every state with a live writer, a `rename` of its name that returns
> makes the writer's destructor fail the assertion of `commit`.

`deleteSegment` is meant to drop the entries of a segment after a failure. Its assertion is the
other way round from its message: it asserts that the entry it drops is a placeholder, and
committed entries, the ones a segment holds once its writers are gone, fail it. On a
placeholder the erase inside the range-`for` is undefined behaviour (`deleteSegment_ok_iff`
in `RAMDirectory.lean`: the call returns only when no name is in the segment):

> `deleteSegment_committed`: when the first entry of the segment is a committed file,
> `deleteSegment` fails its assertion.
-/

namespace Lucanthrope

open RAMDirectory

/-- A `rename` of a live writer's name makes the writer's destructor fail the assertion of
`commit`. -/
theorem rename_live_writer {w w₁ : World} {hw : Nat} {wr : Writer} {target : String}
    (hwr : Keyed.find? hw w.writers = some wr) (hr : rename wr.name target w = .ok () w₁) :
    ∃ w₂, destroyOutput hw w₁ = .error
      (.assertion "File name is not registered, RAMDirectory\x27s invariants do not hold!") w₂ := by
  obtain ⟨e, -, -, rfl⟩ := rename_ok hr
  have hn : ((w.files.set target e).erase wr.name).find? wr.name = none := by
    rw [Table.find?_erase, if_pos rfl]
  simp [destroyOutput, commit, hwr, hn]

/-- `createOutput("a")`, then `rename("a", "b")`: the destructor of the writer fails. -/
theorem rename_live_writer_a :
    createOutput "a" (World.init Heap.zero) = .ok 0
      { World.init Heap.zero with
        files := Table.empty.set "a" .dummy,
        writers := [(0, ⟨"a", RAMFileIndexOutput.construct Heap.zero⟩)], nextId := 1 } ∧
    ∃ w₂, rename "a" "b"
      { World.init Heap.zero with
        files := Table.empty.set "a" .dummy,
        writers := [(0, ⟨"a", RAMFileIndexOutput.construct Heap.zero⟩)], nextId := 1 } = .ok () w₂ ∧
      ∃ w₃, destroyOutput 0 w₂ = .error
        (.assertion "File name is not registered, RAMDirectory\x27s invariants do not hold!") w₃ :=
  ⟨rfl, _, rfl, @rename_live_writer
    { World.init Heap.zero with
      files := Table.empty.set "a" .dummy,
      writers := [(0, ⟨"a", RAMFileIndexOutput.construct Heap.zero⟩)], nextId := 1 } _ 0 _ "b"
    rfl rfl⟩

/-- `deleteSegment` fails its assertion when the first entry of the segment is a committed
file. -/
theorem deleteSegment_committed {w : World} {segment fname : String} {id : Nat}
    (hfind : w.files.entries.find? (fun p => inSegment segment p.1) = some (fname, .file id)) :
    ∃ w', deleteSegment segment w = .error (.assertion
      ("Attempt to delete an uncommited file in exception handler; it is should not be " ++
        "possible with RAMDirectory\x27s invariants, something is broken!")) w' :=
  ⟨w, by simp [deleteSegment, hfind]⟩

/-- A segment `seg1_` whose file `seg1_a` was written and committed. -/
theorem deleteSegment_committed_seg1 :
    ∃ w₁ w₂, createOutput "seg1_a" (World.init Heap.zero) = .ok 0 w₁ ∧
      destroyOutput 0 w₁ = .ok () w₂ ∧
      ∃ w₃, deleteSegment "seg1_" w₂ = .error (.assertion
        ("Attempt to delete an uncommited file in exception handler; it is should not be " ++
          "possible with RAMDirectory\x27s invariants, something is broken!")) w₃ :=
  ⟨_, _, rfl, rfl, deleteSegment_committed rfl⟩

end Lucanthrope
