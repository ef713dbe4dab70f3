import Lucanthrope.Storage.RAMDirectory
import Lucanthrope.IO.Values

/-!
# Writing values to a file and reading them back

The storage test is a client of the directory in two blocks: the first creates a file, writes
typed values to its writer and destroys the writer, which commits the file (`writeFile`); the
second opens the file, reads the values back with the matching typed readers, and the length of
the file is the number of bytes written (`readFile`). `writeThenRead` is the two in a row.

The layers meet here. `writeFile` stores the bytes of the calls in the blocks of the committed
file, by the byte-array model of the writer (`RAMFileIndexOutput.run_rep`), and `flush()` adds
none (`writeFile_stores`). A reader of a committed file returns what the calls return on its
bytes, by the reader's model (`RAMFileIndexInput.run_inv`), whatever state the directory is in
(`readFile_of_stores`). The bytes of readable values read back as the values
(`readValues_inside`):

> `values_read_back`: for every name absent from the directory and every non-empty sequence
> of readable values, written in order with `flush()` calls anywhere in between, the matching
> reads on the committed file return exactly the values, and `fileLength` is the number of
> bytes written.

The reads never end on the end of the file, since the reader does not stop there
(`RAMFileIndexInput.at_end`), and an empty sequence leaves an empty file, which
`RAMFileIndexInput` asserts against:

> `values_then_eof`: for every name absent from the directory and every sequence of readable
> values, the `eof()` after the matching reads is not `true`: with no values `openInput` fails
> its assertion `File is empty!`; with some, the reads return the values and `eof()` returns
> `false`, or, on a file that fills its last block, indexes `blocks_` past the data.

Readable values exclude `uint32` varints and string lengths in `[2^21, 2^28)`, which
`writeVarint32` writes without their first byte (`varint32Bytes_eq_tail_leb128`).

`writeString` casts the size of its string to `uint32_t` before it writes it as a varint, and
then writes every byte of the string, while `readString` reads a `uint32_t` size and that many
bytes (`IndexInput.readString_length_lt`):

> `writeString_truncated`: for every name absent from the directory and every string of `2^32`
> bytes or more, the committed file holds the size modulo `2^32` followed by all the bytes of
> the string, and reading it back with `readString` never returns the string.
-/

namespace Lucanthrope

open RAMDirectory

/-- The first block of the storage test: create `fname`, make the calls `ws` on its writer, and
destroy the writer, which commits the file. -/
def writeFile (fname : String) (ws : List IndexOutput.Call) : Op World Unit := do
  let h ← createOutput fname
  onWriter h (RAMFileIndexOutput.run (ws.map .call))
  destroyOutput h

/-- The second block: open `fname`, make the reads `rs` on the reader, and ask the length of
`fname`. The results of the reads, and the length. -/
def readFile (fname : String) (rs : List IndexInput.ReadCall) :
    Op World (List IndexInput.InResult × Nat) := do
  let r ← openInput fname
  let results ← onReader r (RAMFileIndexInput.run (rs.map .read))
  let len ← fileLength fname
  pure (results, len)

/-- The storage test: `writeFile`, then `readFile`. -/
def writeThenRead (fname : String) (ws : List IndexOutput.Call) (rs : List IndexInput.ReadCall) :
    Op World (List IndexInput.InResult × Nat) := do
  writeFile fname ws
  readFile fname rs

/-- `fname` is bound in `w` to a committed file whose bytes are `data`, all within its blocks. -/
def Stores (w : World) (fname : String) (data : List UInt8) : Prop :=
  ∃ id f, w.files.find? fname = some (.file id) ∧ Keyed.find? id w.objs = some f ∧
    f.length = data.length ∧ f.bytes w.heap f.length = data ∧
    f.length ≤ f.blocks_.length * kBlockSize

theorem writeFile_stores {w : World} {fname : String} (hn : w.files.find? fname = none)
    (ws : List IndexOutput.Call) :
    ∃ w', writeFile fname ws w = .ok () w' ∧
      Stores w' fname (ws.flatMap IndexOutput.Call.bytes) := by
  obtain ⟨s, hrun, hr⟩ := RAMFileIndexOutput.run_rep (ws.map .call)
    (RAMFileIndexOutput.rep_construct w.heap) (RAMFileIndexOutput.specRun_calls ws Cursor.empty)
  obtain ⟨hlen, hbytes⟩ := hr.finish_bytes
  have hfit := hr.stored.fits
  simp only [Cursor.empty_write_data] at hlen hbytes hfit
  have hrun' : RAMFileIndexOutput.run (ws.map .call)
      { RAMFileIndexOutput.construct w.heap with heap := w.heap } = .ok () s := hrun
  simp only [writeFile, createOutput, destroyOutput, commit, Op.bind_apply, Op.get_apply, hn,
    Option.isSome_none, Bool.false_eq_true, if_false, Op.set_apply, onWriter, Keyed.find?_cons,
    hrun', setWriter, Keyed.find?_modify, Option.map_some', Table.find?_set, beq_self_eq_true,
    assert_apply, if_true, EStateM.Result.ok.injEq, true_and, exists_eq_left', Op.pure_apply]
  refine ⟨_, { RAMFileIndexOutput.finish s with refs_ := 1 }, by rw [Table.find?_set, if_pos rfl],
    by rw [Keyed.find?_cons, if_pos rfl], hlen, (congrArg _ hlen).trans hbytes, ?_⟩
  rw [hlen]
  simpa [RAMFileIndexOutput.finish] using hfit

/-- Values written with `flush()` calls between them: the file stores their bytes. -/
theorem writeFile_values {w : World} {fname : String} (hn : w.files.find? fname = none)
    {vs : List Value} {ws : List IndexOutput.Call}
    (hws : ws.filter (· != .flush) = vs.map Value.write) :
    ∃ w', writeFile fname ws w = .ok () w' ∧ Stores w' fname (vs.flatMap Value.bytes) := by
  have hbytes : ws.flatMap IndexOutput.Call.bytes = vs.flatMap Value.bytes := by
    rw [← IndexOutput.Call.flatMap_bytes_filter, hws, List.flatMap_map]; rfl
  exact hbytes ▸ writeFile_stores hn ws

/-- `readFile` of a committed file returns, or fails, as its reads do on a new reader of it. -/
theorem readFile_of_run {w : World} {fname : String} {id : Nat} {f : RAMFile}
    (hname : w.files.find? fname = some (.file id)) (hf : Keyed.find? id w.objs = some f)
    (hL : 0 < f.length) (rs : List IndexInput.ReadCall) :
    (∀ {results s}, RAMFileIndexInput.run (rs.map .read)
        (IndexInput.create w.heap (RAMFileIndexInput.fields f)) = .ok results s →
      ∃ w', readFile fname rs w = .ok (results, f.length) w') ∧
    (∀ {e s}, RAMFileIndexInput.run (rs.map .read)
        (IndexInput.create w.heap (RAMFileIndexInput.fields f)) = .error e s →
      ∃ w', readFile fname rs w = .error e w') := by
  refine ⟨fun {results s} hrun => ?_, fun {e s} hrun => ?_⟩ <;>
  · have hrun' : RAMFileIndexInput.run (rs.map .read)
        { IndexInput.create w.heap (RAMFileIndexInput.fields f) with heap := w.heap } = _ := hrun
    simp [readFile, openInput, RAMFileIndexInput.construct, fileLength, hname, hf, hL.ne', onReader,
      hrun', setReader, Keyed.find?_modify, Keyed.find?_cons]

theorem readFile_of_stores {w : World} {fname : String} {F : List UInt8} (hs : Stores w fname F)
    (hF : F ≠ []) {rs : List IndexInput.ReadCall} {results : List IndexInput.InResult} {k : Nat}
    (hrs : IndexInput.insideRun rs F = some (results, k)) :
    ∃ w', readFile fname rs w = .ok (results, F.length) w' := by
  obtain ⟨id, f, hname, hf, hlen, hbytes, hfit⟩ := hs
  have hL : 0 < f.length := by rw [hlen]; exact List.length_pos.2 hF
  have hspec : RAMFileIndexInput.specRun (f.bytes w.heap f.length) (rs.map .read) 0 =
      some (results, k) := by
    rw [RAMFileIndexInput.specRun_reads, hbytes, List.drop_zero, hrs]; simp
  obtain ⟨s, hrun, -⟩ := RAMFileIndexInput.run_create hL hfit _ hspec
  exact hlen ▸ (readFile_of_run hname hf hL rs).1 hrun

/-- A call on a reader that returns gives what the call gives on some state of the stream. -/
theorem onReader_ok {α : Type} {r : Nat} {op : Op (IndexInput RAMIn) α} {w w' : World} {a : α}
    (h : onReader r op w = .ok a w') : ∃ s s', op s = .ok a s' := by
  unfold onReader at h
  split at h
  · cases h
  · split at h
    · cases h
      exact ⟨_, _, ‹_›⟩
    · cases h

/-- The results `readFile` returns are those of its reads on the reader. -/
theorem readFile_results {fname : String} {rs : List IndexInput.ReadCall}
    {results : List IndexInput.InResult} {len : Nat} {w w' : World}
    (h : readFile fname rs w = .ok (results, len) w') :
    ∃ s s', RAMFileIndexInput.run (rs.map .read) s = .ok results s' := by
  obtain ⟨_, _, -, h⟩ := Op.bind_eq_ok.1 h
  obtain ⟨results', _, hr, h⟩ := Op.bind_eq_ok.1 h
  obtain ⟨_, _, -, h⟩ := Op.bind_eq_ok.1 h
  simp only [Op.pure_apply, EStateM.Result.ok.injEq, Prod.mk.injEq] at h
  exact h.1.1 ▸ onReader_ok hr

/-- Values written under a new name, with `flush()` calls anywhere in between, read back in
order from the committed file, and `fileLength` is the number of bytes written. -/
theorem values_read_back {w : World} {fname : String} (hn : w.files.find? fname = none)
    {vs : List Value} (hne : vs ≠ []) (hv : ∀ v ∈ vs, v.readable = true)
    {ws : List IndexOutput.Call} (hws : ws.filter (· != .flush) = vs.map Value.write) :
    ∃ w', writeThenRead fname ws (vs.map Value.read) w =
      .ok (vs.map Value.result, (vs.flatMap Value.bytes).length) w' := by
  obtain ⟨w₁, hw₁, hs⟩ := writeFile_values hn hws
  obtain ⟨w₂, hw₂⟩ := readFile_of_stores hs (Value.flatMap_bytes_ne_nil hne)
    (by simpa using readValues_inside vs hv [])
  exact ⟨w₂, by simp only [writeThenRead, Op.bind_apply, hw₁, hw₂]⟩

/-- A byte and a varint, with a `flush()` between them. -/
theorem values_read_back_flush :
    ∃ w', writeThenRead "a" [.writeByte 7, .flush, .writeVarint32 300]
        ([Value.byte 7, .varint32 300].map Value.read) (World.init Heap.zero) =
      .ok ([Value.byte 7, .varint32 300].map Value.result,
        ([Value.byte 7, .varint32 300].flatMap Value.bytes).length) w' :=
  values_read_back (by rfl) (by decide) (by decide) (by decide)

/-- `readFile` of an empty committed file fails the assertion of the reader's constructor. -/
theorem readFile_empty {w : World} {fname : String} {id : Nat} {f : RAMFile}
    (hname : w.files.find? fname = some (.file id)) (hf : Keyed.find? id w.objs = some f)
    (h0 : f.length = 0) (rs : List IndexInput.ReadCall) :
    readFile fname rs w = .error (.assertion "File is empty!") w := by
  simp [readFile, openInput, RAMFileIndexInput.construct, hname, hf, h0]

/-! ## The end of the file -/

/-- Whatever readable values are written, the `eof()` after the reads that match them does not
report the end of the file: with no values the file is empty and `openInput` fails its
assertion; with some, the reads return the values, and `eof()` returns `false`, or, on a file
that fills its last block, indexes `blocks_` past the data. -/
theorem values_then_eof {w : World} {fname : String} (hn : w.files.find? fname = none)
    {vs : List Value} (hv : ∀ v ∈ vs, v.readable = true)
    {ws : List IndexOutput.Call} (hws : ws.filter (· != .flush) = vs.map Value.write) :
    (vs = [] → ∃ w', writeThenRead fname ws (vs.map Value.read ++ [.eof]) w =
      .error (.assertion "File is empty!") w') ∧
    (vs ≠ [] →
      (∃ w', writeThenRead fname ws (vs.map Value.read ++ [.eof]) w =
        .ok (vs.map Value.result ++ [.eof false], (vs.flatMap Value.bytes).length) w') ∨
      ((vs.flatMap Value.bytes).length % kBlockSize = 0 ∧
        ∃ w', writeThenRead fname ws (vs.map Value.read ++ [.eof]) w = .error .undefined w')) := by
  obtain ⟨w₁, hw₁, id, f, hname, hf, hlen, hF, hfit⟩ := writeFile_values hn hws
  simp only [writeThenRead, Op.bind_apply, hw₁]
  refine ⟨fun h0 => ?_, fun hne => ?_⟩
  · subst h0
    exact ⟨w₁, readFile_empty hname hf hlen _⟩
  · have hL : 0 < f.length := hlen ▸ List.length_pos.2 (Value.flatMap_bytes_ne_nil hne)
    have hspec : RAMFileIndexInput.specRun (f.bytes w₁.heap f.length)
        ((vs.map Value.read).map .read) 0 = some (vs.map Value.result, f.length) := by
      rw [RAMFileIndexInput.specRun_reads, hF, List.drop_zero, ← List.append_nil (vs.flatMap _),
        readValues_inside vs hv [], hlen]
      simp
    obtain ⟨s, hrun, h, hr, -⟩ := RAMFileIndexInput.run_create hL hfit _ hspec
    have happ := RAMFileIndexInput.run_append hrun [.read .eof]
    obtain ⟨hok, herr⟩ := readFile_of_run hname hf hL (vs.map Value.read ++ [.eof])
    simp only [List.map_append, List.map_cons, List.map_nil] at hok herr
    rw [← hlen]
    rcases (RAMFileIndexInput.at_end hL hfit h hr).1 with ⟨s', he⟩ | ⟨hm, s', he⟩ <;>
      simp only [RAMFileIndexInput.run, IndexInput.ReadCall.run, Op.bind_apply, Op.map_apply,
        Op.pure_apply, he] at happ
    · exact .inl (hok happ)
    · exact .inr ⟨hm, herr happ⟩

/-- One byte, `7`: `readByte` returns it, and the file does not fill its block. -/
theorem values_then_eof_byte :
    ([Value.byte 7] = [] → ∃ w', writeThenRead "a" [.writeByte 7]
        ([Value.byte 7].map Value.read ++ [.eof]) (World.init Heap.zero) =
      .error (.assertion "File is empty!") w') ∧
    ([Value.byte 7] ≠ [] →
      (∃ w', writeThenRead "a" [.writeByte 7] ([Value.byte 7].map Value.read ++ [.eof])
          (World.init Heap.zero) =
        .ok ([Value.byte 7].map Value.result ++ [.eof false],
          ([Value.byte 7].flatMap Value.bytes).length) w') ∨
      (([Value.byte 7].flatMap Value.bytes).length % kBlockSize = 0 ∧
        ∃ w', writeThenRead "a" [.writeByte 7] ([Value.byte 7].map Value.read ++ [.eof])
          (World.init Heap.zero) = .error .undefined w')) :=
  values_then_eof (by rfl) (by decide) (by decide)

/-! ## Strings of `2^32` bytes or more -/

/-- A string of `2^32` bytes or more is committed with its size modulo `2^32`, and `readString`
never returns it. -/
theorem writeString_truncated {w : World} {fname : String} (hn : w.files.find? fname = none)
    {str : List UInt8} (hs : 2 ^ 32 ≤ str.length) :
    (∃ w', writeFile fname [.writeString str] w = .ok () w' ∧
      Stores w' fname (varint32Bytes (UInt32.ofNat str.length) ++ str) ∧
      (UInt32.ofNat str.length).toNat = str.length % 2 ^ 32) ∧
    ∀ len w', writeThenRead fname [.writeString str] [.readString] w ≠
      .ok ([.bytes str], len) w' := by
  refine ⟨?_, fun len w' h => ?_⟩
  · obtain ⟨w', hw, hst⟩ := writeFile_stores hn [.writeString str]
    exact ⟨w', hw, by simpa [IndexOutput.Call.bytes] using hst, rfl⟩
  · obtain ⟨_, _, -, h⟩ := Op.bind_eq_ok.1 h
    obtain ⟨s, _, hrun⟩ := readFile_results h
    obtain ⟨x, _, hx, hrest⟩ := Op.bind_eq_ok.1 hrun
    obtain ⟨_, _, -, hrest⟩ := Op.bind_eq_ok.1 hrest
    simp only [Op.pure_apply, EStateM.Result.ok.injEq, List.cons.injEq] at hrest
    obtain ⟨⟨rfl, -⟩, -⟩ := hrest
    simp only [IndexInput.ReadCall.run, Op.map_apply] at hx
    split at hx
    · simp only [EStateM.Result.ok.injEq, IndexInput.InResult.bytes.injEq] at hx
      obtain ⟨rfl, -⟩ := hx
      have := IndexInput.readString_length_lt _ ‹_›
      omega
    · cases hx

/-- `2 ^ 32` zero bytes. -/
def zeros32 : List UInt8 :=
  List.replicate (2 ^ 32) 0

/-- `2 ^ 32` zero bytes are written with the size `0`, and do not read back. -/
theorem writeString_truncated_zeros :
    (∃ w', writeFile "a" [.writeString zeros32] (World.init Heap.zero) = .ok () w' ∧
      Stores w' "a" (varint32Bytes (UInt32.ofNat zeros32.length) ++ zeros32) ∧
      (UInt32.ofNat zeros32.length).toNat = zeros32.length % 2 ^ 32) ∧
    ∀ len w', writeThenRead "a" [.writeString zeros32] [.readString] (World.init Heap.zero) ≠
      .ok ([.bytes zeros32], len) w' :=
  writeString_truncated (by rfl) (by rw [zeros32, List.length_replicate])

end Lucanthrope
