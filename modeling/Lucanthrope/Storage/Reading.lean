import Lucanthrope.Storage.Isolation
import Lucanthrope.Storage.Lookups

/-!
# A reader sees the file it opened

`openInput` hands a client a `RAMFileIndexInput` over the `RAMFile` of a committed file, whose
blocks it reads through raw pointers while every other client keeps running. The reader is right
only if no other client's step changes a byte of those blocks, or the reader's own state. (The
model keeps the reader's own copy of the `RAMFile`'s fields; `Layout.readers_file` says its blocks
are those of the committed file, which no step changes.)

`ReaderAt w r f q` says that reader `r` of `w` reads the bytes of `f` from byte `q` on: its
stream satisfies the reader's invariant (`Inv`, `RAMFileIndexInput.lean`), and what it has still
to deliver is `padded` from `q` on. A step of any client keeps it (`ReaderAt.step`): a call on
`r` moves `q` as `specRun` says (`run_inv`); any other step leaves the stream alone, and stores
only outside the blocks of the committed files (`Layout.step`), which include the reader's
(`Layout.readers_file`), so its invariant and the bytes it will read carry over to the new memory
(`Inv.heap_congr`). So

> `reader_interleaving`: whatever the other clients do, the calls on a reader `openInput`
> returned give what the bytes of the file at the time of `openInput` give: after calls on it
> that stay inside the file, any further calls that do return the results `specRun` gives on
> those bytes, from where the earlier calls left the cursor.

With the writer's side (`Isolation.lean`) this gives the promise of the directory as a whole:

> `written_then_read`: whatever the clients do, the file a writer's destructor commits holds the
> bytes of the writer's own calls, and a reader opened on it later, while its name still refers
> to it, reads those bytes, whatever the clients do meanwhile.
-/

namespace Lucanthrope

open RAMDirectory RAMFileIndexInput

/-! ## The reader's view in another memory -/

section Congr

variable {f : RAMFile} {heap heap' : Heap}
  (hmem : ∀ x, f.Owns x → heap'.mem x = heap.mem x)
include hmem

/-- The bytes of a file that fits in its blocks, in a memory that agrees on them. -/
theorem RAMFile.bytes_congr (hfit : f.length ≤ f.blocks_.length * kBlockSize) :
    f.bytes heap' f.length = f.bytes heap f.length :=
  RAMFile.bytesFrom_congr rfl hmem (by omega)

variable (hL : 0 < f.length) (hfit : f.length ≤ f.blocks_.length * kBlockSize)
include hL hfit

theorem RAMFileIndexInput.padded_congr : padded f heap' = padded f heap :=
  RAMFile.bytesFrom_congr rfl hmem
    (by rw [Nat.zero_add]; exact Nat.mul_le_mul_right _ (last_block_le hL hfit))

/-- A reader of `f` is a reader of `f` in any memory that agrees on the blocks of `f`, with the
same bytes still to deliver: its buffer is one of those blocks. -/
theorem RAMFileIndexInput.Inv.heap_congr {s : IndexInput RAMIn} (h : Inv f heap s) :
    Inv f heap' { s with heap := heap' } ∧
      IndexInput.remaining (source f heap') { s with heap := heap' } =
        IndexInput.remaining (source f heap) s := by
  refine ⟨⟨h.file, h.last_block, rfl, h.unbuffered, fun hb =>
    let i := h.buffered hb
    ⟨i.block_lt, i.block, i.end_eq, i.sentinel_eq, i.start_le, i.cur_le⟩⟩, ?_⟩
  simp only [IndexInput.remaining, source, padded_congr hmem hL hfit, h.heap]
  congr 1
  by_cases hb : s.bufStart = 0
  · obtain ⟨hc, hs, -⟩ := h.unbuffered hb
    simp [hc, hs, Heap.load]
  · have hin := h.buffered hb
    refine List.map_congr_left fun i hi => hmem _ ⟨s.bufStart, ?_, ?_⟩
    · rw [← h.file]
      exact List.mem_iff_getElem?.2 ⟨_, hin.block⟩
    · have := hin.start_le
      have := hin.cur_le
      have := hin.sentinel_eq
      have := hin.end_eq
      rw [List.mem_range] at hi
      omega

end Congr

/-- A cursor inside the file stays inside it. -/
theorem RAMFileIndexInput.specRun_le {F : List UInt8} {cs : List RCall} :
    ∀ {q : Nat} {rs : List IndexInput.InResult} {q' : Nat}, specRun F cs q = some (rs, q') →
      q ≤ F.length → q' ≤ F.length := by
  induction cs with
  | nil => rintro q rs q' ⟨⟩ hq; exact hq
  | cons c cs ih =>
    intro q rs q' h hq
    cases c with
    | read c =>
      obtain ⟨⟨r, k⟩, hc, h'⟩ := Option.bind_eq_some.1 h
      obtain ⟨⟨rs', q''⟩, hrest, ⟨⟩⟩ := Option.map_eq_some'.1 h'
      have hk := IndexInput.ReadCall.inside_le hc
      rw [List.length_drop] at hk
      exact ih hrest (by omega)
    | seek p =>
      simp only [specRun] at h
      split_ifs at h with hp
      exact ih h hp.le

theorem RAMFileIndexInput.specRun_append (F : List UInt8) (cs₁ cs₂ : List RCall) (q : Nat) :
    specRun F (cs₁ ++ cs₂) q = (specRun F cs₁ q).bind fun p =>
      (specRun F cs₂ p.2).map fun p' => (p.1 ++ p'.1, p'.2) := by
  induction cs₁ generalizing q with
  | nil => simp [specRun]
  | cons c cs ih =>
    cases c with
    | read c =>
      rw [List.cons_append]
      simp only [specRun]
      cases c.inside (F.drop q) with
      | none => rfl
      | some r =>
        simp only [Option.some_bind, ih]
        cases specRun F cs (q + r.2) with
        | none => rfl
        | some v =>
          simp only [Option.some_bind, Option.map_some', Option.map_map]
          rfl
    | seek p =>
      rw [List.cons_append]
      simp only [specRun]
      split_ifs
      · exact ih p
      · rfl

/-! ## One reader among the steps of all clients -/

/-- Reader `r` of `w` reads the bytes of `f`, which fit in its blocks, from byte `q` on. -/
structure ReaderAt (w : World) (r : Nat) (f : RAMFile) (q : Nat) : Prop where
  live : ∃ rd, Keyed.find? r w.readers = some rd ∧ Inv f w.heap { rd.stream with heap := w.heap } ∧
    IndexInput.remaining (source f w.heap) { rd.stream with heap := w.heap } =
      (padded f w.heap).drop q
  le_length : q ≤ f.length
  length_pos : 0 < f.length
  fits : f.length ≤ f.blocks_.length * kBlockSize

/-- The calls the events make on reader `r`, in order. -/
def readsOn (r : Nat) (evs : List Event) : List RCall :=
  evs.filterMap (Event.readOn r)

theorem readsOn_cons (r : Nat) (ev : Event) (evs : List Event) :
    readsOn r (ev :: evs) = (ev.readOn r).toList ++ readsOn r evs := by
  unfold readsOn
  cases hc : ev.readOn r <;> simp [List.filterMap_cons, hc]

/-- A call on reader `r` that returns. -/
theorem onReader_apply {α : Type} {w : World} {r : Nat} {rd : Reader}
    (hrd : Keyed.find? r w.readers = some rd) {op : Op (IndexInput RAMIn) α} {a : α}
    {s : IndexInput RAMIn} (hop : op { rd.stream with heap := w.heap } = .ok a s) :
    onReader r op w = .ok a (setReader w r s) := by
  simp only [onReader, hrd, hop]

/-- A call on writer `h` that returns, as a step. -/
theorem write_returns {w : World} {h : Nat} {wr : Writer}
    (hwr : Keyed.find? h w.writers = some wr) {c : RAMFileIndexOutput.WCall}
    {s : IndexOutput RAMOut} (hop : c.run { wr.stream with heap := w.heap } = .ok () s) :
    Returns (Event.write h c).run w (setWriter w h s) :=
  .inl ⟨(), by simp only [Event.run, onWriter, hwr, hop]⟩

section Step

variable {w w' : World} {ev : Event} {r : Nat} {rd : Reader}

/-- What a step that does not destroy reader `r` does to it: a call on it, or nothing. -/
theorem reader_step (hl : Layout w) (ha : Accounted w) (hc : Returns ev.run w w')
    (hrd : Keyed.find? r w.readers = some rd) (hd : ev ≠ .destroyInput r) :
    (∃ c s, ev = .read r c ∧ Returns (RAMFileIndexInput.run [c]) { rd.stream with heap := w.heap } s ∧
      w' = setReader w r s) ∨ (ev.readOn r = none ∧ Keyed.find? r w'.readers = some rd) := by
  rcases hl.effect ha hc with ⟨_, _, _, _, rfl, -, -, rfl⟩ | ⟨r', c, rd', s, rfl, hrd', hs, rfl, -⟩ |
      hq
  · exact .inr ⟨rfl, hrd⟩
  · by_cases hr : r' = r
    · subst hr
      rw [hrd] at hrd'
      cases hrd'
      exact .inl ⟨c, s, rfl, hs, rfl⟩
    · refine .inr ⟨by simp [Event.readOn, hr], ?_⟩
      rw [setReader, Keyed.find?_modify, if_neg (Ne.symm hr)]
      exact hrd
  · exact .inr ⟨hq.no_read r, hq.readers r rd hd hrd⟩

/-- A step that does not destroy reader `r` stores nothing into the blocks of the file it reads,
and moves it as its own call says, if the step is a call on it. -/
theorem ReaderAt.step (hl : Layout w) (ha : Accounted w) (hc : Returns ev.run w w') {f : RAMFile}
    {q : Nat} (hat : ReaderAt w r f q) (hd : ev ≠ .destroyInput r)
    {rs : List IndexInput.InResult} {q' : Nat}
    (hspec : specRun (f.bytes w.heap f.length) (ev.readOn r).toList q = some (rs, q')) :
    ReaderAt w' r f q' ∧ f.bytes w'.heap f.length = f.bytes w.heap f.length := by
  obtain ⟨rd, hrd, hinv, hrem⟩ := hat.live
  have hstep := reader_step hl ha hc hrd hd
  have hmem : ∀ x, f.Owns x → w'.heap.mem x = w.heap.mem x := by
    obtain ⟨rd', hrd', hfid⟩ : ∃ rd', Keyed.find? r w'.readers = some rd' ∧ rd'.fid = rd.fid := by
      rcases hstep with ⟨c, s, -, -, rfl⟩ | ⟨-, hrd'⟩
      · exact ⟨{ rd with stream := s }, by rw [setReader, Keyed.find?_modify, if_pos rfl, hrd]; rfl,
          rfl⟩
      · exact ⟨rd, hrd', rfl⟩
    obtain ⟨g, hg, hb⟩ := hl.readers_file r rd hrd
    obtain ⟨g', hg'⟩ := (ha.step hc).reader_file hrd'
    obtain ⟨-, -, hm⟩ := (hl.step ha hc).2 rd.fid g g' hg (hfid ▸ hg')
    rintro x ⟨b, hbm, hbx⟩
    exact hm x ⟨b, by rw [← hb, hinv.file]; exact hbm, hbx⟩
  have hF := RAMFile.bytes_congr hmem hat.fits
  refine ⟨?_, hF⟩
  rcases hstep with ⟨c, s, rfl, hs, rfl⟩ | ⟨hcall, hrd'⟩
  · rw [Event.readOn, if_pos rfl] at hspec
    obtain ⟨s', hrun, hinv', hrem', -⟩ := run_inv hat.length_pos hat.fits [c] hinv hrem hat.le_length hspec
    obtain rfl := hs.eq_of_ok hrun
    have hq := specRun_le hspec (by simpa [RAMFile.bytes, RAMFile.bytesFrom_length] using hat.le_length)
    simp only [RAMFile.bytes, RAMFile.bytesFrom_length] at hq
    refine ⟨⟨{ rd with stream := s }, by rw [setReader, Keyed.find?_modify, if_pos rfl, hrd]; rfl,
      ?_, ?_⟩, hq,
      hat.length_pos, hat.fits⟩
    · show Inv f s.heap s
      rw [hinv'.heap]
      exact hinv'
    · show IndexInput.remaining (source f s.heap) s = (padded f s.heap).drop q'
      rw [hinv'.heap]
      exact hrem'
  · rw [hcall] at hspec
    cases hspec
    obtain ⟨hinv', hrem'⟩ := hinv.heap_congr hmem hat.length_pos hat.fits
    refine ⟨⟨rd, hrd', hinv', ?_⟩, hat.le_length, hat.length_pos, hat.fits⟩
    rw [hrem', hrem, padded_congr hmem hat.length_pos hat.fits]

end Step

/-- Along a run from a reachable state that does not destroy reader `r`, the reader moves as its
own calls say on the bytes of its file, and the bytes stay as they were. -/
theorem Run.reader {w w' : World} {evs : List Event} (hrun : Run w evs w') (hw : Reachable w)
    {r : Nat} (hd : Event.destroyInput r ∉ evs) {f : RAMFile} {q : Nat} (hat : ReaderAt w r f q)
    {rs : List IndexInput.InResult} {q' : Nat}
    (hspec : specRun (f.bytes w.heap f.length) (readsOn r evs) q = some (rs, q')) :
    ReaderAt w' r f q' ∧ f.bytes w'.heap f.length = f.bytes w.heap f.length := by
  induction hrun generalizing q rs with
  | nil w => cases hspec; exact ⟨hat, rfl⟩
  | @cons w w₁ w' ev evs hen hc _ ih =>
    rw [readsOn_cons, specRun_append] at hspec
    obtain ⟨⟨rs₁, q₁⟩, h₁, h₂⟩ := Option.bind_eq_some.1 hspec
    obtain ⟨⟨rs₂, q₂⟩, hrest, ⟨⟩⟩ := Option.map_eq_some'.1 h₂
    obtain ⟨hat₁, hF₁⟩ := hat.step hw.layout hw.accounted hc
      (fun he => hd (he ▸ List.mem_cons_self _ _)) h₁
    obtain ⟨hat', hF'⟩ := ih (hw.step ⟨ev, hen, hc⟩) (fun hm => hd (List.mem_cons_of_mem _ hm))
      hat₁ (by rw [hF₁]; exact hrest)
    exact ⟨hat', hF'.trans hF₁⟩

/-- Calls on a reader at byte `q` of `f` that stay inside the file return what `specRun` gives on
its bytes. -/
theorem ReaderAt.reads {w : World} {r : Nat} {f : RAMFile} {q : Nat} (hat : ReaderAt w r f q)
    {cs : List RCall} {rs : List IndexInput.InResult} {q' : Nat}
    (hspec : specRun (f.bytes w.heap f.length) cs q = some (rs, q')) :
    ∃ w', onReader r (RAMFileIndexInput.run cs) w = .ok rs w' := by
  obtain ⟨rd, hrd, hinv, hrem⟩ := hat.live
  obtain ⟨s, hrun, -⟩ := run_inv hat.length_pos hat.fits cs hinv hrem hat.le_length hspec
  exact ⟨_, onReader_apply hrd hrun⟩

/-- A reader just returned by `openInput`: at byte `0` of the file. -/
theorem openInput_reader {w w₁ : World} (hw : Reachable w) {fname : String} {r : Nat}
    (hc : openInput fname w = .ok r w₁) {id : Nat} {f : RAMFile}
    (hf : w.files.find? fname = some (.file id)) (hobj : Keyed.find? id w.objs = some f) :
    Reachable w₁ ∧ ReaderAt w₁ r f 0 ∧ w₁.heap = w.heap := by
  have hw₁ : Reachable w₁ := hw.step ⟨.openInput fname, trivial, .inl ⟨(), by simp [Event.run, hc]⟩⟩
  obtain ⟨id', f', hf', hobj', hlen, rfl, rfl⟩ := openInput_ok hc
  rw [hf] at hf'
  cases hf'
  rw [hobj] at hobj'
  cases hobj'
  refine ⟨hw₁, ⟨⟨⟨id, IndexInput.create w.heap (fields f)⟩, by simp [Keyed.find?_cons],
    (inv_create f w.heap).1, ?_⟩, Nat.zero_le _,
    Nat.pos_of_ne_zero hlen, hw.layout.objs_fit id f hobj⟩, rfl⟩
  exact (inv_create f w.heap).2.trans (List.drop_zero _).symm

/-- Whatever the other clients do, the calls on a reader that `openInput` returned give what the
bytes of the file at the time of `openInput` give: after calls on it that stay inside the file,
any further calls that do return what `specRun` gives on those bytes, from the cursor the earlier
calls left. -/
theorem reader_interleaving {w w₁ w' : World} (hw : Reachable w) {fname : String} {r : Nat}
    (hc : openInput fname w = .ok r w₁) {id : Nat} {f : RAMFile}
    (hf : w.files.find? fname = some (.file id)) (hobj : Keyed.find? id w.objs = some f)
    {evs : List Event} (hrun : Run w₁ evs w') (hd : Event.destroyInput r ∉ evs)
    {rs₀ : List IndexInput.InResult} {q₀ : Nat}
    (h₀ : specRun (f.bytes w.heap f.length) (readsOn r evs) 0 = some (rs₀, q₀))
    {cs : List RCall} {rs : List IndexInput.InResult} {q : Nat}
    (hspec : specRun (f.bytes w.heap f.length) cs q₀ = some (rs, q)) :
    ∃ w'', onReader r (RAMFileIndexInput.run cs) w' = .ok rs w'' := by
  obtain ⟨hw₁, hat₁, hheap⟩ := openInput_reader hw hc hf hobj
  obtain ⟨hat, hF⟩ := hrun.reader hw₁ hd hat₁ (by rw [hheap]; exact h₀)
  exact hat.reads (by rw [hF, hheap]; exact hspec)

/-- A file of the bytes `7, 8` is committed and opened; a second writer is created and takes a
block; the reader then reads `7` and `8`. -/
theorem reader_interleaving_beside_writer :
    ∃ w w₁ w' id f, Reachable w ∧ openInput "a" w = .ok 2 w₁ ∧
      w.files.find? "a" = some (.file id) ∧ Keyed.find? id w.objs = some f ∧
      Run w₁ [.createOutput "b", .write 3 (.seek 0)] w' ∧
      Event.destroyInput 2 ∉ [.createOutput "b", .write 3 (.seek 0)] ∧
      specRun (f.bytes w.heap f.length) (readsOn 2 [.createOutput "b", .write 3 (.seek 0)]) 0 =
        some ([], 0) ∧
      specRun (f.bytes w.heap f.length) [.read .readByte, .read .readByte] 0 =
        some ([.byte 7, .byte 8], 2) ∧
      ∃ w'', onReader 2 (RAMFileIndexInput.run [.read .readByte, .read .readByte]) w' =
        .ok [.byte 7, .byte 8] w'' := by
  have hw : Reachable _ :=
    ((((Reachable.init Heap.zero).step ⟨.createOutput "a", trivial, .inl ⟨(), rfl⟩⟩).step
      ⟨.write 0 (.seek 0), trivial, .inl ⟨(), rfl⟩⟩).step
      ⟨.write 0 (.call (.write [7, 8])), trivial,
        write_returns (by rfl) (by exact (IndexOutput.write_of_fits _ (by decide)).trans rfl)⟩).step
      ⟨.destroyOutput 0, trivial, .inl ⟨(), rfl⟩⟩
  have hd : Event.destroyInput 2 ∉ [.createOutput "b", .write 3 (.seek 0)] := by simp
  exact (fun hc hrun => ⟨_, _, _, _, _, hw, hc, by rfl, by rfl, hrun, hd, by rfl, by rfl,
    reader_interleaving hw hc (by rfl) (by rfl) hrun hd (by rfl) (by rfl)⟩) rfl
    (.cons trivial (.inl ⟨(), rfl⟩) (.cons trivial (.inl ⟨(), rfl⟩) (.nil _)))

/-! ## What a writer commits is what a reader reads -/

/-- Whatever the clients do, a writer created by `createOutput` and destroyed commits a file of the
bytes its own calls wrote; a reader opened on that file later, while the name still refers to it,
reads those bytes: its calls that stay inside them return what `specRun` gives on them, whatever
the clients do meanwhile. -/
theorem written_then_read {w w₁ w' w'' w₃ w₄ : World} (hw : Reachable w) {fname : String}
    {h : Nat} (hc : createOutput fname w = .ok h w₁) {evs : List Event} (hrun : Run w₁ evs w')
    (hd : Event.destroyOutput h ∉ evs) (hdes : Returns (destroyOutput h) w' w'')
    (hs : Relation.ReflTransGen Step w'' w₃) (hname : w₃.files.find? fname = w''.files.find? fname)
    {r : Nat} (ho : openInput fname w₃ = .ok r w₄) :
    ∃ a, RAMFileIndexOutput.specRun (callsOn h evs) Cursor.empty = some a ∧
      ∀ {evs' : List Event} {w₅ : World} {rs₀ : List IndexInput.InResult} {q₀ : Nat}
        {cs : List RCall} {rs : List IndexInput.InResult} {q : Nat},
        Run w₄ evs' w₅ → Event.destroyInput r ∉ evs' →
        specRun a.data (readsOn r evs') 0 = some (rs₀, q₀) → specRun a.data cs q₀ = some (rs, q) →
        ∃ w₆, onReader r (RAMFileIndexInput.run cs) w₅ = .ok rs w₆ := by
  obtain ⟨hw₁, hwr, hr⟩ := createOutput_writer hw hc
  obtain ⟨a, wr, ha, hwr', rfl, hr'⟩ := hrun.writer hw₁ hd hwr hr
  obtain ⟨id, f, hn, hf, -, hbytes⟩ := destroyOutput_commits hwr' hr' hdes
  have hw'' : Reachable w'' := (hrun.reachable hw₁).step ⟨.destroyOutput h, trivial, hdes⟩
  obtain ⟨hw₃, -, hk⟩ := keepsCommitted_steps hw'' hs
  have hn₃ := hname.trans hn
  obtain ⟨f₃, hf₃⟩ := hw₃.accounted.find_objs hn₃
  obtain ⟨hb, hl, hm⟩ := hk id f f₃ hf hf₃
  have hbytes₃ : f₃.bytes w₃.heap f₃.length = a.data := by
    rw [hl, ← hbytes]
    exact RAMFile.bytesFrom_congr hb hm (by rw [Nat.zero_add]; exact hw''.layout.objs_fit id f hf)
  refine ⟨a, ha, fun hrun₂ hd₂ h₀ hspec => ?_⟩
  obtain ⟨hw₄, hat₁, hheap⟩ := openInput_reader hw₃ ho hn₃ hf₃
  obtain ⟨hat, hF⟩ := hrun₂.reader hw₄ hd₂ hat₁ (by rw [hheap, hbytes₃]; exact h₀)
  exact hat.reads (by rw [hF, hheap, hbytes₃]; exact hspec)

/-- A writer moves to byte `0` and writes `7, 8`; its destructor commits the file, which is then
opened: the file holds `7, 8`, and the reader's calls read them. -/
theorem written_then_read_seven_eight :
    ∃ w₁ w' w'' w₄, createOutput "a" (World.init Heap.zero) = .ok 0 w₁ ∧
      Run w₁ [.write 0 (.seek 0), .write 0 (.call (.write [7, 8]))] w' ∧
      Event.destroyOutput 0 ∉ [.write 0 (.seek 0), .write 0 (.call (.write [7, 8]))] ∧
      Returns (destroyOutput 0) w' w'' ∧ Relation.ReflTransGen Step w'' w'' ∧
      w''.files.find? "a" = w''.files.find? "a" ∧ openInput "a" w'' = .ok 2 w₄ ∧
      RAMFileIndexOutput.specRun
          (callsOn 0 [.write 0 (.seek 0), .write 0 (.call (.write [7, 8]))]) Cursor.empty =
        some ⟨[7, 8], 2, by decide⟩ ∧
      ∃ a, RAMFileIndexOutput.specRun
          (callsOn 0 [.write 0 (.seek 0), .write 0 (.call (.write [7, 8]))]) Cursor.empty = some a ∧
        ∀ {evs' : List Event} {w₅ : World} {rs₀ : List IndexInput.InResult} {q₀ : Nat}
          {cs : List RCall} {rs : List IndexInput.InResult} {q : Nat},
          Run w₄ evs' w₅ → Event.destroyInput 2 ∉ evs' →
          specRun a.data (readsOn 2 evs') 0 = some (rs₀, q₀) →
          specRun a.data cs q₀ = some (rs, q) →
          ∃ w₆, onReader 2 (RAMFileIndexInput.run cs) w₅ = .ok rs w₆ := by
  have hc : createOutput "a" (World.init Heap.zero) =
      .ok 0 (Op.leaves (createOutput "a" (World.init Heap.zero))) := rfl
  have hrun : Run (Op.leaves (createOutput "a" (World.init Heap.zero)))
      [.write 0 (.seek 0), .write 0 (.call (.write [7, 8]))] _ :=
    .cons trivial (.inl ⟨(), rfl⟩) (.cons trivial
      (write_returns (by rfl) (by exact (IndexOutput.write_of_fits _ (by decide)).trans rfl)) (.nil _))
  have hd : Event.destroyOutput 0 ∉ [.write 0 (.seek 0), .write 0 (.call (.write [7, 8]))] := by
    simp
  exact ⟨_, _, _, _, hc, hrun, hd, .inl ⟨(), rfl⟩, .refl, rfl, rfl, rfl,
    written_then_read (.init Heap.zero) hc hrun hd (.inl ⟨(), rfl⟩) .refl rfl rfl⟩

end Lucanthrope
