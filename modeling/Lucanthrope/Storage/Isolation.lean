import Lucanthrope.Storage.References
import Lucanthrope.IO.Footprint

/-!
# One client's memory is not another's

The files of a `RAMDirectory` live in the memory of the process: each `RAMFile` is a list of
blocks from `new char[kBlockSize]`, and the writers and readers of all clients reach them through
raw pointers. Nothing in the code checks that a pointer stays in its own file. What keeps the
files apart is the allocator and the invariants of the streams, and this file proves that they
do, over every interleaving of the clients' steps.

`Layout w` says how the memory of a state is laid out:

* `apart`: the blocks of all the files in memory, committed (`objs`) or being written
  (`writers`), do not overlap, and all lie below the allocator's next free address;
* `writers_rep`: every live writer holds a byte array (`Rep`, `RAMFileIndexOutput.lean`) in the
  memory of the process;
* `objs_fit`, `readers_file`: every committed file fits in its blocks, and every live reader
  reads through the blocks of a committed file.

Every step keeps it (`Layout.step`). A call on writer `h` stores only into its own blocks or
fresh ones (`WCall.run_confined`), and those are apart from every other file's blocks
(`Layout.split`, `Layout.mem_write`); a reader stores nothing (`RAMFileIndexInput.keeps_run`);
every other step leaves the memory alone. So

> `blocks_apart`: in every reachable state, no two blocks of the files in memory overlap, all
> were handed out by the allocator, and every live writer holds a byte array;
>
> `committed_immutable`: a file committed in a reachable state that is still committed after
> any number of steps of any clients has the same blocks, the same length and the same bytes;
>
> `writer_interleaving`: whatever the other clients do, a writer that is not destroyed holds the
> array its own calls give, in their order (`specRun`), and each of its calls is one the array
> allows;
>
> `commit_interleaving`: and the destructor of that writer, if it returns, commits a file whose
> bytes are that array.

Mirroring note: `Run` is the sequence of steps `Reachable` is built from, with the events named.
-/

namespace Lucanthrope

open RAMDirectory RAMFileIndexOutput Op

/-! ## Blocks that do not overlap -/

/-- Blocks of `kBlockSize` bytes at the addresses `bs`: no two overlap, and all lie below
`next`. -/
structure Apart (bs : List Nat) (next : Nat) : Prop where
  pairwise : bs.Pairwise fun a b => a + kBlockSize ≤ b ∨ b + kBlockSize ≤ a
  below : ∀ a ∈ bs, a + kBlockSize ≤ next

namespace Apart

variable {bs cs : List Nat} {n n' : Nat}

theorem perm (h : Apart bs n) (hp : List.Perm bs cs) : Apart cs n :=
  ⟨(hp.pairwise_iff Or.symm).1 h.pairwise, fun a ha => h.below a (hp.mem_iff.2 ha)⟩

theorem left (h : Apart (bs ++ cs) n) : Apart bs n :=
  ⟨(List.pairwise_append.1 h.pairwise).1, fun a ha => h.below a (List.mem_append_left _ ha)⟩

/-- Blocks handed out at or above `n`, after blocks below it. -/
theorem append_fresh (h : Apart bs n) (hc : Apart cs n') (hfresh : ∀ c ∈ cs, n ≤ c)
    (hn : n ≤ n') : Apart (bs ++ cs) n' :=
  ⟨List.pairwise_append.2 ⟨h.pairwise, hc.pairwise,
      fun a ha c hc' => .inl ((h.below a ha).trans (hfresh c hc'))⟩,
    fun a ha => (List.mem_append.1 ha).elim (fun ha => (h.below a ha).trans hn) (hc.below a)⟩

/-- A byte in a block of `bs` is in no block of `cs`. -/
theorem not_mem_both (h : Apart (bs ++ cs) n) {a b x : Nat} (ha : a ∈ bs) (hb : b ∈ cs)
    (hax : a ≤ x ∧ x < a + kBlockSize) : ¬(b ≤ x ∧ x < b + kBlockSize) := by
  have := (List.pairwise_append.1 h.pairwise).2.2 a ha b hb
  omega

end Apart

/-- The bytes of a file whose blocks hold the same bytes in two memories. -/
theorem RAMFile.bytesFrom_congr {f g : RAMFile} {h h' : Heap} (hb : g.blocks_ = f.blocks_)
    (hmem : ∀ x, f.Owns x → h'.mem x = h.mem x) {m k : Nat}
    (hk : m + k ≤ f.blocks_.length * kBlockSize) : g.bytesFrom h' m k = f.bytesFrom h m k := by
  have ha : g.blockAddr = f.blockAddr := funext fun i => by simp [RAMFile.blockAddr, hb]
  simp only [RAMFile.bytesFrom, ha]
  apply List.map_congr_left
  intro i hi
  exact hmem _ (f.owns_blockAddr (by rw [List.mem_range] at hi; omega))

/-! ## Calls on a stream -/

section Calls

variable {w w' : World} {α : Type}

/-- A call on writer `h` that returns or throws: the writer is live, and the call on its stream,
in the memory of the process, returns or throws. -/
theorem onWriter_returns {h : Nat} {op : Op (IndexOutput RAMOut) α}
    (hc : Returns (onWriter h op) w w') :
    ∃ wr s, Keyed.find? h w.writers = some wr ∧ Returns op { wr.stream with heap := w.heap } s ∧
      w' = setWriter w h s := by
  unfold Returns onWriter at hc
  cases hwr : Keyed.find? h w.writers with
  | none => simp [hwr] at hc
  | some wr =>
    refine ⟨wr, ?_⟩
    cases hop : op { wr.stream with heap := w.heap } with
    | ok a s => simp [hwr, hop] at hc; exact ⟨s, rfl, .inl ⟨a, hop⟩, hc.symm⟩
    | error e s =>
      simp only [hwr, hop] at hc
      obtain ⟨_, ⟨⟩⟩ | ⟨x, rfl, rfl⟩ := hc
      exact ⟨s, rfl, .inr ⟨x, hop⟩, rfl⟩

/-- A call on reader `r` that returns or throws, likewise. -/
theorem onReader_returns {r : Nat} {op : Op (IndexInput RAMIn) α}
    (hc : Returns (onReader r op) w w') :
    ∃ rd s, Keyed.find? r w.readers = some rd ∧ Returns op { rd.stream with heap := w.heap } s ∧
      w' = setReader w r s := by
  unfold Returns onReader at hc
  cases hrd : Keyed.find? r w.readers with
  | none => simp [hrd] at hc
  | some rd =>
    refine ⟨rd, ?_⟩
    cases hop : op { rd.stream with heap := w.heap } with
    | ok a s => simp [hrd, hop] at hc; exact ⟨s, rfl, .inl ⟨a, hop⟩, hc.symm⟩
    | error e s =>
      simp only [hrd, hop] at hc
      obtain ⟨_, ⟨⟩⟩ | ⟨x, rfl, rfl⟩ := hc
      exact ⟨s, rfl, .inr ⟨x, hop⟩, rfl⟩

end Calls

/-! ## The layout of a state -/

namespace World

/-- The blocks of the files in memory: the committed ones, then the ones being written. -/
def blocks (w : World) : List Nat :=
  w.objs.flatMap (·.2.blocks_) ++ w.writers.flatMap (·.2.stream.own.file.blocks_)

end World

/-- The memory of `w` is laid out as the allocator and the streams leave it. -/
structure Layout (w : World) : Prop where
  apart : Apart w.blocks w.heap.next
  writers_nodup : (Keyed.keys w.writers).Nodup
  writers_fresh : ∀ h ∈ Keyed.keys w.writers, h < w.nextId
  writers_rep : ∀ h wr, Keyed.find? h w.writers = some wr →
    ∃ a, Rep a { wr.stream with heap := w.heap }
  objs_fit : ∀ id f, Keyed.find? id w.objs = some f → f.length ≤ f.blocks_.length * kBlockSize
  readers_file : ∀ r rd, Keyed.find? r w.readers = some rd →
    ∃ f, Keyed.find? rd.fid w.objs = some f ∧ rd.stream.own.file.blocks_ = f.blocks_

/-- From `w` to `w'`, every file committed in both has the same blocks, the same length and the
same bytes in its blocks. -/
def KeepsCommitted (w w' : World) : Prop :=
  ∀ id f f', Keyed.find? id w.objs = some f → Keyed.find? id w'.objs = some f' →
    f'.blocks_ = f.blocks_ ∧ f'.length = f.length ∧ ∀ x, f.Owns x → w'.heap.mem x = w.heap.mem x

/-- Every file committed in `objs'` was committed in `objs`, with the same blocks and length. -/
def SameFiles (objs objs' : List (Nat × RAMFile)) : Prop :=
  ∀ id f', Keyed.find? id objs' = some f' →
    ∃ f, Keyed.find? id objs = some f ∧ f'.blocks_ = f.blocks_ ∧ f'.length = f.length

/-- Every reader of `w'` was a reader of `w`, of the same file through the same copy of it, or
reads through the blocks of a file committed in `w'`. -/
def ReadersKept (w w' : World) : Prop :=
  ∀ r rd', Keyed.find? r w'.readers = some rd' →
    (∃ rd, Keyed.find? r w.readers = some rd ∧ rd'.fid = rd.fid ∧
      rd'.stream.own.file = rd.stream.own.file) ∨
    ∃ f, Keyed.find? rd'.fid w'.objs = some f ∧ rd'.stream.own.file.blocks_ = f.blocks_

theorem layout_init (heap : Heap) : Layout (World.init heap) where
  apart := ⟨List.Pairwise.nil, fun _ h => absurd h (List.not_mem_nil _)⟩
  writers_nodup := List.nodup_nil
  writers_fresh _ h := absurd h (List.not_mem_nil _)
  writers_rep _ _ h := by cases h
  objs_fit _ _ h := by cases h
  readers_file _ _ h := by cases h

section Objs

variable {objs : List (Nat × RAMFile)}

theorem sameFiles_refl (objs : List (Nat × RAMFile)) : SameFiles objs objs :=
  fun _ f' h => ⟨f', h, rfl, rfl⟩

/-- A change of reference count. -/
theorem sameFiles_modify (id : Nat) (r : RAMFile → Int) :
    SameFiles objs (Keyed.modify id (fun f => { f with refs_ := r f }) objs) := by
  intro id' f' h
  rw [Keyed.find?_modify] at h
  split_ifs at h
  · obtain ⟨f, hf, rfl⟩ := Option.map_eq_some'.1 h
    exact ⟨f, hf, rfl, rfl⟩
  · exact ⟨f', h, rfl, rfl⟩

theorem sameFiles_erase (id : Nat) : SameFiles objs (Keyed.erase id objs) := by
  intro id' f' h
  rw [Keyed.find?_erase] at h
  split_ifs at h
  exact ⟨f', h, rfl, rfl⟩

theorem flatMap_modify (id : Nat) (r : RAMFile → Int) :
    (Keyed.modify id (fun f => { f with refs_ := r f }) objs).flatMap (·.2.blocks_) =
      objs.flatMap (·.2.blocks_) := by
  induction objs with
  | nil => rfl
  | cons p l ih =>
    simp only [Keyed.modify, List.map_cons, List.flatMap_cons] at ih ⊢
    rw [ih]
    split <;> rfl

end Objs

section Readers

variable {w w' : World}

theorem readersKept_of_eq (h : w'.readers = w.readers) : ReadersKept w w' :=
  fun _ rd' h' => .inl ⟨rd', h ▸ h', rfl, rfl⟩

/-- `destroyInput`: a reader leaves. -/
theorem readersKept_erase {r : Nat} (h : w'.readers = Keyed.erase r w.readers) :
    ReadersKept w w' := by
  intro r' rd' h'
  rw [h, Keyed.find?_erase] at h'
  split_ifs at h'
  exact .inl ⟨rd', h', rfl, rfl⟩

/-- A call on reader `r` that keeps the file it reads. -/
theorem readersKept_setReader {r : Nat} {rd : Reader} (hrd : Keyed.find? r w.readers = some rd)
    {s : IndexInput RAMIn} (hs : s.own.file = rd.stream.own.file) :
    ReadersKept w (setReader w r s) := by
  intro r' rd' h'
  rw [setReader, Keyed.find?_modify] at h'
  split_ifs at h' with he
  · obtain ⟨rd₀, h₀, rfl⟩ := Option.map_eq_some'.1 h'
    rw [he, hrd] at h₀
    cases h₀
    exact .inl ⟨rd, he ▸ hrd, rfl, hs⟩
  · exact .inl ⟨rd', h', rfl, rfl⟩

/-- A reader's call leaves the memory of the process, and the file the reader reads, as they
were. -/
theorem read_keeps {r : Nat} {c : RAMFileIndexInput.RCall}
    (hc : Returns (onReader r (RAMFileIndexInput.run [c])) w w') :
    w'.heap = w.heap ∧ ReadersKept w w' := by
  obtain ⟨rd, s, hrd, hs, rfl⟩ := onReader_returns hc
  have hs' : s.heap = w.heap ∧ s.own.file = rd.stream.own.file :=
    (RAMFileIndexInput.keeps_run [c]).of_returns hs ⟨rfl, rfl⟩
  exact ⟨hs'.1, readersKept_setReader hrd hs'.2⟩

/-- `openInput`: a reader of the committed file at `id`, through a copy of it. -/
theorem readersKept_open {id : Nat} {f : RAMFile} (hf : Keyed.find? id w.objs = some f) :
    ReadersKept w
      { w with objs := Keyed.modify id (fun f => { f with refs_ := f.refs_ + 1 }) w.objs,
               readers := (w.nextId, ⟨id, IndexInput.create w.heap (RAMFileIndexInput.fields f)⟩) ::
                 w.readers,
               nextId := w.nextId + 1 } := by
  intro r rd' h
  rw [Keyed.find?_cons] at h
  split_ifs at h
  · cases h
    exact .inr ⟨{ f with refs_ := f.refs_ + 1 }, by rw [Keyed.find?_modify, if_pos rfl, hf]; rfl, rfl⟩
  · exact .inl ⟨rd', h, rfl, rfl⟩

/-- A live reader reads a live file. -/
theorem Accounted.reader_file (ha : Accounted w) {r : Nat} {rd : Reader}
    (h : Keyed.find? r w.readers = some rd) : ∃ f, Keyed.find? rd.fid w.objs = some f :=
  Option.ne_none_iff_exists'.1 fun hn => Keyed.find?_eq_none.1 hn
    (ha.readers_live _ (List.mem_map_of_mem _ (Keyed.mem_of_find? h)))

/-- A file committed at a fresh address leaves the others where they were. -/
theorem Accounted.find?_commit (ha : Accounted w) {id : Nat} {f : RAMFile}
    (hf : Keyed.find? id w.objs = some f) (F : RAMFile) :
    Keyed.find? id ((w.nextId, F) :: w.objs) = some f := by
  rw [Keyed.find?_cons, if_neg fun he : w.nextId = id =>
    ha.next_not_mem_objs (he ▸ Keyed.mem_keys_of_find? hf), hf]

end Readers

namespace Layout

variable {w w' : World}

/-- A step that leaves the memory and the writers alone, and only drops blocks of committed
files. -/
theorem frame (hl : Layout w) (ha' : Accounted w') (hheap : w'.heap = w.heap)
    (hwr : w'.writers = w.writers)
    (hobjs : ∃ gone, List.Perm (w.objs.flatMap (·.2.blocks_))
      (w'.objs.flatMap (·.2.blocks_) ++ gone))
    (hsame : SameFiles w.objs w'.objs) (hkept : ReadersKept w w') (hnext : w.nextId ≤ w'.nextId) :
    Layout w' ∧ KeepsCommitted w w' := by
  obtain ⟨gone, hp⟩ := hobjs
  refine ⟨⟨?_, hwr ▸ hl.writers_nodup, fun h hh => (hl.writers_fresh h (hwr ▸ hh)).trans_le hnext,
    fun h wr hf => hheap ▸ hl.writers_rep h wr (hwr ▸ hf), fun id f' hf' => ?_,
    fun r rd' h' => ?_⟩, fun id f f' h h' => ?_⟩
  · have hap := hl.apart.perm (hp.append_right _)
    rw [hheap]
    refine Apart.left (hap.perm ?_ : Apart (w'.blocks ++ gone) _)
    rw [World.blocks, hwr, List.append_assoc, List.append_assoc]
    exact List.Perm.append_left _ List.perm_append_comm
  · obtain ⟨f, hf, hb, hlen⟩ := hsame id f' hf'
    rw [hb, hlen]
    exact hl.objs_fit id f hf
  · rcases hkept r rd' h' with ⟨rd, hrd, hfid, hfile⟩ | hnew
    · obtain ⟨f, hf, hb⟩ := hl.readers_file r rd hrd
      obtain ⟨f', hf'⟩ := ha'.reader_file h'
      obtain ⟨f₁, hf₁, hb', -⟩ := hsame _ f' hf'
      rw [hfid, hf] at hf₁
      cases hf₁
      exact ⟨f', hf', by rw [hfile, hb, hb']⟩
    · exact hnew
  · obtain ⟨f₁, hf₁, hb, hlen⟩ := hsame id f' h'
    rw [h] at hf₁
    cases hf₁
    exact ⟨hb, hlen, fun x _ => by rw [hheap]⟩

/-- A step that changes nothing the layout mentions, but the addresses still to hand out and the
streams of readers. -/
theorem of_objs (hl : Layout w) (ha' : Accounted w') (hheap : w'.heap = w.heap)
    (hwr : w'.writers = w.writers) (hobjs : w'.objs = w.objs) (hkept : ReadersKept w w')
    (hnext : w.nextId ≤ w'.nextId) : Layout w' ∧ KeepsCommitted w w' :=
  hl.frame ha' hheap hwr ⟨[], by rw [hobjs, List.append_nil]⟩ (hobjs ▸ sameFiles_refl _) hkept
    hnext

/-- Writer `h` splits the blocks of `w` into its own and the rest: the blocks of every committed
file and every other writer. The rest is what remains once it is destroyed, and what stays
beside its blocks whatever a call on it does. -/
theorem split (hl : Layout w) {h : Nat} {wr : Writer} (hwr : Keyed.find? h w.writers = some wr) :
    ∃ rest, List.Perm w.blocks (wr.stream.own.file.blocks_ ++ rest) ∧
      w.objs.flatMap (·.2.blocks_) ++
        (Keyed.erase h w.writers).flatMap (·.2.stream.own.file.blocks_) = rest ∧
      (∀ s, List.Perm (setWriter w h s).blocks (s.own.file.blocks_ ++ rest)) ∧
      (∀ id f, Keyed.find? id w.objs = some f → f.blocks_ ⊆ rest) ∧
      (∀ h' wr', h' ≠ h → Keyed.find? h' w.writers = some wr' →
        wr'.stream.own.file.blocks_ ⊆ rest) := by
  obtain ⟨l₁, l₂, hsplit, h₁, h₂⟩ := Keyed.split_of_find? hl.writers_nodup hwr
  have hmid : ∀ B : List Nat, List.Perm (w.objs.flatMap (·.2.blocks_) ++
      (l₁.flatMap (·.2.stream.own.file.blocks_) ++ (B ++ l₂.flatMap (·.2.stream.own.file.blocks_))))
      (B ++ (w.objs.flatMap (·.2.blocks_) ++ (l₁.flatMap (·.2.stream.own.file.blocks_) ++
        l₂.flatMap (·.2.stream.own.file.blocks_)))) :=
    fun B => List.perm_iff_count.2 fun x => by simp only [List.count_append]; omega
  refine ⟨w.objs.flatMap (·.2.blocks_) ++ (l₁.flatMap (·.2.stream.own.file.blocks_) ++
    l₂.flatMap (·.2.stream.own.file.blocks_)), ?_, ?_, fun s => ?_, fun id f hf b hb => ?_,
    fun h' wr' hne hf b hb => ?_⟩
  · rw [World.blocks, hsplit, List.flatMap_append, List.flatMap_cons]
    exact hmid _
  · rw [hsplit, Keyed.erase_append, Keyed.erase_cons_self, Keyed.erase_of_not_mem h₁,
      Keyed.erase_of_not_mem h₂, List.flatMap_append]
  · rw [World.blocks, setWriter, hsplit, Keyed.modify_append, Keyed.modify_cons_self,
      Keyed.modify_of_not_mem _ h₁, Keyed.modify_of_not_mem _ h₂, List.flatMap_append,
      List.flatMap_cons]
    exact hmid _
  · exact List.mem_append_left _ (List.mem_flatMap.2 ⟨_, Keyed.mem_of_find? hf, hb⟩)
  · have hm := Keyed.mem_of_find? hf
    rw [hsplit, List.mem_append, List.mem_cons] at hm
    refine List.mem_append_right _ ?_
    rcases hm with hm | hm | hm
    · exact List.mem_append_left _ (List.mem_flatMap.2 ⟨_, hm, hb⟩)
    · exact absurd (Prod.mk.inj hm).1 hne
    · exact List.mem_append_right _ (List.mem_flatMap.2 ⟨_, hm, hb⟩)

/-- A call on writer `h`, confined to its blocks, changes no byte of the blocks of the rest. -/
theorem mem_write (hl : Layout w) {wr : Writer} {s : IndexOutput RAMOut}
    (hcf : Confined { wr.stream with heap := w.heap } s) {rest : List Nat}
    (hperm : List.Perm w.blocks (wr.stream.own.file.blocks_ ++ rest)) {g : RAMFile}
    (hg : g.blocks_ ⊆ rest) {x : Nat} (hx : g.Owns x) : s.heap.mem x = w.heap.mem x := by
  refine hcf.mem x fun ⟨b, hb, hbx⟩ => ?_
  obtain ⟨c, hc, hcx⟩ := hx
  obtain ⟨new, hnew, hfresh⟩ := hcf.blocks
  have hap := hl.apart.perm hperm
  rw [hnew] at hb
  rcases List.mem_append.1 hb with hb | hb
  · exact hap.not_mem_both hb (hg hc) hbx hcx
  · have := hap.below c (List.mem_append_right _ (hg hc))
    have := hfresh b hb
    simp only at this
    omega

theorem of_eq (hl : Layout w) (ha : Accounted w) (hw : w' = w) :
    Layout w' ∧ KeepsCommitted w w' := by
  subst hw
  exact hl.of_objs ha rfl rfl rfl (readersKept_of_eq rfl) le_rfl

/-- `createOutput`: a writer with no blocks, at a fresh address. -/
theorem add_writer (hl : Layout w) (fname : String) (files : Table) :
    Layout { w with writers := (w.nextId, ⟨fname, construct w.heap⟩) :: w.writers,
                    files := files, nextId := w.nextId + 1 } ∧
      KeepsCommitted w { w with writers := (w.nextId, ⟨fname, construct w.heap⟩) :: w.writers,
                                files := files, nextId := w.nextId + 1 } := by
  have hn : w.nextId ∉ Keyed.keys w.writers := fun hm => Nat.lt_irrefl _ (hl.writers_fresh _ hm)
  refine ⟨⟨by simpa [World.blocks, construct, IndexOutput.create] using hl.apart,
    List.nodup_cons.2 ⟨hn, hl.writers_nodup⟩, fun h hh => ?_, fun h wr hf => ?_, hl.objs_fit,
    hl.readers_file⟩, fun id f f' hf hf' => ?_⟩
  · rcases List.mem_cons.1 hh with rfl | hh
    · exact Nat.lt_succ_self _
    · exact Nat.lt_succ_of_lt (hl.writers_fresh h hh)
  · rw [Keyed.find?_cons] at hf
    split_ifs at hf
    · cases hf
      exact ⟨_, rep_construct w.heap⟩
    · exact hl.writers_rep h wr hf
  · rw [hf] at hf'
    cases hf'
    exact ⟨rfl, rfl, fun _ _ => rfl⟩

/-- The destructor of writer `h`: its blocks pass to the committed file. -/
theorem commit_writer (hl : Layout w) (ha : Accounted w) {h : Nat} {wr : Writer}
    (hwr : Keyed.find? h w.writers = some wr) (files : Table) :
    Layout { w with writers := Keyed.erase h w.writers, files := files,
                    objs := (w.nextId, { finish wr.stream with refs_ := 1 }) :: w.objs,
                    nextId := w.nextId + 1 } ∧
      KeepsCommitted w
        { w with writers := Keyed.erase h w.writers, files := files,
                 objs := (w.nextId, { finish wr.stream with refs_ := 1 }) :: w.objs,
                 nextId := w.nextId + 1 } := by
  obtain ⟨rest, hp, hrest, -⟩ := hl.split hwr
  refine ⟨⟨hl.apart.perm (hp.trans ?_), Keyed.nodup_erase hl.writers_nodup, fun h' hh => ?_,
    fun h' wr' hf => ?_, fun id f' hf => ?_, fun r rd hrd => ?_⟩, fun id f f' hf hf' => ?_⟩
  · rw [← hrest, World.blocks, List.flatMap_cons, List.append_assoc]
    simp [finish]
  · exact Nat.lt_succ_of_lt (hl.writers_fresh h' (Keyed.mem_keys_erase.1 hh).1)
  · rw [Keyed.find?_erase] at hf
    split_ifs at hf
    exact hl.writers_rep h' wr' hf
  · rw [Keyed.find?_cons] at hf
    split_ifs at hf
    · cases hf
      obtain ⟨a, hr⟩ := hl.writers_rep h wr hwr
      have hlen : (finish wr.stream).length = a.data.length := hr.finish_bytes.1
      show (finish wr.stream).length ≤ (finish wr.stream).blocks_.length * kBlockSize
      rw [hlen, finish, RAMFile.noteLength_blocks]
      exact hr.stored.fits
    · exact hl.objs_fit id f' hf
  · obtain ⟨f, hf, hb⟩ := hl.readers_file r rd hrd
    exact ⟨f, ha.find?_commit hf _, hb⟩
  · rw [ha.find?_commit hf] at hf'
    cases hf'
    exact ⟨rfl, rfl, fun _ _ => rfl⟩

/-- A call on writer `h` keeps the layout and the committed files. -/
theorem of_write (hl : Layout w) {h : Nat} {wr : Writer} {c : WCall} {s : IndexOutput RAMOut}
    (hwr : Keyed.find? h w.writers = some wr)
    (hc : Returns c.run { wr.stream with heap := w.heap } s) :
    Layout (setWriter w h s) ∧ KeepsCommitted w (setWriter w h s) := by
  obtain ⟨a, hr⟩ := hl.writers_rep h wr hwr
  obtain ⟨a', -, hr', hcf⟩ := WCall.run_confined hr c hc
  obtain ⟨rest, hp, -, hp', hobjs, hwrs⟩ := hl.split hwr
  obtain ⟨new, hnew, hfresh⟩ := hcf.blocks
  have hspaced := hr'.stored.placed.spaced
  rw [hnew] at hspaced
  have hnewap : Apart new s.heap.next :=
    ⟨(List.pairwise_append.1 hspaced).2.1.imp .inl,
      fun b hb => hr'.stored.placed.below b (hnew ▸ List.mem_append_right _ hb)⟩
  refine ⟨⟨((hl.apart.perm hp).append_fresh hnewap hfresh hcf.next_le).perm ?_, ?_, ?_,
    fun h' wr' hf => ?_, hl.objs_fit, hl.readers_file⟩, fun id f f' hf hf' => ?_⟩
  · refine List.Perm.trans ?_ (hp' s).symm
    rw [hnew]
    exact List.perm_iff_count.2 fun x => by simp only [List.count_append]; omega
  · simpa [setWriter] using hl.writers_nodup
  · simpa [setWriter] using hl.writers_fresh
  · rw [setWriter, Keyed.find?_modify] at hf
    split_ifs at hf with hh
    · rw [hh, hwr] at hf
      cases hf
      exact ⟨a', hr'⟩
    · obtain ⟨a₂, hr₂⟩ := hl.writers_rep h' wr' hf
      exact ⟨a₂, hr₂.heap_congr (fun x hx => hl.mem_write hcf hp (hwrs h' wr' hh hf) hx)
        hcf.next_le⟩
  · rw [show (setWriter w h s).objs = w.objs from rfl, hf] at hf'
    cases hf'
    exact ⟨rfl, rfl, fun x hx => hl.mem_write hcf hp (hobjs id f hf) hx⟩

/-- The `delete` of a committed file: its blocks leave the layout. -/
theorem drop_file (hl : Layout w) (ha : Accounted w) {id : Nat} {f : RAMFile}
    (hf : Keyed.find? id w.objs = some f) {frees : List Nat}
    (ha' : Accounted { w with objs := Keyed.erase id w.objs, frees := frees }) :
    Layout { w with objs := Keyed.erase id w.objs, frees := frees } ∧
      KeepsCommitted w { w with objs := Keyed.erase id w.objs, frees := frees } := by
  obtain ⟨o₁, o₂, hsplit, h₁, h₂⟩ := Keyed.split_of_find? ha.objs_nodup hf
  refine hl.frame ha' rfl rfl ⟨f.blocks_, ?_⟩ (sameFiles_erase id) (readersKept_of_eq rfl) le_rfl
  simp only [hsplit, Keyed.erase_append, Keyed.erase_cons_self, Keyed.erase_of_not_mem h₁,
    Keyed.erase_of_not_mem h₂, List.flatMap_append, List.flatMap_cons]
  exact List.perm_iff_count.2 fun x => by simp only [List.count_append]; omega

/-- A change of reference counts. -/
theorem of_refs (hl : Layout w) (ha' : Accounted w') {id : Nat} {r : RAMFile → Int}
    (hw' : w'.objs = Keyed.modify id (fun f => { f with refs_ := r f }) w.objs)
    (hheap : w'.heap = w.heap) (hwr : w'.writers = w.writers) (hkept : ReadersKept w w')
    (hnext : w.nextId ≤ w'.nextId) : Layout w' ∧ KeepsCommitted w w' :=
  hl.frame ha' hheap hwr ⟨[], by rw [hw', flatMap_modify, List.append_nil]⟩
    (hw' ▸ sameFiles_modify id r) hkept hnext

/-- Every step keeps the layout, and the blocks, length and bytes of every committed file. -/
theorem step (hl : Layout w) (ha : Accounted w) {ev : Event} (hc : Returns ev.run w w') :
    Layout w' ∧ KeepsCommitted w w' := by
  have ha' := ha.step hc
  cases ev with
  | createOutput fname =>
    rcases returns_discard hc with ⟨_, hc⟩ | ⟨_, hc⟩
    · obtain ⟨-, -, rfl⟩ := createOutput_ok hc
      exact hl.add_writer fname _
    · exact hl.of_eq ha (createOutput_exception hc)
  | destroyOutput h =>
    rcases hc with ⟨_, hc⟩ | ⟨_, hc⟩
    · obtain ⟨wr, hwr, -, rfl⟩ := destroyOutput_ok hc
      exact hl.commit_writer ha hwr _
    · exact (destroyOutput_exception hc).elim
  | obtainLock fname =>
    rcases returns_discard hc with ⟨_, hc⟩ | ⟨_, hc⟩
    · rcases obtainLock_ok hc with rfl | ⟨-, rfl⟩
      · exact hl.of_eq ha rfl
      · exact hl.of_objs ha' rfl rfl rfl (readersKept_of_eq rfl) (Nat.le_succ _)
    · exact (obtainLock_exception hc).elim
  | destroyLock l =>
    rcases hc with ⟨_, hc⟩ | ⟨_, hc⟩
    · obtain ⟨_, _, ⟨_, rfl⟩ | ⟨_, rfl⟩⟩ := destroyLock_ok hc <;>
        exact hl.of_objs ha' rfl rfl rfl (readersKept_of_eq rfl) le_rfl
    · exact (destroyLock_exception hc).elim
  | openInput fname =>
    rcases returns_discard hc with ⟨_, hc⟩ | ⟨_, hc⟩
    · obtain ⟨_, _, _, hf, _, _, rfl⟩ := openInput_ok hc
      exact hl.of_refs ha' (r := fun f => f.refs_ + 1) rfl rfl rfl (readersKept_open hf)
        (Nat.le_succ _)
    · exact hl.of_eq ha (openInput_exception hc)
  | destroyInput r =>
    rcases hc with ⟨_, hc⟩ | ⟨_, hc⟩
    · obtain ⟨_, _, _, _, rfl⟩ := destroyInput_ok hc
      exact hl.of_refs ha' (r := fun f => f.refs_ - 1) rfl rfl rfl (readersKept_erase rfl) le_rfl
    · exact (destroyInput_exception hc).elim
  | deleteFile fname =>
    rcases hc with ⟨_, hc⟩ | ⟨_, hc⟩
    · obtain ⟨_, _, _, _, rfl⟩ := deleteFile_ok hc
      exact hl.of_refs ha' (r := fun f => f.refs_ - 1) rfl rfl rfl (readersKept_of_eq rfl) le_rfl
    · exact hl.of_eq ha (deleteFile_exception hc)
  | rename src target =>
    rcases hc with ⟨_, hc⟩ | ⟨_, hc⟩
    · obtain ⟨_, _, _, rfl⟩ := rename_ok hc
      exact hl.of_objs ha' rfl rfl rfl (readersKept_of_eq rfl) le_rfl
    · exact hl.of_eq ha (rename_exception hc)
  | deleteSegment segment =>
    rcases hc with ⟨_, hc⟩ | ⟨_, hc⟩
    · exact hl.of_eq ha (deleteSegment_ok_iff.1 hc).2
    · exact (deleteSegment_exception hc).elim
  | fileExists fname =>
    rcases returns_discard hc with ⟨_, hc⟩ | ⟨_, hc⟩
    · exact hl.of_eq ha (fileExists_ok hc)
    · simp [fileExists] at hc
  | fileLength fname => exact hl.of_eq ha (fileLength_state (returns_discard hc))
  | listAll =>
    rcases returns_discard hc with ⟨_, hc⟩ | ⟨_, hc⟩
    · exact hl.of_eq ha (listAll_ok hc)
    · simp [listAll] at hc
  | write h c =>
    obtain ⟨wr, s, hwr, hcall, rfl⟩ := onWriter_returns hc
    exact hl.of_write hwr hcall
  | read r c =>
    obtain ⟨hheap, hkept⟩ := read_keeps (returns_discard hc)
    obtain ⟨_, _, -, -, rfl⟩ := onReader_returns (returns_discard hc)
    exact hl.of_objs ha' hheap rfl rfl hkept le_rfl
  | free id =>
    rcases hc with ⟨_, hc⟩ | ⟨_, hc⟩
    · obtain ⟨f, hf, _, rfl⟩ := free_ok hc
      exact hl.drop_file ha hf ha'
    · exact (free_exception hc).elim

end Layout

theorem Step.layout {w w' : World} (hs : Step w w') (hl : Layout w) (ha : Accounted w) :
    Layout w' ∧ KeepsCommitted w w' :=
  let ⟨_, _, hc⟩ := hs
  hl.step ha hc

theorem Reachable.layout {w : World} (hw : Reachable w) : Layout w := by
  induction hw with
  | init heap => exact layout_init heap
  | step hw hs ih => exact (hs.layout ih hw.accounted).1

/-- In every reachable state, no two blocks of the files in memory overlap, all were handed out
by the allocator, and every live writer holds a byte array. -/
theorem blocks_apart {w : World} (hw : Reachable w) :
    Apart w.blocks w.heap.next ∧
      ∀ h wr, Keyed.find? h w.writers = some wr → ∃ a, Rep a { wr.stream with heap := w.heap } :=
  ⟨hw.layout.apart, hw.layout.writers_rep⟩


/-- Two writers that each moved to byte `0`, which allocates their first blocks side by side. -/
theorem blocks_apart_two_writers :
    ∃ w, Reachable w ∧ w.blocks = [4097, 1] ∧ (Apart w.blocks w.heap.next ∧
      ∀ h wr, Keyed.find? h w.writers = some wr → ∃ a, Rep a { wr.stream with heap := w.heap }) :=
  have hw : Reachable _ :=
    ((((Reachable.init Heap.zero).step ⟨.createOutput "a", trivial, .inl ⟨(), rfl⟩⟩).step
      ⟨.createOutput "b", trivial, .inl ⟨(), rfl⟩⟩).step
      ⟨.write 0 (.seek 0), trivial, .inl ⟨(), rfl⟩⟩).step
      ⟨.write 1 (.seek 0), trivial, .inl ⟨(), rfl⟩⟩
  ⟨_, hw, rfl, blocks_apart hw⟩

/-! ## What a step does to the handles -/

/-- The call an event makes on writer `h`, if it is one. -/
def Event.callOn (h : Nat) : Event → Option WCall
  | .write h' c => if h' = h then some c else none
  | _ => none

/-- The call an event makes on reader `r`, if it is one. -/
def Event.readOn (r : Nat) : Event → Option RAMFileIndexInput.RCall
  | .read r' c => if r' = r then some c else none
  | _ => none

/-- A step that calls no handle: it leaves the memory alone, and every writer and reader it does
not destroy. -/
structure Quiet (ev : Event) (w w' : World) : Prop where
  heap : w'.heap = w.heap
  no_call : ∀ h, ev.callOn h = none
  no_read : ∀ r, ev.readOn r = none
  writers : ∀ h wr, ev ≠ .destroyOutput h → Keyed.find? h w.writers = some wr →
    Keyed.find? h w'.writers = some wr
  readers : ∀ r rd, ev ≠ .destroyInput r → Keyed.find? r w.readers = some rd →
    Keyed.find? r w'.readers = some rd

namespace Quiet

variable {w w' : World} {ev : Event}

theorem of_handles (hcall : ∀ h, ev.callOn h = none) (hread : ∀ r, ev.readOn r = none)
    (hheap : w'.heap = w.heap) (hwr : w'.writers = w.writers) (hrd : w'.readers = w.readers) :
    Quiet ev w w' :=
  ⟨hheap, hcall, hread, fun _ _ _ h => hwr ▸ h, fun _ _ _ h => hrd ▸ h⟩

theorem of_eq (hcall : ∀ h, ev.callOn h = none) (hread : ∀ r, ev.readOn r = none) :
    Quiet ev w w :=
  of_handles hcall hread rfl rfl rfl

end Quiet

/-- Every step from a laid-out state is a call on one writer, a call on one reader, which stores
nothing, or quiet. -/
theorem Layout.effect {w w' : World} (hl : Layout w) (ha : Accounted w) {ev : Event}
    (hc : Returns ev.run w w') :
    (∃ h c wr s, ev = .write h c ∧ Keyed.find? h w.writers = some wr ∧
      Returns c.run { wr.stream with heap := w.heap } s ∧ w' = setWriter w h s) ∨
    (∃ r c rd s, ev = .read r c ∧ Keyed.find? r w.readers = some rd ∧
      Returns (RAMFileIndexInput.run [c]) { rd.stream with heap := w.heap } s ∧
      w' = setReader w r s ∧ s.heap = w.heap) ∨ Quiet ev w w' := by
  cases ev with
  | write h c =>
    obtain ⟨wr, s, hwr, hs, rfl⟩ := onWriter_returns hc
    exact .inl ⟨h, c, wr, s, rfl, hwr, hs, rfl⟩
  | read r c =>
    have hheap := (read_keeps (returns_discard hc)).1
    obtain ⟨rd, s, hrd, hs, rfl⟩ := onReader_returns (returns_discard hc)
    exact .inr (.inl ⟨r, c, rd, s, rfl, hrd, hs, rfl, hheap⟩)
  | createOutput fname =>
    refine .inr (.inr ?_)
    rcases returns_discard hc with ⟨_, hc⟩ | ⟨_, hc⟩
    · obtain ⟨_, _, rfl⟩ := createOutput_ok hc
      refine ⟨rfl, fun _ => rfl, fun _ => rfl, fun h wr _ hwr => ?_, fun _ _ _ h => h⟩
      rw [Keyed.find?_cons, if_neg fun he : w.nextId = h =>
        Nat.lt_irrefl _ (he ▸ hl.writers_fresh h (Keyed.mem_keys_of_find? hwr))]
      exact hwr
    · obtain rfl := createOutput_exception hc
      exact .of_eq (fun _ => rfl) (fun _ => rfl)
  | destroyOutput h' =>
    refine .inr (.inr ?_)
    rcases hc with ⟨_, hc⟩ | ⟨_, hc⟩
    · obtain ⟨_, _, _, rfl⟩ := destroyOutput_ok hc
      refine ⟨rfl, fun _ => rfl, fun _ => rfl, fun h wr hd hwr => ?_, fun _ _ _ h => h⟩
      rw [Keyed.find?_erase, if_neg fun he : h = h' => hd (he ▸ rfl)]
      exact hwr
    · exact (destroyOutput_exception hc).elim
  | obtainLock fname =>
    refine .inr (.inr ?_)
    rcases returns_discard hc with ⟨_, hc⟩ | ⟨_, hc⟩
    · rcases obtainLock_ok hc with rfl | ⟨_, rfl⟩
      · exact .of_eq (fun _ => rfl) (fun _ => rfl)
      · exact .of_handles (fun _ => rfl) (fun _ => rfl) rfl rfl rfl
    · exact (obtainLock_exception hc).elim
  | destroyLock l =>
    refine .inr (.inr ?_)
    rcases hc with ⟨_, hc⟩ | ⟨_, hc⟩
    · obtain ⟨_, _, ⟨_, rfl⟩ | ⟨_, rfl⟩⟩ := destroyLock_ok hc <;>
        exact .of_handles (fun _ => rfl) (fun _ => rfl) rfl rfl rfl
    · exact (destroyLock_exception hc).elim
  | openInput fname =>
    refine .inr (.inr ?_)
    rcases returns_discard hc with ⟨_, hc⟩ | ⟨_, hc⟩
    · obtain ⟨_, _, _, _, _, _, rfl⟩ := openInput_ok hc
      refine ⟨rfl, fun _ => rfl, fun _ => rfl, fun _ _ _ h => h, fun r rd _ hrd => ?_⟩
      have hlt : r < w.nextId := ha.readers_fresh r (by
        rw [World.readerFiles, Keyed.keys_map]; exact Keyed.mem_keys_of_find? hrd)
      rw [Keyed.find?_cons, if_neg (Nat.ne_of_gt hlt)]
      exact hrd
    · obtain rfl := openInput_exception hc
      exact .of_eq (fun _ => rfl) (fun _ => rfl)
  | destroyInput r' =>
    refine .inr (.inr ?_)
    rcases hc with ⟨_, hc⟩ | ⟨_, hc⟩
    · obtain ⟨_, _, _, _, rfl⟩ := destroyInput_ok hc
      refine ⟨rfl, fun _ => rfl, fun _ => rfl, fun _ _ _ h => h, fun r rd hd hrd => ?_⟩
      rw [Keyed.find?_erase, if_neg fun he : r = r' => hd (he ▸ rfl)]
      exact hrd
    · exact (destroyInput_exception hc).elim
  | deleteFile fname =>
    refine .inr (.inr ?_)
    rcases hc with ⟨_, hc⟩ | ⟨_, hc⟩
    · obtain ⟨_, _, _, _, rfl⟩ := deleteFile_ok hc
      exact .of_handles (fun _ => rfl) (fun _ => rfl) rfl rfl rfl
    · obtain rfl := deleteFile_exception hc
      exact .of_eq (fun _ => rfl) (fun _ => rfl)
  | rename src target =>
    refine .inr (.inr ?_)
    rcases hc with ⟨_, hc⟩ | ⟨_, hc⟩
    · obtain ⟨_, _, _, rfl⟩ := rename_ok hc
      exact .of_handles (fun _ => rfl) (fun _ => rfl) rfl rfl rfl
    · obtain rfl := rename_exception hc
      exact .of_eq (fun _ => rfl) (fun _ => rfl)
  | deleteSegment segment =>
    refine .inr (.inr ?_)
    rcases hc with ⟨_, hc⟩ | ⟨_, hc⟩
    · obtain ⟨_, rfl⟩ := deleteSegment_ok_iff.1 hc
      exact .of_eq (fun _ => rfl) (fun _ => rfl)
    · exact (deleteSegment_exception hc).elim
  | fileExists fname =>
    refine .inr (.inr ?_)
    rcases returns_discard hc with ⟨_, hc⟩ | ⟨_, hc⟩
    · obtain rfl := fileExists_ok hc
      exact .of_eq (fun _ => rfl) (fun _ => rfl)
    · simp [fileExists] at hc
  | fileLength fname =>
    obtain rfl := fileLength_state (returns_discard hc)
    exact .inr (.inr (.of_eq (fun _ => rfl) (fun _ => rfl)))
  | listAll =>
    refine .inr (.inr ?_)
    rcases returns_discard hc with ⟨_, hc⟩ | ⟨_, hc⟩
    · obtain rfl := listAll_ok hc
      exact .of_eq (fun _ => rfl) (fun _ => rfl)
    · simp [listAll] at hc
  | free id =>
    refine .inr (.inr ?_)
    rcases hc with ⟨_, hc⟩ | ⟨_, hc⟩
    · obtain ⟨_, _, _, rfl⟩ := free_ok hc
      exact .of_handles (fun _ => rfl) (fun _ => rfl) rfl rfl rfl
    · exact (free_exception hc).elim

/-! ## One writer among the steps of all clients -/

/-- What a step does to writer `h`, when it neither calls nor destroys it: nothing. -/
theorem Layout.track_quiet {w w' : World} {ev : Event} {h : Nat} {wr : Writer} {a : Cursor}
    (hcall : ev.callOn h = none) (hwr' : Keyed.find? h w'.writers = some wr)
    (hheap : w'.heap = w.heap) (hr : Rep a { wr.stream with heap := w.heap }) :
    ∃ a' wr', specRun (ev.callOn h).toList a = some a' ∧ Keyed.find? h w'.writers = some wr' ∧
      wr'.name = wr.name ∧ Rep a' { wr'.stream with heap := w'.heap } :=
  ⟨a, wr, by rw [hcall]; rfl, hwr', rfl, hheap ▸ hr⟩

/-- A step that does not destroy writer `h` moves its array as its own call says, if the step is
a call on it, and leaves it otherwise. -/
theorem Layout.track {w w' : World} (hl : Layout w) (ha : Accounted w) {ev : Event}
    (hc : Returns ev.run w w') {h : Nat} {wr : Writer} (hwr : Keyed.find? h w.writers = some wr)
    {a : Cursor} (hr : Rep a { wr.stream with heap := w.heap }) (hd : ev ≠ .destroyOutput h) :
    ∃ a' wr', specRun (ev.callOn h).toList a = some a' ∧ Keyed.find? h w'.writers = some wr' ∧
      wr'.name = wr.name ∧ Rep a' { wr'.stream with heap := w'.heap } := by
  rcases hl.effect ha hc with ⟨h', c, wr₁, s, rfl, hwr₁, hcall, rfl⟩ |
      ⟨_, _, _, _, rfl, -, -, rfl, hheap⟩ | hq
  · obtain ⟨a₁, hr₁⟩ := hl.writers_rep h' wr₁ hwr₁
    by_cases hh : h' = h
    · subst hh
      rw [hwr] at hwr₁
      cases hwr₁
      obtain ⟨a', hspec, hr', -⟩ := WCall.run_confined hr c hcall
      refine ⟨a', { wr with stream := s }, ?_,
        by rw [setWriter, Keyed.find?_modify, if_pos rfl, hwr]; rfl, rfl, hr'⟩
      simp [Event.callOn, specRun, hspec]
    · obtain ⟨-, -, -, hcf⟩ := WCall.run_confined hr₁ c hcall
      obtain ⟨rest, hp, -, -, -, hwrs⟩ := hl.split hwr₁
      refine ⟨a, wr, by simp [Event.callOn, hh, specRun], ?_, rfl,
        hr.heap_congr (fun x hx => hl.mem_write hcf hp (hwrs h wr (Ne.symm hh) hwr) hx)
          hcf.next_le⟩
      rw [setWriter, Keyed.find?_modify, if_neg (Ne.symm hh), hwr]
  · exact Layout.track_quiet rfl hwr hheap hr
  · exact Layout.track_quiet (hq.no_call h) (hq.writers h wr hd hwr) hq.heap hr

/-! ## Runs -/

/-- The events `evs`, one step each, take `w` to `w'`. -/
inductive Run : World → List Event → World → Prop
  | nil (w : World) : Run w [] w
  | cons {w w₁ w' : World} {ev : Event} {evs : List Event} :
      ev.enabled w → Returns ev.run w w₁ → Run w₁ evs w' → Run w (ev :: evs) w'

theorem Run.reachable {w w' : World} {evs : List Event} (hrun : Run w evs w') (hw : Reachable w) :
    Reachable w' := by
  induction hrun with
  | nil => exact hw
  | cons hen hc _ ih => exact ih (hw.step ⟨_, hen, hc⟩)

/-- The calls the events make on writer `h`, in order. -/
def callsOn (h : Nat) (evs : List Event) : List WCall :=
  evs.filterMap (Event.callOn h)

theorem callsOn_cons (h : Nat) (ev : Event) (evs : List Event) :
    callsOn h (ev :: evs) = (ev.callOn h).toList ++ callsOn h evs := by
  unfold callsOn
  cases hc : ev.callOn h <;> simp [List.filterMap_cons, hc]

theorem RAMFileIndexOutput.specRun_append (cs₁ cs₂ : List WCall) (a : Cursor) :
    specRun (cs₁ ++ cs₂) a = (specRun cs₁ a).bind (specRun cs₂) := by
  induction cs₁ generalizing a with
  | nil => rfl
  | cons c cs ih =>
    show (c.spec a).bind (specRun (cs ++ cs₂)) = ((c.spec a).bind (specRun cs)).bind (specRun cs₂)
    rw [Option.bind_assoc]
    exact congrArg _ (funext ih)

/-- Along a run from a reachable state that does not destroy writer `h`, the writer holds the
array its own calls give. -/
theorem Run.writer {w w' : World} {evs : List Event} (hrun : Run w evs w') (hw : Reachable w)
    {h : Nat} (hd : Event.destroyOutput h ∉ evs) {wr : Writer} (hwr : Keyed.find? h w.writers = some wr)
    {a : Cursor} (hr : Rep a { wr.stream with heap := w.heap }) :
    ∃ a' wr', specRun (callsOn h evs) a = some a' ∧ Keyed.find? h w'.writers = some wr' ∧
      wr'.name = wr.name ∧ Rep a' { wr'.stream with heap := w'.heap } := by
  induction hrun generalizing wr a with
  | nil w => exact ⟨a, wr, rfl, hwr, rfl, hr⟩
  | @cons w w₁ w' ev evs hen hc _ ih =>
    obtain ⟨a₁, wr₁, h₁, hwr₁, hn₁, hr₁⟩ :=
      hw.layout.track hw.accounted hc hwr hr fun he => hd (he ▸ List.mem_cons_self _ _)
    obtain ⟨a', wr', h', hwr', hn', hr'⟩ :=
      ih (hw.step ⟨ev, hen, hc⟩) (fun hm => hd (List.mem_cons_of_mem _ hm)) hwr₁ hr₁
    exact ⟨a', wr', by rw [callsOn_cons, specRun_append, h₁]; exact h', hwr', hn'.trans hn₁, hr'⟩

/-- A writer just created by `createOutput`: no bytes yet. -/
theorem createOutput_writer {w w₁ : World} (hw : Reachable w) {fname : String} {h : Nat}
    (hc : createOutput fname w = .ok h w₁) :
    Reachable w₁ ∧ Keyed.find? h w₁.writers = some ⟨fname, construct w.heap⟩ ∧
      Rep Cursor.empty { (construct w.heap) with heap := w₁.heap } := by
  obtain ⟨-, rfl, rfl⟩ := createOutput_ok hc
  exact ⟨hw.step ⟨.createOutput fname, trivial, .inl ⟨(), by simp [Event.run, hc]⟩⟩,
    by simp [Keyed.find?_cons], rep_construct w.heap⟩

/-- Whatever the other clients do, a writer created by `createOutput` and not destroyed holds the
array its own calls give, in their order; each of its calls is one the array allows. -/
theorem writer_interleaving {w w₁ w' : World} (hw : Reachable w) {fname : String} {h : Nat}
    (hc : createOutput fname w = .ok h w₁) {evs : List Event} (hrun : Run w₁ evs w')
    (hd : Event.destroyOutput h ∉ evs) :
    ∃ a wr, specRun (callsOn h evs) Cursor.empty = some a ∧ Keyed.find? h w'.writers = some wr ∧
      wr.name = fname ∧ Rep a { wr.stream with heap := w'.heap } :=
  let ⟨hw₁, hwr, hr⟩ := createOutput_writer hw hc
  hrun.writer hw₁ hd hwr hr

/-- Writer `"a"` moves to byte `0` while writer `"b"` is created and does the same. -/
theorem writer_interleaving_two :
    ∃ w₁ w', createOutput "a" (World.init Heap.zero) = .ok 0 w₁ ∧
      Run w₁ [.createOutput "b", .write 1 (.seek 0), .write 0 (.seek 0)] w' ∧
      Event.destroyOutput 0 ∉ [.createOutput "b", .write 1 (.seek 0), .write 0 (.seek 0)] ∧
      ∃ a wr, specRun (callsOn 0 [.createOutput "b", .write 1 (.seek 0), .write 0 (.seek 0)])
          Cursor.empty = some a ∧ Keyed.find? 0 w'.writers = some wr ∧ wr.name = "a" ∧
        Rep a { wr.stream with heap := w'.heap } :=
  have hc : createOutput "a" (World.init Heap.zero) = .ok 0 _ := rfl
  have hd : Event.destroyOutput 0 ∉ [.createOutput "b", .write 1 (.seek 0), .write 0 (.seek 0)] := by
    simp
  (fun hrun => ⟨_, _, hc, hrun, hd, writer_interleaving (.init Heap.zero) hc hrun hd⟩)
    (.cons trivial (.inl ⟨(), rfl⟩) (.cons trivial (.inl ⟨(), rfl⟩)
      (.cons trivial (.inl ⟨(), rfl⟩) (.nil _))))

/-- The destructor of a writer that holds `a`, when it returns, commits a file whose bytes are
`a`, under the writer's name. -/
theorem destroyOutput_commits {w w' : World} {h : Nat} {wr : Writer}
    (hwr : Keyed.find? h w.writers = some wr) {a : Cursor}
    (hr : Rep a { wr.stream with heap := w.heap }) (hc : Returns (destroyOutput h) w w') :
    ∃ id f, w'.files.find? wr.name = some (.file id) ∧ Keyed.find? id w'.objs = some f ∧
      f.length = a.data.length ∧ f.bytes w'.heap f.length = a.data := by
  rcases hc with ⟨_, hc⟩ | ⟨_, hc⟩
  · obtain ⟨wr', hwr', -, rfl⟩ := destroyOutput_ok hc
    rw [hwr] at hwr'
    cases hwr'
    obtain ⟨hlen, hbytes⟩ := hr.finish_bytes
    exact ⟨w.nextId, { finish wr.stream with refs_ := 1 }, by simp [Table.find?_set],
      by simp [Keyed.find?_cons], hlen,
      by rw [show ({ finish wr.stream with refs_ := 1 } : RAMFile).length = a.data.length from hlen]
         exact hbytes⟩
  · exact (destroyOutput_exception hc).elim

/-- Whatever the other clients do, the destructor of a writer created by `createOutput`, when it
returns, commits under the writer's name a file whose bytes are what the writer's own calls
wrote, in their order. -/
theorem commit_interleaving {w w₁ w' w'' : World} (hw : Reachable w) {fname : String} {h : Nat}
    (hc : createOutput fname w = .ok h w₁) {evs : List Event} (hrun : Run w₁ evs w')
    (hd : Event.destroyOutput h ∉ evs) (hdes : Returns (destroyOutput h) w' w'') :
    ∃ a id f, specRun (callsOn h evs) Cursor.empty = some a ∧
      w''.files.find? fname = some (.file id) ∧ Keyed.find? id w''.objs = some f ∧
      f.length = a.data.length ∧ f.bytes w''.heap f.length = a.data := by
  obtain ⟨hw₁, hwr, hr⟩ := createOutput_writer hw hc
  obtain ⟨a, wr, ha, hwr', rfl, hr'⟩ := hrun.writer hw₁ hd hwr hr
  obtain ⟨id, f, hn, hf, hlen, hbytes⟩ := destroyOutput_commits hwr' hr' hdes
  exact ⟨a, id, f, ha, hn, hf, hlen, hbytes⟩

/-- Writer `"a"` moves to byte `0`, writer `"b"` is created and does the same, and `"a"` is
committed. -/
theorem commit_interleaving_two :
    ∃ w₁ w' w'', createOutput "a" (World.init Heap.zero) = .ok 0 w₁ ∧
      Run w₁ [.write 0 (.seek 0), .createOutput "b", .write 1 (.seek 0)] w' ∧
      Event.destroyOutput 0 ∉ [.write 0 (.seek 0), .createOutput "b", .write 1 (.seek 0)] ∧
      Returns (destroyOutput 0) w' w'' ∧
      ∃ a id f, specRun (callsOn 0 [.write 0 (.seek 0), .createOutput "b", .write 1 (.seek 0)])
          Cursor.empty = some a ∧ w''.files.find? "a" = some (.file id) ∧
        Keyed.find? id w''.objs = some f ∧ f.length = a.data.length ∧
        f.bytes w''.heap f.length = a.data :=
  have hc : createOutput "a" (World.init Heap.zero) = .ok 0 _ := rfl
  have hd : Event.destroyOutput 0 ∉ [.write 0 (.seek 0), .createOutput "b", .write 1 (.seek 0)] := by
    simp
  (fun hrun hdes => ⟨_, _, _, hc, hrun, hd, hdes,
    commit_interleaving (.init Heap.zero) hc hrun hd hdes⟩)
    (.cons trivial (.inl ⟨(), rfl⟩) (.cons trivial (.inl ⟨(), rfl⟩)
      (.cons trivial (.inl ⟨(), rfl⟩) (.nil _))))
    (.inl ⟨(), rfl⟩)

/-! ## Committed files -/

/-- Along steps from a reachable state, a file committed at both ends kept its blocks, its
length and the bytes of its blocks. -/
theorem keepsCommitted_steps {w w' : World} (hw : Reachable w)
    (hs : Relation.ReflTransGen Step w w') :
    Reachable w' ∧ w.nextId ≤ w'.nextId ∧ KeepsCommitted w w' := by
  induction hs with
  | refl => exact ⟨hw, le_rfl, fun _ f f' hf hf' => by
      rw [hf] at hf'; cases hf'; exact ⟨rfl, rfl, fun _ _ => rfl⟩⟩
  | @tail w₁ w' _ hs ih =>
    obtain ⟨hw₁, hn₁, hk₁⟩ := ih
    obtain ⟨-, hk⟩ := hs.layout hw₁.layout hw₁.accounted
    obtain ⟨hn, hgrow⟩ := hs.grows
    refine ⟨hw₁.step hs, hn₁.trans hn, fun id f f' hf hf' => ?_⟩
    have hlt := hw.accounted.objs_fresh id (Keyed.mem_keys_of_find? hf)
    obtain ⟨f₁, hf₁⟩ : ∃ f₁, Keyed.find? id w₁.objs = some f₁ :=
      Option.ne_none_iff_exists'.1 fun hnone => (hgrow id (Keyed.mem_keys_of_find? hf')).elim
        (Keyed.find?_eq_none.1 hnone) fun hle => by omega
    obtain ⟨hb₁, hl₁, hm₁⟩ := hk₁ id f f₁ hf hf₁
    obtain ⟨hb, hl, hm⟩ := hk id f₁ f' hf₁ hf'
    refine ⟨hb.trans hb₁, hl.trans hl₁, fun x hx => (hm x ?_).trans (hm₁ x hx)⟩
    obtain ⟨b, hb', hbx⟩ := hx
    exact ⟨b, hb₁ ▸ hb', hbx⟩

/-- A file committed in a reachable state that is still committed after any number of steps of
any clients has the same blocks, the same length, and the same bytes in its blocks: every byte a
reader of it can be given. -/
theorem committed_immutable {w w' : World} (hw : Reachable w)
    (hs : Relation.ReflTransGen Step w w') {id : Nat} {f f' : RAMFile}
    (hf : Keyed.find? id w.objs = some f) (hf' : Keyed.find? id w'.objs = some f') :
    f'.blocks_ = f.blocks_ ∧ f'.length = f.length ∧
      f'.bytes w'.heap (f.blocks_.length * kBlockSize) =
        f.bytes w.heap (f.blocks_.length * kBlockSize) := by
  obtain ⟨hb, hl, hm⟩ := (keepsCommitted_steps hw hs).2.2 id f f' hf hf'
  exact ⟨hb, hl, RAMFile.bytesFrom_congr hb hm (by omega)⟩

/-- The file committed at address `1` keeps its block while a second writer allocates the next
one. -/
theorem committed_immutable_beside_writer :
    ∃ w w' f f', Reachable w ∧ Relation.ReflTransGen Step w w' ∧ Keyed.find? 1 w.objs = some f ∧
      Keyed.find? 1 w'.objs = some f' ∧ f.blocks_ = [1] ∧ w'.blocks = [1, 4097] ∧
      (f'.blocks_ = f.blocks_ ∧ f'.length = f.length ∧
        f'.bytes w'.heap (f.blocks_.length * kBlockSize) =
          f.bytes w.heap (f.blocks_.length * kBlockSize)) :=
  have hw : Reachable _ :=
    (((Reachable.init Heap.zero).step ⟨.createOutput "a", trivial, .inl ⟨(), rfl⟩⟩).step
      ⟨.write 0 (.seek 0), trivial, .inl ⟨(), rfl⟩⟩).step
      ⟨.destroyOutput 0, trivial, .inl ⟨(), rfl⟩⟩
  (fun hs => ⟨_, _, _, _, hw, hs, by rfl, by rfl, by rfl, by rfl,
    @committed_immutable _ _ hw hs 1 _ _ (by rfl) (by rfl)⟩)
    (.head ⟨.createOutput "b", trivial, .inl ⟨(), rfl⟩⟩
      (.single ⟨.write 2 (.seek 0), trivial, .inl ⟨(), rfl⟩⟩))

end Lucanthrope
