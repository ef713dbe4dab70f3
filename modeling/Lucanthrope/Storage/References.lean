import Lucanthrope.Storage.RAMDirectory
import Mathlib.Logic.Relation

/-!
# Reference counts of committed files

The comment on `RAMDirectory::RAMFile` says how a committed file lives: `commit` sets
`refs_ = 1` for its entry in `files`, `openInput` adds one for each reader and the reader's
destructor takes it away, `deleteFile` takes the entry's away, and the call whose decrement
brings `refs_` to `0` deletes the file after releasing `mu_`. `Accounted` says that this
accounting is right in a state:

* `refs_eq`: the `refs_` of every live committed file is its `refCount`, the number of names
  bound to it plus the number of open readers of it; at most one name is bound to it
  (`bound_le_one`), and every name bound to a file and every reader refers to a live one;
* `frees_iff`: a live file is owed a `delete` (its address is in `frees`) exactly when its
  `refs_` is `0`, and then once (`frees_nodup`);
* `dummy`: `dummy_file.refs_` is `0`;
* the addresses of live files and readers are below `nextId`.

Every event keeps it (`Step.accounted`), by one lemma per call, so every reachable state has it.
A `delete` owed then returns, and an address, once freed, is never alive again (`steps_dead`):

> `refs_accounted`: in every reachable state reference counting is right; each `delete` a call
> owes returns, on a file no name and no reader refers to, and after it that file is not alive
> again, whatever steps follow.
-/

namespace Lucanthrope

open RAMDirectory

namespace World

/-- The live readers, by address, with the address of the file each reads. -/
def readerFiles (w : World) : List (Nat × Nat) :=
  w.readers.map fun p => (p.1, p.2.fid)

/-- The references to the committed file at `id`: names bound to it and readers of it. -/
def refCount (w : World) (id : Nat) : Nat :=
  w.files.count (.file id) + w.readerFiles.countP fun p => p.2 = id

theorem readerFiles_setReader (w : World) (r : Nat) (s : IndexInput RAMIn) :
    (setReader w r s).readerFiles = w.readerFiles := by
  unfold readerFiles setReader
  exact Keyed.modify_map (f := fun rd : Reader => { rd with stream := s }) Reader.fid fun _ => rfl

end World

/-- Reference counting is right in `w`. -/
structure Accounted (w : World) : Prop where
  objs_nodup : (Keyed.keys w.objs).Nodup
  readers_nodup : (Keyed.keys w.readerFiles).Nodup
  refs_eq : ∀ id f, Keyed.find? id w.objs = some f → f.refs_ = w.refCount id
  bound_le_one : ∀ id, w.files.count (.file id) ≤ 1
  files_live : ∀ id, w.files.count (.file id) ≠ 0 → id ∈ Keyed.keys w.objs
  readers_live : ∀ p ∈ w.readerFiles, p.2 ∈ Keyed.keys w.objs
  frees_iff : ∀ id f, Keyed.find? id w.objs = some f → (id ∈ w.frees ↔ f.refs_ = 0)
  frees_live : ∀ id ∈ w.frees, id ∈ Keyed.keys w.objs
  frees_nodup : w.frees.Nodup
  objs_fresh : ∀ id ∈ Keyed.keys w.objs, id < w.nextId
  readers_fresh : ∀ r ∈ Keyed.keys w.readerFiles, r < w.nextId
  dummy : w.dummyRefs = 0

theorem accounted_init (heap : Heap) : Accounted (World.init heap) where
  objs_nodup := List.nodup_nil
  readers_nodup := List.nodup_nil
  refs_eq _ _ h := by cases h
  bound_le_one _ := Nat.zero_le _
  files_live _ h := absurd rfl h
  readers_live _ h := by cases h
  frees_iff _ _ h := by cases h
  frees_live _ h := by cases h
  frees_nodup := List.nodup_nil
  objs_fresh _ h := by cases h
  readers_fresh _ h := by cases h
  dummy := rfl

namespace Accounted

variable {w w' : World} (h : Accounted w)
include h

/-- A file that is referred to is not owed a `delete`. -/
theorem not_mem_frees {id : Nat} {f : RAMFile} (hf : Keyed.find? id w.objs = some f)
    (hpos : 0 < w.refCount id) : id ∉ w.frees := fun hm => by
  have := h.refs_eq id f hf
  rw [(h.frees_iff id f hf).1 hm] at this
  omega

/-- A fresh address is not that of a live file. -/
theorem next_not_mem_objs : w.nextId ∉ Keyed.keys w.objs :=
  fun hm => Nat.lt_irrefl _ (h.objs_fresh _ hm)

/-- Nothing refers to the fresh address. -/
theorem refCount_next : w.refCount w.nextId = 0 := by
  have hc : w.files.count (.file w.nextId) = 0 :=
    Nat.eq_zero_of_not_pos fun hp => h.next_not_mem_objs (h.files_live _ hp.ne')
  have hr : w.readerFiles.countP (fun p => p.2 = w.nextId) = 0 :=
    List.countP_eq_zero.2 fun p hp he =>
      h.next_not_mem_objs (of_decide_eq_true he ▸ h.readers_live p hp)
  simp [World.refCount, hc, hr]

/-- A step that changes neither the live files, the readers, the owed `delete`s nor the
number of names bound to each file keeps the accounting. -/
theorem frame (hobjs : w'.objs = w.objs) (hrd : w'.readerFiles = w.readerFiles)
    (hfrees : w'.frees = w.frees) (hdummy : w'.dummyRefs = w.dummyRefs)
    (hnext : w.nextId ≤ w'.nextId)
    (hcount : ∀ id, w'.files.count (.file id) = w.files.count (.file id)) : Accounted w' := by
  have hrc : ∀ id, w'.refCount id = w.refCount id := fun id => by
    simp only [World.refCount, hcount, hrd]
  refine ⟨?_, ?_, ?_, ?_, ?_, ?_, ?_, ?_, ?_, ?_, ?_, ?_⟩
  · rw [hobjs]; exact h.objs_nodup
  · rw [hrd]; exact h.readers_nodup
  · intro id f hf; rw [hrc]; exact h.refs_eq id f (hobjs ▸ hf)
  · intro id; rw [hcount]; exact h.bound_le_one id
  · intro id hc; rw [hobjs]; exact h.files_live id (hcount id ▸ hc)
  · intro p hp; rw [hobjs]; exact h.readers_live p (hrd ▸ hp)
  · intro id f hf; rw [hfrees]; exact h.frees_iff id f (hobjs ▸ hf)
  · intro id hm; rw [hobjs]; exact h.frees_live id (hfrees ▸ hm)
  · rw [hfrees]; exact h.frees_nodup
  · intro id hm; exact lt_of_lt_of_le (h.objs_fresh id (hobjs ▸ hm)) hnext
  · intro r hm; exact lt_of_lt_of_le (h.readers_fresh r (hrd ▸ hm)) hnext
  · rw [hdummy]; exact h.dummy

/-! ## The calls that bind or free a name -/

theorem of_createOutput {fname : String} (hc : Returns (createOutput fname) w w') :
    Accounted w' := by
  rcases hc with ⟨i, hc⟩ | ⟨e, hc⟩
  · obtain ⟨hn, -, rfl⟩ := createOutput_ok hc
    exact h.frame rfl rfl rfl rfl (Nat.le_succ _) fun id => by
      simp [Table.count_set_of_none hn]
  · exact createOutput_exception hc ▸ h

theorem of_obtainLock {fname : String} (hc : Returns (obtainLock fname) w w') : Accounted w' := by
  rcases hc with ⟨l, hc⟩ | ⟨e, hc⟩
  · rcases obtainLock_ok hc with rfl | ⟨hn, rfl⟩
    · exact h
    · exact h.frame rfl rfl rfl rfl (Nat.le_succ _) fun id => by
        simp [Table.count_set_of_none hn]
  · exact (obtainLock_exception hc).elim

theorem of_destroyLock {l : Nat} (hc : Returns (destroyLock l) w w') : Accounted w' := by
  rcases hc with ⟨_, hc⟩ | ⟨e, hc⟩
  · obtain ⟨fname, -, ⟨-, rfl⟩ | ⟨hn, rfl⟩⟩ := destroyLock_ok hc
    · exact h.frame rfl rfl rfl rfl le_rfl fun _ => rfl
    · exact h.frame rfl rfl rfl rfl le_rfl fun id => by
        simpa using Table.count_erase hn (.file id)
  · exact (destroyLock_exception hc).elim

theorem of_rename {src target : String} (hc : Returns (rename src target) w w') :
    Accounted w' := by
  rcases hc with ⟨_, hc⟩ | ⟨e, hc⟩
  · obtain ⟨e, hs, ht, rfl⟩ := rename_ok hc
    have hne : src ≠ target := fun he => by rw [he, ht] at hs; cases hs
    have hs' : (w.files.set target e).find? src = some e := by
      rw [Table.find?_set, if_neg hne, hs]
    exact h.frame rfl rfl rfl rfl le_rfl fun id => by
      have h₁ := Table.count_erase hs' (.file id)
      have h₂ := Table.count_set_of_none ht (e := e) (.file id)
      dsimp only
      omega
  · exact rename_exception hc ▸ h

/-! ## Calls on the streams -/

theorem of_onWriter {α : Type} {hw : Nat} {op : Op (IndexOutput RAMOut) α}
    (hc : Returns (onWriter hw op) w w') : Accounted w' := by
  have hc' : (∃ a, onWriter hw op w = .ok a w') ∨ ∃ e, onWriter hw op w = .error e w' :=
    hc.imp id fun ⟨e, he⟩ => ⟨_, he⟩
  rcases onWriter_state hc' with rfl | ⟨s, rfl⟩
  · exact h
  · exact h.frame rfl rfl rfl rfl le_rfl fun _ => rfl

theorem of_onReader {α : Type} {r : Nat} {op : Op (IndexInput RAMIn) α}
    (hc : Returns (onReader r op) w w') : Accounted w' := by
  have hc' : (∃ a, onReader r op w = .ok a w') ∨ ∃ e, onReader r op w = .error e w' :=
    hc.imp id fun ⟨e, he⟩ => ⟨_, he⟩
  rcases onReader_state hc' with rfl | ⟨s, rfl⟩
  · exact h
  · exact h.frame rfl (w.readerFiles_setReader r s) rfl rfl le_rfl fun _ => rfl

/-! ## The calls that commit, open, release or free a file -/

/-- `commit` binds the placeholder of a name to a new file with `refs_ = 1`. -/
theorem commit {fname : String} {F : RAMFile} (hn : w.files.find? fname = some .dummy)
    (hF : F.refs_ = 1) (hfiles : w'.files = w.files.set fname (.file w.nextId))
    (hobjs : w'.objs = (w.nextId, F) :: w.objs) (hrd : w'.readerFiles = w.readerFiles)
    (hfrees : w'.frees = w.frees) (hdummy : w'.dummyRefs = w.dummyRefs)
    (hnext : w'.nextId = w.nextId + 1) : Accounted w' := by
  have hcount : ∀ id, w'.files.count (.file id) =
      w.files.count (.file id) + if w.nextId = id then 1 else 0 := fun id => by
    rw [hfiles]; simpa using Table.count_set_of_some hn (e := .file w.nextId) (.file id)
  have hrc : ∀ id, w'.refCount id = w.refCount id + if w.nextId = id then 1 else 0 :=
    fun id => by simp only [World.refCount, hcount, hrd]; omega
  have h0 := h.refCount_next
  have hc0 : w.files.count (.file w.nextId) = 0 := by unfold World.refCount at h0; omega
  refine ⟨?_, hrd ▸ h.readers_nodup, ?_, ?_, ?_, ?_, ?_, ?_, hfrees ▸ h.frees_nodup, ?_, ?_,
    hdummy ▸ h.dummy⟩
  · rw [hobjs]; exact List.nodup_cons.2 ⟨h.next_not_mem_objs, h.objs_nodup⟩
  · intro id f hf
    rw [hobjs, Keyed.find?_cons] at hf
    split_ifs at hf with hid
    · cases hf; subst hid; rw [hrc, h0, hF]; simp
    · rw [hrc, if_neg hid, Nat.add_zero]; exact h.refs_eq id f hf
  · intro id
    rw [hcount]
    split_ifs with hid
    · subst hid; rw [hc0]
    · exact h.bound_le_one id
  · intro id hc
    rw [hobjs, Keyed.keys_cons, List.mem_cons]
    rw [hcount] at hc
    split_ifs at hc with hid
    · exact .inl hid.symm
    · exact .inr (h.files_live id (by simpa using hc))
  · intro p hp; rw [hobjs]; exact List.mem_cons_of_mem _ (h.readers_live p (hrd ▸ hp))
  · intro id f hf
    rw [hobjs, Keyed.find?_cons] at hf
    rw [hfrees]
    split_ifs at hf with hid
    · cases hf; subst hid; rw [hF]
      exact ⟨fun hm => absurd (h.frees_live _ hm) h.next_not_mem_objs, by simp⟩
    · exact h.frees_iff id f hf
  · intro id hm; rw [hobjs]; exact List.mem_cons_of_mem _ (h.frees_live id (hfrees ▸ hm))
  · intro id hm
    rw [hnext]
    rw [hobjs, Keyed.keys_cons, List.mem_cons] at hm
    rcases hm with rfl | hm
    · exact Nat.lt_succ_self _
    · exact Nat.lt_succ_of_lt (h.objs_fresh id hm)
  · intro r hm; rw [hnext]; exact Nat.lt_succ_of_lt (h.readers_fresh r (hrd ▸ hm))

/-- `openInput` adds a reader of a committed file, and one to its `refs_`. -/
theorem addReader {fname : String} {id : Nat} {F : RAMFile}
    (hn : w.files.find? fname = some (.file id)) (hf : Keyed.find? id w.objs = some F)
    (hfiles : w'.files = w.files)
    (hobjs : w'.objs = Keyed.modify id (fun f => { f with refs_ := f.refs_ + 1 }) w.objs)
    (hrd : w'.readerFiles = (w.nextId, id) :: w.readerFiles) (hfrees : w'.frees = w.frees)
    (hdummy : w'.dummyRefs = w.dummyRefs) (hnext : w'.nextId = w.nextId + 1) : Accounted w' := by
  have hrc : ∀ id', w'.refCount id' = w.refCount id' + if id = id' then 1 else 0 := fun id' => by
    simp only [World.refCount, hfiles, hrd, List.countP_cons, decide_eq_true_eq]; omega
  have hpos : 0 < w.refCount id := by
    have := Table.count_pos hn; unfold World.refCount; omega
  have hF := h.refs_eq id F hf
  have hkeys : Keyed.keys w'.objs = Keyed.keys w.objs := by rw [hobjs, Keyed.keys_modify]
  refine ⟨hkeys ▸ h.objs_nodup, ?_, ?_, hfiles ▸ h.bound_le_one, ?_, ?_, ?_, ?_,
    hfrees ▸ h.frees_nodup, ?_, ?_, hdummy ▸ h.dummy⟩
  · rw [hrd, Keyed.keys_cons, List.nodup_cons]
    exact ⟨fun hm => Nat.lt_irrefl _ (h.readers_fresh _ hm), h.readers_nodup⟩
  · intro id' f hf'
    rw [hobjs, Keyed.find?_modify] at hf'
    split_ifs at hf' with hid
    · subst hid; rw [hf] at hf'; cases hf'
      rw [hrc, if_pos rfl]; dsimp only; omega
    · rw [hrc, if_neg (Ne.symm hid), Nat.add_zero]; exact h.refs_eq id' f hf'
  · intro id' hc; rw [hkeys]; exact h.files_live id' (hfiles ▸ hc)
  · intro p hp
    rw [hkeys]
    rw [hrd, List.mem_cons] at hp
    rcases hp with rfl | hp
    · exact Keyed.mem_keys_of_find? hf
    · exact h.readers_live p hp
  · intro id' f hf'
    rw [hobjs, Keyed.find?_modify] at hf'
    rw [hfrees]
    split_ifs at hf' with hid
    · subst hid; rw [hf] at hf'; cases hf'
      exact ⟨fun hm => absurd hm (h.not_mem_frees hf hpos), fun h0 => by dsimp only at h0; omega⟩
    · exact h.frees_iff id' f hf'
  · intro id' hm; rw [hkeys]; exact h.frees_live id' (hfrees ▸ hm)
  · intro id' hm; rw [hnext]; exact Nat.lt_succ_of_lt (h.objs_fresh id' (hkeys ▸ hm))
  · intro r hm
    rw [hnext]
    rw [hrd, Keyed.keys_cons, List.mem_cons] at hm
    rcases hm with rfl | hm
    · exact Nat.lt_succ_self _
    · exact Nat.lt_succ_of_lt (h.readers_fresh r hm)

/-- Dropping one reference to the file at `id`, with the decrement of `release`. -/
theorem drop {id : Nat} {F : RAMFile} (hf : Keyed.find? id w.objs = some F)
    (hobjs : w'.objs = Keyed.modify id (fun f => { f with refs_ := f.refs_ - 1 }) w.objs)
    (hfrees : w'.frees = if F.refs_ - 1 = 0 then id :: w.frees else w.frees)
    (hdummy : w'.dummyRefs = w.dummyRefs) (hnext : w'.nextId = w.nextId)
    (hrc : ∀ id', w'.refCount id' + (if id = id' then 1 else 0) = w.refCount id')
    (hcount : ∀ id', w'.files.count (.file id') ≤ w.files.count (.file id'))
    (hrd : w'.readerFiles.Sublist w.readerFiles) : Accounted w' := by
  have hpos : 0 < w.refCount id := by have := hrc id; rw [if_pos rfl] at this; omega
  have hnf := h.not_mem_frees hf hpos
  have hF := h.refs_eq id F hf
  have hkeys : Keyed.keys w'.objs = Keyed.keys w.objs := by rw [hobjs, Keyed.keys_modify]
  refine ⟨hkeys ▸ h.objs_nodup, h.readers_nodup.sublist (hrd.map _), ?_,
    fun id' => le_trans (hcount id') (h.bound_le_one id'), ?_, ?_, ?_, ?_, ?_, ?_, ?_,
    hdummy ▸ h.dummy⟩
  · intro id' f hf'
    rw [hobjs, Keyed.find?_modify] at hf'
    have := hrc id'
    split_ifs at hf' with hid
    · subst hid; rw [hf] at hf'; cases hf'; rw [if_pos rfl] at this; dsimp only; omega
    · rw [if_neg (Ne.symm hid)] at this
      rw [h.refs_eq id' f hf', ← this, Nat.add_zero]
  · intro id' hc; rw [hkeys]; exact h.files_live id' (by have := hcount id'; omega)
  · intro p hp; rw [hkeys]; exact h.readers_live p (hrd.subset hp)
  · intro id' f hf'
    rw [hobjs, Keyed.find?_modify] at hf'
    rw [hfrees]
    split_ifs at hf' with hid
    · subst hid; rw [hf] at hf'; cases hf'
      split_ifs with hz
      · exact ⟨fun _ => hz, fun _ => List.mem_cons_self _ _⟩
      · exact ⟨fun hm => absurd hm hnf, fun h0 => absurd h0 hz⟩
    · have := h.frees_iff id' f hf'
      split_ifs
      · rw [List.mem_cons, or_iff_right hid]; exact this
      · exact this
  · intro id' hm
    rw [hkeys]
    rw [hfrees] at hm
    split_ifs at hm
    · rcases List.mem_cons.1 hm with rfl | hm
      · exact Keyed.mem_keys_of_find? hf
      · exact h.frees_live id' hm
    · exact h.frees_live id' hm
  · rw [hfrees]
    split_ifs
    · exact List.nodup_cons.2 ⟨hnf, h.frees_nodup⟩
    · exact h.frees_nodup
  · intro id' hm; rw [hnext]; exact h.objs_fresh id' (hkeys ▸ hm)
  · intro r hm; rw [hnext]; exact h.readers_fresh r ((hrd.map _).subset hm)

theorem of_destroyOutput {hw : Nat} (hc : Returns (destroyOutput hw) w w') : Accounted w' := by
  rcases hc with ⟨_, hc⟩ | ⟨e, hc⟩
  · obtain ⟨wr, -, hn, rfl⟩ := destroyOutput_ok hc
    exact h.commit hn rfl rfl rfl rfl rfl rfl rfl
  · exact (destroyOutput_exception hc).elim

theorem of_openInput {fname : String} (hc : Returns (openInput fname) w w') : Accounted w' := by
  rcases hc with ⟨_, hc⟩ | ⟨e, hc⟩
  · obtain ⟨id, F, hn, hf, -, -, rfl⟩ := openInput_ok hc
    exact h.addReader hn hf rfl rfl rfl rfl rfl rfl
  · exact openInput_exception hc ▸ h

theorem of_destroyInput {r : Nat} (hc : Returns (destroyInput r) w w') : Accounted w' := by
  rcases hc with ⟨_, hc⟩ | ⟨e, hc⟩
  · obtain ⟨rd, F, hr, hf, rfl⟩ := destroyInput_ok hc
    have hrf : Keyed.find? r w.readerFiles = some rd.fid := by
      rw [World.readerFiles, Keyed.find?_map, hr]; rfl
    have hrd : Keyed.erase r w.readerFiles = (Keyed.erase r w.readers).map
        fun p => (p.1, p.2.fid) := Keyed.erase_map _
    refine h.drop hf rfl rfl rfl rfl (fun id' => ?_) (fun _ => le_rfl) ?_
    · have := Keyed.countP_erase (fun x => decide (x = id')) h.readers_nodup hrf
      simp only [World.refCount, World.readerFiles, ← hrd, decide_eq_true_eq] at this ⊢
      omega
    · show (Keyed.erase r w.readers).map _ |>.Sublist _
      rw [← hrd]; exact List.filter_sublist _
  · exact (destroyInput_exception hc).elim

theorem of_deleteFile {fname : String} (hc : Returns (deleteFile fname) w w') : Accounted w' := by
  rcases hc with ⟨_, hc⟩ | ⟨e, hc⟩
  · obtain ⟨id, F, hn, hf, rfl⟩ := deleteFile_ok hc
    refine h.drop hf rfl rfl rfl rfl (fun id' => ?_) (fun id' => ?_) (List.Sublist.refl _)
    · have := Table.count_erase hn (.file id')
      simp only [World.refCount, World.readerFiles, Entry.file.injEq] at this ⊢
      omega
    · have := Table.count_erase hn (.file id')
      dsimp only
      omega
  · exact deleteFile_exception hc ▸ h

/-- `delete file`, for a file whose `refs_` is `0`, keeps the accounting. -/
theorem of_free {id : Nat} (hc : Returns (free id) w w') : Accounted w' := by
  rcases hc with ⟨_, hc⟩ | ⟨e, hc⟩
  · obtain ⟨F, hf, h0, rfl⟩ := free_ok hc
    have hrc : w.refCount id = 0 := by have := h.refs_eq id F hf; omega
    have hne : ∀ id', id' ∈ Keyed.keys w.objs → id' ≠ id → id' ∈ Keyed.keys (Keyed.erase id w.objs) :=
      fun id' hm hid => Keyed.mem_keys_erase.2 ⟨hm, hid⟩
    refine ⟨Keyed.nodup_erase h.objs_nodup, h.readers_nodup, ?_, h.bound_le_one, ?_, ?_, ?_, ?_,
      h.frees_nodup.erase _, ?_, h.readers_fresh, h.dummy⟩
    · intro id' f hf'
      rw [Keyed.find?_erase] at hf'
      split_ifs at hf' with hid
      exact h.refs_eq id' f hf'
    · intro id' hc
      dsimp only at hc
      refine hne id' (h.files_live id' hc) fun hid => hc ?_
      subst hid; unfold World.refCount at hrc; omega
    · intro p hp
      refine hne _ (h.readers_live p hp) fun hid => ?_
      have : w.readerFiles.countP (fun p => p.2 = id) = 0 := by unfold World.refCount at hrc; omega
      exact List.countP_eq_zero.1 this p hp (decide_eq_true hid)
    · intro id' f hf'
      rw [Keyed.find?_erase] at hf'
      split_ifs at hf' with hid
      rw [List.mem_erase_of_ne hid]
      exact h.frees_iff id' f hf'
    · intro id' hm
      rw [h.frees_nodup.mem_erase_iff] at hm
      exact hne id' (h.frees_live id' hm.2) hm.1
    · intro id' hm
      exact h.objs_fresh id' (Keyed.mem_keys_erase.1 hm).1
  · exact (free_exception hc).elim

/-- Every event keeps the accounting. -/
theorem step {ev : Event} (hc : Returns ev.run w w') : Accounted w' := by
  cases ev with
  | createOutput fname => exact h.of_createOutput (returns_discard hc)
  | destroyOutput hw => exact h.of_destroyOutput hc
  | obtainLock fname => exact h.of_obtainLock (returns_discard hc)
  | destroyLock l => exact h.of_destroyLock hc
  | openInput fname => exact h.of_openInput (returns_discard hc)
  | destroyInput r => exact h.of_destroyInput hc
  | deleteFile fname => exact h.of_deleteFile hc
  | rename src target => exact h.of_rename hc
  | deleteSegment segment =>
    rcases hc with ⟨_, hc⟩ | ⟨e, hc⟩
    · exact (deleteSegment_ok_iff.1 hc).2 ▸ h
    · exact (deleteSegment_exception hc).elim
  | fileExists fname =>
    rcases returns_discard hc with ⟨_, hc⟩ | ⟨e, hc⟩
    · exact fileExists_ok hc ▸ h
    · simp [fileExists] at hc
  | fileLength fname => exact fileLength_state (returns_discard hc) ▸ h
  | listAll =>
    rcases returns_discard hc with ⟨_, hc⟩ | ⟨e, hc⟩
    · exact listAll_ok hc ▸ h
    · simp [listAll] at hc
  | write hw c => exact h.of_onWriter hc
  | read r c => exact h.of_onReader (returns_discard hc)
  | free id => exact h.of_free hc

end Accounted

theorem Step.accounted {w w' : World} (hs : Step w w') (h : Accounted w) : Accounted w' :=
  let ⟨_, _, hc⟩ := hs
  h.step hc

theorem Reachable.accounted {w : World} (hw : Reachable w) : Accounted w := by
  induction hw with
  | init heap => exact accounted_init heap
  | step _ hs ih => exact hs.accounted ih

/-! ## Deleting a file, once -/

/-- The live files after a step were live before it, or are at fresh addresses. -/
def Grows (w w' : World) : Prop :=
  w.nextId ≤ w'.nextId ∧ ∀ id ∈ Keyed.keys w'.objs, id ∈ Keyed.keys w.objs ∨ w.nextId ≤ id

namespace Grows

variable {w w' : World}

theorem of_objs (ho : Keyed.keys w'.objs = Keyed.keys w.objs) (hn : w.nextId ≤ w'.nextId) :
    Grows w w' :=
  ⟨hn, fun _ hm => .inl (ho ▸ hm)⟩

theorem of_eq (hw : w' = w) : Grows w w' :=
  of_objs (by rw [hw]) (by rw [hw])

end Grows

open Grows in
/-- Every step adds live files only at fresh addresses. -/
theorem Step.grows {w w' : World} (hs : Step w w') : Grows w w' := by
  obtain ⟨ev, -, hc⟩ := hs
  cases ev with
  | createOutput fname =>
    rcases returns_discard hc with ⟨_, hc⟩ | ⟨e, hc⟩
    · obtain ⟨-, -, rfl⟩ := createOutput_ok hc; exact of_objs rfl (Nat.le_succ _)
    · exact of_eq (createOutput_exception hc)
  | destroyOutput hw =>
    rcases hc with ⟨_, hc⟩ | ⟨e, hc⟩
    · obtain ⟨-, -, -, rfl⟩ := destroyOutput_ok hc
      refine ⟨Nat.le_succ _, fun id hm => ?_⟩
      rcases List.mem_cons.1 hm with rfl | hm
      · exact .inr le_rfl
      · exact .inl hm
    · exact (destroyOutput_exception hc).elim
  | obtainLock fname =>
    rcases returns_discard hc with ⟨_, hc⟩ | ⟨e, hc⟩
    · rcases obtainLock_ok hc with rfl | ⟨-, rfl⟩
      · exact of_eq rfl
      · exact of_objs rfl (Nat.le_succ _)
    · exact (obtainLock_exception hc).elim
  | destroyLock l =>
    rcases hc with ⟨_, hc⟩ | ⟨e, hc⟩
    · obtain ⟨-, -, ⟨-, rfl⟩ | ⟨-, rfl⟩⟩ := destroyLock_ok hc <;> exact of_objs rfl le_rfl
    · exact (destroyLock_exception hc).elim
  | openInput fname =>
    rcases returns_discard hc with ⟨_, hc⟩ | ⟨e, hc⟩
    · obtain ⟨-, -, -, -, -, -, rfl⟩ := openInput_ok hc
      exact of_objs (by simp) (Nat.le_succ _)
    · exact of_eq (openInput_exception hc)
  | destroyInput r =>
    rcases hc with ⟨_, hc⟩ | ⟨e, hc⟩
    · obtain ⟨-, -, -, -, rfl⟩ := destroyInput_ok hc; exact of_objs (by simp) le_rfl
    · exact (destroyInput_exception hc).elim
  | deleteFile fname =>
    rcases hc with ⟨_, hc⟩ | ⟨e, hc⟩
    · obtain ⟨-, -, -, -, rfl⟩ := deleteFile_ok hc; exact of_objs (by simp) le_rfl
    · exact of_eq (deleteFile_exception hc)
  | rename src target =>
    rcases hc with ⟨_, hc⟩ | ⟨e, hc⟩
    · obtain ⟨-, -, -, rfl⟩ := rename_ok hc; exact of_objs rfl le_rfl
    · exact of_eq (rename_exception hc)
  | deleteSegment segment =>
    rcases hc with ⟨_, hc⟩ | ⟨e, hc⟩
    · exact of_eq (deleteSegment_ok_iff.1 hc).2
    · exact (deleteSegment_exception hc).elim
  | fileExists fname =>
    rcases returns_discard hc with ⟨_, hc⟩ | ⟨e, hc⟩
    · exact of_eq (fileExists_ok hc)
    · simp [fileExists] at hc
  | fileLength fname => exact of_eq (fileLength_state (returns_discard hc))
  | listAll =>
    rcases returns_discard hc with ⟨_, hc⟩ | ⟨e, hc⟩
    · exact of_eq (listAll_ok hc)
    · simp [listAll] at hc
  | write hw c =>
    rcases onWriter_state (hc.imp id fun ⟨e, he⟩ => ⟨_, he⟩) with rfl | ⟨s, rfl⟩
    · exact of_eq rfl
    · exact of_objs rfl le_rfl
  | read r c =>
    rcases onReader_state ((returns_discard hc).imp id fun ⟨e, he⟩ => ⟨_, he⟩) with
      rfl | ⟨s, rfl⟩
    · exact of_eq rfl
    · exact of_objs rfl le_rfl
  | free id =>
    rcases hc with ⟨_, hc⟩ | ⟨e, hc⟩
    · obtain ⟨-, -, -, rfl⟩ := free_ok hc
      exact ⟨le_rfl, fun id' hm => .inl (Keyed.mem_keys_erase.1 hm).1⟩
    · exact (free_exception hc).elim

/-- A file that is not alive, at an address already handed out, is not alive again after any
number of steps. -/
theorem steps_dead {w w' : World} (hs : Relation.ReflTransGen Step w w') {id : Nat}
    (hlt : id < w.nextId) (hd : id ∉ Keyed.keys w.objs) : id ∉ Keyed.keys w'.objs ∧ id < w'.nextId := by
  induction hs with
  | refl => exact ⟨hd, hlt⟩
  | tail _ hs ih =>
    obtain ⟨hn, hk⟩ := hs.grows
    exact ⟨fun hm => (hk id hm).elim ih.1 fun hle => absurd ih.2 (not_lt.2 hle),
      lt_of_lt_of_le ih.2 hn⟩

/-- The `delete` a call owes returns; nothing refers to the file; after it the file is not
alive. -/
theorem Accounted.free_owed {w : World} (h : Accounted w) {id : Nat} (hm : id ∈ w.frees) :
    ∃ w', free id w = .ok () w' ∧ w.refCount id = 0 ∧ id ∉ Keyed.keys w'.objs ∧
      id < w'.nextId := by
  have hk := h.frees_live id hm
  obtain ⟨F, hf⟩ : ∃ F, Keyed.find? id w.objs = some F :=
    Option.ne_none_iff_exists'.1 (mt Keyed.find?_eq_none.1 (not_not.2 hk))
  have h0 := (h.frees_iff id F hf).1 hm
  refine ⟨{ w with objs := Keyed.erase id w.objs, frees := w.frees.erase id }, ?_,
    by have := h.refs_eq id F hf; omega, fun hm' => (Keyed.mem_keys_erase.1 hm').2 rfl,
    h.objs_fresh id hk⟩
  simp [free, hf, h0]

/-- In every reachable state reference counting is right, and each owed `delete` returns on a file
that then never comes alive again. -/
theorem refs_accounted {w : World} (hw : Reachable w) :
    Accounted w ∧ ∀ id ∈ w.frees, ∃ w₁, free id w = .ok () w₁ ∧ w.refCount id = 0 ∧
      ∀ w₂, Relation.ReflTransGen Step w₁ w₂ → id ∉ Keyed.keys w₂.objs := by
  refine ⟨hw.accounted, fun id hm => ?_⟩
  obtain ⟨w₁, hfree, h0, hd, hlt⟩ := hw.accounted.free_owed hm
  exact ⟨w₁, hfree, h0, fun w₂ hs => (steps_dead hs hlt hd).1⟩

/-- `createOutput("a")`, the writer's destructor, then `deleteFile("a")`: the file committed at
address `1` is owed its `delete`. -/
theorem refs_accounted_deleted :
    ∃ w, Reachable w ∧ w.frees = [1] ∧ (Accounted w ∧ ∀ id ∈ w.frees, ∃ w₁,
      free id w = .ok () w₁ ∧ w.refCount id = 0 ∧
        ∀ w₂, Relation.ReflTransGen Step w₁ w₂ → id ∉ Keyed.keys w₂.objs) :=
  have hw : Reachable _ :=
    (((Reachable.init Heap.zero).step ⟨.createOutput "a", trivial, .inl ⟨(), rfl⟩⟩).step
      ⟨.destroyOutput 0, trivial, .inl ⟨(), rfl⟩⟩).step ⟨.deleteFile "a", trivial, .inl ⟨(), rfl⟩⟩
  ⟨_, hw, rfl, refs_accounted hw⟩

end Lucanthrope
