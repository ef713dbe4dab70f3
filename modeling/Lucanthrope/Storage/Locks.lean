import Lucanthrope.Storage.RAMDirectory

/-!
# Locks and writers exclude each other

`obtainLock(name)` and `createOutput(name)` both take a name only when `files` has no entry for
it, and bind it to `&dummy_file` until the handle is destroyed: the lock's destructor erases the
name, and the writer's commits its file under it. So the live handles hold distinct names, each
bound to its placeholder, and a name a handle holds can be neither locked nor created again
(`Exclusive`). Every call keeps that, in any interleaving of the clients, except `rename` of a
name a handle holds, which moves the placeholder away from its holder (`exclusive_step`):

> `handles_exclusive`: in every state a new directory reaches by steps that rename no name a
> live lock or writer holds, no two live handles hold the same name, and for each name one
> holds, `obtainLock` returns an empty handle and changes nothing, and `createOutput` throws
> `FileAlreadyExistsException` and changes nothing.

A `rename` of a held name is a step of the system too: after it the name is free again.

> `rename_held_relocks`: from every such state, renaming a name a live handle holds to a free
> name succeeds, and a second `obtainLock` of the name then returns a handle while the first is
> alive, so two live handles hold one name.
-/

namespace Lucanthrope

open RAMDirectory

/-- The names the live handles hold: each writer's, then each lock's. -/
def held (w : World) : List String :=
  w.writers.map (·.2.name) ++ w.locks.map (·.2)

/-- No two live handles hold one name, and each holds its placeholder. -/
structure Exclusive (w : World) : Prop where
  nodup : (held w).Nodup
  placeholder : ∀ n ∈ held w, w.files.find? n = some .dummy

/-- The event renames a name that a live handle holds. -/
def Event.renamesHeld (w : World) : Event → Prop
  | .rename src _ => src ∈ held w
  | _ => False

/-- A step of the system that renames no name a live handle holds. -/
def StepKeepingHolds (w w' : World) : Prop :=
  ∃ ev : Event, ev.enabled w ∧ ¬ ev.renamesHeld w ∧ Returns ev.run w w'

/-- Erasing the entry of `k` from a list whose values have distinct names leaves none with its
name. -/
theorem name_not_mem_erase {α : Type} (name : α → String) {l : List (Nat × α)}
    (hl : (l.map (name ·.2)).Nodup) {k : Nat} {a : α} (ha : Keyed.find? k l = some a) :
    name a ∉ (Keyed.erase k l).map (name ·.2) := fun hm => by
  obtain ⟨p, hp, hpa⟩ := List.mem_map.1 hm
  obtain ⟨hpl, hpk⟩ := List.mem_filter.1 hp
  have heq := List.inj_on_of_nodup_map hl hpl (Keyed.mem_of_find? ha) hpa
  rw [heq] at hpk
  simp at hpk

theorem names_modify {α : Type} (name : α → String) (f : α → α) (hf : ∀ a, name (f a) = name a)
    (k : Nat) (l : List (Nat × α)) : (Keyed.modify k f l).map (name ·.2) = l.map (name ·.2) := by
  simp only [Keyed.modify, List.map_map]
  refine List.map_congr_left fun p _ => ?_
  simp only [Function.comp_apply]
  split <;> simp [hf]

theorem exclusive_init (heap : Heap) : Exclusive (World.init heap) :=
  ⟨List.nodup_nil, fun _ h => by cases h⟩

namespace Exclusive

variable {w w' : World} (h : Exclusive w)
include h

/-- A held name is bound, to its placeholder. -/
theorem not_held {n : String} (hn : w.files.find? n ≠ some .dummy) : n ∉ held w :=
  fun hm => hn (h.placeholder n hm)

/-- A step that keeps the held names and what they are bound to keeps exclusion. -/
theorem frame (hh : held w' = held w) (hf : ∀ n ∈ held w, w'.files.find? n = w.files.find? n) :
    Exclusive w' :=
  ⟨hh ▸ h.nodup, fun n hn => (hf n (hh ▸ hn)).trans (h.placeholder n (hh ▸ hn))⟩

/-- A new handle on a free name, bound to a placeholder, keeps exclusion. -/
theorem add {fname : String} (hn : w.files.find? fname = none)
    (hperm : List.Perm (held w') (fname :: held w)) (hf : w'.files = w.files.set fname .dummy) :
    Exclusive w' := by
  refine ⟨hperm.nodup_iff.2 (List.nodup_cons.2 ⟨h.not_held (by rw [hn]; simp), h.nodup⟩),
    fun n hm => ?_⟩
  rw [hf, Table.find?_set]
  split_ifs with he
  · rfl
  · exact h.placeholder n ((List.mem_cons.1 (hperm.mem_iff.1 hm)).resolve_left he)

/-- Dropping a handle on `fname`, with only `fname` rebound, keeps exclusion. -/
theorem drop {fname : String} (hnot : fname ∉ held w') (hsub : List.Sublist (held w') (held w))
    (hf : ∀ n, n ≠ fname → w'.files.find? n = w.files.find? n) : Exclusive w' :=
  ⟨hsub.nodup h.nodup, fun n hm =>
    (hf n fun he => hnot (he ▸ hm)).trans (h.placeholder n (hsub.subset hm))⟩

theorem of_createOutput {fname : String} (hc : Returns (createOutput fname) w w') :
    Exclusive w' := by
  rcases hc with ⟨_, hc⟩ | ⟨_, hc⟩
  · obtain ⟨hn, -, rfl⟩ := createOutput_ok hc
    exact h.add hn (List.Perm.refl _) rfl
  · exact createOutput_exception hc ▸ h

theorem of_obtainLock {fname : String} (hc : Returns (obtainLock fname) w w') :
    Exclusive w' := by
  rcases hc with ⟨_, hc⟩ | ⟨_, hc⟩
  · rcases obtainLock_ok hc with rfl | ⟨hn, rfl⟩
    · exact h
    · exact h.add hn List.perm_middle rfl
  · exact (obtainLock_exception hc).elim

theorem of_destroyOutput {hw : Nat} (hc : Returns (destroyOutput hw) w w') : Exclusive w' := by
  rcases hc with ⟨_, hc⟩ | ⟨_, hc⟩
  · obtain ⟨wr, hwr, -, rfl⟩ := destroyOutput_ok hc
    have hnd := List.nodup_append.1 h.nodup
    have hnot : wr.name ∉ (Keyed.erase hw w.writers).map (·.2.name) ++ w.locks.map (·.2) := by
      simp only [List.mem_append, not_or]
      exact ⟨name_not_mem_erase Writer.name hnd.1 hwr,
        hnd.2.2 (List.mem_map.2 ⟨_, Keyed.mem_of_find? hwr, rfl⟩)⟩
    exact h.drop hnot (((List.filter_sublist _).map _).append_right _)
      fun n hn => by simp [Table.find?_set, hn]
  · exact (destroyOutput_exception hc).elim

theorem of_destroyLock {l : Nat} (hc : Returns (destroyLock l) w w') : Exclusive w' := by
  rcases hc with ⟨_, hc⟩ | ⟨_, hc⟩
  · obtain ⟨fname, hl, hrel⟩ := destroyLock_ok hc
    have hnd := List.nodup_append.1 h.nodup
    have hnot : fname ∉ w.writers.map (·.2.name) ++ (Keyed.erase l w.locks).map (·.2) := by
      simp only [List.mem_append, not_or]
      exact ⟨fun hw => hnd.2.2 hw (List.mem_map.2 ⟨_, Keyed.mem_of_find? hl, rfl⟩),
        name_not_mem_erase id hnd.2.1 hl⟩
    have hsub : List.Sublist (w.writers.map (·.2.name) ++ (Keyed.erase l w.locks).map (·.2))
        (held w) :=
      ((List.filter_sublist _).map _).append_left _
    rcases hrel with ⟨-, rfl⟩ | ⟨-, rfl⟩
    · exact h.drop hnot hsub fun _ _ => rfl
    · exact h.drop hnot hsub fun n hn => by simp [Table.find?_erase, hn]
  · exact (destroyLock_exception hc).elim

theorem of_rename {src target : String} (hm : src ∉ held w) (hc : Returns (rename src target) w w') :
    Exclusive w' := by
  rcases hc with ⟨_, hc⟩ | ⟨_, hc⟩
  · obtain ⟨e, -, ht, rfl⟩ := rename_ok hc
    refine h.frame rfl fun n hn => ?_
    have hnt : n ≠ target := fun he => by
      rw [← he, h.placeholder n hn] at ht; cases ht
    have hns : n ≠ src := fun he => hm (he ▸ hn)
    simp [Table.find?_erase, Table.find?_set, hnt, hns]
  · exact rename_exception hc ▸ h

theorem of_deleteFile {fname : String} (hc : Returns (deleteFile fname) w w') : Exclusive w' := by
  rcases hc with ⟨_, hc⟩ | ⟨_, hc⟩
  · obtain ⟨id, -, hn, -, rfl⟩ := deleteFile_ok hc
    refine h.frame rfl fun n hm => ?_
    have hne : n ≠ fname := fun he => by
      rw [← he, h.placeholder n hm] at hn; cases hn
    simp [Table.find?_erase, hne]
  · exact deleteFile_exception hc ▸ h

/-- Every step but a `rename` of a held name keeps exclusion. -/
theorem step {ev : Event} (hm : ¬ ev.renamesHeld w) (hc : Returns ev.run w w') : Exclusive w' := by
  cases ev with
  | createOutput fname => exact h.of_createOutput (returns_discard hc)
  | destroyOutput hw => exact h.of_destroyOutput hc
  | obtainLock fname => exact h.of_obtainLock (returns_discard hc)
  | destroyLock l => exact h.of_destroyLock hc
  | openInput fname =>
    rcases returns_discard hc with ⟨_, hc⟩ | ⟨_, hc⟩
    · obtain ⟨-, -, -, -, -, -, rfl⟩ := openInput_ok hc
      exact h.frame rfl fun _ _ => rfl
    · exact openInput_exception hc ▸ h
  | destroyInput r =>
    rcases hc with ⟨_, hc⟩ | ⟨_, hc⟩
    · obtain ⟨-, -, -, -, rfl⟩ := destroyInput_ok hc
      exact h.frame rfl fun _ _ => rfl
    · exact (destroyInput_exception hc).elim
  | deleteFile fname => exact h.of_deleteFile hc
  | rename src target => exact h.of_rename hm hc
  | deleteSegment segment =>
    rcases hc with ⟨_, hc⟩ | ⟨_, hc⟩
    · exact (deleteSegment_ok_iff.1 hc).2 ▸ h
    · exact (deleteSegment_exception hc).elim
  | fileExists fname =>
    rcases returns_discard hc with ⟨_, hc⟩ | ⟨_, hc⟩
    · exact fileExists_ok hc ▸ h
    · simp [fileExists] at hc
  | fileLength fname => exact fileLength_state (returns_discard hc) ▸ h
  | listAll =>
    rcases returns_discard hc with ⟨_, hc⟩ | ⟨_, hc⟩
    · exact listAll_ok hc ▸ h
    · simp [listAll] at hc
  | write hw c =>
    rcases onWriter_state (hc.imp id fun ⟨e, he⟩ => ⟨_, he⟩) with rfl | ⟨s, rfl⟩
    · exact h
    · refine h.frame ?_ fun _ _ => rfl
      simp only [held, setWriter]
      rw [names_modify Writer.name (fun wr => { wr with stream := s }) (fun _ => rfl)]
  | read r c =>
    rcases onReader_state ((returns_discard hc).imp id fun ⟨e, he⟩ => ⟨_, he⟩) with
      rfl | ⟨s, rfl⟩
    · exact h
    · exact h.frame rfl fun _ _ => rfl
  | free id =>
    rcases hc with ⟨_, hc⟩ | ⟨_, hc⟩
    · obtain ⟨-, -, -, rfl⟩ := free_ok hc
      exact h.frame rfl fun _ _ => rfl
    · exact (free_exception hc).elim

end Exclusive

/-- Exclusion holds all along a run that renames no held name. -/
theorem exclusive_of_run {heap : Heap} {w : World}
    (hrun : Relation.ReflTransGen StepKeepingHolds (World.init heap) w) : Exclusive w := by
  induction hrun with
  | refl => exact exclusive_init heap
  | tail _ hs ih =>
    obtain ⟨_, -, hm, hc⟩ := hs
    exact ih.step hm hc

/-- From every state a new directory reaches without renaming a held name, the live handles
hold distinct names, and a held name can be neither locked nor created again. -/
theorem handles_exclusive {heap : Heap} {w : World}
    (hrun : Relation.ReflTransGen StepKeepingHolds (World.init heap) w) :
    (held w).Nodup ∧ ∀ n ∈ held w, obtainLock n w = .ok none w ∧
      Throws (createOutput n) w ⟨.FileAlreadyExistsException, alreadyExists "createOutput" n⟩ := by
  have hx := exclusive_of_run hrun
  refine ⟨hx.nodup, fun n hn => ⟨?_, ?_⟩⟩
  · simp [obtainLock, hx.placeholder n hn]
  · simp [Throws, createOutput, hx.placeholder n hn]

/-- `obtainLock("a")`, then `createOutput("b")`: the writer holds `"b"` and the lock `"a"`. -/
theorem handles_exclusive_lock_writer :
    ∃ w, Relation.ReflTransGen StepKeepingHolds (World.init Heap.zero) w ∧ held w = ["b", "a"] ∧
      (held w).Nodup ∧ ∀ n ∈ held w, obtainLock n w = .ok none w ∧
        Throws (createOutput n) w ⟨.FileAlreadyExistsException, alreadyExists "createOutput" n⟩ :=
  have h₁ : StepKeepingHolds (World.init Heap.zero) _ :=
    ⟨.obtainLock "a", trivial, id, .inl ⟨(), rfl⟩⟩
  have hrun := (Relation.ReflTransGen.single h₁).tail
    ⟨.createOutput "b", trivial, id, .inl ⟨(), rfl⟩⟩
  ⟨_, hrun, rfl, handles_exclusive hrun⟩

/-- A `rename` of a held name breaks exclusion: from every state a new directory reaches without
one, renaming a name a live handle holds to a free name succeeds, `obtainLock` then takes the
name again, and two live handles hold it. -/
theorem rename_held_relocks {heap : Heap} {w : World}
    (hrun : Relation.ReflTransGen StepKeepingHolds (World.init heap) w) {n t : String}
    (hn : n ∈ held w) (ht : w.files.find? t = none) :
    ∃ w₁ l w₂, rename n t w = .ok () w₁ ∧ obtainLock n w₁ = .ok (some l) w₂ ∧
      ¬ (held w₂).Nodup := by
  have hd := (exclusive_of_run hrun).placeholder n hn
  let w₁ : World := { w with files := (w.files.set t .dummy).erase n }
  let w₂ : World :=
    { w₁ with locks := (w.nextId, n) :: w.locks, files := w₁.files.set n .dummy,
              nextId := w.nextId + 1 }
  refine ⟨w₁, w.nextId, w₂, ?_, ?_, ?_⟩
  · simp [rename, hd, ht, w₁]
  · simp [obtainLock, Table.find?_erase, w₁, w₂]
  · exact fun hnd => (List.nodup_cons.1 (List.perm_middle.nodup_iff.1 hnd)).1 hn

/-- `obtainLock("a")`, then `rename("a", "b")`: a second `obtainLock("a")` returns a handle. -/
theorem rename_held_relocks_lock :
    ∃ w, Relation.ReflTransGen StepKeepingHolds (World.init Heap.zero) w ∧ "a" ∈ held w ∧
      w.files.find? "b" = none ∧ ∃ w₁ l w₂, rename "a" "b" w = .ok () w₁ ∧
        obtainLock "a" w₁ = .ok (some l) w₂ ∧ ¬ (held w₂).Nodup :=
  have h₁ : StepKeepingHolds (World.init Heap.zero) _ :=
    ⟨.obtainLock "a", trivial, id, .inl ⟨(), rfl⟩⟩
  have hrun := Relation.ReflTransGen.single h₁
  ⟨_, hrun, List.mem_singleton_self _, rfl,
    rename_held_relocks hrun (List.mem_singleton_self _) rfl⟩

end Lucanthrope
