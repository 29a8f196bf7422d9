import ScratchStore.Master.Write

/-!
# A flush and the map of the store

* `Store.abstractMap` is what the part of the store below the first tree stands for: for each key the
  newest record, read as absent when it is a tombstone.
* `adjust_refines`: a completed `adjust` does not change that map, leaves every file well formed, and no
  tombstone in the file that is the oldest after it.
* `FlushKeeps` and `ReadsDeleted` are what a user would expect of `dbread` around an `adjust`.
* `adjust_dbread_iff`: `dbread` does not read tombstones as absent, so for a deleted key it depends on where
  the newest record happens to be.
-/

set_option autoImplicit false

namespace ScratchStore

namespace Master

open SortedAssoc FileIO Layers

variable {Time : Type} [TimeFormat Time] {s : Store}

/-- For each key the newest record in `reserve` and the files, unless it is a tombstone. -/
def Store.abstractMap (s : Store) (k : K) : Option V :=
  live isTomb (newest (s.reserve.toList.map BinaryTree.lookup ++ (ring s.recent).map s.file) k)

section Adjust

variable (env : Env Time) {t : BinaryTree K V}

theorem abstractMap_adjusted (h : s.WF) (ht : s.reserve = some t) (k : K) :
    (adjusted env s t).abstractMap k = s.abstractMap k := by
  rw [Store.abstractMap, files_adjusted env h ht, reserve_adjusted, Store.abstractMap, ht, ring,
    List.map_append]
  exact live_newest_compact (t.lookup :: (newer s.recent).map s.file) _ _ k

/-- The layers of the store after `adjust`. -/
theorem layers_adjusted (h : s.WF) (ht : s.reserve = some t) :
    (adjusted env s t).layers = (s.bintree.lookup :: t.lookup :: (newer s.recent).map s.file) ++
      [compact isTomb (s.file (s.recent + 2)) (s.file (s.recent + 1))] := by
  rw [Store.layers, files_adjusted env h ht, Store.memory, bintree_adjusted, reserve_adjusted]
  rfl

theorem layers_of_reserve (ht : s.reserve = some t) :
    s.layers = (s.bintree.lookup :: t.lookup :: (newer s.recent).map s.file) ++
      [s.file (s.recent + 2), s.file (s.recent + 1)] := by
  rw [Store.layers, Store.memory, ht, ring, List.map_append]
  rfl

/-- A key whose newest record is not a tombstone keeps its answer. -/
theorem newest_adjusted (h : s.WF) (ht : s.reserve = some t) {k : K}
    (hk : newest s.layers k ≠ some (tombstone V)) :
    newest (adjusted env s t).layers k = newest s.layers k := by
  rw [layers_adjusted env h ht, layers_of_reserve ht]
  rw [layers_of_reserve ht] at hk
  refine newest_compact_of_live ?_
  intro v hv
  rw [Bool.eq_false_iff]
  intro htomb
  exact hk (hv.trans (congrArg some (isTomb_iff.mp htomb)))

/-- Every file is well formed after `adjust`. -/
theorem isDataFile_adjusted (h : s.WF) (ht : s.reserve = some t)
    (hfiles : ∀ i, IsDataFile K V (s.fs.read (File.filesys i).path)) (i : Fin numFiles) :
    IsDataFile K V ((adjusted env s t).fs.read (File.filesys i).path) := by
  rw [FS.read, content_adjusted env h ht]
  split_ifs
  · exact ⟨_, BinaryTree.bytes_dumpFile le_sizeof t (h.reserve t ht) env.now⟩
  · obtain ⟨f2, hf2⟩ := hfiles (s.recent + 2)
    obtain ⟨f1, hf1⟩ := hfiles (s.recent + 1)
    exact ⟨_, by rw [← hf2, ← hf1, Option.getD_some, mergeFiles_bytes]⟩
  · exact hfiles i

/-- **`adjust` refines the abstract map.**  It leaves the map as it was and every file well formed,
changes only the two oldest files, moves `recent` on by one, and leaves no tombstone in the file
that is the oldest now.

The store has to have a `reserve`, which `serve` sees to before it starts a thread with `adjust`.  Nothing is
asked of the keys, the values or the clock. -/
theorem adjust_refines (s : Store) (h : s.WF)
    (hfiles : ∀ i, IsDataFile K V (s.fs.read (File.filesys i).path)) (t : BinaryTree K V)
    (ht : s.reserve = some t) (env : Env Time) :
    ∃ s', adjust env s = some s' ∧ (∀ k, s'.abstractMap k = s.abstractMap k) ∧
      (∀ i, IsDataFile K V (s'.fs.read (File.filesys i).path) ∧
        128 ∣ (s'.fs.read (File.filesys i).path).length) ∧
      (∀ i, i ≠ s.recent + 1 → i ≠ s.recent + 2 →
        s'.fs.content (File.filesys i).path = s.fs.content (File.filesys i).path) ∧
      s'.recent = s.recent + 1 ∧
      ∀ r ∈ records K V (s'.fs.read (File.filesys (s'.recent + 1)).path), isTomb r.2 = false := by
  refine ⟨_, adjust_eq env h ht, abstractMap_adjusted env h ht, fun i ↦ ?_, fun i h1 h2 ↦ ?_, rfl, ?_⟩
  · have hi := isDataFile_adjusted env h ht hfiles i
    exact ⟨hi, (isDataFile_iff.mp hi).2.1⟩
  · rw [content_adjusted env h ht, if_neg h1, if_neg h2]
  · have hnext : ∀ r : Fin numFiles, r + 1 + 1 = r + 2 := by decide
    intro r hr
    rw [recent_adjusted, hnext, FS.read, content_adjusted env h ht, if_neg (add_two_ne_add_one _),
      if_pos rfl, Option.getD_some, records_mergeFiles] at hr
    exact overlay_live (h.ascending _) (h.ascending _) hr

/-- A data file with two records. -/
def twoRecords {k k' : K} (v v' : V) (h : k < k') : DataFile K V :=
  ⟨timeStr (Pod.sizeof (K × V)) (0 : DaySecond), [(k, v), (k', v')], length_timeStr le_sizeof _,
    ascending_cons.mpr ⟨by simpa using h, ascending_cons.mpr ⟨by simp, ascending_nil⟩⟩⟩

/-- What the oldest file has, and the second oldest: one key was deleted after the oldest was written. -/
def oldestFile : DataFile K V := twoRecords oneV oneV (show numbered 1 < numbered 2 by decide)
def secondOldestFile : DataFile K V := twoRecords (tombstone V) oneV (show numbered 1 < numbered 3 by decide)

/-- The store that is about to write its tree, with those two files. -/
def flushingOver : Store :=
  let s := flushing.withFS (flushing.fs.write (File.filesys 0).path oldestFile.bytes)
  s.withFS (s.fs.write (File.filesys 1).path secondOldestFile.bytes)

theorem wf_flushingOver : flushingOver.WF := by
  have hasc : ∀ f : DataFile K V, Ascending (records K V f.bytes) := fun f ↦ by
    rw [f.records_bytes]
    exact f.ascending
  exact (wf_flushing.write (by simp) fun _ _ ↦ hasc _).write (by simp) fun _ _ ↦ hasc _

theorem read_flushingOver (i : Fin numFiles) : flushingOver.fs.read (File.filesys i).path =
    if i = 1 then secondOldestFile.bytes else if i = 0 then oldestFile.bytes
    else timeStr (Pod.sizeof (K × V)) (0 : DaySecond) := by
  rw [FS.read, flushingOver, Store.fs_withFS, content_write_path, Store.fs_withFS, content_write_path]
  simp only [File.filesys.injEq]
  split_ifs
  · rfl
  · rfl
  · exact congrArg (Option.getD · []) (content_freshStore (fun _ ↦ (0 : DaySecond)) 9 (.filesys i))

/-- The second oldest file has a tombstone for one of the keys of the oldest. -/
theorem adjust_refines_flushingOver :
    records K V (flushingOver.fs.read (File.filesys (flushingOver.recent + 1)).path) =
      [(numbered 1, oneV), (numbered 2, oneV)] ∧
    records K V (flushingOver.fs.read (File.filesys (flushingOver.recent + 2)).path) =
      [(numbered 1, tombstone V), (numbered 3, oneV)] ∧
    ∃ s', adjust (someEnv 1) flushingOver = some s' ∧ (∀ k, s'.abstractMap k = flushingOver.abstractMap k) ∧
      (∀ i, IsDataFile K V (s'.fs.read (File.filesys i).path) ∧
        128 ∣ (s'.fs.read (File.filesys i).path).length) ∧
      (∀ i, i ≠ flushingOver.recent + 1 → i ≠ flushingOver.recent + 2 →
        s'.fs.content (File.filesys i).path = flushingOver.fs.content (File.filesys i).path) ∧
      s'.recent = flushingOver.recent + 1 ∧
      ∀ r ∈ records K V (s'.fs.read (File.filesys (s'.recent + 1)).path), isTomb r.2 = false := by
  have hfiles : ∀ i, IsDataFile K V (flushingOver.fs.read (File.filesys i).path) := by
    intro i
    rw [read_flushingOver]
    split_ifs
    · exact ⟨_, rfl⟩
    · exact ⟨_, rfl⟩
    · exact ⟨⟨_, [], length_timeStr le_sizeof (0 : DaySecond), ascending_nil⟩, by simp [DataFile.bytes]⟩
  have hrecent : flushingOver.recent = 9 := rfl
  refine ⟨?_, ?_, adjust_refines flushingOver wf_flushingOver hfiles oneNode rfl (someEnv 1)⟩
  · rw [hrecent, read_flushingOver, if_neg (by decide), if_pos (by decide), oldestFile.records_bytes]
    rfl
  · rw [hrecent, read_flushingOver, if_pos (by decide), secondOldestFile.records_bytes]
    rfl

/-! ## What `dbread` answers before and after -/

/-- `dbread` of the key gives the same answer before and after `adjust`. -/
def FlushKeeps (env : Env Time) (s : Store) (k : K) : Prop :=
  ∃ s' v c c', adjust env s = some s' ∧ dbread k s = some (v, c) ∧ dbread k s' = some (v, c')

/-- If the newest record of the key is a tombstone, `dbread` does not find the key. -/
def ReadsDeleted (s : Store) (k : K) : Prop :=
  newest s.layers k = some (tombstone V) → ∃ c, dbread k s = some (none, c)

/-- The bits of every stored key are set. -/
def Store.BloomCovers (s : Store) : Prop :=
  ∀ k v, newest s.layers k = some v → s.bloom.get k = true

theorem dbread_of_covers (h : s.WF) (hbloom : s.BloomCovers) (k : K) :
    ∃ c, dbread k s = some (newest s.layers k, c) ∧ Store.Cached s c := by
  obtain ⟨c, hc, hcached⟩ := dbread_eq h k
  refine ⟨c, ?_, hcached⟩
  rw [hc]
  split_ifs with hb
  · rfl
  · cases hn : newest s.layers k with
    | none => rfl
    | some v => exact absurd (hbloom k v hn) hb

/-- A tombstone is returned like any other value. -/
theorem readsDeleted_iff (h : s.WF) (hbloom : s.BloomCovers) (k : K) :
    ReadsDeleted s k ↔ newest s.layers k ≠ some (tombstone V) := by
  obtain ⟨c, hc, -⟩ := dbread_of_covers h hbloom k
  constructor
  · intro hread htomb
    obtain ⟨c', hc'⟩ := hread htomb
    rw [hc, htomb] at hc'
    cases hc'
  · exact fun hne htomb ↦ absurd htomb hne

/-- **A flush keeps the answer, and deletions are respected, exactly for the keys that are not
deleted.**

`dbread` does not look at what it finds, so it delivers the reserved value while a tombstone is the newest
record of the key.  A merge drops the tombstone, and then it finds nothing.  For all other keys the answer
does not change. -/
theorem adjust_dbread_iff (s : Store) (h : s.WF) (hbloom : s.BloomCovers) (t : BinaryTree K V)
    (ht : s.reserve = some t) (env : Env Time) (k : K) :
    FlushKeeps env s k ∧ ReadsDeleted s k ↔ newest s.layers k ≠ some (tombstone V) := by
  refine ⟨fun hk ↦ (readsDeleted_iff h hbloom k).mp hk.2, fun hk ↦ ⟨?_, fun htomb ↦ absurd htomb hk⟩⟩
  obtain ⟨c, hc, -⟩ := dbread_of_covers h hbloom k
  obtain ⟨c', hc', -⟩ := dbread_eq (h.adjusted env ht) k
  refine ⟨_, _, c, c', adjust_eq env h ht, hc, ?_⟩
  rw [hc', newest_adjusted env h ht hk, bloom_adjusted]
  split_ifs with hb
  · rfl
  · cases hn : newest s.layers k with
    | none => rfl
    | some v => exact absurd (hbloom k v hn) hb

end Adjust

/-- Nothing is stored but what the tree of `flushing` has. -/
theorem newest_flushing (k : K) : newest flushing.layers k = oneNode.lookup k := by
  have hfresh := fresh_freshStore (fun _ ↦ (0 : DaySecond)) 9
  have hfile : newest ((ring 9).map flushing.file) k = none := by
    rw [newest_eq_none_iff]
    intro l hl
    obtain ⟨i, -, rfl⟩ := List.mem_map.mp hl
    exact hfresh.file_eq i k
  have hbintree : flushing.bintree.lookup k = none := BinaryTree.lookup_of_nil hfresh.bintree k
  change newest ((flushing.bintree.lookup :: [oneNode.lookup]) ++ (ring 9).map flushing.file) k = _
  rw [newest_append, hfile, newest_cons, hbintree]
  simp

/-- The store with `reserve` on its way, after its one key was written with the reserved value. -/
def deleted : Store := dbwrite zeroK (tombstone V) flushing

theorem newest_deleted (k : K) :
    newest deleted.layers k = if k = zeroK then some (tombstone V) else none := by
  rw [deleted, newest_dbwrite _ _ wf_flushing, newest_flushing, oneNode,
    BinaryTree.lookup_insert BinaryTree.wf_empty, BinaryTree.lookup_of_nil rfl]
  split_ifs <;> rfl

theorem covers_deleted : deleted.BloomCovers := by
  intro k v hk
  rw [newest_deleted] at hk
  split_ifs at hk with hz
  rw [hz]
  exact bloom_dbwrite_self _ _ wf_flushing

/-- In the same store, another key. -/
theorem adjust_dbread_iff_deleted : FlushKeeps (someEnv 1) deleted ⟨⟨List.replicate 8 1, rfl⟩⟩ ∧
    ReadsDeleted deleted ⟨⟨List.replicate 8 1, rfl⟩⟩ ↔
      newest deleted.layers ⟨⟨List.replicate 8 1, rfl⟩⟩ ≠ some (tombstone V) :=
  adjust_dbread_iff deleted (wf_flushing.dbwrite _ _) covers_deleted oneNode rfl (someEnv 1) _

/-- **A deleted key is found**: `dbread` delivers the reserved value. -/
theorem dbread_returns_tombstone : deleted.WF ∧ deleted.BloomCovers ∧ deleted.reserve = some oneNode ∧
    ¬(FlushKeeps (someEnv 1) deleted zeroK ∧ ReadsDeleted deleted zeroK) := by
  refine ⟨wf_flushing.dbwrite _ _, covers_deleted, rfl, fun hboth ↦ ?_⟩
  refine (readsDeleted_iff (s := deleted) (wf_flushing.dbwrite _ _) covers_deleted zeroK).mp
    hboth.2 ?_
  rw [newest_deleted, if_pos rfl]

end Master

end ScratchStore
