import ScratchStore.Master.Fresh

/-!
# Writing and swapping

A `dbwrite` puts the key in front of everything the store has for it, and a swap only moves the tree
one layer down.  Both write logs and the Bloom filter's file, and leave the data files alone.

Neither of them is interrupted by another thread, since both are under `memlock`, and so each is one equation
for what the store says about a key afterwards.
-/

set_option autoImplicit false

namespace ScratchStore

open SortedAssoc Layers

namespace BinaryTree

variable {K V : Type} [LinearOrder K] [Pod K] [Pod V]

/-- Looking up after an insertion. -/
theorem lookup_insert {t : BinaryTree K V} (h : t.WF) (k : K) (v : V) (fs : FS) (k' : K) :
    (t.insert k v fs).1.lookup k' = if k' = k then some v else t.lookup k' := by
  rw [lookup_eq (h.insert k v fs), lookup_eq h, entries_insert h.ascending]
  split_ifs with hk
  · rw [hk, lookup_upsert_self h.ascending]; rfl
  · rw [lookup_upsert_of_ne h.ascending hk]

omit [Pod K] [Pod V] in
theorem lookup_of_nil {t : BinaryTree K V} (h : t.root = .nil) (k : K) : t.lookup k = none := by
  rw [lookup, search, searchNode, h]
  rfl

end BinaryTree

namespace Master

open FileIO

variable {s : Store}

/-! ## `dbwrite` -/

section Write

variable (k : K) (v : V)

@[simp] theorem reserve_dbwrite : (dbwrite k v s).reserve = s.reserve := rfl
@[simp] theorem recent_dbwrite : (dbwrite k v s).recent = s.recent := rfl
@[simp] theorem current_dbwrite : (dbwrite k v s).current = s.current := rfl

theorem bintree_dbwrite : (dbwrite k v s).bintree = (s.bintree.insert k v s.fs).1 := rfl

theorem bloom_dbwrite :
    (dbwrite k v s).bloom = (s.bloom.set k (s.bintree.insert k v s.fs).2).1 := rfl

theorem fs_dbwrite : (dbwrite k v s).fs = (s.bloom.set k (s.bintree.insert k v s.fs).2).2 := rfl

/-- The Bloom filter's file is not the tree's log. -/
theorem mirrors_insert (h : s.WF) : s.bloom.Mirrors (s.bintree.insert k v s.fs).2 :=
  h.bloom.congr ((BinaryTree.onlyLog_insert s.bintree k v s.fs).content_eq _
    (h.bloomName ▸ h.bintreeLog.2))

/-- Only the tree's log and the Bloom filter's file change. -/
theorem content_dbwrite (h : s.WF) (f : File) (hlog : s.bintree.logName ≠ some f.path)
    (hf : f ≠ .bloomdump) : (dbwrite k v s).fs.content f.path = s.fs.content f.path := by
  have hbloom := ((mirrors_insert k v h).set k).2.2.2.2.1 f.path
    (by rw [h.bloomName]; simpa using hf)
  rw [fs_dbwrite]
  exact hbloom.trans ((BinaryTree.onlyLog_insert s.bintree k v s.fs).content_eq _ hlog)

theorem file_dbwrite (h : s.WF) (i : Fin numFiles) : (dbwrite k v s).file i = s.file i := by
  rw [Store.file, fileAt, FS.read, content_dbwrite k v h _ (h.bintreeLog.1 i) (by simp)]
  rfl

theorem lookup_dbwrite (h : s.WF) (k' : K) :
    (dbwrite k v s).bintree.lookup k' = if k' = k then some v else s.bintree.lookup k' := by
  rw [bintree_dbwrite, BinaryTree.lookup_insert h.bintree]

/-- **A write hides what the key had before** and nothing else. -/
theorem newest_dbwrite (h : s.WF) (k' : K) :
    newest (dbwrite k v s).layers k' = if k' = k then some v else newest s.layers k' := by
  have hfiles : (ring s.recent).map (dbwrite k v s).file = (ring s.recent).map s.file :=
    List.map_congr_left fun i _ ↦ file_dbwrite k v h i
  rw [Store.layers, Store.memory, recent_dbwrite, hfiles, reserve_dbwrite, List.cons_append,
    newest_cons, lookup_dbwrite k v h, Store.layers, Store.memory, List.cons_append, newest_cons]
  split_ifs <;> rfl

theorem bloom_dbwrite_self (h : s.WF) : (dbwrite k v s).bloom.get k = true := by
  rw [bloom_dbwrite]
  exact BloomFile.get_set_self (mirrors_insert k v h) k

theorem bloom_dbwrite_of_get (h : s.WF) {k' : K} (hk : s.bloom.get k' = true) :
    (dbwrite k v s).bloom.get k' = true := by
  rw [bloom_dbwrite]
  exact BloomFile.get_set_of_get (mirrors_insert k v h) hk

/-- No file is removed. -/
theorem isSome_content_dbwrite (h : s.WF) (f : File) (hf : (s.fs.content f.path).isSome) :
    ((dbwrite k v s).fs.content f.path).isSome := by
  rw [fs_dbwrite]
  by_cases hb : f = .bloomdump
  · have hm := ((mirrors_insert k v h).set k).1.content_eq
    rw [((mirrors_insert k v h).set k).2.1, h.bloomName] at hm
    rw [hb]
    exact Option.isSome_iff_exists.mpr ⟨_, hm⟩
  · have hins := (BinaryTree.onlyLog_insert s.bintree k v s.fs).isSome_content _ hf
    have hbloom := ((mirrors_insert k v h).set k).2.2.2.2.1 f.path
      (by rw [h.bloomName]; simpa using hb)
    rwa [← hbloom] at hins

theorem Store.WF.dbwrite (h : s.WF) : (Master.dbwrite k v s).WF where
  quiet := h.quiet.with_fs _
  writable name := by
    have hins := (BinaryTree.onlyLog_insert s.bintree k v s.fs).writable_eq
    have hbloom := ((mirrors_insert k v h).set k).2.2.2.2.2
    rw [fs_dbwrite, hbloom, hins]
    exact h.writable name
  files i := by
    rw [content_dbwrite k v h _ (h.bintreeLog.1 i) (by simp)]
    exact h.files i
  tempfile := isSome_content_dbwrite k v h _ h.tempfile
  backups i := isSome_content_dbwrite k v h _ (h.backups i)
  bintree := h.bintree.insert k v s.fs
  bintreeLog := by
    have hlog := (BinaryTree.onlyLog_insert s.bintree k v s.fs).logName_eq
    exact ⟨fun i ↦ by rw [bintree_dbwrite, hlog]; exact h.bintreeLog.1 i,
      by rw [bintree_dbwrite, hlog]; exact h.bintreeLog.2⟩
  reserve := h.reserve
  reserveLog := h.reserveLog
  bloom := by
    rw [bloom_dbwrite, fs_dbwrite]
    exact ((mirrors_insert k v h).set k).1
  bloomName := by
    rw [bloom_dbwrite]
    exact ((mirrors_insert k v h).set k).2.1.trans h.bloomName

end Write

/-! ## The swap -/

/-- The test for a swap asks for `reserve` to be `NULL`. -/
theorem reserve_of_wantsSwap (h : wantsSwap s = true) : s.reserve = none := by
  rw [wantsSwap, Bool.and_eq_true] at h
  exact Option.isNone_iff_eq_none.mp h.2

@[simp] theorem reserve_swap : (swap s).reserve = some s.bintree := rfl
@[simp] theorem recent_swap : (swap s).recent = s.recent := rfl
@[simp] theorem current_swap : (swap s).current = s.current + 1 := rfl
@[simp] theorem bloom_swap : (swap s).bloom = s.bloom := rfl

@[simp] theorem root_swap : (swap s).bintree.root = .nil := by
  change (BinaryTree.setLogFile (BinaryTree.empty : BinaryTree K V) (File.backups (s.current + 1)).path
    s.fs).1.root = _
  exact BinaryTree.root_setLogFile _ _ _

/-- The log of the new tree is emptied. -/
theorem fs_swap (h : s.WF) : (swap s).fs = s.fs.write (File.backups (s.current + 1)).path [] := by
  change (BinaryTree.setLogFile (BinaryTree.empty : BinaryTree K V) (File.backups (s.current + 1)).path
    s.fs).2 = _
  exact BinaryTree.setLogFile_snd _ (path_ne_empty _) (h.writable _)

/-- The new tree is empty and its log is in order. -/
theorem backed_swap (h : s.WF) :
    (swap s).bintree.Backed (swap s).fs (File.backups (s.current + 1)).path := by
  change (BinaryTree.setLogFile (BinaryTree.empty : BinaryTree K V) (File.backups (s.current + 1)).path
    s.fs).1.Backed (BinaryTree.setLogFile (BinaryTree.empty : BinaryTree K V)
      (File.backups (s.current + 1)).path s.fs).2 _
  exact BinaryTree.backed_setLogFile rfl rfl (path_ne_empty _) (h.writable _)

theorem file_swap (h : s.WF) (i : Fin numFiles) : (swap s).file i = s.file i := by
  rw [Store.file, fs_swap h, fileAt_write, if_neg (by simp)]
  rfl

theorem Store.WF.swap (h : s.WF) : (Master.swap s).WF := by
  have hbase := h.write (f := .backups (s.current + 1)) (by simp)
    (show ∀ i, _ → Ascending (records K V []) by simp)
  have hfs := fs_swap h
  obtain ⟨es, hlog, -⟩ := (backed_swap h).exists_log
  have haside : (Master.swap s).bintree.LogsAside := by
    rw [BinaryTree.LogsAside, hlog.logName_eq]
    simp
  exact ⟨h.quiet.with_fs _, hfs ▸ hbase.writable, hfs ▸ hbase.files, hfs ▸ hbase.tempfile,
    hfs ▸ hbase.backups, (backed_swap h).wf, haside, by rintro t ⟨⟩; exact h.bintree,
    by rintro t ⟨⟩; exact h.bintreeLog, hfs ▸ hbase.bloom, hbase.bloomName⟩

/-- **A swap changes no answer.** -/
theorem newest_swap (h : s.WF) (hr : s.reserve = none) (k : K) :
    newest (swap s).layers k = newest s.layers k := by
  have hfiles : (ring s.recent).map (swap s).file = (ring s.recent).map s.file :=
    List.map_congr_left fun i _ ↦ file_swap h i
  rw [Store.layers, Store.memory, recent_swap, hfiles, reserve_swap, List.cons_append, newest_cons,
    BinaryTree.lookup_of_nil root_swap, Option.none_or, Store.layers, Store.memory, hr]
  rfl

end Master

end ScratchStore
