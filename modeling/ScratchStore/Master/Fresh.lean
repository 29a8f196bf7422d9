import ScratchStore.Master.Adjust

/-!
# A fresh store

`Fresh` is the state of a store nothing has been written to: files that are a header only, an empty
Bloom filter, an empty tree on a fresh log and no `reserve`.  The times in the headers, the position in
the ring and the state of the clock are arbitrary.

`freshStore` is such a store, on a disk that has nothing else.

They are arbitrary so that one statement covers every position the constructor's scan may have found.

`flushing` has a tree that is about to be written, for examples in which `adjust` has something to do.
-/

set_option autoImplicit false

namespace ScratchStore

namespace Master

open SortedAssoc FileIO Layers

variable {Time : Type} [TimeFormat Time]

/-- Nothing has been written to the store. -/
structure Fresh (Time : Type) [TimeFormat Time] (s : Store) : Prop where
  wf : s.WF
  /-- Each file is a header. -/
  headers : ∀ i, ∃ time : Time,
    s.fs.content (File.filesys i).path = some (timeStr (Pod.sizeof (K × V)) time)
  /-- No bit is set. -/
  bloom : s.bloom.arr = List.replicate bloomBytes 0
  bintree : s.bintree.root = .nil
  /-- The log of the tree is open and replays to it. -/
  bintreeLog : s.bintree.Backed s.fs (File.backups s.current).path
  reserve : s.reserve = none
  /-- The other log has been cleared. -/
  otherLog : s.fs.content (File.backups (s.current + 1)).path = some []

theorem records_timeStr (time : Time) : records K V (timeStr (Pod.sizeof (K × V)) time) = [] := by
  simpa using records_append (length_timeStr le_sizeof time) ([] : List (K × V)) [] Pod.sizeof_pos

/-- The files of a fresh store are empty. -/
theorem Fresh.file_eq {s : Store} (h : Fresh Time s) (i : Fin numFiles) (k : K) : s.file i k = none := by
  obtain ⟨time, htime⟩ := h.headers i
  rw [Store.file, fileAt, FS.read, htime, Option.getD_some, fileMap, records_timeStr]
  rfl

/-- Nothing is found in a fresh store. -/
theorem Fresh.newest_eq {s : Store} (h : Fresh Time s) (k : K) : newest s.layers k = none := by
  rw [newest_eq_none_iff]
  intro l hl
  rw [Store.layers, Store.memory, h.reserve, List.mem_append] at hl
  rcases hl with hl | hl
  · obtain rfl : l = s.bintree.lookup := by simpa using hl
    rw [BinaryTree.lookup_eq h.wf.bintree, h.bintree]
    rfl
  · obtain ⟨i, -, rfl⟩ := List.mem_map.mp hl
    exact h.file_eq i k

/-! ## A fresh store -/

/-- The disk of a fresh store. -/
def freshFS (times : Fin numFiles → Time) : FS where
  content name :=
    if name = File.bloomdump.path then some (List.replicate bloomBytes 0)
    else if name = File.tempfile.path ∨ name = (File.backups 0).path ∨
      name = (File.backups 1).path then some []
    else ((List.finRange numFiles).find? fun i ↦ decide ((File.filesys i).path = name)).map fun i ↦
      timeStr (Pod.sizeof (K × V)) (times i)
  writable _ := true

/-- A fresh store. -/
def freshStore (times : Fin numFiles → Time) (recent : Fin numFiles) : Store :=
  let t := BinaryTree.ofLogFile (File.backups 0).path (freshFS times)
  ⟨t.1, none, ⟨List.replicate bloomBytes 0, File.bloomdump.path, ⟨File.bloomdump.path, 0, true⟩⟩,
    recent, 0, ⟨t.2, [], Pool.initial⟩⟩

theorem path_ne_empty (f : File) : f.path ≠ "" := by
  have h : ∀ i, (File.filesys i).path ≠ "" := by decide
  have h' : ∀ i, (File.backups i).path ≠ "" := by decide
  cases f with
  | filesys i => exact h i
  | backups i => exact h' i
  | bloomdump => decide
  | tempfile => decide

theorem content_freshFS (times : Fin numFiles → Time) (i : Fin numFiles) :
    (freshFS times).content (File.filesys i).path =
      some (timeStr (Pod.sizeof (K × V)) (times i)) := by
  have hfind : ∀ i : Fin numFiles, (List.finRange numFiles).find? (fun j ↦ decide (j = i)) = some i := by
    decide
  simp only [freshFS, File.path_inj, reduceCtorEq, or_self, if_false, File.filesys.injEq, hfind,
    Option.map_some]

theorem fs_freshStore (times : Fin numFiles → Time) (recent : Fin numFiles) :
    (freshStore times recent).fs = (freshFS times).write (File.backups 0).path [] := by
  change (BinaryTree.setLogFile (BinaryTree.empty : BinaryTree K V) (File.backups 0).path
    (freshFS times)).2 = _
  exact BinaryTree.setLogFile_snd _ (path_ne_empty _) rfl

theorem content_freshStore (times : Fin numFiles → Time) (recent : Fin numFiles) (f : File) :
    (freshStore times recent).fs.content f.path = match f with
      | .filesys i => some (timeStr (Pod.sizeof (K × V)) (times i))
      | .bloomdump => some (List.replicate bloomBytes 0)
      | _ => some [] := by
  rw [fs_freshStore, content_write_path]
  cases f with
  | filesys i => simp [content_freshFS]
  | backups i =>
    obtain rfl | rfl : i = 0 ∨ i = 1 := by omega
    · simp
    · simp [freshFS]
  | bloomdump => simp [freshFS]
  | tempfile => simp [freshFS]

/-- **A fresh store exists**, for all times and every position in the ring. -/
theorem fresh_freshStore (times : Fin numFiles → Time) (recent : Fin numFiles) :
    Fresh Time (freshStore times recent) := by
  have hc := content_freshStore times recent
  have hback : (freshStore times recent).bintree.Backed (freshStore times recent).fs
      (File.backups 0).path := by
    change (BinaryTree.setLogFile (BinaryTree.empty : BinaryTree K V) (File.backups 0).path
      (freshFS times)).1.Backed (BinaryTree.setLogFile (BinaryTree.empty : BinaryTree K V)
        (File.backups 0).path (freshFS times)).2 _
    exact BinaryTree.backed_setLogFile rfl rfl (path_ne_empty _) rfl
  obtain ⟨es, hlog, -⟩ := hback.exists_log
  have hroot : (freshStore times recent).bintree.root = .nil := BinaryTree.root_setLogFile _ _ _
  have haside : (freshStore times recent).bintree.LogsAside := by
    rw [BinaryTree.LogsAside, hlog.logName_eq]
    simp
  refine ⟨⟨⟨Pool.ok_initial, fun _ ↦ by simp [freshStore, Pool.initial]⟩, fun _ ↦ ?_, fun i ↦ ?_,
    by rw [hc]; rfl, fun i ↦ by rw [hc]; rfl, hback.wf, haside, by simp [freshStore],
    by simp [freshStore], ⟨by simp [freshStore], rfl, rfl, hc .bloomdump⟩, rfl⟩,
    fun i ↦ ⟨times i, hc _⟩, rfl, hroot, hback, rfl, hc _⟩
  · rw [fs_freshStore]; rfl
  · exact ⟨_, hc _, by rw [records_timeStr]; exact ascending_nil⟩

/-- A well-formed store may get another `reserve`. -/
theorem Store.WF.with_reserve {s : Store} (h : s.WF) {t : BinaryTree K V} (ht : t.WF)
    (hlog : t.LogsAside) : Store.WF { s with reserve := some t } :=
  ⟨h.quiet, h.writable, h.files, h.tempfile, h.backups, h.bintree, h.bintreeLog,
    by rintro u ⟨⟩; exact ht, by rintro u ⟨⟩; exact hlog, h.bloom, h.bloomName⟩

/-! ## Something to run examples with -/

/-- A time and some contents of unset variables. -/
def someEnv (now : DaySecond) : Env DaySecond :=
  ⟨now, ⟨List.replicate (Pod.sizeof (K × V)) 0, List.length_replicate, (zeroK, zeroV), (zeroK, zeroV)⟩,
    (zeroK, zeroV)⟩

theorem zeroV_ne_tombstone : zeroV ≠ tombstone V := by
  intro h
  have htomb : isTomb zeroV = true := isTomb_iff.mpr h
  revert htomb
  decide

theorem oneV_ne : oneV ≠ tombstone V ∧ zeroV ≠ oneV := by
  refine ⟨fun h ↦ ?_, by decide⟩
  have htomb : isTomb oneV = true := isTomb_iff.mpr h
  revert htomb
  decide

/-- Enough keys for a swap. -/
def someKeys : List K := (List.range maxTreeSize).map numbered

theorem nodup_someKeys : someKeys.Nodup := by
  refine List.Nodup.map_on (fun m hm n hn h ↦ ?_) List.nodup_range
  have hsize : maxTreeSize = 1024 := rfl
  rw [List.mem_range, hsize] at hm hn
  exact numbered_inj (by omega) (by omega) h

theorem length_someKeys : someKeys.length = maxTreeSize := by
  rw [someKeys, List.length_map, List.length_range]

theorem mem_someKeys {n : ℕ} (hn : n < maxTreeSize) : numbered n ∈ someKeys := by
  rw [someKeys]
  exact List.mem_map_of_mem (List.mem_range.mpr hn)

theorem not_mem_someKeys : numbered maxTreeSize ∉ someKeys := by
  intro hmem
  rw [someKeys] at hmem
  obtain ⟨n, hn, heq⟩ := List.mem_map.mp hmem
  have hsize : maxTreeSize = 1024 := rfl
  rw [List.mem_range, hsize] at hn
  have hnat := numbered_inj (by omega) (by rw [hsize]; omega) heq
  omega

/-- A tree with one node and no log. -/
def oneNode : BinaryTree K V := (BinaryTree.empty.insert zeroK zeroV FS.blank).1

theorem wf_oneNode : oneNode.WF := BinaryTree.wf_empty.insert _ _ _

theorem logsAside_oneNode : oneNode.LogsAside := by
  have hlog : oneNode.logName = none :=
    (BinaryTree.onlyLog_insert BinaryTree.empty zeroK zeroV FS.blank).logName_eq
  rw [BinaryTree.LogsAside, hlog]
  simp

/-- A fresh store that is about to write that tree. -/
def flushing : Store := { freshStore (fun _ ↦ (0 : DaySecond)) 9 with reserve := some oneNode }

theorem wf_flushing : flushing.WF :=
  (fresh_freshStore _ 9).wf.with_reserve wf_oneNode logsAside_oneNode

end Master

end ScratchStore
