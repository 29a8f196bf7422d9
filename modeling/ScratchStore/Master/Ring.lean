import Mathlib.Data.Fintype.Basic
import ScratchStore.Master.Store

/-!
# The layers of the store

A key is looked up in the tree, then in `reserve`, then in the files from the newest to the
oldest: `Store.layers` is that stack of maps, and `dbread_eq` says that `dbread` answers from the
newest map of the stack that has the key.

`Store.WF` is what every operation keeps, each single operation of `adjust` included.  It does not
ask for the files to have a header: a file may be empty for a while.  For each operation of
`adjust` there is one equation with the disk it leaves.

## Why a file may be empty

While `adjust` runs, the second oldest file is emptied and filled again, and other threads see it in between.
So `Store.WF` asks of a file only that it is there and that the keys of its records ascend, which an empty one
satisfies; that nothing is lost meanwhile is for those to say who know how far `adjust` has got
(`Threads.Inv`).

The block cache does not change any answer, and `Cached` is the relation between the store before and after a
lookup that says so.
-/

set_option autoImplicit false

namespace ScratchStore

namespace Master

open SortedAssoc FileIO Layers

theorem sizeof_dvd : Pod.sizeof (K × V) ∣ blkSize := by rw [sizeof_KV]; decide

theorem le_sizeof : 19 ≤ Pod.sizeof (K × V) := by rw [sizeof_KV]; decide

/-! ## The ring -/

/-- The files that are read without a lock, newest first. -/
def newer (r : Fin numFiles) : List (Fin numFiles) :=
  [r, r - 1, r - 2, r - 3, r - 4, r - 5, r - 6, r - 7]

/-- All files, newest first. -/
def ring (r : Fin numFiles) : List (Fin numFiles) := newer r ++ [r + 2, r + 1]

theorem slots_cons {i stop : Fin numFiles} (h : i ≠ stop) : slots i stop = i :: slots (i - 1) stop := by
  rw [slots, if_neg h]

theorem slots_self (i : Fin numFiles) : slots i i = [] := by rw [slots, if_pos rfl]

/-- The first loop of `dbread`. -/
theorem slots_newer (r : Fin numFiles) : slots r (r + 2) = newer r := by
  have hne : ∀ r : Fin numFiles, r ≠ r + 2 ∧ r - 1 ≠ r + 2 ∧ r - 2 ≠ r + 2 ∧ r - 3 ≠ r + 2 ∧
      r - 4 ≠ r + 2 ∧ r - 5 ≠ r + 2 ∧ r - 6 ≠ r + 2 ∧ r - 7 ≠ r + 2 := by decide
  have hsub : ∀ r : Fin numFiles, r - 1 - 1 = r - 2 ∧ r - 2 - 1 = r - 3 ∧ r - 3 - 1 = r - 4 ∧
      r - 4 - 1 = r - 5 ∧ r - 5 - 1 = r - 6 ∧ r - 6 - 1 = r - 7 ∧ r - 7 - 1 = r + 2 := by decide
  obtain ⟨h0, h1, h2, h3, h4, h5, h6, h7⟩ := hne r
  obtain ⟨e1, e2, e3, e4, e5, e6, e7⟩ := hsub r
  rw [slots_cons h0, slots_cons h1, e1, slots_cons h2, e2, slots_cons h3, e3, slots_cons h4, e4,
    slots_cons h5, e5, slots_cons h6, e6, slots_cons h7, e7, slots_self, newer]

/-- The second loop. -/
theorem slots_oldest (r : Fin numFiles) : slots (r + 2) r = [r + 2, r + 1] := by
  have hne : ∀ r : Fin numFiles, r + 2 ≠ r ∧ r + 1 ≠ r ∧ r + 2 - 1 = r + 1 ∧ r + 1 - 1 = r := by
    decide
  obtain ⟨h2, h1, e1, e0⟩ := hne r
  rw [slots_cons h2, e1, slots_cons h1, e0, slots_self]

theorem mem_ring : ∀ r i, i ∈ ring r := by decide

theorem not_mem_newer : ∀ r, r + 2 ∉ newer r ∧ r + 1 ∉ newer r := by decide

theorem add_two_ne_add_one : ∀ r : Fin numFiles, r + 2 ≠ r + 1 := by decide

/-- After `recent` has moved on, the oldest file is the newest and the rest keep their order. -/
theorem ring_add_one : ∀ r, ring (r + 1) = (r + 1) :: (newer r ++ [r + 2]) := by decide

/-! ## Well-formed stores -/

end Master

/-- The tree writes to no data file and not to the Bloom filter's file. -/
def BinaryTree.LogsAside {K V : Type} (t : BinaryTree K V) : Prop :=
  (∀ i, t.logName ≠ some (Master.File.filesys i).path) ∧
    t.logName ≠ some Master.File.bloomdump.path

namespace Master

open SortedAssoc FileIO Layers

/-- The data files are there and their keys ascend. -/
def FilesOk (fs : FS) : Prop :=
  ∀ i, ∃ bs, fs.content (File.filesys i).path = some bs ∧ Ascending (records K V bs)

/-- The map of one file of the ring. -/
def fileAt (fs : FS) (i : Fin numFiles) : K → Option V :=
  fileMap K V (fs.read (File.filesys i).path)

/-- What every operation keeps. -/
structure Store.WF (s : Store) : Prop where
  /-- No file is left open by a lookup. -/
  quiet : s.sys.Quiet
  writable : ∀ name, s.fs.writable name = true
  /-- The files of the ring are there, with keys in order. -/
  files : FilesOk s.fs
  tempfile : (s.fs.content File.tempfile.path).isSome
  backups : ∀ i, (s.fs.content (File.backups i).path).isSome
  bintree : s.bintree.WF
  /-- A tree writes to neither a data file nor the Bloom filter's file. -/
  bintreeLog : s.bintree.LogsAside
  reserve : ∀ t, s.reserve = some t → t.WF
  reserveLog : ∀ t, s.reserve = some t → t.LogsAside
  /-- The Bloom filter is what its file has. -/
  bloom : s.bloom.Mirrors s.fs
  bloomName : s.bloom.fname = File.bloomdump.path

namespace Store

variable {s : Store}

/-- The map of one file. -/
def file (s : Store) (i : Fin numFiles) : K → Option V := fileAt s.fs i

/-- The maps in memory, newest first. -/
def memory (s : Store) : List (K → Option V) :=
  s.bintree.lookup :: s.reserve.toList.map BinaryTree.lookup

/-- All maps, newest first. -/
def layers (s : Store) : List (K → Option V) := s.memory ++ (ring s.recent).map s.file

/-- The two stores differ in the block cache and the descriptors only. -/
structure Cached (s s' : Store) : Prop where
  sys_eq : ∃ sys, s' = { s with sys := sys }
  fs_eq : s'.fs = s.fs
  quiet : s'.sys.Quiet

theorem WF.cached {s s' : Store} (h : s.WF) (hc : Cached s s') : s'.WF := by
  obtain ⟨⟨sys, rfl⟩, hfs, hq⟩ := hc
  change sys.fs = s.fs at hfs
  exact ⟨hq, fun name ↦ by rw [show Store.fs _ = sys.fs from rfl, hfs]; exact h.writable name,
    show FilesOk sys.fs by rw [hfs]; exact h.files,
    show (sys.fs.content _).isSome by rw [hfs]; exact h.tempfile,
    fun i ↦ show (sys.fs.content _).isSome by rw [hfs]; exact h.backups i,
    h.bintree, h.bintreeLog, h.reserve, h.reserveLog,
    show s.bloom.Mirrors sys.fs by rw [hfs]; exact h.bloom, h.bloomName⟩

theorem Cached.refl (h : s.sys.Quiet) : Cached s s := ⟨⟨s.sys, rfl⟩, rfl, h⟩

theorem Cached.trans {s₁ s₂ s₃ : Store} (h : Cached s₁ s₂) (h' : Cached s₂ s₃) : Cached s₁ s₃ := by
  obtain ⟨⟨sys, rfl⟩, hfs, -⟩ := h
  obtain ⟨⟨sys', rfl⟩, hfs', hq⟩ := h'
  exact ⟨⟨sys', rfl⟩, hfs'.trans hfs, hq⟩

theorem Cached.file_eq {s s' : Store} (h : Cached s s') : s'.file = s.file := by
  funext i
  rw [file, h.fs_eq, file]

theorem Cached.layers_eq {s s' : Store} (h : Cached s s') : s'.layers = s.layers := by
  have hfile := h.file_eq
  obtain ⟨⟨sys, rfl⟩, -, -⟩ := h
  rw [layers, layers, hfile]
  rfl

end Store

/-! ## Reading

The answer does not depend on the block cache, and a lookup leaves everything but the cache as it was.
-/

/-- One lookup in the ring. -/
theorem lookupFile_filesys {sys : Sys} (hq : sys.Quiet) (hfiles : FilesOk sys.fs) (i : Fin numFiles)
    (k : K) :
    ∃ sys', lookupFile V (File.filesys i).path k sys =
        some (fileAt sys.fs i k, sys') ∧
      sys'.Quiet ∧ sys'.fs = sys.fs := by
  obtain ⟨bs, hbs, hasc⟩ := hfiles i
  obtain ⟨sys', heq, hq', hfs⟩ := lookupFile_eq sizeof_dvd hq hbs hasc k
  exact ⟨sys', by rw [heq, fileAt, FS.read, hbs]; rfl, hq', hfs⟩

/-- Searching some files in turn. -/
theorem scan_eq {sys : Sys} (hq : sys.Quiet) (hfiles : FilesOk sys.fs) (k : K)
    (is : List (Fin numFiles)) :
    ∃ sys', scan k is sys =
        some (newest (is.map (fileAt sys.fs)) k, sys') ∧
      sys'.Quiet ∧ sys'.fs = sys.fs := by
  induction is generalizing sys with
  | nil => exact ⟨sys, rfl, hq, rfl⟩
  | cons i is ih =>
    obtain ⟨sys₁, heq₁, hq₁, hfs₁⟩ := lookupFile_filesys hq hfiles i k
    rw [scan, heq₁, List.map_cons, newest_cons, Option.bind_some]
    dsimp only
    cases fileAt sys.fs i k with
    | some v => exact ⟨sys₁, rfl, hq₁, hfs₁⟩
    | none =>
      obtain ⟨sys₂, heq₂, hq₂, hfs₂⟩ := ih hq₁ (hfs₁.symm ▸ hfiles)
      exact ⟨sys₂, by rw [heq₂, hfs₁]; rfl, hq₂, hfs₂.trans hfs₁⟩

/-- What the section under `memlock` finds. -/
theorem readMemory_eq (s : Store) (k : K) :
    readMemory k s = if s.bloom.get k = true then (newest s.memory k).map some else some none := by
  rw [readMemory]
  cases s.bloom.get k with
  | false => rfl
  | true =>
    rw [Store.memory, newest_cons, BinaryTree.lookup]
    cases s.bintree.search k with
    | some n => rfl
    | none =>
      cases s.reserve with
      | none => rfl
      | some t =>
        rw [Option.bind_some, Option.toList_some, List.map_singleton, newest_cons, BinaryTree.lookup]
        cases t.search k <;> rfl

/-- **`dbread` answers from the newest layer that has the key**, if the Bloom filter lets it. -/
theorem dbread_eq {s : Store} (h : s.WF) (k : K) :
    ∃ s', dbread k s = some (if s.bloom.get k = true then newest s.layers k else none, s') ∧
      Store.Cached s s' := by
  have hrefl := Store.Cached.refl h.quiet
  rw [dbread, readMemory_eq]
  split_ifs with hb
  · cases hmem : newest s.memory k with
    | some v => exact ⟨s, by simp [Store.layers, hmem], hrefl⟩
    | none =>
      obtain ⟨sys₁, heq₁, hq₁, hfs₁⟩ := scan_eq h.quiet h.files k (slots s.recent (s.recent + 2))
      have hnew : newest s.layers k = (newest ((newer s.recent).map (fileAt s.fs)) k).or
          (newest ([s.recent + 2, s.recent + 1].map (fileAt s.fs)) k) := by
        rw [Store.layers, newest_append, hmem, Option.none_or, ring, List.map_append, newest_append]
        rfl
      rw [slots_newer] at heq₁
      simp only [Option.map_none, slots_newer, slots_oldest, heq₁, Option.bind_some, hnew]
      cases newest ((newer s.recent).map (fileAt s.fs)) k with
      | some v => exact ⟨_, rfl, ⟨sys₁, rfl⟩, hfs₁, hq₁⟩
      | none =>
        obtain ⟨sys₂, heq₂, hq₂, hfs₂⟩ :=
          scan_eq hq₁ (hfs₁.symm ▸ h.files) k [s.recent + 2, s.recent + 1]
        refine ⟨{ s with sys := sys₂ }, ?_, ⟨sys₂, rfl⟩, hfs₂.trans hfs₁, hq₂⟩
        dsimp only
        rw [heq₂, hfs₁]
        rfl
  · exact ⟨s, rfl, hrefl⟩

end Master

end ScratchStore
