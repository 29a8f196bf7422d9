import ScratchStore.Master.Constructor

/-!
# Making the files

The program of `fs.cpp` makes the files a store starts with: an empty Bloom filter, ten dumps of an
empty tree, a second apart, and two empty logs.  It makes no `tempfile`, the constructor does.  From
what it leaves the constructor arrives at the empty map: `makeFS_recoverable`.

The files are dumps of a tree without nodes, so they have a header and no record.  The program waits for a
second before each of them, and so the times ascend from the first file to the last, which is the one the
constructor takes for the newest.
-/

set_option autoImplicit false

namespace ScratchStore

namespace Master

open SortedAssoc FileIO Layers

variable {Time : Type} [TimeFormat Time]

/-- One round of the loop: create a file and dump the tree to it. -/
def makeFile (now : Time) (dummy : K × K) (i : Fin numFiles) (made : BinaryTree K K × FS) :
    Option (BinaryTree K K × FS) :=
  (made.2.fopenWrite (File.filesys i).path).map fun fs ↦
    made.1.dump ⟨(File.filesys i).path, 0, true⟩ now dummy fs

/-- The loop, which sleeps for a second before each file. -/
def makeFiles (times : Fin numFiles → Time) (dummy : K × K) :
    List (Fin numFiles) → BinaryTree K K × FS → Option (BinaryTree K K × FS)
  | [], made => some made
  | i :: is, made => (makeFile (times i) dummy i made).bind (makeFiles times dummy is)

/-- `main` of `fs.cpp`. -/
def makeFS (times : Fin numFiles → Time) (dummy : K × K) (fs : FS) : Option FS :=
  (BloomFile.create K File.bloomdump.path false false fs).bind fun bloom ↦
    (makeFiles times dummy (List.finRange numFiles) (BinaryTree.empty, bloom.2)).map fun made ↦
      let backup0 := made.1.setLogFile (File.backups 0).path made.2
      (backup0.1.setLogFile (File.backups 1).path backup0.2).2

/-! ## What it leaves -/

/-- A tree without nodes and without a log. -/
structure Bare (t : BinaryTree K K) : Prop where
  root : t.root = .nil
  logfile : t.logfile = none

theorem makeFile_eq {t : BinaryTree K K} (h : Bare t) {fs : FS} (hw : ∀ name, fs.writable name = true)
    (now : Time) (dummy : K × K) (i : Fin numFiles) :
    ∃ t', makeFile now dummy i (t, fs) =
        some (t', fs.write (File.filesys i).path (timeStr (Pod.sizeof (K × V)) now)) ∧ Bare t' := by
  have hend : WFile.AtEnd ⟨(File.filesys i).path, 0, true⟩ (fs.write (File.filesys i).path []) :=
    ⟨rfl, [], FS.content_write_self _ _ _, rfl⟩
  have hbytes : t.dumpBytes now = timeStr (Pod.sizeof (K × V)) now := by
    rw [BinaryTree.dumpBytes_eq, h.root]
    exact List.append_nil _
  refine ⟨{ t with stk := [], traversalStarted := false }, ?_, h.root, h.logfile⟩
  rw [makeFile, FS.fopenWrite, if_pos (hw _), Option.map_some, BinaryTree.dump, FS.fwrite_of_atEnd hend,
    FS.read_write_self, FS.write_write, List.nil_append, hbytes, BinaryTree.logAction, h.logfile]

theorem makeFiles_eq (times : Fin numFiles → Time) (dummy : K × K) (is : List (Fin numFiles))
    {t : BinaryTree K K} (h : Bare t) {fs : FS} (hw : ∀ name, fs.writable name = true) :
    ∃ t' fs', makeFiles times dummy is (t, fs) = some (t', fs') ∧ Bare t' ∧
      (∀ name, fs'.writable name = true) ∧
      (∀ i ∈ is, fs'.content (File.filesys i).path = some (timeStr (Pod.sizeof (K × V)) (times i))) ∧
      ∀ f : File, (∀ i ∈ is, f ≠ .filesys i) → fs'.content f.path = fs.content f.path := by
  induction is generalizing t fs with
  | nil => exact ⟨t, fs, rfl, h, hw, by simp, fun _ _ ↦ rfl⟩
  | cons i is ih =>
    obtain ⟨t₁, h₁, hbare₁⟩ := makeFile_eq h hw (times i) dummy i
    have hwrite : ∀ name, (fs.write (File.filesys i).path
        (timeStr (Pod.sizeof (K × V)) (times i))).writable name = true := hw
    obtain ⟨t', fs', hmade, hbare, hw', hfiles, hother⟩ := ih hbare₁ hwrite
    refine ⟨t', fs', by rw [makeFiles, h₁, Option.bind_some, hmade], hbare, hw', fun i' hi' ↦ ?_,
      fun f hf ↦ ?_⟩
    · by_cases hmem : i' ∈ is
      · exact hfiles i' hmem
      · obtain rfl := (List.mem_cons.mp hi').resolve_right hmem
        rw [hother _ fun j hj ↦ by rintro ⟨⟩; exact hmem hj, FS.content_write_self]
    · rw [hother f fun j hj ↦ hf j (List.mem_cons_of_mem _ hj), content_write_path,
        if_neg (hf i List.mem_cons_self)]

/-- What `fs.cpp` leaves on a disk. -/
structure Made (times : Fin numFiles → Time) (fs : FS) : Prop where
  writable : ∀ name, fs.writable name = true
  files : ∀ i, fs.content (File.filesys i).path = some (timeStr (Pod.sizeof (K × V)) (times i))
  backups : ∀ i, fs.content (File.backups i).path = some []
  bloomdump : fs.content File.bloomdump.path = some (List.replicate bloomBytes 0)

theorem makeFS_eq {fs : FS} (hw : ∀ name, fs.writable name = true) (times : Fin numFiles → Time)
    (dummy : K × K) : ∃ fs', makeFS times dummy fs = some fs' ∧ Made times fs' := by
  have hsize : ¬Pod.sizeof K < 48 := by decide
  have hlen : (List.replicate bloomBytes (0 : UInt8)).length = bloomBytes := List.length_replicate
  obtain ⟨f, hcreate, -⟩ := BloomFile.writeArr_eq hlen (hw File.bloomdump.path)
  have hwrite : ∀ name,
      (fs.write File.bloomdump.path (List.replicate bloomBytes 0)).writable name = true := hw
  have hbare : Bare BinaryTree.empty := ⟨rfl, rfl⟩
  obtain ⟨t, fs₁, hmade, -, hw₁, hfiles, hother⟩ :=
    makeFiles_eq times dummy (List.finRange numFiles) hbare hwrite
  have hw₂ : ∀ name, (fs₁.write (File.backups 0).path []).writable name = true := hw₁
  refine ⟨(fs₁.write (File.backups 0).path []).write (File.backups 1).path [], ?_, hw₂, fun i ↦ ?_,
    fun i ↦ ?_, ?_⟩
  · have hbloom : BloomFile.create K File.bloomdump.path false false fs =
        some (⟨List.replicate bloomBytes 0, File.bloomdump.path, f⟩,
          fs.write File.bloomdump.path (List.replicate bloomBytes 0)) := by
      rw [BloomFile.create, if_neg (by simp), if_neg hsize]
      exact hcreate
    rw [makeFS, hbloom, Option.bind_some, hmade, Option.map_some]
    dsimp only
    rw [BinaryTree.setLogFile_snd t (path_ne_empty _) (hw₁ _),
      BinaryTree.setLogFile_snd _ (path_ne_empty _) (hw₂ _)]
  · rw [content_write_path, if_neg (by simp), content_write_path, if_neg (by simp)]
    exact hfiles i (List.mem_finRange i)
  · obtain rfl | rfl : i = 0 ∨ i = 1 := by omega
    · rw [content_write_path, if_neg (by simp), content_write_path, if_pos rfl]
    · rw [content_write_path, if_pos rfl]
  · rw [content_write_path, if_neg (by simp), content_write_path, if_neg (by simp),
      hother .bloomdump (by simp), FS.content_write_self]

theorem Made.ringBytes_eq {times : Fin numFiles → Time} {fs : FS} (h : Made times fs) (i : Fin numFiles) :
    ringBytes fs i = timeStr (Pod.sizeof (K × V)) (times i) := by
  rw [ringBytes, FS.read, h.files, Option.getD_some]

theorem Made.headerTime_eq {times : Fin numFiles → Time} {fs : FS} (h : Made times fs) (i : Fin numFiles) :
    headerTime Time (ringBytes fs i) = times i := by
  have hlen : (timeStr (Pod.sizeof (K × V)) (times i)).length = 128 := length_timeStr le_sizeof _
  rw [h.ringBytes_eq, headerTime, List.take_of_length_le hlen.le]
  simpa using mktime_timeStr (Pod.sizeof (K × V)) (times i) []

theorem Made.fileAt_eq {times : Fin numFiles → Time} {fs : FS} (h : Made times fs) (i : Fin numFiles) :
    fileAt fs i = fun _ ↦ none := by
  change fileMap K V (ringBytes fs i) = _
  rw [h.ringBytes_eq]
  funext k
  rw [fileMap, records_timeStr]
  rfl

/-- **From what `fs.cpp` leaves** the constructor arrives at the empty map. -/
theorem Made.recoverable [LinearOrder Time] {times : Fin numFiles → Time} {fs : FS} (h : Made times fs)
    (htimes : StrictMono times) :
    Recoverable Time fs 9 (List.replicate bloomBytes 0) fun _ ↦ none := by
  have hlog : ∀ i, LogHas fs i fun _ ↦ none := fun i ↦ logHas_of_empty (h.backups i)
  have hnext : ∀ i : Fin numFiles, i ≠ 9 → i < i + 1 := by decide
  refine ⟨h.writable, ⟨fun i ↦ ?_, fun i hi ↦ ?_⟩, fun i ↦ (hlog i).self, List.length_replicate,
    h.bloomdump, fun k ↦ congrArg _ ?_⟩
  · rw [h.ringBytes_eq]
    exact ⟨⟨_, [], length_timeStr le_sizeof (times i), ascending_nil⟩, by simp [DataFile.bytes]⟩
  · rw [h.headerTime_eq, h.headerTime_eq]
    exact htimes (hnext i hi)
  · rw [newest_eq_none_iff, diskLayers, (hlog 1).logAt_eq, (hlog 0).logAt_eq]
    simp [h.fileAt_eq]

end Master

end ScratchStore
