import ScratchStore.Master.Ring
import ScratchStore.RBTree.Recovery

/-!
# What the operations of `adjust` do

Each operation of `adjust` succeeds on a well-formed store, and its equation names the one file it
writes.  The first five are writes to `tempfile` and to the second oldest file; the dump writes the
oldest file and the log of `reserve`; the last one clears a backup.

Put together, `adjust_layers` says what a completed `adjust` does to the layers of the store: the two
oldest files become one, compacted, and `reserve` becomes the newest file.

## How it is put together

* `AdjustOp.after` is what an operation leaves, as one write to one file, and `AdjustOp.run_eq` that it gets
  there.  Nobody else needs to open the definitions of the operations.
* `runOps_take` composes the ones before the dump.  They differ from each other only in `tempfile` and the
  second oldest file, so the disk after the first `j` of them is written down once, as `stageFS`.
* `content_adjusted` lists what the whole `adjust` leaves of each file but the logs, and `files_adjusted` is the
  same for their maps, in the order of the ring.

The dump writes two files, since the tree puts a `_sync_` record in its log.  Which log that is does not follow
from the store being well formed, only that it is neither a data file nor the Bloom filter's
(`BinaryTree.LogsAside`), and so `content_dumped` is about all files but that log.
-/

set_option autoImplicit false

namespace ScratchStore

namespace Master

open SortedAssoc FileIO Layers

/-! ## Writing one file

The names of the files are different (`File.path_inj`), so a write to one leaves the maps of the others
alone. -/

@[simp] theorem content_write_path (fs : FS) (f g : File) (bs : Bytes) :
    (fs.write f.path bs).content g.path = if g = f then some bs else fs.content g.path := by
  split_ifs with h
  · rw [h, FS.content_write_self]
  · exact FS.content_write_of_ne (by simpa using h) bs

@[simp] theorem read_write_path (fs : FS) (f g : File) (bs : Bytes) :
    (fs.write f.path bs).read g.path = if g = f then bs else fs.read g.path := by
  rw [FS.read, content_write_path]
  split_ifs <;> rfl

/-- Writing a file changes the map of that file only. -/
theorem fileAt_write (fs : FS) (f : File) (bs : Bytes) (i : Fin numFiles) :
    fileAt (fs.write f.path bs) i = if File.filesys i = f then fileMap K V bs else fileAt fs i := by
  rw [fileAt, read_write_path]
  split_ifs <;> rfl

theorem isSome_content_write {fs : FS} {f g : File} (bs : Bytes) (h : (fs.content g.path).isSome) :
    ((fs.write f.path bs).content g.path).isSome := FS.isSome_write h

theorem FilesOk.write {fs : FS} (h : FilesOk fs) (f : File) {bs : Bytes}
    (hbs : ∀ i, f = File.filesys i → Ascending (records K V bs)) : FilesOk (fs.write f.path bs) := by
  intro i
  rw [content_write_path]
  split_ifs with hi
  · exact ⟨bs, rfl, hbs i hi.symm⟩
  · exact h i

namespace Store

variable {s : Store}

/-- Replacing the disk by one that still has what the store needs. -/
theorem WF.withFS (h : s.WF) {fs : FS} (hw : fs.writable = s.fs.writable) (hfiles : FilesOk fs)
    (hsome : ∀ f : File, (s.fs.content f.path).isSome → (fs.content f.path).isSome)
    (hbloom : fs.content File.bloomdump.path = s.fs.content File.bloomdump.path) : (s.withFS fs).WF where
  quiet := h.quiet.with_fs fs
  writable name := by rw [fs_withFS, hw]; exact h.writable name
  files := hfiles
  tempfile := hsome _ h.tempfile
  backups i := hsome _ (h.backups i)
  bintree := h.bintree
  bintreeLog := h.bintreeLog
  reserve := h.reserve
  reserveLog := h.reserveLog
  bloom := h.bloom.congr (h.bloomName ▸ hbloom)
  bloomName := h.bloomName

/-- Writing a file other than the Bloom filter's keeps the store well formed. -/
theorem WF.write (h : s.WF) {f : File} (hf : f ≠ .bloomdump) {bs : Bytes}
    (hbs : ∀ i, f = File.filesys i → Ascending (records K V bs)) :
    (s.withFS (s.fs.write f.path bs)).WF := by
  refine h.withFS rfl (h.files.write f hbs) (fun g hg ↦ isSome_content_write bs hg) ?_
  rw [content_write_path, if_neg hf.symm]

theorem WF.ascending (h : s.WF) (i : Fin numFiles) :
    Ascending (records K V (s.fs.read (File.filesys i).path)) := by
  obtain ⟨bs, hbs, hasc⟩ := h.files i
  rw [FS.read, hbs]
  exact hasc

theorem WF.content_filesys (h : s.WF) (i : Fin numFiles) :
    s.fs.content (File.filesys i).path = some (s.fs.read (File.filesys i).path) := by
  obtain ⟨bs, hbs, -⟩ := h.files i
  rw [FS.read, hbs]; rfl

theorem WF.content_tempfile (h : s.WF) :
    s.fs.content File.tempfile.path = some (s.fs.read File.tempfile.path) := by
  obtain ⟨bs, hbs⟩ := Option.isSome_iff_exists.mp h.tempfile
  rw [FS.read, hbs]; rfl

end Store

/-! ## The operations

On a well-formed store all the files are there and can be opened, so no operation fails. -/

variable {Time : Type} [TimeFormat Time] {s : Store}

theorem resizeZero_eq {fs : FS} {name : String} (h : (fs.content name).isSome) :
    fs.resizeZero name = some (fs.write name []) := by
  obtain ⟨bs, hbs⟩ := Option.isSome_iff_exists.mp h
  rw [FS.resizeZero, hbs]
  rfl

theorem fopenWrite_eq (h : s.WF) (name : String) : s.fs.fopenWrite name = some (s.fs.write name []) := by
  rw [FS.fopenWrite, if_pos (h.writable name)]

theorem emptyTemp_eq (h : s.WF) :
    emptyTemp s = some (s.withFS (s.fs.write File.tempfile.path [])) := by
  rw [emptyTemp, resizeZero_eq h.tempfile, Option.map_some]

theorem copy_eq (h : s.WF) : copy s = some (s.withFS (s.fs.write File.tempfile.path
    (s.fs.read (File.filesys (s.recent + 2)).path))) := by
  rw [copy, fopenWrite_eq h]
  simp

theorem truncate_eq (h : s.WF) :
    truncate s = some (s.withFS (s.fs.write (File.filesys (s.recent + 2)).path [])) := by
  have hsome : (s.fs.content (File.filesys (s.recent + 2)).path).isSome := by
    rw [h.content_filesys]; rfl
  rw [truncate, resizeZero_eq hsome, Option.map_some]

/-- The contents of the two files `merge_files` reads, when `adjust` calls it. -/
def Store.mergeInputs (s : Store) : Option (Bytes × Bytes) :=
  (s.fs.content File.tempfile.path).bind fun oldest2 ↦
    (s.fs.content (File.filesys (s.recent + 1)).path).map fun oldest1 ↦ (oldest2, oldest1)

omit [TimeFormat Time] in
/-- The merge depends on nothing else. -/
theorem merge_eq_mergeInputs (env : Env Time) (s : Store) :
    merge env s = s.mergeInputs.bind fun (oldest2, oldest1) ↦
      (s.fs.fopenWrite (File.filesys (s.recent + 2)).path).map fun fs ↦
        s.withFS (fs.write (File.filesys (s.recent + 2)).path (mergeFiles env.unset oldest2 oldest1)) := by
  simp only [merge, Store.mergeInputs, Option.bind_assoc, Option.bind_map]
  rfl

omit [TimeFormat Time] in
theorem merge_eq (h : s.WF) (env : Env Time) :
    merge env s = some (s.withFS (s.fs.write (File.filesys (s.recent + 2)).path
      (mergeFiles env.unset (s.fs.read File.tempfile.path)
        (s.fs.read (File.filesys (s.recent + 1)).path)))) := by
  have hinputs : s.mergeInputs =
      some (s.fs.read File.tempfile.path, s.fs.read (File.filesys (s.recent + 1)).path) := by
    rw [Store.mergeInputs, h.content_tempfile, Option.bind_some, h.content_filesys, Option.map_some]
  rw [merge_eq_mergeInputs, hinputs, Option.bind_some]
  dsimp only
  rw [fopenWrite_eq h, Option.map_some, FS.write_write]

/-- The store after the dump of `t`. -/
def dumped (env : Env Time) (s : Store) (t : BinaryTree K V) : Store :=
  let d := t.dump ⟨(File.filesys (s.recent + 1)).path, 0, true⟩ env.now env.dummy
    (s.fs.write (File.filesys (s.recent + 1)).path [])
  { s.withFS d.2 with reserve := some d.1 }

theorem dump_eq (h : s.WF) (env : Env Time) {t : BinaryTree K V} (ht : s.reserve = some t) :
    dump env s = some (dumped env s t) := by
  rw [dump, fopenWrite_eq h, Option.bind_some, ht, Option.map_some]
  rfl

/-- The store after the section under `memlock`. -/
def retired (s : Store) : Store :=
  { s.withFS (s.fs.write (File.backups (s.current + 1)).path []) with
    recent := s.recent + 1, reserve := none }

theorem retire_eq (h : s.WF) : retire s = some (retired s) := by
  rw [retire, resizeZero_eq (h.backups _), Option.map_some]
  rfl

/-- The store after one operation, when `reserve` is `t`. -/
def AdjustOp.after (env : Env Time) (s : Store) (t : BinaryTree K V) : AdjustOp → Store
  | .emptyTemp | .emptyTempAgain => s.withFS (s.fs.write File.tempfile.path [])
  | .copy => s.withFS (s.fs.write File.tempfile.path (s.fs.read (File.filesys (s.recent + 2)).path))
  | .truncate => s.withFS (s.fs.write (File.filesys (s.recent + 2)).path [])
  | .merge => s.withFS (s.fs.write (File.filesys (s.recent + 2)).path
      (mergeFiles env.unset (s.fs.read File.tempfile.path) (s.fs.read (File.filesys (s.recent + 1)).path)))
  | .dump => dumped env s t
  | .retire => retired s

/-- **Every operation succeeds** on a well-formed store with a `reserve`. -/
theorem AdjustOp.run_eq (h : s.WF) (env : Env Time) {t : BinaryTree K V} (ht : s.reserve = some t)
    (op : AdjustOp) : op.run env s = some (op.after env s t) := by
  cases op with
  | emptyTemp | emptyTempAgain => exact emptyTemp_eq h
  | copy => exact copy_eq h
  | truncate => exact truncate_eq h
  | merge => exact merge_eq h env
  | dump => exact dump_eq h env ht
  | retire => exact retire_eq h

/-! ### They keep the store well formed -/

theorem Store.WF.emptyTemp (h : s.WF) : (s.withFS (s.fs.write File.tempfile.path [])).WF :=
  h.write (by simp) (by simp)

theorem Store.WF.copy (h : s.WF) (bs : Bytes) : (s.withFS (s.fs.write File.tempfile.path bs)).WF :=
  h.write (by simp) (by simp)

theorem Store.WF.truncate (h : s.WF) (i : Fin numFiles) :
    (s.withFS (s.fs.write (File.filesys i).path [])).WF := h.write (by simp) (by simp)

theorem Store.WF.merge (h : s.WF) (unset : Uninitialised K V) (i : Fin numFiles) {d2 d1 : Bytes}
    (h2 : Ascending (records K V d2)) (h1 : Ascending (records K V d1)) :
    (s.withFS (s.fs.write (File.filesys i).path (mergeFiles unset d2 d1))).WF := by
  refine h.write (by simp) fun _ _ ↦ ?_
  rw [records_mergeFiles]
  exact h2.overlay h1

section Dump

variable (env : Env Time) {t : BinaryTree K V}

/-- What is on disk after the dump: the oldest file is the tree, and besides only the log of the tree
has changed. -/
theorem content_dumped (f : File) (hf : t.logName ≠ some f.path) :
    (dumped env s t).fs.content f.path =
      if f = .filesys (s.recent + 1) then some (t.dumpBytes env.now) else s.fs.content f.path := by
  have hend : WFile.AtEnd ⟨(File.filesys (s.recent + 1)).path, 0, true⟩
      (s.fs.write (File.filesys (s.recent + 1)).path []) :=
    ⟨rfl, [], FS.content_write_self _ _ _, rfl⟩
  have hfs := BinaryTree.onlyLog_dump t ⟨(File.filesys (s.recent + 1)).path, 0, true⟩ env.now
    env.dummy (s.fs.write (File.filesys (s.recent + 1)).path [])
  have hcontent := hfs.content_eq f.path hf
  rw [FS.fwrite_of_atEnd hend] at hcontent
  rw [dumped, Store.fs]
  refine hcontent.trans ?_
  simp

theorem fileAt_dumped (ht : t.LogsAside) (hwf : t.WF) (i : Fin numFiles) :
    fileAt (dumped env s t).fs i = if i = s.recent + 1 then t.lookup else fileAt s.fs i := by
  rw [fileAt, FS.read, content_dumped env _ (ht.1 i)]
  by_cases hi : i = s.recent + 1
  · rw [if_pos (by rw [hi]), if_pos hi]
    exact BinaryTree.fileMap_dumpBytes le_sizeof hwf env.now
  · rw [if_neg (by simpa using hi), if_neg hi]
    rfl

/-- The ring after the dump, from the file that is the newest now. -/
theorem files_dumped (ht : t.LogsAside) (hwf : t.WF) :
    (ring (s.recent + 1)).map (dumped env s t).file =
      t.lookup :: ((newer s.recent).map s.file ++ [s.file (s.recent + 2)]) := by
  have hfile : ∀ i, (dumped env s t).file i = if i = s.recent + 1 then t.lookup else s.file i :=
    fileAt_dumped env ht hwf
  have hnewer : (newer s.recent).map (dumped env s t).file = (newer s.recent).map s.file := by
    refine List.map_congr_left ?_
    intro i hi
    rw [hfile, if_neg]
    rintro rfl
    exact (not_mem_newer _).2 hi
  rw [ring_add_one, List.map_cons, List.map_append, hnewer, List.map_singleton, hfile, if_pos rfl,
    hfile, if_neg (add_two_ne_add_one _)]

/-- The tree that was dumped has the same contents and the same log. -/
theorem reserve_dumped : ∃ t', (dumped env s t).reserve = some t' ∧ t'.root = t.root ∧
    t'.size = t.size ∧ t'.logName = t.logName ∧ (t.WF → t'.WF) := by
  refine ⟨_, rfl, BinaryTree.root_dump _ _ _ _ _, ?_, ?_, fun h ↦ h.dump _ _ _ _⟩
  · rw [BinaryTree.dump]; simp
  · exact (BinaryTree.onlyLog_dump t _ env.now env.dummy _).logName_eq

theorem Store.WF.dumped (h : s.WF) (ht : s.reserve = some t) : (Master.dumped env s t).WF := by
  have hwf := h.reserve t ht
  have haside := h.reserveLog t ht
  obtain ⟨t', ht', -, -, hlog, hwf'⟩ := reserve_dumped (s := s) env (t := t)
  have hfs := BinaryTree.onlyLog_dump t ⟨(File.filesys (s.recent + 1)).path, 0, true⟩ env.now
    env.dummy (s.fs.write (File.filesys (s.recent + 1)).path [])
  have hwritable : (Master.dumped env s t).fs.writable = s.fs.writable := by
    refine hfs.writable_eq.trans ?_
    rw [FS.fwrite]
    split_ifs <;> rfl
  have hsome : ∀ f : File, (s.fs.content f.path).isSome →
      ((Master.dumped env s t).fs.content f.path).isSome := by
    intro f hf
    refine hfs.isSome_content _ ?_
    rw [FS.fwrite]
    split_ifs
    · exact FS.isSome_write (FS.isSome_write hf)
    · exact FS.isSome_write hf
  have hfiles : FilesOk (Master.dumped env s t).fs := by
    intro i
    rw [content_dumped env _ (haside.1 i)]
    by_cases hi : File.filesys i = .filesys (s.recent + 1)
    · refine ⟨_, if_pos hi, ?_⟩
      rw [BinaryTree.records_dumpBytes le_sizeof]
      exact hwf.ascending.map_snd fun _ w ↦ w.1
    · rw [if_neg hi]
      exact h.files i
  have hbloom : (Master.dumped env s t).fs.content File.bloomdump.path =
      s.fs.content File.bloomdump.path := by
    rw [content_dumped env _ haside.2, if_neg (by simp)]
  have hbase := h.withFS hwritable hfiles hsome hbloom
  refine ⟨hbase.quiet, hbase.writable, hbase.files, hbase.tempfile, hbase.backups, hbase.bintree,
    hbase.bintreeLog, fun u hu ↦ ?_, fun u hu ↦ ?_, hbase.bloom, hbase.bloomName⟩
  · rw [ht'] at hu
    cases hu
    exact hwf' hwf
  · rw [ht'] at hu
    cases hu
    exact ⟨fun i ↦ hlog ▸ haside.1 i, hlog ▸ haside.2⟩

end Dump

theorem Store.WF.retired (h : s.WF) : (Master.retired s).WF := by
  have hbase := h.write (f := .backups (s.current + 1)) (by simp)
    (show ∀ i, _ → Ascending (records K V []) by simp)
  exact ⟨hbase.quiet, hbase.writable, hbase.files, hbase.tempfile, hbase.backups, hbase.bintree,
    hbase.bintreeLog, by simp [Master.retired], by simp [Master.retired], hbase.bloom,
    hbase.bloomName⟩

/-! ## The whole of `adjust` -/

section Adjust

variable (env : Env Time) {t : BinaryTree K V}

/-- The disk before the dump: the two oldest files are merged into one of them. -/
def compactedFS (s : Store) : FS :=
  ((s.fs.write File.tempfile.path (s.fs.read (File.filesys (s.recent + 2)).path)).write
    (File.filesys (s.recent + 2)).path
      (mergeFiles env.unset (s.fs.read (File.filesys (s.recent + 2)).path)
        (s.fs.read (File.filesys (s.recent + 1)).path))).write File.tempfile.path []

/-- The store after `adjust` has written `t`. -/
def adjusted (s : Store) (t : BinaryTree K V) : Store :=
  retired (dumped env (s.withFS (compactedFS env s)) t)

omit [TimeFormat Time] in
theorem Store.WF.compacted (h : s.WF) : (s.withFS (compactedFS env s)).WF := by
  have h1 := h.copy (s.fs.read (File.filesys (s.recent + 2)).path)
  have h2 := h1.merge env.unset (s.recent + 2) (h.ascending (s.recent + 2)) (h.ascending (s.recent + 1))
  exact h2.emptyTemp

theorem Store.WF.adjusted (h : s.WF) (ht : s.reserve = some t) : (Master.adjusted env s t).WF :=
  ((h.compacted env).dumped env ht).retired

/-- The disk after the first `j` operations, up to the dump. -/
def stageFS (s : Store) (j : ℕ) : FS :=
  let temp := File.tempfile.path
  let second := File.filesys (s.recent + 2)
  let copied := s.fs.write temp (s.fs.read second.path)
  match j with
  | 0 => s.fs
  | 1 => s.fs.write temp []
  | 2 => copied
  | 3 => copied.write second.path []
  | 4 => copied.write second.path (mergeFiles env.unset (s.fs.read second.path)
      (s.fs.read (File.filesys (s.recent + 1)).path))
  | _ => compactedFS env s

/-- **The operations before the dump.** -/
theorem runOps_take (h : s.WF) {j : ℕ} (hj : j ≤ 5) :
    runOps env (adjustOps.take j) s = some (s.withFS (stageFS env s j)) := by
  have h1 := h.emptyTemp
  have h2 := h.copy (s.fs.read (File.filesys (s.recent + 2)).path)
  have h3 := h2.truncate (s.recent + 2)
  have h4 := h3.merge env.unset (s.recent + 2) (h.ascending (s.recent + 2)) (h.ascending (s.recent + 1))
  have hne : s.recent + 1 ≠ s.recent + 2 := (add_two_ne_add_one s.recent).symm
  have e2 := copy_eq h1
  have e3 := truncate_eq h2
  have e4 := merge_eq h3 env
  have e5 := emptyTemp_eq h4
  simp only [Store.withFS_withFS, Store.fs_withFS, Store.recent_withFS, FS.write_write,
    read_write_path, File.filesys.injEq, hne, reduceCtorEq, if_true, if_false] at e2 e3 e4 e5
  interval_cases j <;>
    simp only [adjustOps, List.take_zero, List.take_succ_cons, runOps, List.foldlM_cons,
      List.foldlM_nil, AdjustOp.run, emptyTemp_eq h, Option.bind_eq_bind, Option.bind_some, e2, e3, e4,
      e5] <;> rfl

omit [TimeFormat Time] in
theorem Store.WF.stage (h : s.WF) {j : ℕ} (hj : j ≤ 5) : (s.withFS (stageFS env s j)).WF := by
  have h2 := h.copy (s.fs.read (File.filesys (s.recent + 2)).path)
  interval_cases j
  · exact h
  · exact h.emptyTemp
  · exact h2
  · exact h2.truncate (s.recent + 2)
  · exact h2.merge env.unset (s.recent + 2) (h.ascending (s.recent + 2)) (h.ascending (s.recent + 1))
  · exact h.compacted env

/-- **`adjust` succeeds** on a well-formed store with a `reserve`. -/
theorem adjust_eq (h : s.WF) (ht : s.reserve = some t) : adjust env s = some (adjusted env s t) := by
  have hsplit : adjustOps = [.emptyTemp, .copy, .truncate, .merge, .emptyTempAgain] ++
      [.dump, .retire] := rfl
  have h5 := h.compacted env
  have hcompact := runOps_take env h (j := 5) le_rfl
  rw [runOps, show adjustOps.take 5 = [.emptyTemp, .copy, .truncate, .merge, .emptyTempAgain] from rfl,
    show stageFS env s 5 = compactedFS env s from rfl] at hcompact
  rw [adjust, hsplit, runOps, List.foldlM_append, hcompact]
  simp only [Option.bind_eq_bind, Option.bind_some, List.foldlM_cons, List.foldlM_nil, AdjustOp.run,
    dump_eq h5 env (t := t) ht, retire_eq (h5.dumped env ht)]
  rfl

/-! ### What it leaves -/

/-- What `adjust` leaves of a file that is not a log: the oldest is the tree, the second oldest is the
merge of both, the others are as they were. -/
theorem content_adjusted (h : s.WF) (ht : s.reserve = some t) (i : Fin numFiles) :
    (adjusted env s t).fs.content (File.filesys i).path =
      if i = s.recent + 1 then some (t.dumpBytes env.now)
      else if i = s.recent + 2 then
        some (mergeFiles env.unset (s.fs.read (File.filesys (s.recent + 2)).path)
          (s.fs.read (File.filesys (s.recent + 1)).path))
      else s.fs.content (File.filesys i).path := by
  have haside := h.reserveLog t ht
  have hretire : (adjusted env s t).fs.content (File.filesys i).path =
      (dumped env (s.withFS (compactedFS env s)) t).fs.content (File.filesys i).path := by
    rw [adjusted, retired, Store.fs]
    exact FS.content_write_of_ne (by simp) _
  rw [hretire, content_dumped env _ (haside.1 i)]
  simp [compactedFS]

/-- The maps of the files after `adjust`. -/
theorem file_adjusted (h : s.WF) (ht : s.reserve = some t) (i : Fin numFiles) :
    (adjusted env s t).file i =
      if i = s.recent + 1 then t.lookup
      else if i = s.recent + 2 then compact isTomb (s.file (s.recent + 2)) (s.file (s.recent + 1))
      else s.file i := by
  rw [Store.file, fileAt, FS.read, content_adjusted env h ht]
  split_ifs with h1 h2
  · exact BinaryTree.fileMap_dumpBytes le_sizeof (h.reserve t ht) env.now
  · exact fileMap_mergeFiles env.unset (h.ascending _) (h.ascending _)
  · rfl

@[simp] theorem bintree_adjusted : (adjusted env s t).bintree = s.bintree := rfl
@[simp] theorem reserve_adjusted : (adjusted env s t).reserve = none := rfl
@[simp] theorem bloom_adjusted : (adjusted env s t).bloom = s.bloom := rfl
@[simp] theorem recent_adjusted : (adjusted env s t).recent = s.recent + 1 := rfl
@[simp] theorem current_adjusted : (adjusted env s t).current = s.current := rfl

/-- **The ring after `adjust`**: `reserve` in front, the two oldest files compacted at the end. -/
theorem files_adjusted (h : s.WF) (ht : s.reserve = some t) :
    (ring (adjusted env s t).recent).map (adjusted env s t).file =
      t.lookup :: ((newer s.recent).map s.file ++
        [compact isTomb (s.file (s.recent + 2)) (s.file (s.recent + 1))]) := by
  have hnewer : (newer s.recent).map (adjusted env s t).file = (newer s.recent).map s.file := by
    refine List.map_congr_left ?_
    intro i hi
    rw [file_adjusted env h ht, if_neg, if_neg]
    · rintro rfl; exact (not_mem_newer _).1 hi
    · rintro rfl; exact (not_mem_newer _).2 hi
  rw [recent_adjusted, ring_add_one, List.map_cons, List.map_append, hnewer, List.map_singleton,
    file_adjusted env h ht, if_pos rfl, file_adjusted env h ht, if_neg (add_two_ne_add_one _),
    if_pos rfl]

end Adjust

end Master

end ScratchStore
