import ScratchStore.Master.Timestamps

/-!
# The constructor's replay of the logs

The constructor loads one backup after the other into a tree and lets `adjust` write it to the ring:
`replayLoop`.  The tree's own log is `tempfile`, which `adjust` uses to copy the second oldest file,
and it stays open while `adjust` empties and fills it.  `Loaded.mergeInputs_eq` says that what is
merged are the files of the ring all the same, and `replayLoop_applies` what the loop makes of the ring.

The Bloom filter is loaded after the loop.  `adjust` looks neither at the filter nor at its file, so
what is known about `adjust` on a whole store is used on a store that has some filter: `mirrored`.

## A log that is somebody else's file

While the constructor loads a log, `tempfile` is the log of the tree that it is loaded into, and has a copy of
every record.  The same file is emptied and filled by `adjust`, through other streams, while the stream of the
tree stays open with the offset it had.  The tree does not write to it between the copy and the merge: all it
writes is the `_sync_` of the dump, and the dump comes after the merge.
-/

set_option autoImplicit false

namespace ScratchStore

namespace Master

open SortedAssoc FileIO Layers

variable {Time : Type} [TimeFormat Time] {s : Store}

/-- What a log says about a key. -/
def logMap (es : List (LogEntry K V)) (k : K) : Option V := ((replay es).lookup k).map Prod.fst

/-! ## `adjust` and the Bloom filter

The constructor calls `adjust` before it loads the filter.  To use what is known about `adjust` on a
whole store, such a store is made up: the same one, with the filter that is going to be loaded and the
file it is loaded from. -/

/-- The same store with another Bloom filter. -/
def Store.withBloom (s : Store) (bloom : BloomFile) : Store := { s with bloom := bloom }

@[simp] theorem fs_withBloom (s : Store) (b : BloomFile) : (s.withBloom b).fs = s.fs := rfl
@[simp] theorem recent_withBloom (s : Store) (b : BloomFile) : (s.withBloom b).recent = s.recent := rfl
@[simp] theorem reserve_withBloom (s : Store) (b : BloomFile) :
    (s.withBloom b).reserve = s.reserve := rfl
@[simp] theorem current_withBloom (s : Store) (b : BloomFile) :
    (s.withBloom b).current = s.current := rfl
@[simp] theorem abstractMap_withBloom (s : Store) (b : BloomFile) :
    (s.withBloom b).abstractMap = s.abstractMap := rfl

theorem run_withBloom (env : Env Time) (b : BloomFile) (op : AdjustOp) (s : Store) :
    op.run env (s.withBloom b) = (op.run env s).map (Store.withBloom · b) := by
  cases op with
  | emptyTemp => simp only [AdjustOp.run, emptyTemp, Option.map_map]; rfl
  | copy => simp only [AdjustOp.run, copy, fs_withBloom, recent_withBloom]; split <;> rfl
  | truncate => simp only [AdjustOp.run, truncate, Option.map_map]; rfl
  | merge =>
    simp only [AdjustOp.run, merge, Option.map_bind, Function.comp_def, Option.map_map]
    rfl
  | emptyTempAgain => simp only [AdjustOp.run, emptyTemp, Option.map_map]; rfl
  | dump =>
    simp only [AdjustOp.run, dump, Option.map_bind, Function.comp_def, Option.map_map]
    rfl
  | retire => simp only [AdjustOp.run, retire, Option.map_map]; rfl

theorem adjust_withBloom (env : Env Time) (b : BloomFile) (s : Store) :
    adjust env (s.withBloom b) = (adjust env s).map (Store.withBloom · b) := by
  rw [adjust, adjust, runOps, runOps]
  induction adjustOps generalizing s with
  | nil => rfl
  | cons op ops ih =>
    rw [List.foldlM_cons, List.foldlM_cons, run_withBloom]
    cases op.run env s with
    | none => rfl
    | some s' => exact ih s'

/-- The Bloom filter the constructor is going to load. -/
def bloomOf (arr : Bytes) : BloomFile := ⟨arr, File.bloomdump.path, ⟨File.bloomdump.path, 0, true⟩⟩

/-- The store with the Bloom filter `arr` and its file. -/
def Store.mirrored (s : Store) (arr : Bytes) : Store :=
  (s.withFS (s.fs.write File.bloomdump.path arr)).withBloom (bloomOf arr)

@[simp] theorem fs_mirrored (s : Store) (arr : Bytes) :
    (s.mirrored arr).fs = s.fs.write File.bloomdump.path arr := rfl
@[simp] theorem recent_mirrored (s : Store) (arr : Bytes) : (s.mirrored arr).recent = s.recent := rfl
@[simp] theorem reserve_mirrored (s : Store) (arr : Bytes) : (s.mirrored arr).reserve = s.reserve := rfl
@[simp] theorem current_mirrored (s : Store) (arr : Bytes) : (s.mirrored arr).current = s.current := rfl

theorem content_mirrored (s : Store) (arr : Bytes) {f : File} (hf : f ≠ .bloomdump) :
    (s.mirrored arr).fs.content f.path = s.fs.content f.path := by
  rw [fs_mirrored, content_write_path, if_neg hf]

theorem read_mirrored (s : Store) (arr : Bytes) {f : File} (hf : f ≠ .bloomdump) :
    (s.mirrored arr).fs.read f.path = s.fs.read f.path := by
  rw [FS.read, content_mirrored s arr hf, FS.read]

theorem file_mirrored (s : Store) (arr : Bytes) : (s.mirrored arr).file = s.file := by
  funext i
  rw [Store.file, fileAt, read_mirrored s arr (by simp)]
  rfl

theorem abstractMap_mirrored (s : Store) (arr : Bytes) :
    (s.mirrored arr).abstractMap = s.abstractMap := by
  funext k
  rw [Store.abstractMap, file_mirrored, Store.abstractMap]
  rfl

theorem write_bloomdump_comm (fs : FS) {f : File} (hf : f ≠ .bloomdump) (bs arr : Bytes) :
    (fs.write File.bloomdump.path arr).write f.path bs =
      (fs.write f.path bs).write File.bloomdump.path arr :=
  FS.write_comm (by simpa using hf.symm) _ _

theorem resizeZero_mirrored (s : Store) (arr : Bytes) {f : File} (hf : f ≠ .bloomdump) :
    (s.mirrored arr).fs.resizeZero f.path =
      (s.fs.resizeZero f.path).map (·.write File.bloomdump.path arr) := by
  rw [FS.resizeZero, content_mirrored s arr hf, FS.resizeZero, Option.map_map]
  refine congrArg (fun g ↦ (s.fs.content f.path).map g) (funext fun _ ↦ ?_)
  exact write_bloomdump_comm _ hf _ _

theorem fopenWrite_mirrored (s : Store) (arr : Bytes) {f : File} (hf : f ≠ .bloomdump) :
    (s.mirrored arr).fs.fopenWrite f.path =
      (s.fs.fopenWrite f.path).map (·.write File.bloomdump.path arr) := by
  rw [FS.fopenWrite, FS.fopenWrite, fs_mirrored, FS.writable_write]
  split_ifs
  · rw [Option.map_some, write_bloomdump_comm _ hf]
  · rfl

/-- **An operation does the same** whatever the Bloom filter and its file are. -/
theorem run_mirrored (env : Env Time) (arr : Bytes) (op : AdjustOp)
    (hlog : ∀ t, s.reserve = some t → t.logName ≠ some File.bloomdump.path) :
    op.run env (s.mirrored arr) = (op.run env s).map (Store.mirrored · arr) := by
  cases op with
  | emptyTemp | emptyTempAgain =>
    simp only [AdjustOp.run, emptyTemp, resizeZero_mirrored s arr (f := .tempfile) (by simp),
      Option.map_map]
    rfl
  | copy =>
    simp only [AdjustOp.run, copy, recent_mirrored,
      fopenWrite_mirrored s arr (f := .tempfile) (by simp),
      read_mirrored s arr (f := .filesys (s.recent + 2)) (by simp)]
    cases s.fs.fopenWrite File.tempfile.path with
    | none => rfl
    | some fs =>
      simp only [Option.map_some, write_bloomdump_comm fs (f := .tempfile) (by simp)]
      rfl
  | truncate =>
    simp only [AdjustOp.run, truncate, recent_mirrored,
      resizeZero_mirrored s arr (f := .filesys (s.recent + 2)) (by simp), Option.map_map]
    rfl
  | merge =>
    simp only [AdjustOp.run, merge, recent_mirrored,
      content_mirrored s arr (f := .tempfile) (by simp),
      content_mirrored s arr (f := .filesys (s.recent + 1)) (by simp),
      fopenWrite_mirrored s arr (f := .filesys (s.recent + 2)) (by simp), Option.map_bind,
      Option.map_map, Function.comp_def, write_bloomdump_comm _ (f := .filesys (s.recent + 2)) (by simp)]
    rfl
  | dump =>
    simp only [AdjustOp.run, dump, recent_mirrored, reserve_mirrored,
      fopenWrite_mirrored s arr (f := .filesys (s.recent + 1)) (by simp), Option.bind_map,
      Option.map_bind, Function.comp_def, Option.map_map]
    refine congrArg (fun g ↦ (s.fs.fopenWrite _).bind g) (funext fun fs ↦ ?_)
    cases hr : s.reserve with
    | none => rfl
    | some t =>
      rw [Option.map_some, Option.map_some, BinaryTree.dump_write_of_ne t env.now env.dummy fs
        (f := ⟨(File.filesys (s.recent + 1)).path, 0, true⟩) (by simp) (hlog t hr)]
      rfl
  | retire =>
    simp only [AdjustOp.run, retire, current_mirrored, recent_mirrored,
      resizeZero_mirrored s arr (f := .backups (s.current + 1)) (by simp), Option.map_map]
    rfl

/-- The log of `reserve` does not become the Bloom filter's file. -/
theorem logName_run {env : Env Time} {op : AdjustOp} {s' : Store} (hrun : op.run env s = some s')
    (hlog : ∀ t, s.reserve = some t → t.logName ≠ some File.bloomdump.path) :
    ∀ t, s'.reserve = some t → t.logName ≠ some File.bloomdump.path := by
  cases op with
  | emptyTemp | truncate | emptyTempAgain =>
    obtain ⟨fs, -, rfl⟩ := Option.map_eq_some_iff.mp hrun
    exact hlog
  | copy =>
    simp only [AdjustOp.run, copy] at hrun
    split at hrun <;> cases hrun <;> exact hlog
  | merge =>
    obtain ⟨oldest2, -, hrun⟩ := Option.bind_eq_some_iff.mp hrun
    obtain ⟨oldest1, -, hrun⟩ := Option.bind_eq_some_iff.mp hrun
    obtain ⟨fs, -, rfl⟩ := Option.map_eq_some_iff.mp hrun
    exact hlog
  | dump =>
    obtain ⟨fs, -, hrun⟩ := Option.bind_eq_some_iff.mp hrun
    obtain ⟨t, ht, rfl⟩ := Option.map_eq_some_iff.mp hrun
    rintro t' ⟨⟩
    rw [(BinaryTree.onlyLog_dump t _ env.now env.dummy fs).logName_eq]
    exact hlog t ht
  | retire =>
    obtain ⟨fs, -, rfl⟩ := Option.map_eq_some_iff.mp hrun
    rintro t ⟨⟩

theorem runOps_mirrored (env : Env Time) (arr : Bytes) (ops : List AdjustOp)
    (hlog : ∀ t, s.reserve = some t → t.logName ≠ some File.bloomdump.path) :
    runOps env ops (s.mirrored arr) = (runOps env ops s).map (Store.mirrored · arr) := by
  rw [runOps, runOps]
  induction ops generalizing s with
  | nil => rfl
  | cons op ops ih =>
    rw [List.foldlM_cons, List.foldlM_cons, run_mirrored env arr op hlog]
    cases hrun : op.run env s with
    | none => rfl
    | some s' => exact ih (logName_run hrun hlog)

/-! ## The files `adjust` leaves alone -/

section Adjust

variable (env : Env Time) {t : BinaryTree K V}

/-- The backup that is not current is cleared. -/
theorem content_adjusted_backup :
    (adjusted env s t).fs.content (File.backups (s.current + 1)).path = some [] := by
  rw [adjusted, retired, Store.fs]
  exact FS.content_write_self _ _ _

/-- The Bloom filter's file and the other backup are as they were. -/
theorem content_adjusted_of_ne (f : File) (hlog : t.logName ≠ some f.path)
    (hfile : ∀ i, f ≠ .filesys i) (htemp : f ≠ .tempfile) (hback : f ≠ .backups (s.current + 1)) :
    (adjusted env s t).fs.content f.path = s.fs.content f.path := by
  have hretire : (adjusted env s t).fs.content f.path =
      (dumped env (s.withFS (compactedFS env s)) t).fs.content f.path := by
    rw [adjusted, retired, Store.fs]
    exact FS.content_write_of_ne (mt File.path_inj.mp hback) _
  rw [hretire, content_dumped env _ hlog, if_neg (hfile _)]
  simp [compactedFS, htemp, hfile]

end Adjust

/-! ## Loading one log

Each record of the log is logged to `tempfile`, since that is the log of the tree it is loaded into. -/

/-- What the loop needs and keeps. -/
structure Replayable (s : Store) : Prop where
  quiet : s.sys.Quiet
  writable : ∀ name, s.fs.writable name = true
  files : FilesOk s.fs
  backups : ∀ i, (s.fs.content (File.backups i).path).isSome
  bintree : s.bintree.WF
  bintreeLog : s.bintree.LogsAside

theorem Replayable.mirrored (h : Replayable s) (htemp : (s.fs.content File.tempfile.path).isSome)
    (hwf : ∀ t, s.reserve = some t → t.WF) (hlog : ∀ t, s.reserve = some t → t.LogsAside)
    {arr : Bytes} (hlen : arr.length = bloomBytes) : (s.mirrored arr).WF where
  quiet := h.quiet.with_fs _
  writable := h.writable
  files := h.files.write .bloomdump (by simp)
  tempfile := isSome_content_write _ htemp
  backups i := isSome_content_write _ (h.backups i)
  bintree := h.bintree
  bintreeLog := h.bintreeLog
  reserve := hwf
  reserveLog := hlog
  bloom := ⟨hlen, rfl, rfl, FS.content_write_self _ _ _⟩
  bloomName := rfl

theorem Replayable.of_mirrored {arr : Bytes} (h : (s.mirrored arr).WF) : Replayable s where
  quiet := ⟨h.quiet.pool, h.quiet.free⟩
  writable := h.writable
  files i := by
    rw [← content_mirrored s arr (f := .filesys i) (by simp)]
    exact h.files i
  backups i := by
    rw [← content_mirrored s arr (f := .backups i) (by simp)]
    exact h.backups i
  bintree := h.bintree
  bintreeLog := h.bintreeLog

/-- The round of the loop up to `adjust`. -/
def loadBackup (fuel : ℕ) (env : Env Time) (i : Fin 2) (s : Store) : Option Store :=
  let reserve := BinaryTree.ofLogFile File.tempfile.path s.fs
  let s := { s.withFS reserve.2 with current := i + 1 }
  match reserve.1.fromFile fuel env.dummy.2 (File.backups i).path env.now s.fs with
  | .error _ => none
  | .ok loaded => some { s.withFS loaded.2 with reserve := some loaded.1 }

theorem writeBackup_eq_bind (fuel : ℕ) (env : Env Time) (i : Fin 2) (s : Store) :
    writeBackup fuel env i s = (loadBackup fuel env i s).bind (adjust env) := by
  have hfs : ∀ s : Store, Store.fs { s with current := i + 1 } = s.fs := fun _ ↦ rfl
  simp only [writeBackup, loadBackup, hfs, Store.fs_withFS]
  cases BinaryTree.fromFile fuel env.dummy.2
      (BinaryTree.ofLogFile File.tempfile.path s.fs : BinaryTree K V × FS).1 (File.backups i).path env.now
      (BinaryTree.ofLogFile File.tempfile.path s.fs : BinaryTree K V × FS).2 with
  | error _ => rfl
  | ok _ => rfl

theorem abstractMap_of_reserve {t : BinaryTree K V} {s s' : Store} (ht : s'.reserve = some t)
    (hr : s.reserve = none) (hrecent : s'.recent = s.recent) (hfile : s'.file = s.file) (k : K) :
    s'.abstractMap k = live isTomb ((t.lookup k).or (s.abstractMap k)) := by
  rw [Store.abstractMap, Store.abstractMap, ht, hr, hrecent, hfile, live_or_live]
  simp

/-- The tree the logs are loaded into: its own log is `tempfile`. -/
theorem ofLogFile_tempfile {fs : FS} (hw : ∀ name, fs.writable name = true) :
    ∃ t : BinaryTree K V, BinaryTree.ofLogFile File.tempfile.path fs =
        (t, fs.write File.tempfile.path []) ∧
      t.logfilename = File.tempfile.path ∧ t.logName = some File.tempfile.path := by
  obtain ⟨es, hlog, -⟩ := (BinaryTree.backed_setLogFile (t := (BinaryTree.empty : BinaryTree K V)) rfl rfl
    (path_ne_empty .tempfile) (hw _)).exists_log
  exact ⟨_, Prod.ext rfl (BinaryTree.setLogFile_snd _ (path_ne_empty _) (hw _)),
    BinaryTree.logfilename_setLogFile _ _ _, hlog.logName_eq⟩

/-- After the log `es` was loaded into `t`. -/
structure Loaded (i : Fin 2) (es : List (LogEntry K V)) (s s₁ : Store) (t : BinaryTree K V) : Prop where
  replayable : Replayable s₁
  reserve : s₁.reserve = some t
  recent : s₁.recent = s.recent
  /-- The other log is the one that `adjust` takes for the log of `bintree`. -/
  current : s₁.current = i + 1
  wf : t.WF
  /-- The log of the loaded tree is the file that `adjust` uses for copying. -/
  logName : t.logName = some File.tempfile.path
  /-- The tree has what the log says. -/
  lookup : ∀ k, t.lookup k = logMap es k
  tempfile : (s₁.fs.content File.tempfile.path).isSome
  /-- No other file was touched. -/
  content : ∀ f : File, f ≠ .tempfile → s₁.fs.content f.path = s.fs.content f.path

/-- **Loading a log** writes nothing but `tempfile`. -/
theorem loadBackup_eq (h : Replayable s) {i : Fin 2} {es : List (LogEntry K V)}
    (hes : s.fs.content (File.backups i).path = some (Pod.encode es)) (env : Env Time) {fuel : ℕ}
    (hfuel : es.length + 2 ≤ fuel) :
    ∃ s₁ t, loadBackup fuel env i s = some s₁ ∧ Loaded i es s s₁ t := by
  obtain ⟨t, ht, hname, hlog⟩ := ofLogFile_tempfile h.writable
  have hne : (File.backups i).path ≠ t.logfilename := by rw [hname]; simp
  have hes' : (s.fs.write File.tempfile.path []).content (File.backups i).path =
      some (Pod.encode es) := by
    rw [content_write_path, if_neg (by simp)]
    exact hes
  obtain ⟨t', fs', hload, hwf', hent, honly⟩ :=
    BinaryTree.fromFile_entries t _ env.now _ env.dummy.2 es hfuel hne hes'
  have hcontent : ∀ f : File, f ≠ .tempfile → fs'.content f.path = s.fs.content f.path := by
    intro f hf
    have hfs' := honly.content_eq f.path (by rw [hlog]; simpa using hf.symm)
    rw [hfs', content_write_path, if_neg hf]
  refine ⟨{ s.withFS fs' with current := i + 1, reserve := some t' }, t', ?_,
    ⟨⟨h.quiet.with_fs fs', fun name ↦ ?_, fun j ↦ ?_, fun j ↦ ?_, h.bintree, h.bintreeLog⟩, rfl, rfl,
      rfl, hwf', honly.logName_eq.trans hlog, fun k ↦ ?_, ?_, hcontent⟩⟩
  · have hfs : ∀ s : Store, Store.fs { s with current := i + 1 } = s.fs := fun _ ↦ rfl
    simp only [loadBackup, ht, Store.fs_withFS, hfs, hload]
    rfl
  · exact (congrFun honly.writable_eq name).trans (h.writable name)
  · rw [show Store.fs _ = fs' from rfl, hcontent _ (by simp)]
    exact h.files j
  · rw [show Store.fs _ = fs' from rfl, hcontent _ (by simp)]
    exact h.backups j
  · rw [BinaryTree.lookup_eq hwf', hent, logMap]
  · exact honly.isSome_content _ (by rw [FS.content_write_self]; rfl)

theorem Loaded.logsAside {i : Fin 2} {es : List (LogEntry K V)} {s₁ : Store} {t : BinaryTree K V}
    (h : Loaded i es s s₁ t) : t.LogsAside := by
  rw [BinaryTree.LogsAside, h.logName]
  simp

theorem Loaded.read_eq {i : Fin 2} {es : List (LogEntry K V)} {s₁ : Store} {t : BinaryTree K V}
    (h : Loaded i es s s₁ t) {f : File} (hf : f ≠ .tempfile) : s₁.fs.read f.path = s.fs.read f.path := by
  rw [FS.read, h.content f hf, FS.read]

/-- A Bloom filter to run `adjust` with. -/
def emptyArr : Bytes := List.replicate bloomBytes 0

theorem Loaded.mirrored_wf {i : Fin 2} {es : List (LogEntry K V)} {s₁ : Store} {t : BinaryTree K V}
    (h : Loaded i es s s₁ t) : (s₁.mirrored emptyArr).WF := by
  refine h.replayable.mirrored h.tempfile (fun u hu ↦ ?_) (fun u hu ↦ ?_) List.length_replicate
  all_goals
    rw [h.reserve] at hu
    cases hu
  · exact h.wf
  · exact h.logsAside

theorem Loaded.logName_ne {i : Fin 2} {es : List (LogEntry K V)} {s₁ : Store} {t : BinaryTree K V}
    (h : Loaded i es s s₁ t) (u : BinaryTree K V) (hu : s₁.reserve = some u) :
    u.logName ≠ some File.bloomdump.path := by
  rw [h.reserve] at hu
  cases hu
  rw [h.logName]
  simp

/-! ## What is merged

`adjust` empties `tempfile` before it copies the second oldest file into it, so the records that were
logged there are gone before anything is merged. -/

/-- What is merged in the round of the backup `i`. -/
def merged (fuel : ℕ) (env : Env Time) (i : Fin 2) (s : Store) : Option (Bytes × Bytes) :=
  ((loadBackup fuel env i s).bind (runOps env (adjustOps.take 3))).bind Store.mergeInputs

/-- **No byte of a log is merged**: `tempfile` is the second oldest file of the ring by then, although
it is the log of the tree. -/
theorem Loaded.mergeInputs_eq {i : Fin 2} {es : List (LogEntry K V)} {s₁ : Store} {t : BinaryTree K V}
    (h : Loaded i es s s₁ t) (env : Env Time) :
    (runOps env (adjustOps.take 3) s₁).bind Store.mergeInputs =
      some (s.fs.read (File.filesys (s.recent + 2)).path, s.fs.read (File.filesys (s.recent + 1)).path) := by
  have hrun := runOps_mirrored env emptyArr (adjustOps.take 3) h.logName_ne
  rw [runOps_take env h.mirrored_wf (by omega)] at hrun
  obtain ⟨s₂, hs₂, heq⟩ := Option.map_eq_some_iff.mp hrun.symm
  have hrecent : s₂.recent = s.recent := by
    rw [← recent_mirrored s₂ emptyArr, heq, Store.recent_withFS, recent_mirrored, h.recent]
  have hcontent : ∀ f : File, f ≠ .bloomdump →
      s₂.fs.content f.path = (stageFS env (s₁.mirrored emptyArr) 3).content f.path := by
    intro f hf
    rw [← content_mirrored s₂ emptyArr hf, heq, Store.fs_withFS]
  have htemp : s₂.fs.content File.tempfile.path =
      some (s.fs.read (File.filesys (s.recent + 2)).path) := by
    rw [hcontent _ (by simp), ← h.read_eq (by simp), ← read_mirrored s₁ emptyArr (by simp)]
    simp [stageFS, h.recent]
  have holdest : s₂.fs.content (File.filesys (s.recent + 1)).path =
      some (s.fs.read (File.filesys (s.recent + 1)).path) := by
    have hne : s.recent + 1 ≠ s.recent + 2 := (add_two_ne_add_one s.recent).symm
    rw [hcontent _ (by simp), ← h.read_eq (by simp), ← read_mirrored s₁ emptyArr (by simp),
      ← h.mirrored_wf.content_filesys]
    simp [stageFS, h.recent, hne]
  rw [hs₂, Option.bind_some, Store.mergeInputs, htemp, hrecent, holdest]
  rfl

/-! ## One round -/

/-- What the round of the log `es` does to the store. -/
structure Replayed (env : Env Time) (i : Fin 2) (es : List (LogEntry K V)) (s s' : Store) : Prop where
  replayable : Replayable s'
  reserve : s'.reserve = none
  recent : s'.recent = s.recent + 1
  /-- What was merged are the two oldest files of the ring. -/
  compacted : s'.fs.read (File.filesys (s.recent + 2)).path =
    mergeFiles env.unset (s.fs.read (File.filesys (s.recent + 2)).path)
      (s.fs.read (File.filesys (s.recent + 1)).path)
  /-- The newer files are as they were. -/
  kept : ∀ j, j ≠ s.recent + 1 → j ≠ s.recent + 2 →
    s'.fs.read (File.filesys j).path = s.fs.read (File.filesys j).path
  abstractMap_eq : ∀ k, s'.abstractMap k = live isTomb ((logMap es k).or (s.abstractMap k))
  /-- The log has been cleared. -/
  cleared : s'.fs.content (File.backups i).path = some []
  /-- The other log is as it was. -/
  other : s'.fs.content (File.backups (i + 1)).path = s.fs.content (File.backups (i + 1)).path

/-- **`adjust` writes the loaded log to the ring** and clears its file. -/
theorem Loaded.adjust {i : Fin 2} {es : List (LogEntry K V)} {s₁ : Store} {t : BinaryTree K V}
    (h : Loaded i es s s₁ t) (hr : s.reserve = none) (env : Env Time) :
    ∃ s', Master.adjust env s₁ = some s' ∧ Replayed env i es s s' := by
  have hwf := h.mirrored_wf
  have hreserve : (s₁.mirrored emptyArr).reserve = some t := h.reserve
  have hrun := runOps_mirrored env emptyArr adjustOps h.logName_ne
  rw [← Master.adjust, ← Master.adjust, adjust_eq env hwf hreserve] at hrun
  obtain ⟨s', hs', heq⟩ := Option.map_eq_some_iff.mp hrun.symm
  have hcurrent : (s₁.mirrored emptyArr).current + 1 = i := by
    rw [current_mirrored, h.current, backups_add_two]
  have hfile : s₁.file = s.file := by
    funext j
    rw [Store.file, fileAt, h.read_eq (by simp)]
    rfl
  have hread : ∀ j, (s₁.mirrored emptyArr).fs.read (File.filesys j).path =
      s.fs.read (File.filesys j).path := fun j ↦ by
    rw [read_mirrored s₁ emptyArr (by simp), h.read_eq (by simp)]
  have hrecent : (s₁.mirrored emptyArr).recent = s.recent := h.recent
  refine ⟨s', hs', Replayable.of_mirrored (heq ▸ hwf.adjusted env hreserve), ?_, ?_, ?_, fun j h1 h2 ↦ ?_,
    fun k ↦ ?_, ?_, ?_⟩
  · rw [← reserve_mirrored s' emptyArr, heq, reserve_adjusted]
  · rw [← recent_mirrored s' emptyArr, heq, recent_adjusted, hrecent]
  · rw [← read_mirrored s' emptyArr (by simp), heq, FS.read, content_adjusted env hwf hreserve, hrecent,
      if_neg (add_two_ne_add_one _), if_pos rfl, hread, hread, Option.getD_some]
  · rw [← read_mirrored s' emptyArr (by simp), heq, FS.read, content_adjusted env hwf hreserve, hrecent,
      if_neg h1, if_neg h2, ← hread j, FS.read]
  · rw [← abstractMap_mirrored s' emptyArr, heq, abstractMap_adjusted env hwf hreserve,
      abstractMap_mirrored, abstractMap_of_reserve h.reserve hr h.recent hfile, h.lookup]
  · have hclear := content_adjusted_backup (s := s₁.mirrored emptyArr) env (t := t)
    rwa [hcurrent, ← heq, content_mirrored s' emptyArr (by simp)] at hclear
  · rw [← content_mirrored s' emptyArr (by simp), heq, content_adjusted_of_ne env _ (by rw [h.logName]; simp)
      (by simp) (by simp), content_mirrored s₁ emptyArr (by simp), h.content _ (by simp)]
    rw [hcurrent]
    simp

/-- **One round of the loop.** -/
theorem writeBackup_replayed (h : Replayable s) (hr : s.reserve = none) {i : Fin 2}
    {es : List (LogEntry K V)} (hes : s.fs.content (File.backups i).path = some (Pod.encode es))
    (env : Env Time) {fuel : ℕ} (hfuel : es.length + 2 ≤ fuel) :
    ∃ s', writeBackup fuel env i s = some s' ∧ Replayed env i es s s' ∧ merged fuel env i s =
      some (s.fs.read (File.filesys (s.recent + 2)).path, s.fs.read (File.filesys (s.recent + 1)).path) := by
  obtain ⟨s₁, t, hload, hloaded⟩ := loadBackup_eq h hes env hfuel
  obtain ⟨s', hs', hreplayed⟩ := hloaded.adjust hr env
  refine ⟨s', ?_, hreplayed, ?_⟩
  · rw [writeBackup_eq_bind, hload, Option.bind_some, hs']
  · rw [merged, hload, Option.bind_some, hloaded.mergeInputs_eq]

/-! ## Both rounds -/

/-- The members before the loop: the trees and the Bloom filter are not set yet. -/
def starting (recent : Fin numFiles) (sys : Sys) : Store :=
  ⟨.empty, none, ⟨[], "", ⟨"", 0, false⟩⟩, recent, 0, sys⟩

/-- The constructor's last loop. -/
def replayLoop (fuel : ℕ) (env₀ env₁ : Env Time) (recent : Fin numFiles) (sys : Sys) : Option Store :=
  (writeBackup fuel env₀ 0 (starting recent sys)).bind (writeBackup fuel env₁ 1)

/-- The constructor sets the tree and the Bloom filter after the loop. -/
theorem bootFrom_eq_bind (fuel : ℕ) (env₀ env₁ : Env Time) (recent : Fin numFiles) (sys : Sys) :
    bootFrom fuel env₀ env₁ recent sys = (replayLoop fuel env₀ env₁ recent sys).bind fun s ↦
      let fresh := BinaryTree.ofLogFile (File.backups 0).path s.fs
      (BloomFile.create K File.bloomdump.path false true fresh.2).map fun loaded ↦
        { s.withFS loaded.2 with current := 0, bintree := fresh.1, bloom := loaded.1 } := by
  rw [replayLoop, Option.bind_assoc]
  rfl

section Scan

variable [LinearOrder Time]

theorem replayable_starting {fs : FS} (hw : ∀ name, fs.writable name = true) (hfiles : FilesOk fs)
    (hbackups : ∀ i, (fs.content (File.backups i).path).isSome) (recent : Fin numFiles) :
    Replayable (starting recent ⟨fs, [], Pool.initial⟩) where
  quiet := ⟨Pool.ok_initial, fun _ ↦ by simp [starting, Pool.initial]⟩
  writable := hw
  files := hfiles
  backups := hbackups
  bintree := BinaryTree.wf_empty
  bintreeLog := ⟨by simp [starting, BinaryTree.logName, BinaryTree.empty],
    by simp [starting, BinaryTree.logName, BinaryTree.empty]⟩

/-- What the loop makes of the ring at `r` on the disk `fs` and the logs `es`: the ring under the first
log under the second, with both logs cleared.  What it merges are files of the ring, and in the second
round what the first one merged. -/
structure AppliesBoth (fuel : ℕ) (env₀ env₁ : Env Time) (fs : FS) (r : Fin numFiles)
    (es : Fin 2 → List (LogEntry K V)) (s₁ s₂ : Store) : Prop where
  first : writeBackup fuel env₀ 0 (starting r ⟨fs, [], Pool.initial⟩) = some s₁
  second : writeBackup fuel env₁ 1 s₁ = some s₂
  /-- The loop of the constructor does just these two rounds. -/
  loop : ((ringScan Time fs (List.finRange numFiles)).bind fun recent ↦
    replayLoop fuel env₀ env₁ recent ⟨fs, [], Pool.initial⟩) = some s₂
  /-- The second log over the first over the ring. -/
  abstractMap_eq : ∀ k, s₂.abstractMap k = live isTomb ((logMap (es 1) k).or ((logMap (es 0) k).or
    (newest ((ring r).map (fileAt fs)) k)))
  /-- Both are cleared, so no record is applied again. -/
  backups : ∀ i, s₂.fs.content (File.backups i).path = some []
  recent : s₂.recent = r + 2
  reserve : s₂.reserve = none
  /-- The files that are merged in the first round. -/
  merged_first : merged fuel env₀ 0 (starting r ⟨fs, [], Pool.initial⟩) =
    some (fs.read (File.filesys (r + 2)).path, fs.read (File.filesys (r + 1)).path)
  /-- And in the second: one of them is what the first round has merged. -/
  merged_second : merged fuel env₁ 1 s₁ = some (fs.read (File.filesys (r + 3)).path,
    mergeFiles env₀.unset (fs.read (File.filesys (r + 2)).path) (fs.read (File.filesys (r + 1)).path))

/-- **The constructor's replay applies both logs, each once**, for any logs and any ring whose newest file the
scan finds.  The number of rounds that `fromFile` needs depends on the logs, and any larger one will do. -/
theorem replayLoop_applies (fs : FS) (hw : ∀ name, fs.writable name = true) (hfiles : FilesOk fs)
    (r : Fin numFiles) (hscan : ringScan Time fs (List.finRange numFiles) = some r)
    (es : Fin 2 → List (LogEntry K V))
    (hes : ∀ i, fs.content (File.backups i).path = some (Pod.encode (es i))) (env₀ env₁ : Env Time) :
    ∃ N, ∀ fuel ≥ N, ∃ s₁ s₂, AppliesBoth fuel env₀ env₁ fs r es s₁ s₂ := by
  have hstart := replayable_starting hw hfiles (fun i ↦ Option.isSome_iff_exists.mpr ⟨_, hes i⟩) r
  have hnext : ∀ r : Fin numFiles, r + 1 + 1 = r + 2 ∧ r + 1 + 2 = r + 3 ∧ r + 3 ≠ r + 1 ∧
      r + 3 ≠ r + 2 := by decide
  obtain ⟨htwo, hthree, hne1, hne2⟩ := hnext r
  refine ⟨max ((es 0).length + 2) ((es 1).length + 2), fun fuel hfuel ↦ ?_⟩
  obtain ⟨s₁, hs₁, h₁, hmerged₁⟩ := writeBackup_replayed hstart rfl (hes 0) env₀
    (le_trans (le_max_left _ _) hfuel)
  obtain ⟨s₂, hs₂, h₂, hmerged₂⟩ := writeBackup_replayed (i := 1) h₁.replayable h₁.reserve
    (h₁.other.trans (hes 1)) env₁ (le_trans (le_max_right _ _) hfuel)
  have hrecent : s₁.recent = r + 1 := h₁.recent
  have hkept : s₁.fs.read (File.filesys (r + 3)).path = fs.read (File.filesys (r + 3)).path :=
    h₁.kept _ hne1 hne2
  have hcompacted : s₁.fs.read (File.filesys (r + 2)).path = mergeFiles env₀.unset
      (fs.read (File.filesys (r + 2)).path) (fs.read (File.filesys (r + 1)).path) := h₁.compacted
  rw [hrecent, hthree, htwo, hkept, hcompacted] at hmerged₂
  refine ⟨s₁, s₂, hs₁, hs₂, ?_, fun k ↦ ?_, fun i ↦ ?_, ?_, h₂.reserve, hmerged₁, hmerged₂⟩
  · rw [hscan, Option.bind_some, replayLoop, hs₁, Option.bind_some, hs₂]
  · rw [h₂.abstractMap_eq, h₁.abstractMap_eq, live_or_live, Store.abstractMap, ← Option.or_assoc,
      live_or_live, Option.or_assoc]
    rfl
  · obtain rfl | rfl : i = 0 ∨ i = 1 := by omega
    · exact h₂.other.trans h₁.cleared
    · exact h₂.cleared
  · rw [h₂.recent, hrecent, htwo]

end Scan

/-- Two logs, the second of them with a `_sync_`. -/
def twoLogs (i : Fin 2) : List (LogEntry K V) :=
  if i = 0 then [(writeAction, zeroK, zeroV)]
  else [(writeAction, zeroK, zeroV), (syncAction, zeroK, zeroV), (delAction, zeroK, zeroV)]

/-- An empty ring with those logs. -/
def twoLogsFS : FS :=
  ((freshFS secondsApart).write (File.backups 0).path (Pod.encode (twoLogs 0))).write
    (File.backups 1).path (Pod.encode (twoLogs 1))

theorem content_twoLogsFS (i : Fin numFiles) : twoLogsFS.content (File.filesys i).path =
    some (timeStr (Pod.sizeof (K × V)) (secondsApart i)) := by
  rw [twoLogsFS, content_write_path, if_neg (by simp), content_write_path, if_neg (by simp), content_freshFS]

theorem filesOk_twoLogsFS : FilesOk twoLogsFS := fun i ↦
  ⟨_, content_twoLogsFS i, by rw [records_timeStr]; exact ascending_nil⟩

theorem ringScan_twoLogsFS : ringScan DaySecond twoLogsFS (List.finRange numFiles) = some 9 := by
  have hheader : ∀ i, headerTime DaySecond (ringBytes twoLogsFS i) = secondsApart i := by
    intro i
    rw [← headerTime_freshStore secondsApart 9 i, ringBytes, ringBytes, FS.read, content_twoLogsFS, FS.read,
      content_freshStore]
  refine (ringScan_of_descent filesOk_twoLogsFS (c := True) fun i ↦ ?_).mpr (.inl rfl)
  rw [hheader, hheader]
  revert i
  decide

/-- The second of the logs has a `_sync_` in it. -/
theorem replayLoop_applies_twoLogs : ∃ N, ∀ fuel ≥ N, ∃ s₁ s₂,
    AppliesBoth fuel (someEnv 20) (someEnv 21) twoLogsFS 9 twoLogs s₁ s₂ := by
  refine replayLoop_applies twoLogsFS (fun _ ↦ rfl) filesOk_twoLogsFS 9 ringScan_twoLogsFS twoLogs
    (fun i ↦ ?_) (someEnv 20) (someEnv 21)
  obtain rfl | rfl : i = 0 ∨ i = 1 := by omega
  · rw [twoLogsFS, content_write_path, if_neg (by simp), content_write_path, if_pos rfl]
  · rw [twoLogsFS, content_write_path, if_pos rfl]

end Master

end ScratchStore
