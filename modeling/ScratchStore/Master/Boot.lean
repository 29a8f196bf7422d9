import ScratchStore.Master.ReplayLogs

/-!
# Starting again

After a crash there is only the disk: the ring, the Bloom filter's file and the two logs.  The
constructor loads the logs one after the other and lets `adjust` write each of them to the ring, so
what it leaves is the old ring under the first log under the second: `bootFrom_eq`.

While it does so the Bloom filter is not loaded.  `adjust` does not look at it, and `withBloom` is how
what is known about `adjust` on a whole store is used here.

The times in the headers play no part: `bootFrom` is the constructor from where its scan has ended, and the
position in the ring is given.  What the scan finds is a matter of `Master.Timestamps` and `Master.RingOrder`.

`Recovers` is what a user sees of all this.  A store is started on the disk, the key is looked up, and the
answer is the value.  `recovers_iff` turns that into a statement about the disk, for values that are not the
reserved one.
-/

set_option autoImplicit false

namespace ScratchStore

namespace Master

open SortedAssoc FileIO Layers

variable {Time : Type} [TimeFormat Time] {s : Store}

/-- What the constructor needs to find on disk. -/
structure Disk (fs : FS) (arr : Bytes) (logs : Fin 2 → K → Option V) : Prop where
  writable : ∀ name, fs.writable name = true
  /-- The files of the ring are there, with keys in order. -/
  files : FilesOk fs
  tempfile : (fs.content File.tempfile.path).isSome
  length_arr : arr.length = bloomBytes
  bloomdump : fs.content File.bloomdump.path = some arr
  /-- The logs are whole records. -/
  backups : ∀ i, ∃ es, fs.content (File.backups i).path = some (Pod.encode es) ∧ logMap es = logs i

/-! ## One log

A round of the loop is a `fromFile` and an `adjust`.  The `adjust` is the one of `Master.Adjust`, on a
store whose Bloom filter is not there yet. -/

/-- What one round of the constructor's loop does to a store that is about to get the Bloom filter
`arr`. -/
structure Wrote (arr : Bytes) (i : Fin 2) (m : K → Option V) (s s' : Store) : Prop where
  wf : (s'.withBloom (bloomOf arr)).WF
  reserve : s'.reserve = none
  recent : s'.recent = s.recent + 1
  abstractMap_eq : ∀ k, s'.abstractMap k = live isTomb ((m k).or (s.abstractMap k))
  cleared : s'.fs.content (File.backups i).path = some []
  other : s'.fs.content (File.backups (i + 1)).path = s.fs.content (File.backups (i + 1)).path

/-- The tree on the first backup. -/
theorem ofLogFile_backup {fs : FS} (hw : ∀ name, fs.writable name = true) (i : Fin 2) :
    ∃ t : BinaryTree K V, BinaryTree.ofLogFile (File.backups i).path fs =
        (t, fs.write (File.backups i).path []) ∧ t.root = .nil ∧
      t.Backed (fs.write (File.backups i).path []) (File.backups i).path := by
  have hsnd := BinaryTree.setLogFile_snd (BinaryTree.empty : BinaryTree K V) (path_ne_empty (.backups i))
    (hw _)
  have hback := BinaryTree.backed_setLogFile (t := (BinaryTree.empty : BinaryTree K V)) rfl rfl
    (path_ne_empty (.backups i)) (hw _)
  rw [hsnd] at hback
  exact ⟨_, Prod.ext rfl hsnd, BinaryTree.root_setLogFile _ _ _, hback⟩

/-- **One log is written to the ring** and cleared. -/
theorem writeBackup_eq {arr : Bytes} (h : (s.withBloom (bloomOf arr)).WF) (hr : s.reserve = none)
    {i : Fin 2} {es : List (LogEntry K V)}
    (hes : s.fs.content (File.backups i).path = some (Pod.encode es)) (env : Env Time) {fuel : ℕ}
    (hfuel : es.length + 2 ≤ fuel) :
    ∃ s', writeBackup fuel env i s = some s' ∧ Wrote arr i (logMap es) s s' := by
  have hstart : Replayable s :=
    ⟨⟨h.quiet.pool, h.quiet.free⟩, h.writable, h.files, h.backups, h.bintree, h.bintreeLog⟩
  obtain ⟨s₁, t, hload, hloaded⟩ := loadBackup_eq hstart hes env hfuel
  obtain ⟨s', hs', hreplayed⟩ := hloaded.adjust hr env
  -- the store `adjust` is called on, with the Bloom filter
  have hreserve : (s₁.withBloom (bloomOf arr)).reserve = some t := hloaded.reserve
  have hwf₁ : (s₁.withBloom (bloomOf arr)).WF := by
    have hp := hloaded.replayable
    refine ⟨⟨hp.quiet.pool, hp.quiet.free⟩, hp.writable, hp.files, hloaded.tempfile, hp.backups,
      hp.bintree, hp.bintreeLog, fun u hu ↦ ?_, fun u hu ↦ ?_,
      ⟨h.bloom.length_arr, rfl, rfl, (hloaded.content .bloomdump (by simp)).trans h.bloom.content_eq⟩, rfl⟩
    · rw [← Option.some.inj (hreserve.symm.trans hu)]
      exact hloaded.wf
    · rw [← Option.some.inj (hreserve.symm.trans hu)]
      exact hloaded.logsAside
  have hwf' : (s'.withBloom (bloomOf arr)).WF := by
    have hadjust := adjust_withBloom env (bloomOf arr) s₁
    rw [adjust_eq env hwf₁ hreserve, hs', Option.map_some, Option.some.injEq] at hadjust
    exact hadjust ▸ hwf₁.adjusted env hreserve
  refine ⟨s', ?_, hwf', hreplayed.reserve, hreplayed.recent, hreplayed.abstractMap_eq,
    hreplayed.cleared, hreplayed.other⟩
  rw [writeBackup_eq_bind, hload, Option.bind_some, hs']

/-! ## Both logs -/

/-- The store the constructor leaves, when `m` is what the ring and the logs said. -/
structure Booted (arr : Bytes) (r : Fin numFiles) (m : K → Option V) (s : Store) : Prop where
  wf : s.WF
  /-- `adjust` has run twice. -/
  recent : s.recent = r + 1 + 1
  /-- It begins with the first backup. -/
  current : s.current = 0
  reserve : s.reserve = none
  bintree : s.bintree.root = .nil
  bintreeLog : s.bintree.Backed s.fs (File.backups 0).path
  /-- Both logs have been cleared. -/
  backups : ∀ i, s.fs.content (File.backups i).path = some []
  arr : s.bloom.arr = arr
  /-- What the ring and the logs said is in the ring. -/
  abstractMap_eq : ∀ k, s.abstractMap k = live isTomb (m k)

/-- **The constructor** leaves the ring under the first log under the second. -/
theorem bootFrom_eq {sys : Sys} {arr : Bytes} {logs : Fin 2 → K → Option V} (hq : sys.Quiet)
    (h : Disk sys.fs arr logs) (env₀ env₁ : Env Time) (r : Fin numFiles) :
    ∃ N, ∀ fuel ≥ N, ∃ s, bootFrom fuel env₀ env₁ r sys = some s ∧
      Booted arr r (fun k ↦ (logs 1 k).or ((logs 0 k).or
        (newest ((ring r).map (fileAt sys.fs)) k))) s := by
  obtain ⟨es₀, hes₀, hm₀⟩ := h.backups 0
  obtain ⟨es₁, hes₁, hm₁⟩ := h.backups 1
  refine ⟨max (es₀.length + 2) (es₁.length + 2), fun fuel hfuel ↦ ?_⟩
  have hwf : (Store.withBloom ⟨.empty, none, ⟨[], "", ⟨"", 0, false⟩⟩, r, 0, sys⟩ (bloomOf arr)).WF :=
    ⟨hq, h.writable, h.files, h.tempfile, fun i ↦ by
      obtain ⟨es, hes, -⟩ := h.backups i
      exact Option.isSome_iff_exists.mpr ⟨_, hes⟩, BinaryTree.wf_empty,
      ⟨by simp [Store.withBloom, BinaryTree.logName, BinaryTree.empty],
        by simp [Store.withBloom, BinaryTree.logName, BinaryTree.empty]⟩,
      by simp [Store.withBloom], by simp [Store.withBloom],
      ⟨h.length_arr, rfl, rfl, h.bloomdump⟩, rfl⟩
  obtain ⟨s₁, hs₁, hw₁⟩ := writeBackup_eq hwf rfl hes₀ env₀ (le_trans (le_max_left _ _) hfuel)
  obtain ⟨s₂, hs₂, hw₂⟩ := writeBackup_eq (i := 1) hw₁.wf hw₁.reserve (hw₁.other.trans hes₁) env₁
    (le_trans (le_max_right _ _) hfuel)
  have hwf₂ := hw₂.wf
  have hdump : s₂.fs.content File.bloomdump.path = some arr := hwf₂.bloom.content_eq
  obtain ⟨t, ht, hroot, hback⟩ := ofLogFile_backup (show ∀ name, s₂.fs.writable name = true from
    hwf₂.writable) 0
  obtain ⟨f, hcreate, hmirrors⟩ := BloomFile.create_load (K := K) h.length_arr
    (show (s₂.fs.write (File.backups 0).path []).writable File.bloomdump.path = true from hwf₂.writable _)
    (by rw [content_write_path, if_neg (by simp)]; exact hdump) false
  let fs₃ : FS := (s₂.fs.write (File.backups 0).path []).write File.bloomdump.path arr
  have hcontent : ∀ g : File, g ≠ .backups 0 → fs₃.content g.path = s₂.fs.content g.path := by
    intro g hg
    rw [content_write_path]
    split_ifs with hb
    · rw [hb, hdump]
    · rw [content_write_path, if_neg hg]
  have hfile : ∀ j, fs₃.content (File.filesys j).path = s₂.fs.content (File.filesys j).path :=
    fun j ↦ hcontent _ (by simp)
  have hbase : ((s₂.withBloom (bloomOf arr)).withFS fs₃).WF :=
    hwf₂.withFS rfl (fun j ↦ by rw [hfile]; exact hwf₂.files j)
      (fun g hg ↦ isSome_content_write _ (isSome_content_write _ hg)) (hcontent _ (by simp))
  have hback₃ : t.Backed fs₃ (File.backups 0).path :=
    hback.congr (by rw [content_write_path, if_neg (by simp)])
  obtain ⟨es, hlog, -⟩ := hback.exists_log
  refine ⟨{ s₂.withFS fs₃ with current := 0, bintree := t, bloom := ⟨arr, File.bloomdump.path, f⟩ },
    ?_, ⟨?_, ?_, rfl, hw₂.reserve, hroot, hback₃, fun i ↦ ?_, rfl, fun k ↦ ?_⟩⟩
  · simp only [bootFrom, hs₁, Option.bind_some, hs₂, ht, hcreate, Option.map_some]
    rfl
  · exact ⟨hbase.quiet, hbase.writable, hbase.files, hbase.tempfile, hbase.backups, hback.wf,
      by rw [BinaryTree.LogsAside, hlog.logName_eq]; simp, hbase.reserve, hbase.reserveLog, hmirrors, rfl⟩
  · exact hw₂.recent.trans (by rw [hw₁.recent])
  · obtain rfl | rfl : i = 0 ∨ i = 1 := by omega
    · exact (content_write_path _ _ _ _).trans (by simp)
    · exact (hcontent _ (by simp)).trans hw₂.cleared
  · have hmap : ∀ k, s₂.abstractMap k = live isTomb ((logs 1 k).or ((logs 0 k).or
        (newest ((ring r).map (fileAt sys.fs)) k))) := by
      intro k
      rw [hw₂.abstractMap_eq, hw₁.abstractMap_eq, live_or_live, hm₁, hm₀, Store.abstractMap,
        ← Option.or_assoc, live_or_live, Option.or_assoc]
      rfl
    rw [← hmap, Store.abstractMap, Store.abstractMap]
    have hfiles : Store.file { s₂.withFS fs₃ with
        current := 0, bintree := t, bloom := ⟨arr, File.bloomdump.path, f⟩ } = s₂.file := by
      funext j
      rw [Store.file, fileAt, FS.read, show Store.fs _ = fs₃ from rfl, hfile]
      rfl
    rw [hfiles]
    rfl

/-! ## What is found after a restart -/

/-- After a restart on the disk `fs`, with `recent` found, `dbread` delivers `v` for the key. -/
def Recovers (env₀ env₁ : Env Time) (recent : Fin numFiles) (fs : FS) (k : K) (v : V) : Prop :=
  ∃ N, ∀ fuel ≥ N, ∃ s c, bootFrom fuel env₀ env₁ recent ⟨fs, [], Pool.initial⟩ = some s ∧
    dbread k s = some (some v, c)

theorem Booted.newest_eq {arr : Bytes} {r : Fin numFiles} {m : K → Option V}
    (h : Booted arr r m s) (k : K) : live isTomb (newest s.layers k) = live isTomb (m k) := by
  rw [← h.abstractMap_eq, Store.abstractMap, Store.layers, Store.memory, List.cons_append, newest_cons,
    BinaryTree.lookup_of_nil h.bintree, Option.none_or]

/-- **A value that is not reserved is recovered** when it is the newest in the logs and the ring. -/
theorem recovers_iff {fs : FS} {b : BloomFile} {logs : Fin 2 → K → Option V}
    (h : Disk fs b.arr logs) (env₀ env₁ : Env Time) (r : Fin numFiles) {k : K} {v : V}
    (hb : b.get k = true) (hv : v ≠ tombstone V) :
    Recovers env₀ env₁ r fs k v ↔
      (logs 1 k).or ((logs 0 k).or (newest ((ring r).map (fileAt fs)) k)) = some v := by
  have hquiet : Sys.Quiet ⟨fs, [], Pool.initial⟩ := ⟨Pool.ok_initial, fun _ ↦ by simp [Pool.initial]⟩
  obtain ⟨N, hN⟩ := bootFrom_eq hquiet h env₀ env₁ r
  have hlive : isTomb v = false := Bool.eq_false_iff.mpr fun htomb ↦ hv (isTomb_iff.mp htomb)
  have hread : ∀ s, Booted b.arr r (fun k ↦ (logs 1 k).or ((logs 0 k).or
      (newest ((ring r).map (fileAt fs)) k))) s → ∃ c, dbread k s = some (newest s.layers k, c) := by
    intro s hs
    obtain ⟨c, hc, -⟩ := dbread_eq hs.wf k
    have hget : s.bloom.get k = true := by rw [BloomFile.get_congr hs.arr, hb]
    exact ⟨c, by rw [hc, if_pos hget]⟩
  have hiff : ∀ s, Booted b.arr r (fun k ↦ (logs 1 k).or ((logs 0 k).or
      (newest ((ring r).map (fileAt fs)) k))) s → (newest s.layers k = some v ↔
        (logs 1 k).or ((logs 0 k).or (newest ((ring r).map (fileAt fs)) k)) = some v) := by
    intro s hs
    have hnew := hs.newest_eq k
    constructor
    · intro h
      rw [h, live_eq_some_iff.mpr ⟨rfl, hlive⟩] at hnew
      exact (live_eq_some_iff.mp hnew.symm).1
    · intro h
      rw [h, live_eq_some_iff.mpr ⟨rfl, hlive⟩] at hnew
      exact (live_eq_some_iff.mp hnew).1
  constructor
  · rintro ⟨M, hM⟩
    obtain ⟨s, hs, hbooted⟩ := hN (max N M) (le_max_left _ _)
    obtain ⟨s', c, hs', hc⟩ := hM (max N M) (le_max_right _ _)
    obtain ⟨c', hc'⟩ := hread s hbooted
    obtain rfl : s = s' := Option.some.inj (hs.symm.trans hs')
    rw [hc'] at hc
    exact (hiff s hbooted).mp (congrArg Prod.fst (Option.some.inj hc))
  · intro heq
    refine ⟨N, fun fuel hfuel ↦ ?_⟩
    obtain ⟨s, hs, hbooted⟩ := hN fuel hfuel
    obtain ⟨c, hc⟩ := hread s hbooted
    exact ⟨s, c, hs, by rw [hc, (hiff s hbooted).mpr heq]⟩

end Master

end ScratchStore
