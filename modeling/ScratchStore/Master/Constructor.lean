import ScratchStore.Master.CrashedDisk

/-!
# The constructor, operation by operation

The constructor may be cut short like anything else.  `Recoverable` is what it needs to find on disk
to arrive at a map, and every operation of its two rounds leaves a disk from which it arrives at the
same map again: `Constructing.round`.  Writing a log to the ring twice does no harm, because the log is
cleared only after it was dumped and the second log hides the first in both places.

## The three layers of it

* `afterOps` is the store after the first `j` operations of one `adjust`, and the sections about it say what
  the ring, the logs and the stack of maps are then.
* `Loaded` is one round of the loop, in which such an `adjust` runs on a tree that was read from a log.
  `Loaded.live_diskLayers_iff` is the central fact: the stack of maps says what it said before, unless a deleted
  key came back.
* `Constructing` is the place between two rounds.  `Constructing.round` and `Constructing.writeBackup` are a
  round that is cut short and one that is not, and `Recoverable.bootUntil` and `Recoverable.boot` the whole
  constructor.

The operation after which it must not stop is the truncation, the third.  The second oldest file is in
`tempfile` only then, and the next start empties `tempfile` before it reads it.
-/

set_option autoImplicit false

namespace ScratchStore

namespace Master

open SortedAssoc FileIO Layers

variable {Time : Type} [TimeFormat Time] {s : Store} {m : K → Option V} {arr : Bytes}

/-! ## What is on disk after some operations of `adjust`

The number of operations is in the statements, not a case distinction: `afterOps` is one definition for
all of them, and the lemmas say up to which operation something holds. -/

section After

variable (env : Env Time) {t : BinaryTree K V}

omit [TimeFormat Time] in
theorem ringBytes_stage (s : Store) {j : ℕ} (hj : j ≤ 5) (htorn : j ≠ 3) :
    ringBytes (stageFS env s j) =
      if j ≤ 2 then ringBytes s.fs else mergedBytes env.unset (ringBytes s.fs) s.recent := by
  interval_cases j
  all_goals first
    | exact absurd rfl htorn
    | simp only [stageFS, compactedFS, ringBytes_write_of_ne _ (f := .tempfile) (by simp),
        ringBytes_write_filesys, Nat.reduceLeDiff, if_true, if_false]
  all_goals rfl

/-- The store after the first `j` operations, when `reserve` is `t`. -/
def afterOps (s : Store) (t : BinaryTree K V) (j : ℕ) : Store :=
  if j ≤ 5 then s.withFS (stageFS env s j)
  else if j = 6 then dumped env (s.withFS (compactedFS env s)) t
  else adjusted env s t

theorem runOps_take_eq (h : s.WF) (ht : s.reserve = some t) (j : ℕ) :
    runOps env (adjustOps.take j) s = some (afterOps env s t j) := by
  rw [afterOps]
  split_ifs with h5 h6
  · exact runOps_take env h h5
  · have hcompact := runOps_take env h (j := 5) le_rfl
    rw [h6, show adjustOps.take 6 = adjustOps.take 5 ++ [.dump] from rfl, runOps, List.foldlM_append,
      ← runOps, hcompact, Option.bind_eq_bind, Option.bind_some, List.foldlM_cons]
    simp only [AdjustOp.run, show stageFS env s 5 = compactedFS env s from rfl,
      dump_eq (h.compacted env) env (t := t) ht, List.foldlM_nil, Option.bind_eq_bind, Option.bind_some]
    rfl
  · have hlen : adjustOps.length = 7 := rfl
    rw [List.take_of_length_le (by omega)]
    exact adjust_eq env h ht

theorem Store.WF.afterOps (h : s.WF) (ht : s.reserve = some t) (j : ℕ) : (afterOps env s t j).WF := by
  rw [Master.afterOps]
  split_ifs with h5
  · exact h.stage env h5
  · exact (h.compacted env).dumped env ht
  · exact h.adjusted env ht

/-- The newest file after the first `j` operations. -/
def newestAfter (r : Fin numFiles) (j : ℕ) : Fin numFiles := if j ≤ 5 then r else r + 1

/-- The ring from the dump on. -/
theorem ringBytes_afterOps {j : ℕ} (hj : 5 < j) :
    ringBytes (afterOps env s t j).fs = ringBytes (adjusted env s t).fs := by
  rw [afterOps, if_neg (by omega)]
  split_ifs
  · have hretired := ringBytes_write_of_ne (dumped env (s.withFS (compactedFS env s)) t).fs
      (f := .backups (s.current + 1)) (by simp) []
    exact hretired.symm
  · rfl

theorem Ascends.afterOps [LinearOrder Time] (hasc : Ascends Time (ringBytes s.fs) s.recent) (h : s.WF)
    (ht : s.reserve = some t) {env : Env Time} (hnow : ∀ i, headerTime Time (ringBytes s.fs i) < env.now)
    {j : ℕ} (htorn : j ≠ 3) :
    Ascends Time (ringBytes (Master.afterOps env s t j).fs) (newestAfter s.recent j) := by
  rw [newestAfter]
  split_ifs with h5
  · rw [Master.afterOps, if_pos h5, Store.fs_withFS, ringBytes_stage env s h5 htorn]
    split_ifs
    · exact hasc
    · exact hasc.merge env.unset
  · rw [ringBytes_afterOps env (by omega)]
    exact hasc.adjusted h ht hnow

/-- The Bloom filter's file and the logs stay as they were until the last operation. -/
theorem content_afterOps {f : File} (hlog : t.logName ≠ some f.path)
    (hfile : ∀ i, f ≠ .filesys i) (htemp : f ≠ .tempfile) {j : ℕ}
    (hback : j ≤ 6 ∨ f ≠ .backups (s.current + 1)) :
    (afterOps env s t j).fs.content f.path = s.fs.content f.path := by
  rw [afterOps]
  split_ifs with h5 h6
  · exact content_stage env s j htemp (hfile _)
  · rw [content_dumped env _ hlog, if_neg (hfile _), Store.fs_withFS]
    exact content_stage env s 5 htemp (hfile _)
  · exact content_adjusted_of_ne env f hlog hfile htemp (hback.resolve_left (by omega))

end After

/-! ## The disk as a stack of maps, after some operations of `adjust`

Two operations change what the ring has.  The merge may drop a tombstone that hid a value of the oldest
file, and the dump overwrites that file. -/

section Layers

variable {fs fs' : FS} {r : Fin numFiles} (unset : Uninitialised K V)

theorem fileAt_of_merged (hfs : ringBytes fs' = mergedBytes unset (ringBytes fs) r)
    (hasc : ∀ i, Ascending (records K V (ringBytes fs i))) (i : Fin numFiles) :
    fileAt fs' i = if i = r + 2 then compact isTomb (fileAt fs (r + 2)) (fileAt fs (r + 1))
      else fileAt fs i := by
  change fileMap K V (ringBytes fs' i) = _
  rw [hfs, mergedBytes, Function.update_apply]
  split_ifs
  · exact fileMap_mergeFiles unset (hasc _) (hasc _)
  · rfl

theorem newer_of_merged (hfs : ringBytes fs' = mergedBytes unset (ringBytes fs) r)
    (hasc : ∀ i, Ascending (records K V (ringBytes fs i))) :
    (newer r).map (fileAt fs') = (newer r).map (fileAt fs) := by
  refine List.map_congr_left ?_
  intro i hi
  rw [fileAt_of_merged unset hfs hasc, if_neg]
  rintro rfl
  exact (not_mem_newer r).1 hi

/-- **After the merge** the disk has what it had, unless a deleted key came back. -/
theorem live_diskLayers_merged_iff (hfs : ringBytes fs' = mergedBytes unset (ringBytes fs) r)
    (hasc : ∀ i, Ascending (records K V (ringBytes fs i))) (hlogs : ∀ i, logAt fs' i = logAt fs i) (k : K) :
    live isTomb (newest (diskLayers fs' r) k) = live isTomb (newest (diskLayers fs r) k) ↔
      ¬Unburied fs' r k := by
  have hnewer := newer_of_merged unset hfs hasc
  have hsecond := fileAt_of_merged unset hfs hasc (r + 2)
  have holdest := fileAt_of_merged unset hfs hasc (r + 1)
  rw [if_pos rfl] at hsecond
  rw [if_neg (add_two_ne_add_one r).symm] at holdest
  have hcompact := @live_or_live V isTomb
    ((logAt fs 1 k).or ((logAt fs 0 k).or (newest ((newer r).map (fileAt fs)) k)))
    ((fileAt fs (r + 2) k).or (fileAt fs (r + 1) k))
  have hbehind := @live_or_left_behind_iff V isTomb
    ((logAt fs 1 k).or ((logAt fs 0 k).or (newest ((newer r).map (fileAt fs)) k)))
    (compact isTomb (fileAt fs (r + 2)) (fileAt fs (r + 1)) k) (fileAt fs (r + 1) k)
  simp only [Option.or_assoc] at hcompact hbehind
  rw [Unburied, newest_cons, newest_cons, diskLayers, diskLayers, newest_cons, newest_cons, newest_cons,
    newest_cons, newest_ring, newest_ring, hnewer, hsecond, holdest, hlogs, hlogs, ← hcompact]
  exact hbehind

theorem fileAt_of_dumped {t : BinaryTree K V} (ht : t.WF) (now : Time)
    (hfs : ringBytes fs' = Function.update (mergedBytes unset (ringBytes fs) r) (r + 1) (t.dumpBytes now))
    (hasc : ∀ i, Ascending (records K V (ringBytes fs i))) (i : Fin numFiles) :
    fileAt fs' i = if i = r + 1 then t.lookup
      else if i = r + 2 then compact isTomb (fileAt fs (r + 2)) (fileAt fs (r + 1)) else fileAt fs i := by
  change fileMap K V (ringBytes fs' i) = _
  rw [hfs, Function.update_apply]
  split_ifs with h1 h2
  · exact BinaryTree.fileMap_dumpBytes le_sizeof ht now
  · rw [h2, mergedBytes, Function.update_self]
    exact fileMap_mergeFiles unset (hasc _) (hasc _)
  · rw [mergedBytes, Function.update_of_ne h2]
    rfl

/-- **After the dump** the ring has the tree above what it had. -/
theorem live_ring_dumped {t : BinaryTree K V} (ht : t.WF) (now : Time)
    (hfs : ringBytes fs' = Function.update (mergedBytes unset (ringBytes fs) r) (r + 1) (t.dumpBytes now))
    (hasc : ∀ i, Ascending (records K V (ringBytes fs i))) (a : Option V) (k : K) :
    live isTomb (a.or (newest ((ring (r + 1)).map (fileAt fs')) k)) =
      live isTomb (a.or ((t.lookup k).or (newest ((ring r).map (fileAt fs)) k))) := by
  have hfile := fileAt_of_dumped unset ht now hfs hasc
  have hnewer : (newer r).map (fileAt fs') = (newer r).map (fileAt fs) := by
    refine List.map_congr_left ?_
    intro i hi
    rw [hfile, if_neg, if_neg]
    · rintro rfl; exact (not_mem_newer r).1 hi
    · rintro rfl; exact (not_mem_newer r).2 hi
  rw [ring_add_one, List.map_cons, List.map_append, hnewer, List.map_singleton, newest_cons, newest_append,
    newest_cons, newest_nil, Option.or_none, hfile (r + 1), if_pos rfl, hfile (r + 2),
    if_neg (add_two_ne_add_one r), if_pos rfl, newest_ring]
  have hcompact := @live_or_live V isTomb
    (a.or ((t.lookup k).or (newest ((newer r).map (fileAt fs)) k)))
    ((fileAt fs (r + 2) k).or (fileAt fs (r + 1) k))
  simpa only [Option.or_assoc, compact] using hcompact

end Layers

/-! ## What the constructor needs

The times of the ring ascend, the logs are whole records, the file of the Bloom filter is there, and the
stack of maps has the map. -/

/-- What the constructor needs to find on disk to arrive at the map `m`: the newest file is `r`, and
the Bloom filter's file has `arr`. -/
structure Recoverable (Time : Type) [TimeFormat Time] [LinearOrder Time] (fs : FS) (r : Fin numFiles)
    (arr : Bytes) (m : K → Option V) : Prop where
  writable : ∀ name, fs.writable name = true
  /-- The scan will find the newest file. -/
  ascends : Ascends Time (ringBytes fs) r
  /-- The logs are whole records. -/
  logs : ∀ i, LogHas fs i (logAt fs i)
  length_arr : arr.length = bloomBytes
  bloomdump : fs.content File.bloomdump.path = some arr
  /-- The second log over the first over the ring, tombstones read as absent. -/
  live_eq : ∀ k, live isTomb (newest (diskLayers fs r) k) = live isTomb (m k)

section Recoverable

variable [LinearOrder Time]

theorem LogHas.self {fs : FS} {i : Fin 2} {l : K → Option V} (h : LogHas fs i l) :
    LogHas fs i (logAt fs i) := by
  rw [h.logAt_eq]
  exact h

theorem Recoverable.congr {fs : FS} {r : Fin numFiles} {m' : K → Option V}
    (h : Recoverable Time fs r arr m) (hm : ∀ k, live isTomb (m k) = live isTomb (m' k)) :
    Recoverable Time fs r arr m' :=
  ⟨h.writable, h.ascends, h.logs, h.length_arr, h.bloomdump, fun k ↦ (h.live_eq k).trans (hm k)⟩

/-- **What a crash leaves of the threads** is enough for the constructor, whatever the map is. -/
theorem Threads.Inv.recoverable {st : Threads} (h : st.Inv Time m) (hs : st.Sound Time)
    (htorn : ¬st.Torn) : Recoverable Time st.store.fs st.newestFile st.store.bloom.arr
      (newest (diskLayers st.store.fs st.newestFile)) where
  writable := h.wf.writable
  ascends := by
    have hbytes : st.bytes = ringBytes st.store.fs := by
      funext i
      rw [Threads.bytes]
      split
      · exact absurd ⟨_, ‹_›⟩ htorn
      · rfl
    exact hbytes ▸ hs.ascends
  logs i := by
    have hother : ∃ l, LogHas st.store.fs (st.store.current + 1) l := by
      by_cases hretire : ∃ todo, st.holder = some (.retire :: todo)
      · obtain ⟨todo, hretire⟩ := hretire
        exact ⟨_, hs.synced todo hretire⟩
      · exact ⟨_, h.logHas_other (not_exists.mp hretire)⟩
    obtain rfl | rfl : i = st.store.current ∨ i = st.store.current + 1 := by omega
    · exact (logHas_of_backed h.bintreeLog).self
    · obtain ⟨l, hl⟩ := hother
      exact hl.self
  length_arr := h.wf.bloom.length_arr
  bloomdump := by
    rw [← h.wf.bloomName]
    exact h.wf.bloom.content_eq
  live_eq _ := rfl

/-! ## One round, cut short

Up to the last operation of a round its log is still there, so the next start applies it once more, to a
ring that may have it already. -/

/-- The store between the rounds of the constructor. -/
structure Constructing (Time : Type) [TimeFormat Time] [LinearOrder Time] (arr : Bytes)
    (m : K → Option V) (s : Store) : Prop where
  replayable : Replayable s
  reserve : s.reserve = none
  recoverable : Recoverable Time s.fs s.recent arr m

/-- The loops of `fromFile` make no more rounds than the logs have bytes. -/
def replayFuel (fs : FS) : ℕ :=
  max (fs.read (File.backups 0).path).length (fs.read (File.backups 1).path).length + 2

omit [TimeFormat Time] [LinearOrder Time] in
theorem length_le_replayFuel {fs : FS} {i : Fin 2} {es : List (LogEntry K V)}
    (hes : fs.content (File.backups i).path = some (Pod.encode es)) : es.length + 2 ≤ replayFuel fs := by
  have hread : (fs.read (File.backups i).path).length = es.length * Pod.sizeof (LogEntry K V) := by
    rw [FS.read, hes, Option.getD_some, Pod.length_encode]
  have hle : es.length ≤ (fs.read (File.backups i).path).length := by
    rw [hread]
    exact Nat.le_mul_of_pos_right _ Pod.sizeof_pos
  rw [replayFuel]
  obtain rfl | rfl : i = 0 ∨ i = 1 := by omega
  all_goals omega

/-- The loaded store with the Bloom filter that is going to be loaded. -/
theorem Loaded.withBloom_wf {i : Fin 2} {es : List (LogEntry K V)} {s₁ : Store} {t : BinaryTree K V}
    (h : Loaded i es s s₁ t) (hlen : arr.length = bloomBytes)
    (hdump : s.fs.content File.bloomdump.path = some arr) : (s₁.withBloom (bloomOf arr)).WF where
  quiet := ⟨h.replayable.quiet.pool, h.replayable.quiet.free⟩
  writable := h.replayable.writable
  files := h.replayable.files
  tempfile := h.tempfile
  backups := h.replayable.backups
  bintree := h.replayable.bintree
  bintreeLog := h.replayable.bintreeLog
  reserve u hu := by
    obtain rfl := Option.some.inj (h.reserve.symm.trans hu)
    exact h.wf
  reserveLog u hu := by
    obtain rfl := Option.some.inj (h.reserve.symm.trans hu)
    exact h.logsAside
  bloom := ⟨hlen, rfl, rfl, (h.content .bloomdump (by simp)).trans hdump⟩
  bloomName := rfl

/-! ### The disk in a round -/

section Round

variable {i : Fin 2} {es : List (LogEntry K V)} {s₁ : Store} {t : BinaryTree K V} (env : Env Time) {j : ℕ}

omit [LinearOrder Time] in
theorem runOps_withBloom (b : BloomFile) (ops : List AdjustOp) (s : Store) :
    runOps env ops (s.withBloom b) = (runOps env ops s).map (Store.withBloom · b) := by
  rw [runOps, runOps]
  induction ops generalizing s with
  | nil => rfl
  | cons op ops ih =>
    rw [List.foldlM_cons, List.foldlM_cons, run_withBloom]
    cases op.run env s with
    | none => rfl
    | some s' => exact ih s'

omit [LinearOrder Time] in
theorem Loaded.ringBytes_eq (h : Loaded i es s s₁ t) : ringBytes s₁.fs = ringBytes s.fs :=
  funext fun _ ↦ h.read_eq (by simp)

omit [LinearOrder Time] in
theorem diskLayers_congr {fs fs' : FS} (hfs : ringBytes fs' = ringBytes fs)
    (hlogs : ∀ i, logAt fs' i = logAt fs i) (r : Fin numFiles) : diskLayers fs' r = diskLayers fs r := by
  have hfile : fileAt fs' = fileAt fs := funext fun i ↦ congrArg (fileMap K V) (congrFun hfs i)
  rw [diskLayers, diskLayers, hfile, hlogs, hlogs]

omit [LinearOrder Time] in
/-- The logs in the round of the backup `i`: that one is cleared at the end. -/
theorem Loaded.content_backups (h : Loaded i es s s₁ t) (b : BloomFile) (i' : Fin 2) :
    (afterOps env (s₁.withBloom b) t j).fs.content (File.backups i').path =
      if 6 < j ∧ i' = i then some [] else s.fs.content (File.backups i').path := by
  have hcurrent : (s₁.withBloom b).current + 1 = i := by
    rw [current_withBloom, h.current, backups_add_two]
  split_ifs with hclear
  · rw [afterOps, if_neg (by omega), if_neg (by omega), hclear.2]
    have hcleared := content_adjusted_backup (s := s₁.withBloom b) env (t := t)
    rwa [hcurrent] at hcleared
  · rw [content_afterOps env (by rw [h.logName]; simp) (by simp) (by simp), fs_withBloom,
      h.content _ (by simp)]
    rw [hcurrent, ne_eq, File.backups.injEq]
    rcases not_and_or.mp hclear with hj | hi
    · exact .inl (by omega)
    · exact .inr hi

omit [LinearOrder Time] in
theorem Loaded.logHas (h : Loaded i es s s₁ t) (b : BloomFile) {i' : Fin 2} {l : K → Option V}
    (hl : LogHas s.fs i' l) : LogHas (afterOps env (s₁.withBloom b) t j).fs i'
      (if 6 < j ∧ i' = i then fun _ ↦ none else l) := by
  have hcontent := h.content_backups env b i' (j := j)
  split_ifs with hclear
  · rw [if_pos hclear] at hcontent
    exact logHas_of_empty hcontent
  · rw [if_neg hclear] at hcontent
    exact hl.congr hcontent

omit [LinearOrder Time] in
/-- **The disk as a stack of maps** after some operations of the round: it says the same, unless a deleted
key came back. -/
theorem Loaded.live_diskLayers_iff (h : Loaded i es s s₁ t) {b : BloomFile} (hwf : (s₁.withBloom b).WF)
    (hasc : ∀ i, Ascending (records K V (ringBytes s.fs i))) (hlogs : ∀ i, LogHas s.fs i (logAt s.fs i))
    (hes : LogHas s.fs i (logMap es)) (htorn : j ≠ 3) (hfirst : 6 < j → i = 1 → logAt s.fs 0 = fun _ ↦ none)
    (k : K) :
    live isTomb (newest (diskLayers (afterOps env (s₁.withBloom b) t j).fs (newestAfter s.recent j)) k) =
      live isTomb (newest (diskLayers s.fs s.recent) k) ↔
        ¬((j = 4 ∨ j = 5) ∧ Unburied (afterOps env (s₁.withBloom b) t j).fs s.recent k) := by
  have hlog : ∀ i', logAt (afterOps env (s₁.withBloom b) t j).fs i' =
      if 6 < j ∧ i' = i then fun _ ↦ none else logAt s.fs i' :=
    fun i' ↦ (h.logHas env b (hlogs i')).logAt_eq
  have hring : ringBytes (s₁.withBloom b).fs = ringBytes s.fs := h.ringBytes_eq
  have hrecent : (s₁.withBloom b).recent = s.recent := h.recent
  rw [newestAfter]
  split_ifs with h5
  · have hsame : ∀ i', logAt (afterOps env (s₁.withBloom b) t j).fs i' = logAt s.fs i' := fun i' ↦ by
      rw [hlog, if_neg (by omega)]
    have hbytes : ringBytes (afterOps env (s₁.withBloom b) t j).fs =
        if j ≤ 2 then ringBytes s.fs else mergedBytes env.unset (ringBytes s.fs) s.recent := by
      rw [afterOps, if_pos h5, Store.fs_withFS, ringBytes_stage env _ h5 htorn, hring, hrecent]
    split_ifs at hbytes with h2
    · refine iff_of_true ?_ fun hk ↦ by omega
      rw [diskLayers_congr hbytes hsame]
    · have hj : j = 4 ∨ j = 5 := by omega
      rw [live_diskLayers_merged_iff env.unset hbytes hasc hsame, and_iff_right hj]
  · refine iff_of_true ?_ fun hk ↦ by omega
    have hbytes := ringBytes_afterOps env (s := s₁.withBloom b) (t := t) (j := j) (by omega)
    rw [ringBytes_adjusted hwf h.reserve, hring, hrecent] at hbytes
    have hdumped := live_ring_dumped env.unset (hwf.reserve t h.reserve) env.now hbytes hasc
    have htree : t.lookup k = logAt s.fs i k := by rw [h.lookup, hes.logAt_eq]
    rw [diskLayers, newest_cons, newest_cons, ← Option.or_assoc, hdumped, htree, hlog, hlog, diskLayers,
      newest_cons, newest_cons, Option.or_assoc]
    -- the log is below its own layer, or cleared
    congr 1
    obtain rfl | rfl : i = 0 ∨ i = 1 := by omega
    · by_cases hj : 6 < j
      · simp [hj]
      · rcases hfound : logAt s.fs 0 k with _ | v <;> simp [hj, hfound]
    · by_cases hj : 6 < j
      · simp [hj, hfirst hj rfl]
      · rcases hfound : logAt s.fs 1 k with _ | v <;> simp [hj, hfound]

omit [LinearOrder Time] in
/-- No operation of the round makes up a record. -/
theorem Loaded.diskOnly (h : Loaded i es s s₁ t) {b : BloomFile} (hwf : (s₁.withBloom b).WF)
    (hasc : ∀ i, Ascending (records K V (ringBytes s.fs i))) (hlogs : ∀ i, LogHas s.fs i (logAt s.fs i))
    (hes : LogHas s.fs i (logMap es)) (htorn : j ≠ 3) {P : K → V → Prop} (honly : DiskOnly P s.fs) :
    DiskOnly P (afterOps env (s₁.withBloom b) t j).fs := by
  have hring : ringBytes (s₁.withBloom b).fs = ringBytes s.fs := h.ringBytes_eq
  have hrecent : (s₁.withBloom b).recent = s.recent := h.recent
  refine ⟨fun i' k v hv ↦ ?_, fun i' k v hv ↦ ?_⟩
  · rw [(h.logHas env b (hlogs i')).logAt_eq] at hv
    split_ifs at hv
    exact honly.logs i' k v hv
  -- the two files that are merged, and the log that is dumped
  have hcompact : compact isTomb (fileAt s.fs (s.recent + 2)) (fileAt s.fs (s.recent + 1)) k = some v →
      P k v := fun hv ↦ (eq_or_eq_of_compact hv).elim (honly.files _ k v) (honly.files _ k v)
  by_cases h5 : j ≤ 5
  · have hbytes : ringBytes (afterOps env (s₁.withBloom b) t j).fs =
        if j ≤ 2 then ringBytes s.fs else mergedBytes env.unset (ringBytes s.fs) s.recent := by
      rw [afterOps, if_pos h5, Store.fs_withFS, ringBytes_stage env _ h5 htorn, hring, hrecent]
    split_ifs at hbytes
    · have hsame : fileAt (afterOps env (s₁.withBloom b) t j).fs i' = fileAt s.fs i' :=
        congrArg (fileMap K V) (congrFun hbytes i')
      exact honly.files i' k v (hsame ▸ hv)
    · rw [fileAt_of_merged env.unset hbytes hasc] at hv
      split_ifs at hv
      · exact hcompact hv
      · exact honly.files i' k v hv
  · have hbytes := ringBytes_afterOps env (s := s₁.withBloom b) (t := t) (j := j) (by omega)
    rw [ringBytes_adjusted hwf h.reserve, hring, hrecent] at hbytes
    rw [fileAt_of_dumped env.unset (hwf.reserve t h.reserve) env.now hbytes hasc] at hv
    split_ifs at hv
    · rw [h.lookup, ← hes.logAt_eq] at hv
      exact honly.logs i k v hv
    · exact hcompact hv
    · exact honly.files i' k v hv

/-- Some operations of a round leave a disk that is enough for the constructor, whatever the map is. -/
theorem Loaded.recoverable (h : Loaded i es s s₁ t) (hrec : Recoverable Time s.fs s.recent arr m)
    (hnow : ∀ i, headerTime Time (ringBytes s.fs i) < env.now) (htorn : j ≠ 3) :
    Recoverable Time (afterOps env (s₁.withBloom (bloomOf arr)) t j).fs (newestAfter s.recent j) arr
      (newest (diskLayers (afterOps env (s₁.withBloom (bloomOf arr)) t j).fs (newestAfter s.recent j))) := by
  have hwf := h.withBloom_wf hrec.length_arr hrec.bloomdump
  have hring : ringBytes (s₁.withBloom (bloomOf arr)).fs = ringBytes s.fs := h.ringBytes_eq
  have hrecent : (s₁.withBloom (bloomOf arr)).recent = s.recent := h.recent
  have hasc := hrec.ascends
  rw [← hring, ← hrecent] at hasc
  rw [← hring] at hnow
  refine ⟨(hwf.afterOps env h.reserve j).writable, ?_, fun i' ↦ (h.logHas env _ (hrec.logs i')).self,
    hrec.length_arr, ?_, fun _ ↦ rfl⟩
  · rw [← hrecent]
    exact hasc.afterOps hwf h.reserve hnow htorn
  · rw [content_afterOps env (by rw [h.logName]; simp) (by simp) (by simp) (.inr (by simp))]
    exact (h.content .bloomdump (by simp)).trans hrec.bloomdump

/-- No time on disk is later than that of the round. -/
theorem Loaded.headerTime_le (h : Loaded i es s s₁ t) (hrec : Recoverable Time s.fs s.recent arr m)
    (hnow : ∀ i, headerTime Time (ringBytes s.fs i) < env.now) (htorn : j ≠ 3) (i' : Fin numFiles) :
    headerTime Time (ringBytes (afterOps env (s₁.withBloom (bloomOf arr)) t j).fs i') ≤ env.now := by
  have hwf := h.withBloom_wf hrec.length_arr hrec.bloomdump
  have hring : ringBytes (s₁.withBloom (bloomOf arr)).fs = ringBytes s.fs := h.ringBytes_eq
  have hrecent : (s₁.withBloom (bloomOf arr)).recent = s.recent := h.recent
  by_cases h5 : j ≤ 5
  · rw [afterOps, if_pos h5, Store.fs_withFS, ringBytes_stage env _ h5 htorn, hring, hrecent]
    split_ifs
    · exact (hnow i').le
    · rw [hrec.ascends.headerTime_mergedBytes]
      exact (hnow i').le
  · rw [ringBytes_afterOps env (by omega), ringBytes_adjusted hwf h.reserve, hring, hrecent,
      Function.update_apply]
    split_ifs
    · exact (headerTime_dumpBytes t env.now).le
    · rw [hrec.ascends.headerTime_mergedBytes]
      exact (hnow i').le

/-- **A round up to one of its operations** goes through. -/
theorem Constructing.round (h : Constructing Time arr m s)
    (hes : s.fs.content (File.backups i).path = some (Pod.encode es)) {fuel : ℕ}
    (hfuel : es.length + 2 ≤ fuel) (j : ℕ) :
    ∃ s' s₁ t, (loadBackup fuel env i s).bind (runOps env (adjustOps.take j)) = some s' ∧
      Loaded i es s s₁ t ∧ s'.withBloom (bloomOf arr) = afterOps env (s₁.withBloom (bloomOf arr)) t j := by
  obtain ⟨s₁, t, hload, hloaded⟩ := loadBackup_eq h.replayable hes env hfuel
  have hwf := hloaded.withBloom_wf h.recoverable.length_arr h.recoverable.bloomdump
  have hrun := runOps_withBloom env (bloomOf arr) (adjustOps.take j) s₁
  rw [runOps_take_eq env hwf hloaded.reserve] at hrun
  obtain ⟨s', hs', heq⟩ := Option.map_eq_some_iff.mp hrun.symm
  exact ⟨s', s₁, t, by rw [hload, Option.bind_some, hs'], hloaded, heq⟩

/-- **A round cut short** leaves a disk that is enough for the constructor, and what is lost are the
deleted keys that came back. -/
theorem Constructing.cutShort (h : Constructing Time arr m s)
    (hes : s.fs.content (File.backups i).path = some (Pod.encode es)) {fuel : ℕ}
    (hfuel : es.length + 2 ≤ fuel) (hnow : ∀ i, headerTime Time (ringBytes s.fs i) < env.now)
    (hfirst : i = 1 → logAt s.fs 0 = fun _ ↦ none) (htorn : j ≠ 3) :
    ∃ s' r', (loadBackup fuel env i s).bind (runOps env (adjustOps.take j)) = some s' ∧
      Recoverable Time s'.fs r' arr (newest (diskLayers s'.fs r')) ∧
      (∀ i, headerTime Time (ringBytes s'.fs i) ≤ env.now) ∧
      (∀ P, DiskOnly P s.fs → DiskOnly P s'.fs) ∧
      ∀ k, live isTomb (newest (diskLayers s'.fs r') k) = live isTomb (m k) ↔
        ¬((j = 4 ∨ j = 5) ∧ Unburied s'.fs s'.recent k) := by
  obtain ⟨s', s₁, t, hrun, hloaded, heq⟩ := h.round env hes hfuel j
  have hrec := h.recoverable
  have hwf := hloaded.withBloom_wf hrec.length_arr hrec.bloomdump
  have hfs : (afterOps env (s₁.withBloom (bloomOf arr)) t j).fs = s'.fs := by
    rw [← heq, fs_withBloom]
  have hasc := fun i ↦ (hrec.ascends.files i).ascending
  refine ⟨s', newestAfter s.recent j, hrun, ?_, fun i' ↦ ?_, fun P honly ↦ ?_, fun k ↦ ?_⟩
  · rw [← hfs]
    exact hloaded.recoverable env hrec hnow htorn
  · rw [← hfs]
    exact hloaded.headerTime_le env hrec hnow htorn i'
  · rw [← hfs]
    exact hloaded.diskOnly env hwf hasc hrec.logs ⟨es, hes, rfl⟩ htorn honly
  · have hiff := hloaded.live_diskLayers_iff env hwf hasc hrec.logs ⟨es, hes, rfl⟩ htorn (fun _ ↦ hfirst) k
    rw [← hrec.live_eq k, ← hfs, hiff]
    refine not_congr (and_congr_right fun hj ↦ ?_)
    have hrecent : s'.recent = s.recent := by
      rw [← recent_withBloom s' (bloomOf arr), heq, afterOps, if_pos (by omega)]
      exact hloaded.recent
    rw [hrecent]

/-- What a completed round leaves. -/
structure RoundDone (env : Env Time) (arr : Bytes) (m : K → Option V) (i : Fin 2) (s s' : Store) :
    Prop where
  constructing : Constructing Time arr m s'
  wf : (s'.withBloom (bloomOf arr)).WF
  recent : s'.recent = s.recent + 1
  cleared : s'.fs.content (File.backups i).path = some []
  other : s'.fs.content (File.backups (i + 1)).path = s.fs.content (File.backups (i + 1)).path
  /-- The dump of this round has the latest time. -/
  times : ∀ i, headerTime Time (ringBytes s'.fs i) ≤ env.now
  /-- The round makes up no record. -/
  only : ∀ P, DiskOnly P s.fs → DiskOnly P s'.fs

/-- **A completed round.** -/
theorem Constructing.writeBackup (h : Constructing Time arr m s)
    (hes : s.fs.content (File.backups i).path = some (Pod.encode es)) {fuel : ℕ}
    (hfuel : es.length + 2 ≤ fuel) (hnow : ∀ i, headerTime Time (ringBytes s.fs i) < env.now)
    (hfirst : i = 1 → logAt s.fs 0 = fun _ ↦ none) :
    ∃ s', writeBackup fuel env i s = some s' ∧ RoundDone env arr m i s s' := by
  obtain ⟨s', s₁, t, hrun, hloaded, heq⟩ := h.round env hes hfuel 7
  have hwf := hloaded.withBloom_wf h.recoverable.length_arr h.recoverable.bloomdump
  have hwf' := hwf.afterOps env hloaded.reserve 7
  have hasc := fun i ↦ (h.recoverable.ascends.files i).ascending
  have hlive := fun k ↦ (hloaded.live_diskLayers_iff env hwf hasc h.recoverable.logs ⟨es, hes, rfl⟩ (j := 7)
    (by omega) (fun _ ↦ hfirst) k).mpr (by omega)
  have hrec := (hloaded.recoverable env h.recoverable hnow (j := 7) (by omega)).congr fun k ↦
    (hlive k).trans (h.recoverable.live_eq k)
  have hbackups := hloaded.content_backups env (bloomOf arr) (j := 7)
  have hrecent : s'.recent = s.recent + 1 := by
    rw [← recent_withBloom s' (bloomOf arr), heq]
    exact congrArg (· + 1) hloaded.recent
  rw [← heq] at hwf' hrec
  simp only [← heq, fs_withBloom] at hbackups
  rw [fs_withBloom, show newestAfter s.recent 7 = s'.recent by rw [hrecent]; rfl] at hrec
  refine ⟨s', by rw [writeBackup_eq_bind, ← hrun]; rfl,
    ⟨⟨⟨hwf'.quiet.pool, hwf'.quiet.free⟩, hwf'.writable, hwf'.files, hwf'.backups, hwf'.bintree,
      hwf'.bintreeLog⟩, ?_, hrec⟩, hwf', hrecent, ?_, ?_, fun i' ↦ ?_, fun P honly ↦ ?_⟩
  · rw [← reserve_withBloom s' (bloomOf arr), heq]
    rfl
  · rw [hbackups, if_pos ⟨by omega, rfl⟩]
  · rw [hbackups, if_neg fun hi ↦ backups_add_one_ne i hi.2]
  · have hle := hloaded.headerTime_le env h.recoverable hnow (j := 7) (by omega) i'
    rwa [← heq, fs_withBloom] at hle
  · have honly' := hloaded.diskOnly env hwf hasc h.recoverable.logs ⟨es, hes, rfl⟩ (j := 7) (by omega) honly
    rwa [← heq, fs_withBloom] at honly'

end Round

/-! ## The whole constructor -/

/-- The system when the program is started: nothing is open and nothing is cached. -/
def asleep (fs : FS) : Sys := ⟨fs, [], Pool.initial⟩

/-- The clock has moved on since the last dump, and the constructor sleeps between its rounds. -/
def ClockMoves (fs : FS) (env₀ env₁ : Env Time) : Prop :=
  (∀ i, headerTime Time (ringBytes fs i) < env₀.now) ∧ env₀.now < env₁.now

/-- The constructor up to the first `j` operations of `adjust` in the round of the backup `i`. -/
def bootUntil (fuel : ℕ) (env₀ env₁ : Env Time) (i : Fin 2) (j : ℕ) (sys : Sys) : Option Store :=
  (ringScan Time sys.fs (List.finRange numFiles)).bind fun recent ↦
    if i = 0 then
      (loadBackup fuel env₀ 0 (starting recent sys)).bind (runOps env₀ (adjustOps.take j))
    else
      (writeBackup fuel env₀ 0 (starting recent sys)).bind fun s ↦
        (loadBackup fuel env₁ 1 s).bind (runOps env₁ (adjustOps.take j))

section Boot

variable {fs : FS} {r : Fin numFiles} {env₀ env₁ : Env Time}

theorem Recoverable.constructing (h : Recoverable Time fs r arr m) :
    Constructing Time arr m (starting r (asleep fs)) where
  replayable := replayable_starting h.writable h.ascends.filesOk (fun i ↦ by
    obtain ⟨es, hes, -⟩ := h.logs i
    exact Option.isSome_iff_exists.mpr ⟨_, hes⟩) r
  reserve := rfl
  recoverable := h

/-- **The first round.** -/
theorem Recoverable.firstRound (h : Recoverable Time fs r arr m) (hclock : ClockMoves fs env₀ env₁) :
    ∃ s, Master.writeBackup (replayFuel fs) env₀ 0 (starting r (asleep fs)) = some s ∧
      RoundDone env₀ arr m 0 (starting r (asleep fs)) s := by
  obtain ⟨es, hes, -⟩ := h.logs 0
  exact h.constructing.writeBackup env₀ hes (length_le_replayFuel hes) hclock.1 (by simp)

theorem RoundDone.logAt_eq {env : Env Time} {i : Fin 2} {s' : Store} (h : RoundDone env arr m i s s') :
    logAt s'.fs i = fun _ ↦ none := (logHas_of_empty h.cleared).logAt_eq

theorem RoundDone.times_lt {i : Fin 2} {s' : Store} (h : RoundDone env₀ arr m i s s')
    (hclock : ClockMoves fs env₀ env₁) (i : Fin numFiles) : headerTime Time (ringBytes s'.fs i) < env₁.now :=
  (h.times i).trans_lt hclock.2

/-- **A constructor that is cut short** can be started again, and what is lost are the deleted keys that
came back. -/
theorem Recoverable.bootUntil (h : Recoverable Time fs r arr m) (hclock : ClockMoves fs env₀ env₁)
    (i : Fin 2) {j : ℕ} (htorn : j ≠ 3) :
    ∃ s r', Master.bootUntil (replayFuel fs) env₀ env₁ i j (asleep fs) = some s ∧
      Recoverable Time s.fs r' arr (newest (diskLayers s.fs r')) ∧
      (∀ i, headerTime Time (ringBytes s.fs i) ≤ env₁.now) ∧ (∀ P, DiskOnly P fs → DiskOnly P s.fs) ∧
      ∀ k, live isTomb (newest (diskLayers s.fs r') k) = live isTomb (m k) ↔
        ¬((j = 4 ∨ j = 5) ∧ Unburied s.fs s.recent k) := by
  have hscan : ringScan Time (asleep fs).fs (List.finRange numFiles) = some r := h.ascends.ringScan
  rw [Master.bootUntil, hscan, Option.bind_some]
  obtain rfl | rfl : i = 0 ∨ i = 1 := by omega
  · obtain ⟨es, hes, -⟩ := h.logs 0
    obtain ⟨s, r', hs, hrec, htimes, honly, hiff⟩ :=
      h.constructing.cutShort env₀ hes (length_le_replayFuel hes) hclock.1 (by simp) htorn
    exact ⟨s, r', hs, hrec, fun i ↦ (htimes i).trans hclock.2.le, honly, hiff⟩
  · obtain ⟨es, hes, -⟩ := h.logs 1
    obtain ⟨s, hs, hdone⟩ := h.firstRound hclock
    rw [if_neg (by decide), hs, Option.bind_some]
    obtain ⟨s', r', hs', hrec, htimes, honly, hiff⟩ :=
      hdone.constructing.cutShort env₁ (hdone.other.trans hes) (length_le_replayFuel hes)
        (hdone.times_lt hclock) (fun _ ↦ hdone.logAt_eq) htorn
    exact ⟨s', r', hs', hrec, htimes, fun P hP ↦ honly P (hdone.only P hP), hiff⟩

/-- **After both rounds** the constructor opens the first backup and loads the Bloom filter. -/
theorem Constructing.finish (h : Constructing Time arr m s) (hwf : (s.withBloom (bloomOf arr)).WF)
    (hempty : ∀ i, s.fs.content (File.backups i).path = some []) (hr : s.recent = r + 1 + 1) :
    ∃ s', (let fresh := BinaryTree.ofLogFile (File.backups 0).path s.fs
      (BloomFile.create K File.bloomdump.path false true fresh.2).map fun loaded ↦
        { s.withFS loaded.2 with current := 0, bintree := fresh.1, bloom := loaded.1 }) = some s' ∧
      Booted arr r m s' ∧ ringBytes s'.fs = ringBytes s.fs := by
  obtain ⟨t, ht, hroot, hback⟩ := ofLogFile_backup (show ∀ name, s.fs.writable name = true from
    hwf.writable) 0
  obtain ⟨f, hcreate, hmirrors⟩ := BloomFile.create_load (K := K) h.recoverable.length_arr
    (show (s.fs.write (File.backups 0).path []).writable File.bloomdump.path = true from hwf.writable _)
    (by rw [content_write_path, if_neg (by simp)]; exact h.recoverable.bloomdump) false
  let fs₃ : FS := (s.fs.write (File.backups 0).path []).write File.bloomdump.path arr
  let s' : Store := { s.withFS fs₃ with current := 0, bintree := t, bloom := ⟨arr, File.bloomdump.path, f⟩ }
  have hcontent : ∀ g : File, s'.fs.content g.path = s.fs.content g.path := by
    intro g
    change fs₃.content g.path = _
    rw [content_write_path]
    split_ifs with hb
    · rw [hb, h.recoverable.bloomdump]
    · rw [content_write_path]
      split_ifs with hg
      · rw [hg, hempty]
      · rfl
  have hring : ringBytes s'.fs = ringBytes s.fs := funext fun i ↦ by
    rw [ringBytes, FS.read, hcontent]
    rfl
  have hback₃ : t.Backed fs₃ (File.backups 0).path :=
    hback.congr (by rw [content_write_path, if_neg (by simp)])
  obtain ⟨es, hlog, -⟩ := hback.exists_log
  have hwf' : s'.WF :=
    ⟨hwf.quiet.with_fs fs₃, hwf.writable,
      fun i ↦ by rw [hcontent]; exact hwf.files i, by rw [hcontent]; exact hwf.tempfile,
      fun i ↦ by rw [hcontent]; exact hwf.backups i, hback.wf,
      by rw [BinaryTree.LogsAside, hlog.logName_eq]; simp, hwf.reserve, hwf.reserveLog, hmirrors, rfl⟩
  refine ⟨s', ?_, ⟨hwf', hr, rfl, h.reserve, hroot, hback₃, fun i ↦ (hcontent _).trans (hempty i), rfl,
    fun k ↦ ?_⟩, hring⟩
  · simp only [ht, hcreate, Option.map_some]
    rfl
  · have hlive := h.recoverable.live_eq k
    have hlogs : ∀ i, logAt s.fs i = fun _ ↦ none := fun i ↦ (logHas_of_empty (hempty i)).logAt_eq
    have hfile : s'.file = fileAt s.fs := funext fun i ↦ congrArg (fileMap K V) (congrFun hring i)
    rw [diskLayers, newest_cons, newest_cons, hlogs, hlogs, Option.none_or, Option.none_or] at hlive
    rw [Store.abstractMap, hfile, show s'.reserve = none from h.reserve]
    exact hlive

/-- **The constructor** arrives at a store that has the map. -/
theorem Recoverable.boot (h : Recoverable Time fs r arr m) (hclock : ClockMoves fs env₀ env₁) :
    ∃ s, Master.boot (replayFuel fs) env₀ env₁ (asleep fs) = some s ∧ Booted arr r m s ∧
      Ascends Time (ringBytes s.fs) s.recent ∧ (∀ i, headerTime Time (ringBytes s.fs i) ≤ env₁.now) ∧
      ∀ P, DiskOnly P fs → DiskOnly P s.fs := by
  have hscan : ringScan Time (asleep fs).fs (List.finRange numFiles) = some r := h.ascends.ringScan
  obtain ⟨es, hes, -⟩ := h.logs 1
  obtain ⟨s₁, hs₁, hdone₁⟩ := h.firstRound hclock
  obtain ⟨s₂, hs₂, hdone₂⟩ := hdone₁.constructing.writeBackup (i := 1) env₁ (hdone₁.other.trans hes)
    (length_le_replayFuel hes) (hdone₁.times_lt hclock) fun _ ↦ hdone₁.logAt_eq
  have hempty : ∀ i, s₂.fs.content (File.backups i).path = some [] := fun i ↦ by
    obtain rfl | rfl : i = 0 ∨ i = 1 := by omega
    · exact hdone₂.other.trans hdone₁.cleared
    · exact hdone₂.cleared
  have hr : s₂.recent = r + 1 + 1 := by rw [hdone₂.recent, hdone₁.recent]; rfl
  obtain ⟨s, hs, hbooted, hring⟩ := hdone₂.constructing.finish hdone₂.wf hempty hr
  refine ⟨s, ?_, hbooted, ?_, fun i ↦ hring ▸ hdone₂.times i, fun P hP ↦ ⟨fun i k v hv ↦ ?_,
    fun i k v hv ↦ ?_⟩⟩
  rotate_left
  · rw [hring, hbooted.recent, ← hr]
    exact hdone₂.constructing.recoverable.ascends
  · rw [(logHas_of_empty (hbooted.backups i)).logAt_eq] at hv
    cases hv
  · have hsame : fileAt s.fs i = fileAt s₂.fs i := congrArg (fileMap K V) (congrFun hring i)
    exact (hdone₂.only P (hdone₁.only P hP)).files i k v (hsame ▸ hv)
  rw [Master.boot, hscan, Option.bind_some, bootFrom_eq_bind, replayLoop, hs₁, Option.bind_some, hs₂,
    Option.bind_some]
  exact hs

omit [LinearOrder Time] in
/-- The threads find a store the constructor has left in order. -/
theorem Booted.inv (h : Booted arr r m s) (hcovers : ∀ k, m k ≠ none → (bloomOf arr).get k = true) :
    (Threads.mk s 0 none).Inv Time m where
  wf := h.wf
  covers k hk := (BloomFile.get_congr h.arr k).trans (hcovers k hk)
  live_eq k := by
    rw [below_of_idle s 0 (.inl rfl), BinaryTree.lookup_of_nil h.bintree, Option.none_or]
    exact h.abstractMap_eq k
  bintreeLog := by
    dsimp only
    rw [h.current]
    exact h.bintreeLog
  pending := .none (.inl rfl) h.reserve (h.backups _)

theorem Threads.Sound.of_ascends (h : Ascends Time (ringBytes s.fs) s.recent) :
    (Threads.mk s 0 none).Sound Time :=
  ⟨h, fun todo hretire ↦ by cases hretire⟩

end Boot

end Recoverable

end Master

end ScratchStore
