import ScratchStore.Master.RingOrder

/-!
# What a crash leaves

To the constructor a disk is a stack of maps: the second log over the first over the ring.  That
stack has the last write of every key, deletions included, exactly when the crash neither exchanges the
two trees for a key in which they differ nor brings a deleted key back: `Threads.Inv.newest_disk_iff`.

A deleted key comes back when the merge has dropped its tombstone while the file it was merged with is
still there.  That file is the oldest one, so no newer record may have the key.

## Two ways to lose a write

* `Conflict`: both logs have the key, with different values, and the one that the constructor applies last is
  the older.  The position of the current log decides, and the next swap changes it.
* `Unburied`: the merge keeps no tombstones, so after it the oldest file has a value that nothing hides any
  more.  The dump overwrites that file, so the time for it is from the merge to the dump.

`Threads.Loses` is both of them, each at the operations of `adjust` where it can happen.  The third way, a
crash right after the truncation, leaves a file of the ring without a header, and `Threads.Torn` is for that.
-/

set_option autoImplicit false

namespace ScratchStore

namespace Master

open SortedAssoc FileIO Layers

variable {Time : Type} [TimeFormat Time] {st : Threads} {m : K → Option V}

/-! ## The disk as a stack of maps

The constructor writes the first log to the ring and then the second, so what it makes of a disk is a
stack with the second log on top. -/

/-- What the backup `i` replays to. -/
def logAt (fs : FS) (i : Fin 2) : K → Option V :=
  logMap (Pod.decode (LogEntry K V) (fs.read (File.backups i).path))

theorem LogHas.logAt_eq {fs : FS} {i : Fin 2} {l : K → Option V} (h : LogHas fs i l) : logAt fs i = l := by
  obtain ⟨es, hes, rfl⟩ := h
  rw [logAt, FS.read, hes, Option.getD_some, Pod.decode_encode]

/-- What the constructor makes of a disk with the newest file `r`, newest first. -/
def diskLayers (fs : FS) (r : Fin numFiles) : List (K → Option V) :=
  logAt fs 1 :: logAt fs 0 :: (ring r).map (fileAt fs)

theorem newest_ring (file : Fin numFiles → K → Option V) (r : Fin numFiles) (k : K) :
    newest ((ring r).map file) k =
      (newest ((newer r).map file) k).or ((file (r + 2) k).or (file (r + 1) k)) := by
  rw [ring, List.map_append, newest_append, List.map_cons, List.map_singleton, newest_cons, newest_cons,
    newest_nil, Option.or_none]

/-- With one log for each tree. -/
theorem newest_diskLayers {fs : FS} {i : Fin 2} {cur other : K → Option V} (hcur : LogHas fs i cur)
    (hother : LogHas fs (i + 1) other) (r : Fin numFiles) (k : K) :
    newest (diskLayers fs r) k =
      if i = 0 then (other k).or ((cur k).or (newest ((ring r).map (fileAt fs)) k))
      else (cur k).or ((other k).or (newest ((ring r).map (fileAt fs)) k)) := by
  rw [diskLayers, newest_cons, newest_cons]
  obtain rfl | rfl : i = 0 ∨ i = 1 := by omega
  · rw [hcur.logAt_eq, show (1 : Fin 2) = 0 + 1 from rfl, hother.logAt_eq, if_pos rfl]
  · rw [hcur.logAt_eq, show (0 : Fin 2) = 1 + 1 from rfl, hother.logAt_eq, if_neg (by decide)]

/-- Every record on disk is one of these. -/
structure DiskOnly (P : K → V → Prop) (fs : FS) : Prop where
  logs : ∀ i k v, logAt fs i k = some v → P k v
  files : ∀ i k v, fileAt fs i k = some v → P k v

theorem DiskOnly.of_newest {P : K → V → Prop} {fs : FS} (h : DiskOnly P fs) {r : Fin numFiles} {k : K}
    {v : V} (hnew : newest (diskLayers fs r) k = some v) : P k v := by
  obtain ⟨l, hl, hv⟩ := exists_of_newest hnew
  rcases List.mem_cons.mp hl with rfl | hl
  · exact h.logs 1 k v hv
  rcases List.mem_cons.mp hl with rfl | hl
  · exact h.logs 0 k v hv
  · obtain ⟨i, -, rfl⟩ := List.mem_map.mp hl
    exact h.files i k v hv

theorem tombstone_unique (v w : V) (hv : isTomb v = true) (hw : isTomb w = true) : v = w := by
  rw [isTomb_iff.mp hv, isTomb_iff.mp hw]

/-! ## What a crash can lose -/

/-- The trees have different values for the key, and `bintree` is on the first backup. -/
def Conflict (s : Store) (k : K) : Prop :=
  s.current = 0 ∧ ∃ v v', s.bintree.lookup k = some v ∧ s.reserveMap k = some v' ∧ v' ≠ v

/-- The oldest file has a value for the key, and neither the file above it, which was merged with it,
nor anything newer has a record. -/
def Unburied (fs : FS) (r : Fin numFiles) (k : K) : Prop :=
  newest (logAt fs 1 :: logAt fs 0 :: (newer r).map (fileAt fs)) k = none ∧
    fileAt fs (r + 2) k = none ∧ live isTomb (fileAt fs (r + 1) k) ≠ none

/-- After a crash the key does not have the value written last. -/
def Threads.Loses (st : Threads) (k : K) : Prop :=
  match st.holder with
  | some (.retire :: _) => False
  | some (.emptyTempAgain :: _) | some (.dump :: _) =>
    Conflict st.store k ∨ Unburied st.store.fs st.store.recent k
  | _ => Conflict st.store k

/-- The second oldest file is in `tempfile` only. -/
def Threads.Torn (st : Threads) : Prop := ∃ todo, st.holder = some (.merge :: todo)

/-! ## A stack of maps and the logs -/

section Trees

variable {s : Store} {k : K} (hcur : LogHas s.fs s.current s.bintree.lookup)
  (hother : LogHas s.fs (s.current + 1) s.reserveMap)

include hcur hother

/-- The log of `reserve` hides that of `bintree`. -/
theorem live_ne_of_conflict (h : Conflict s k) (r : Fin numFiles) (x : Option V) :
    live isTomb (newest (diskLayers s.fs r) k) ≠ live isTomb ((s.bintree.lookup k).or x) := by
  obtain ⟨hcurrent, v, v', hb, ho, hne⟩ := h
  rw [newest_diskLayers hcur hother, if_pos hcurrent, hb, ho, Option.some_or, Option.some_or, live_some,
    live_some]
  split_ifs with hv' hv
  · exact fun _ ↦ hne (tombstone_unique _ _ hv' hv)
  · simp
  · simp
  · simpa using hne

theorem newest_of_not_conflict (h : ¬Conflict s k) (r : Fin numFiles) :
    newest (diskLayers s.fs r) k = (s.bintree.lookup k).or ((s.reserveMap k).or
      (newest ((ring r).map s.file) k)) := by
  rw [newest_diskLayers hcur hother]
  split_ifs with hcurrent
  · exact or_or_swap_iff.mpr fun hdiffer ↦ h ⟨hcurrent, hdiffer⟩
  · rfl

/-- **Before the merge.** -/
theorem live_disk_iff_conflict : live isTomb (newest (diskLayers s.fs s.recent) k) =
    live isTomb ((s.bintree.lookup k).or
      ((s.reserveMap k).or (newest ((ring s.recent).map s.file) k))) ↔ ¬Conflict s k :=
  ⟨fun heq hconflict ↦ live_ne_of_conflict hcur hother hconflict _ _ heq,
    fun hconflict ↦ by rw [newest_of_not_conflict hcur hother hconflict]⟩

theorem newest_logs_eq_none_iff (x : Option V) : (logAt s.fs 1 k).or ((logAt s.fs 0 k).or x) = none ↔
    (s.bintree.lookup k).or ((s.reserveMap k).or x) = none := by
  obtain hi | hi : s.current = 0 ∨ s.current = 1 := by omega
  all_goals
    rw [hi] at hcur hother
    simp only [Option.or_eq_none_iff, hcur.logAt_eq]
  · rw [show (1 : Fin 2) = 0 + 1 from rfl, hother.logAt_eq]
    exact and_left_comm
  · rw [show (0 : Fin 2) = 1 + 1 from rfl, hother.logAt_eq]

/-- **Between the merge and the dump.** -/
theorem live_disk_iff_unburied : live isTomb (newest (diskLayers s.fs s.recent) k) =
    live isTomb ((s.bintree.lookup k).or ((s.reserveMap k).or
      (newest ((newer s.recent).map s.file ++ [s.file (s.recent + 2)]) k))) ↔
        ¬(Conflict s k ∨ Unburied s.fs s.recent k) := by
  by_cases hconflict : Conflict s k
  · exact iff_of_false (live_ne_of_conflict hcur hother hconflict _ _) fun h ↦ h (.inl hconflict)
  · have hbehind := @live_or_left_behind_iff V isTomb
      ((s.bintree.lookup k).or ((s.reserveMap k).or (newest ((newer s.recent).map s.file) k)))
      (s.file (s.recent + 2) k) (s.file (s.recent + 1) k)
    rw [newest_of_not_conflict hcur hother hconflict, newest_ring, newest_append, newest_cons, newest_nil,
      Option.or_none, or_iff_right hconflict, Unburied, newest_cons, newest_cons,
      newest_logs_eq_none_iff hcur hother, show fileAt s.fs = s.file from rfl]
    simpa only [Option.or_assoc] using hbehind

end Trees

/-! ## What a crash leaves of the threads -/

/-- The log of `reserve`, until `reserve` is dumped. -/
theorem Threads.Inv.logHas_other (h : st.Inv Time m) (hretire : ∀ todo, st.holder ≠ some (.retire :: todo)) :
    LogHas st.store.fs (st.store.current + 1) st.store.reserveMap := by
  rcases hr : st.store.reserve with _ | t
  · have hnone : st.store.reserveMap = fun _ ↦ none := funext fun k ↦ by rw [Store.reserveMap, hr]; rfl
    rw [hnone]
    exact logHas_of_empty (h.idle hr).2.2
  · have hsome : st.store.reserveMap = t.lookup := funext fun k ↦ by
      rw [Store.reserveMap, hr, Option.bind_some]
    rw [hsome]
    rcases h.backed_or_dumped hr with hlog | ⟨hholder, -⟩
    · exact logHas_of_backed hlog
    · exact absurd hholder (hretire _)

theorem newest_reserve (s : Store) (ls : List (K → Option V)) (k : K) :
    newest (s.reserve.toList.map BinaryTree.lookup ++ ls) k = (s.reserveMap k).or (newest ls k) := by
  rw [newest_append, Store.reserveMap]
  cases s.reserve with
  | none => rfl
  | some t => simp

/-- **One key after a crash**: the disk has what was written last, unless the crash loses it. -/
theorem Threads.Inv.newest_disk_iff [LinearOrder Time] (h : st.Inv Time m) (hs : st.Sound Time)
    (htorn : ¬st.Torn) (k : K) :
    live isTomb (newest (diskLayers st.store.fs st.newestFile) k) = live isTomb (m k) ↔ ¬st.Loses k := by
  have hcur := logHas_of_backed h.bintreeLog
  have hlive := h.live_eq k
  rw [← hlive]
  obtain ⟨s, waiting, holder⟩ := st
  have hother := h.logHas_other
  have hpending := h.pending
  dsimp only [Threads.Torn] at hcur hother hpending htorn ⊢
  -- the two logs, until the dump
  have before := fun hne ↦ live_disk_iff_conflict (k := k) hcur (hother hne)
  have after := fun hne ↦ live_disk_iff_unburied (k := k) hcur (hother hne)
  cases hpending with
  | none hholder | waiting hholder =>
    rcases hholder with rfl | rfl
    all_goals
      rw [below_of_idle s _ (by simp), newest_reserve]
      exact before (by simp)
  | working ht hstage =>
    cases hstage with
    | start | emptied | copied =>
      simp only [Threads.below, newest_reserve]
      exact before (by simp)
    | truncated => exact absurd ⟨_, rfl⟩ htorn
    | merged | cleaned =>
      simp only [Threads.below, newest_reserve]
      exact after (by simp)
    | dumped =>
      have hsynced := hs.synced [] rfl
      refine iff_of_true (congrArg (live isTomb) ?_) not_false
      change newest (diskLayers s.fs (s.recent + 1)) k = _
      rw [newest_diskLayers hcur hsynced]
      simp only [Option.none_or, ite_self]
      rfl

theorem Unburied.newest_ne_none {fs : FS} {r : Fin numFiles} {k : K} (h : Unburied fs r k)
    (r' : Fin numFiles) : newest (diskLayers fs r') k ≠ none := by
  intro hnone
  rw [newest_eq_none_iff] at hnone
  have hmem : fileAt fs (r + 1) ∈ (ring r').map (fileAt fs) := List.mem_map_of_mem (mem_ring r' (r + 1))
  refine h.2.2 ?_
  rw [hnone _ (List.mem_cons_of_mem _ (List.mem_cons_of_mem _ hmem)), live_none]

theorem Conflict.newest_ne_none {s : Store} {k : K} (h : Conflict s k)
    (hcur : LogHas s.fs s.current s.bintree.lookup) (r : Fin numFiles) :
    newest (diskLayers s.fs r) k ≠ none := by
  obtain ⟨hcurrent, v, -, hb, -⟩ := h
  intro hnone
  rw [newest_eq_none_iff] at hnone
  rw [hcurrent] at hcur
  rw [← hcur.logAt_eq, hnone (logAt s.fs 0) (by simp [diskLayers])] at hb
  cases hb

/-- A key that is lost has a record on disk. -/
theorem Threads.Inv.newest_ne_none {k : K} (h : st.Inv Time m) (hloses : st.Loses k) :
    newest (diskLayers st.store.fs st.newestFile) k ≠ none := by
  have hconflict := fun hc : Conflict st.store k ↦
    hc.newest_ne_none (logHas_of_backed h.bintreeLog) st.newestFile
  obtain ⟨s, waiting, holder⟩ := st
  simp only [Threads.Loses] at hloses
  split at hloses
  · exact hloses.elim
  · exact hloses.elim hconflict fun hu ↦ hu.newest_ne_none _
  · exact hloses.elim hconflict fun hu ↦ hu.newest_ne_none _
  · exact hconflict hloses

end Master

end ScratchStore
