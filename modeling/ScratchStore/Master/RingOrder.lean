import ScratchStore.Master.CrashInAdjust

/-!
# The order of the ring on disk

A crash leaves no position in the ring but the one the header times show: the constructor finds the
newest file when the times ascend from the oldest file to it (`Ascends.ringScan`).  They do as long as
the clock moves on between two dumps, whatever the threads do in between: `Threads.Sound.step`.

Between the truncation and the merge the second oldest file has no header.  What it was is in
`tempfile`, and `Threads.bytes` has it there.

`Ascends` has all that the scan needs, and each operation that changes a header is one lemma about it:
`Ascends.merge`, where the header stays, and `Ascends.dump`, where the oldest file becomes the newest.  In
`Threads.Sound` it is tied to how far `adjust` has got, together with what the logs that were dumped say, which
is the other thing a start relies on.
-/

set_option autoImplicit false

namespace ScratchStore

namespace Master

open SortedAssoc FileIO Layers

variable {Time : Type} [TimeFormat Time]

/-! ## Ascending header times

The times are those of the dumps.  A merge keeps the header of the second oldest file, so there are
still ten times in order, and a dump replaces the oldest of them by the present time. -/

theorem isDataFile_mergeFiles (unset : Uninitialised K V) {d2 d1 : Bytes} (h2 : IsDataFile K V d2)
    (h1 : IsDataFile K V d1) : IsDataFile K V (mergeFiles unset d2 d1) := by
  obtain ⟨f2, rfl⟩ := h2
  obtain ⟨f1, rfl⟩ := h1
  exact ⟨_, (mergeFiles_bytes unset f2 f1).symm⟩

/-- The files after the two oldest are merged. -/
def mergedBytes (unset : Uninitialised K V) (bytes : Fin numFiles → Bytes) (r : Fin numFiles) :
    Fin numFiles → Bytes :=
  Function.update bytes (r + 2) (mergeFiles unset (bytes (r + 2)) (bytes (r + 1)))

/-- A ring of well-formed files whose times ascend up to the file `r`. -/
structure Ascends (Time : Type) [TimeFormat Time] [LinearOrder Time] (bytes : Fin numFiles → Bytes)
    (r : Fin numFiles) : Prop where
  files : ∀ i, IsDataFile K V (bytes i)
  /-- From each file to the next the time goes up, but from the newest to the oldest. -/
  times : ∀ i, i ≠ r → headerTime Time (bytes i) < headerTime Time (bytes (i + 1))

section Ascends

variable [LinearOrder Time] {bytes : Fin numFiles → Bytes} {r : Fin numFiles}

theorem Ascends.filesOk {fs : FS} (h : Ascends Time (ringBytes fs) r) : FilesOk fs := by
  intro i
  have hi : IsDataFile K V (ringBytes fs i) := h.files i
  have hle : Pod.sizeof (K × V) ≤ (ringBytes fs i).length := (isDataFile_iff.mp hi).1
  rcases hcontent : fs.content (File.filesys i).path with _ | bs
  · rw [ringBytes, FS.read, hcontent] at hle
    exact absurd hle (by rw [sizeof_KV]; simp)
  · refine ⟨bs, rfl, ?_⟩
    have hread : ringBytes fs i = bs := by rw [ringBytes, FS.read, hcontent, Option.getD_some]
    exact hread ▸ hi.ascending

/-- The oldest file is older than each of the others. -/
theorem Ascends.oldest_lt (h : Ascends Time bytes r) {n : ℕ} (hn : n < 9) :
    headerTime Time (bytes (r + 1)) < headerTime Time (bytes (r + 2 + Fin.ofNat numFiles n)) := by
  have hstep : ∀ r : Fin numFiles, r + 1 ≠ r ∧ r + 1 + 1 = r + 2 + Fin.ofNat numFiles 0 ∧
      ∀ n : Fin 8, r + 2 + Fin.ofNat numFiles n.val ≠ r ∧
        r + 2 + Fin.ofNat numFiles n.val + 1 = r + 2 + Fin.ofNat numFiles (n.val + 1) := by decide
  obtain ⟨hne, hzero, hsucc⟩ := hstep r
  induction n with
  | zero =>
    rw [← hzero]
    exact h.times (r + 1) hne
  | succ n ih =>
    obtain ⟨hn', hnext⟩ := hsucc ⟨n, by omega⟩
    refine (ih (by omega)).trans ?_
    rw [← hnext]
    exact h.times _ hn'

/-- **The scan finds the newest file.** -/
theorem Ascends.ringScan {fs : FS} (h : Ascends Time (ringBytes fs) r) :
    ringScan Time fs (List.finRange numFiles) = some r := by
  have hlast : ∀ r : Fin numFiles, r + 2 + Fin.ofNat numFiles 8 = r := by decide
  refine (ringScan_of_descent h.filesOk (c := True) fun i ↦ ?_).mpr (.inr trivial)
  by_cases hi : i = r
  · have hlt := h.oldest_lt (n := 8) (by omega)
    rw [hlast] at hlt
    rw [hi]
    exact iff_of_true hlt ⟨rfl, trivial⟩
  · exact iff_of_false (not_lt.mpr (h.times i hi).le) fun hr ↦ hi hr.1

theorem Ascends.headerTime_mergedBytes (h : Ascends Time bytes r) (unset : Uninitialised K V)
    (i : Fin numFiles) : headerTime Time (mergedBytes unset bytes r i) = headerTime Time (bytes i) := by
  rw [mergedBytes, Function.update_apply]
  split_ifs with hi
  · rw [headerTime_mergeFiles unset (h.files _), hi]
  · rfl

/-- **A merge** keeps the header of the file it merges into. -/
theorem Ascends.merge (h : Ascends Time bytes r) (unset : Uninitialised K V) :
    Ascends Time (mergedBytes unset bytes r) r := by
  refine ⟨fun i ↦ ?_, fun i hi ↦ ?_⟩
  · rw [mergedBytes, Function.update_apply]
    split_ifs
    · exact isDataFile_mergeFiles unset (h.files _) (h.files _)
    · exact h.files i
  · rw [h.headerTime_mergedBytes, h.headerTime_mergedBytes]
    exact h.times i hi

/-- **A dump** stamps the oldest file with the present time. -/
theorem Ascends.dump (h : Ascends Time bytes r) {t : BinaryTree K V} (ht : t.WF) {now : Time}
    (hnow : ∀ i, headerTime Time (bytes i) < now) :
    Ascends Time (Function.update bytes (r + 1) (t.dumpBytes now)) (r + 1) := by
  refine ⟨fun i ↦ ?_, fun i hi ↦ ?_⟩
  · rw [Function.update_apply]
    split_ifs
    · exact ⟨_, BinaryTree.bytes_dumpFile le_sizeof t ht now⟩
    · exact h.files i
  · rw [Function.update_of_ne hi, Function.update_apply]
    split_ifs with hnext
    · rw [headerTime_dumpBytes]
      exact hnow i
    · exact h.times i fun hr ↦ hnext (by rw [hr])

end Ascends

/-- What a completed `adjust` makes of the files. -/
theorem ringBytes_adjusted {s : Store} (h : s.WF) {t : BinaryTree K V} (ht : s.reserve = some t)
    (env : Env Time) : ringBytes (adjusted env s t).fs =
      Function.update (mergedBytes env.unset (ringBytes s.fs) s.recent) (s.recent + 1)
        (t.dumpBytes env.now) := by
  funext i
  rw [ringBytes, FS.read, content_adjusted env h ht, Function.update_apply, mergedBytes,
    Function.update_apply]
  split_ifs <;> rfl

theorem Ascends.adjusted [LinearOrder Time] {s : Store} (h : Ascends Time (ringBytes s.fs) s.recent)
    (hwf : s.WF) {t : BinaryTree K V} (ht : s.reserve = some t) {env : Env Time}
    (hnow : ∀ i, headerTime Time (ringBytes s.fs i) < env.now) :
    Ascends Time (ringBytes (Master.adjusted env s t).fs) (s.recent + 1) := by
  rw [ringBytes_adjusted hwf ht]
  refine (h.merge env.unset).dump (hwf.reserve t ht) fun i ↦ ?_
  rw [h.headerTime_mergedBytes]
  exact hnow i

/-! ## While threads run

Only the dump has a time of its own, and it has to be later than those in the ring (`Threads.Later`). -/

/-- The files of the ring as far as headers go: from the truncation to the merge `tempfile` has what
the second oldest file is going to be merged from. -/
def Threads.bytes (st : Threads) (i : Fin numFiles) : Bytes :=
  match st.holder with
  | some (.merge :: _) =>
    if i = st.store.recent + 2 then st.store.fs.read File.tempfile.path else ringBytes st.store.fs i
  | _ => ringBytes st.store.fs i

/-- What the constructor relies on and `Threads.Inv` leaves open: the times ascend, and a log that was
dumped replays to nothing. -/
structure Threads.Sound (Time : Type) [TimeFormat Time] [LinearOrder Time] (st : Threads) : Prop where
  /-- Read with what `adjust` is moving in mind. -/
  ascends : Ascends Time st.bytes st.newestFile
  /-- Once `reserve` is dumped, its log says nothing. -/
  synced : ∀ todo, st.holder = some (.retire :: todo) →
    LogHas st.store.fs (st.store.current + 1) fun _ ↦ none

/-- When the action is a dump, its time is later than the times in the ring. -/
def Threads.Later (st : Threads) (a : Action Time) [LinearOrder Time] : Prop :=
  ∀ env todo, a = .work env → st.holder = some (.dump :: todo) →
    ∀ i, headerTime Time (ringBytes st.store.fs i) < env.now

/-- From the truncation to the merge. -/
theorem bytes_window (s : Store) (waiting : ℕ) (todo : List AdjustOp) :
    (Threads.mk s waiting (some (.merge :: todo))).bytes =
      Function.update (ringBytes s.fs) (s.recent + 2) (s.fs.read File.tempfile.path) := by
  funext i
  rw [Function.update_apply]
  rfl

section Step

variable [LinearOrder Time] {st st' : Threads} {m : K → Option V}

theorem SameFiles.ringBytes_eq {s s' : Store} (h : SameFiles s s') : ringBytes s'.fs = ringBytes s.fs := by
  funext i
  rw [ringBytes, FS.read, h.filesys]
  rfl

theorem SameFiles.bytes_eq {s s' : Store} (h : SameFiles s s') (waiting : ℕ)
    (holder : Option (List AdjustOp)) :
    (Threads.mk s' waiting holder).bytes = (Threads.mk s waiting holder).bytes := by
  funext i
  simp only [Threads.bytes, h.recent, h.ringBytes_eq, h.read_tempfile]

theorem Threads.Sound.write (h : st.Sound Time) (hst : st.Inv Time m) (k : K) (v : V) :
    Threads.Sound Time { st with store := dbwrite k v st.store } := by
  have hs := sameFiles_dbwrite hst.wf hst.bintreeLog k v
  obtain ⟨s, waiting, holder⟩ := st
  refine ⟨?_, fun todo hholder ↦ ?_⟩
  · rw [hs.bytes_eq, hs.newestFile_eq]
    exact h.ascends
  · dsimp only
    rw [hs.current]
    exact (h.synced todo hholder).congr hs.backup

/-- Writing a file that is not in the ring. -/
theorem ringBytes_write_of_ne (fs : FS) {f : File} (hf : ∀ i, f ≠ .filesys i) (bs : Bytes) :
    ringBytes (fs.write f.path bs) = ringBytes fs := by
  funext i
  rw [ringBytes, read_write_path, if_neg (hf i).symm]
  rfl

theorem ringBytes_write_filesys (fs : FS) (i : Fin numFiles) (bs : Bytes) :
    ringBytes (fs.write (File.filesys i).path bs) = Function.update (ringBytes fs) i bs := by
  funext j
  rw [ringBytes, read_write_path, Function.update_apply]
  simp only [File.filesys.injEq]
  rfl

theorem Threads.Sound.swap (h : st.Sound Time) (hst : st.Inv Time m) (hswap : wantsSwap st.store = true) :
    Threads.Sound Time { st with store := Master.swap st.store, waiting := st.waiting + 1 } := by
  obtain ⟨-, hholder, -⟩ := hst.idle (reserve_of_wantsSwap hswap)
  have hbytes : ringBytes (Master.swap st.store).fs = ringBytes st.store.fs := by
    rw [fs_swap hst.wf]
    exact ringBytes_write_of_ne _ (by simp) _
  obtain ⟨s, waiting, holder⟩ := st
  have hasc := h.ascends
  rcases hholder with rfl | rfl
  all_goals
    refine ⟨?_, fun todo hretire ↦ by cases hretire⟩
    change Ascends Time (ringBytes (Master.swap s).fs) s.recent
    rw [hbytes]
    exact hasc

/-- **Every operation of `adjust`** keeps the ring in order. -/
theorem Threads.Sound.work {op : AdjustOp} {todo : List AdjustOp} {env : Env Time} {s' : Store}
    (h : st.Sound Time) (hst : st.Inv Time m) (hholder : st.holder = some (op :: todo))
    (hlater : st.Later (.work env)) (hrun : op.run env st.store = some s') :
    Threads.Sound Time { st with store := s', holder := some todo } := by
  obtain ⟨t, -, ht, hstage, hlog⟩ := hst.working hholder
  rw [AdjustOp.run_eq hst.wf env ht op] at hrun
  obtain rfl := Option.some.inj hrun
  obtain ⟨s, waiting, holder⟩ := st
  dsimp only at hholder ht hstage hlog ⊢
  subst hholder
  have hasc := h.ascends
  cases hstage with
  | start | emptied | merged =>
    refine ⟨?_, fun todo hretire ↦ by cases hretire⟩
    change Ascends Time (ringBytes (s.fs.write File.tempfile.path _)) s.recent
    rw [ringBytes_write_of_ne _ (by simp)]
    exact hasc
  | copied htemp =>
    refine ⟨?_, fun todo hretire ↦ by cases hretire⟩
    have hread : (s.fs.write (File.filesys (s.recent + 2)).path []).read File.tempfile.path =
        ringBytes s.fs (s.recent + 2) := by
      rw [read_write_path, if_neg (by simp), htemp]
      rfl
    rw [bytes_window]
    change Ascends Time (Function.update (ringBytes (s.fs.write (File.filesys (s.recent + 2)).path []))
      (s.recent + 2) ((s.fs.write (File.filesys (s.recent + 2)).path []).read File.tempfile.path)) s.recent
    rw [hread, ringBytes_write_filesys, Function.update_idem, Function.update_eq_self]
    exact hasc
  | truncated htemp =>
    refine ⟨?_, fun todo hretire ↦ by cases hretire⟩
    have hne : s.recent + 1 ≠ s.recent + 2 := (add_two_ne_add_one s.recent).symm
    rw [bytes_window, show Threads.newestFile _ = s.recent from rfl] at hasc
    have hmerge := hasc.merge env.unset
    rw [mergedBytes, Function.update_idem, Function.update_self, Function.update_of_ne hne] at hmerge
    change Ascends Time (ringBytes (s.fs.write (File.filesys (s.recent + 2)).path _)) s.recent
    rw [ringBytes_write_filesys]
    exact hmerge
  | cleaned =>
    have hnow := hlater env _ rfl rfl
    refine ⟨?_, fun todo hretire ↦ logHas_dumped (hlog (by simp)) env⟩
    have hbytes : ringBytes (dumped env s t).fs =
        Function.update (ringBytes s.fs) (s.recent + 1) (t.dumpBytes env.now) := by
      funext i
      rw [ringBytes, FS.read, content_dumped env _ ((hst.wf.reserveLog t ht).1 i), Function.update_apply]
      simp only [File.filesys.injEq]
      split_ifs <;> rfl
    change Ascends Time (ringBytes (dumped env s t).fs) (s.recent + 1)
    rw [hbytes]
    exact hasc.dump (hst.wf.reserve t ht) hnow
  | dumped now hfile =>
    refine ⟨?_, fun todo hretire ↦ by cases hretire⟩
    change Ascends Time (ringBytes (s.fs.write (File.backups (s.current + 1)).path [])) (s.recent + 1)
    rw [ringBytes_write_of_ne _ (by simp)]
    exact hasc

/-- **Every step** keeps the ring in order, when its time is later. -/
theorem Threads.Sound.step {a : Action Time} (h : st.Sound Time) (hst : st.Inv Time m)
    (hlater : st.Later a) (hstep : st.step a = some st') : st'.Sound Time := by
  rcases Threads.step_cases hstep with _ | ⟨k, v⟩ | hswap | ⟨hholder, -⟩ | ⟨hholder, hrun⟩ | hholder
  · exact h
  · exact h.write hst k v
  · exact h.swap hst hswap
  · obtain ⟨s, waiting, holder⟩ := st
    obtain rfl : holder = none := hholder
    exact ⟨h.ascends, fun todo hretire ↦ by cases hretire⟩
  · exact h.work hst hholder hlater hrun
  · obtain ⟨s, waiting, holder⟩ := st
    obtain rfl : holder = some [] := hholder
    exact ⟨h.ascends, fun todo hretire ↦ by cases hretire⟩

end Step

end Master

end ScratchStore
