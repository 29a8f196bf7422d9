import ScratchStore.Master.Lifetimes
import ScratchStore.Master.Reader

/-!
# Where records come from

Whatever a crash or a race loses, nothing is made up: every record in memory and on disk was written to
its key by some `dbwrite`, in this lifetime or in an earlier one.  So a key that was only ever given one
value is safe from the crashes that exchange or bring back the values of others: all its records agree,
and each of those crashes leaves one of them.  Only the crash between the truncation and the merge can
lose it.

Two things come out of this.

* `Threads.Only` and `Machine.Only`: every record is one of the pairs that were written.  Nothing is said about
  which of them is newer, so no layer of the store needs to be told from another for this.
* `written_once_found`: if the key has been given one value only, all its records agree, and it does not matter
  in which order logs are applied or what a merge brings back.

`leftOf` says what the next start finds of the values written last, so that one invariant covers many lifetimes.
-/

set_option autoImplicit false

namespace ScratchStore

namespace Master

open SortedAssoc FileIO Layers

variable {Time : Type} [TimeFormat Time] {P Q : K → V → Prop} {st st' : Threads} {m : K → Option V}
  {s s' : Store}

/-! ## While threads run

A step moves records from memory to a file or from one file to another, and a write adds one.  Nothing
else makes a record. -/

/-- Every record in memory and in the ring is one of these, and so is every record that `tempfile` has
instead of a truncated file. -/
structure Threads.Only (P : K → V → Prop) (st : Threads) : Prop where
  /-- In the trees. -/
  memory : ∀ k, st.store.MemoryOk k (P k)
  /-- In the files of the ring, as they are. -/
  files : ∀ i k v, st.store.file i k = some v → P k v
  /-- And as they are to be seen, with what a truncated file had. -/
  seen : ∀ i k v, st.seen k i = some v → P k v

theorem Threads.Only.mono (h : st.Only P) (hle : ∀ k v, P k v → Q k v) : st.Only Q :=
  ⟨fun k l hl v hv ↦ hle k v (h.memory k l hl v hv), fun i k v hv ↦ hle k v (h.files i k v hv),
    fun i k v hv ↦ hle k v (h.seen i k v hv)⟩

theorem DiskOnly.mono {fs : FS} (h : DiskOnly P fs) (hle : ∀ k v, P k v → Q k v) : DiskOnly Q fs :=
  ⟨fun i k v hv ↦ hle k v (h.logs i k v hv), fun i k v hv ↦ hle k v (h.files i k v hv)⟩

theorem Threads.Only.cached (h : st.Only P) (hc : Store.Cached st.store s') :
    Threads.Only P { st with store := s' } := by
  have hs := hc.sameFiles
  obtain ⟨s, waiting, holder⟩ := st
  refine ⟨?_, fun i k v hv ↦ h.files i k v (hs.file_eq ▸ hv), fun i k v hv ↦ h.seen i k v ?_⟩
  · obtain ⟨⟨sys, rfl⟩, -⟩ := hc
    exact h.memory
  · rwa [hs.seen_eq] at hv

/-- A step puts nothing into the ring that is not there or in memory. -/
theorem Threads.Only.seen_step (h : st.Only P) (hst : st.Inv Time m) {a : Action Time}
    (hstep : st.step a = some st') (i : Fin numFiles) (k : K) (v : V) (hv : st'.seen k i = some v) :
    P k v := by
  rcases hst.ringStep hstep k with ⟨-, hseen, -⟩ | ⟨-, hseen⟩ | ⟨-, -, -, -, hmemory, hseen⟩
  · exact h.seen i k v (hseen ▸ hv)
  · rw [hseen, Function.update_apply] at hv
    split_ifs at hv
    · obtain ⟨hor, -⟩ := live_eq_some_iff.mp hv
      exact (Option.or_eq_some_iff.mp hor).elim (h.seen _ k v) fun hor ↦ h.seen _ k v hor.2
    · exact h.seen i k v hv
  · rw [hseen, Function.update_apply] at hv
    split_ifs at hv
    · exact h.memory k _ hmemory v hv
    · exact h.seen i k v hv

/-- **A step makes up no record.** -/
theorem Threads.Only.step (h : st.Only P) (hst : st.Inv Time m) {a : Action Time}
    (hwrite : ∀ k v, a = .write k v → P k v) (hstep : st.step a = some st') : st'.Only P := by
  have hseen := h.seen_step hst hstep
  refine ⟨fun k ↦ hst.memoryOk (h.memory k) (hwrite k) hstep, fun i k v hv ↦ ?_, hseen⟩
  rcases Threads.step_cases hstep with _ | ⟨k', v'⟩ | hswap | _ | ⟨hholder, hrun⟩ | _
  · exact h.files i k v hv
  · exact h.files i k v ((sameFiles_dbwrite hst.wf hst.bintreeLog k' v').file_eq ▸ hv)
  · exact h.files i k v (file_swap hst.wf i ▸ hv)
  · exact h.files i k v hv
  · obtain ⟨t, -, ht, hstage, -⟩ := hst.working hholder
    rw [AdjustOp.run_eq hst.wf _ ht, Option.some.injEq] at hrun
    subst hrun
    cases hstage with
    | start | emptied | truncated | merged | cleaned | dumped => exact hseen i k v hv
    | copied =>
      -- now the file has nothing, and `seen` looks into `tempfile`
      dsimp only [AdjustOp.after] at hv
      rw [file_write_filesys] at hv
      split_ifs at hv
      · rw [fileMap_nil] at hv
        cases hv
      · exact h.files i k v hv
  · exact h.files i k v hv

/-! ## A crash and a start -/

/-- **A crash** leaves on disk what was in the trees and in the ring. -/
theorem Threads.Only.disk [LinearOrder Time] (h : st.Only P) (hst : st.Inv Time m) (hs : st.Sound Time) :
    DiskOnly P st.store.fs := by
  refine ⟨fun i k v hv ↦ ?_, h.files⟩
  have hmem := h.memory k
  obtain rfl | rfl : i = st.store.current ∨ i = st.store.current + 1 := by omega
  · rw [(logHas_of_backed hst.bintreeLog).logAt_eq] at hv
    exact hmem _ (by simp [Store.memory]) v hv
  · by_cases hretire : ∃ todo, st.holder = some (.retire :: todo)
    · obtain ⟨todo, hretire⟩ := hretire
      rw [(hs.synced todo hretire).logAt_eq] at hv
      cases hv
    · rw [(hst.logHas_other (not_exists.mp hretire)).logAt_eq, Store.reserveMap] at hv
      obtain ⟨t, ht, hv⟩ := Option.bind_eq_some_iff.mp hv
      exact hmem t.lookup (by simp [Store.memory, ht]) v hv

/-- **The constructor** empties the trees. -/
theorem DiskOnly.threads {arr : Bytes} {r : Fin numFiles} (h : DiskOnly P s.fs) (hs : Booted arr r m s) :
    (Threads.mk s 0 none).Only P := by
  refine ⟨fun k l hl v hv ↦ ?_, h.files, h.files⟩
  dsimp only at hl
  rw [Store.memory, hs.reserve, Option.toList_none, List.map_nil, List.mem_singleton] at hl
  rw [hl, BinaryTree.lookup_of_nil hs.bintree] at hv
  cases hv

/-! ## Over many lifetimes

A crash may put an older value above a newer one, or bring a deleted key back.  For a key that was given
one value only the first makes no difference, and the second does not happen, since it was never
deleted. -/

/-- Every record the machine has is one of these. -/
def Machine.Only (P : K → V → Prop) : Machine → Prop
  | .up st => st.Only P
  | .down fs => DiskOnly P fs

/-- The pairs that were written, with those an event writes. -/
def Machine.Event.wrote (P : K → V → Prop) (e : Machine.Event Time) (k : K) (v : V) : Prop :=
  P k v ∨ e = .act (.write k v)

/-- The value was written to the key in some lifetime. -/
def Written (events : List (Machine.Event Time)) (k : K) (v : V) : Prop := .act (.write k v) ∈ events

omit [TimeFormat Time] in
theorem foldl_wrote (events : List (Machine.Event Time)) (k : K) (v : V) :
    events.foldl Machine.Event.wrote P k v ↔ P k v ∨ Written events k v := by
  induction events generalizing P with
  | nil => simp [Written]
  | cons e events ih =>
    rw [List.foldl_cons, ih, Machine.Event.wrote, Written, Written, List.mem_cons, or_assoc,
      @eq_comm _ e]

variable [LinearOrder Time]

/-- The clock moves on between two dumps, and no crash comes between the truncation and the merge. -/
def Machine.Calm : Machine → Machine.Event Time → Prop
  | .up st, .act a => st.Later a
  | .up st, .crash => ¬st.Torn
  | .down fs, .start env₀ env₁ => ClockMoves fs env₀ env₁
  | .down fs, .cutShort env₀ env₁ _ j => ClockMoves fs env₀ env₁ ∧ j ≠ 3
  | _, _ => False

theorem Machine.Spares.calm {M : Machine} {e : Machine.Event Time} (h : M.Spares e) :
    M.Calm e := by
  match M, e, h with
  | .up _, .act _, h => exact h
  | .up _, .crash, h => exact h.1
  | .down _, .start _ _, h => exact h
  | .down _, .cutShort _ _ _ _, h => exact ⟨h.1, h.2.1⟩

/-- What is left of the values written last when the disk is found again with the newest file `r`: a key
that has no record any more counts as deleted. -/
def leftOf (fs : FS) (r : Fin numFiles) (m : K → Option V) (k : K) : Option V :=
  (newest (diskLayers fs r) k).or ((m k).map fun _ ↦ tombstone V)

section LeftOf

variable {fs : FS} {r : Fin numFiles} {k : K}

omit [TimeFormat Time] [LinearOrder Time] in
theorem live_leftOf : live isTomb (newest (diskLayers fs r) k) = live isTomb (leftOf fs r m k) := by
  have hdead : live isTomb ((m k).map fun _ ↦ tombstone V) = none := by
    rcases m k with _ | v
    · rfl
    · rw [Option.map_some, live_some, if_pos (isTomb_iff.mpr rfl)]
  rw [leftOf, ← live_or_live, hdead, Option.or_none]

omit [TimeFormat Time] [LinearOrder Time] in
theorem leftOf_ne_none_iff (honly : DiskOnly P fs) (hwritten : ∀ k v, P k v → m k ≠ none) :
    leftOf fs r m k ≠ none ↔ m k ≠ none := by
  rw [leftOf, ne_eq, Option.or_eq_none_iff, Option.map_eq_none_iff, not_iff_not]
  refine and_iff_right_of_imp fun hm ↦ ?_
  rcases hnew : newest (diskLayers fs r) k with _ | v
  · rfl
  · exact absurd hm (hwritten k v (honly.of_newest hnew))

omit [TimeFormat Time] [LinearOrder Time] in
/-- A key of which all records agree. -/
theorem leftOf_once (honly : DiskOnly P fs) {w : V} (hw : w ≠ tombstone V) (hm : m k = some w)
    (honce : ∀ v, P k v → v = w)
    (hlost : newest (diskLayers fs r) k = none →
      live isTomb (newest (diskLayers fs r) k) = live isTomb (m k)) :
    leftOf fs r m k = some w := by
  rcases hnew : newest (diskLayers fs r) k with _ | v
  · have hlive := hlost hnew
    rw [hnew, hm, live_of_ne hw] at hlive
    cases hlive
  · rw [leftOf, hnew, Option.some_or, honce v (honly.of_newest hnew)]

end LeftOf

/-- What every lifetime keeps, when `P` has what was written: no record is made up, and a key that was only
given one value has it. -/
structure Machine.Holds (Time : Type) [TimeFormat Time] [LinearOrder Time] (M : Machine)
    (P : K → V → Prop) (m : K → Option V) : Prop where
  keeps : M.Keeps Time m
  only : M.Only P
  /-- What was written is remembered. -/
  written : ∀ k v, P k v → m k ≠ none
  /-- A key that was given one value has it. -/
  once : ∀ k w, w ≠ tombstone V → P k w → (∀ v, P k v → v = w) → m k = some w

omit [TimeFormat Time] [LinearOrder Time] in
theorem wrote_of_ne {e : Machine.Event Time} (h : ∀ a, e ≠ .act a) : e.wrote P = P := by
  funext k v
  exact propext (or_iff_left (h _))

/-- **A step of some thread.** -/
theorem Machine.Holds.act {a : Action Time} (h : (Machine.up st).Holds Time P m) (hlater : st.Later a) :
    ∃ st', st.step a = some st' ∧
      (Machine.up st').Holds Time (Machine.Event.wrote P (.act a)) (a.note m) := by
  obtain ⟨hinv, hsound⟩ := h.keeps
  obtain ⟨st', hst', hinv'⟩ := hinv.step a
  have honly : st.Only (Machine.Event.wrote P (.act a)) := Threads.Only.mono h.only fun _ _ ↦ .inl
  have hnote : ∀ k, (∃ v, a = .write k v ∧ a.note m k = some v) ∨
      (∀ v, a ≠ .write k v) ∧ a.note m k = m k := by
    intro k
    rcases a with ⟨k', v⟩ | _ | _ | _ | _
    · by_cases hk : k = k'
      · exact .inl ⟨v, by rw [hk], by rw [hk]; exact Function.update_self _ _ _⟩
      · refine .inr ⟨fun v' heq ↦ hk ?_, Function.update_of_ne hk _ _⟩
        cases heq
        rfl
    all_goals exact .inr ⟨fun v heq ↦ (nomatch heq), rfl⟩
  refine ⟨st', hst', ⟨hinv', hsound.step hinv hlater hst'⟩,
    honly.step hinv (fun k v ha ↦ .inr (by rw [ha])) hst', fun k v hP ↦ ?_, fun k w hw hP honce ↦ ?_⟩
  · rcases hnote k with ⟨v', -, hv'⟩ | ⟨hne, hsame⟩
    · rw [hv']
      simp
    · rw [hsame]
      refine h.written k v (hP.resolve_right fun heq ↦ ?_)
      injection heq with heq
      exact hne v heq
  · rcases hnote k with ⟨v', ha, hv'⟩ | ⟨hne, hsame⟩
    · rw [hv', honce v' (.inr (by rw [ha]))]
    · rw [hsame]
      refine h.once k w hw (hP.resolve_right fun heq ↦ ?_) fun v hv ↦ honce v (.inl hv)
      injection heq with heq
      exact hne w heq

/-- **Every event** but the crash that tears a file. -/
theorem Machine.Holds.step {M : Machine} {e : Machine.Event Time} (h : M.Holds Time P m)
    (hcalm : M.Calm e) : ∃ M', M.step e = some M' ∧ ∃ m', M'.Holds Time (e.wrote P) m' := by
  match M, e, h, hcalm with
  | .up st, .act a, h, hcalm =>
    obtain ⟨st', hst', h'⟩ := h.act hcalm
    exact ⟨.up st', by rw [Machine.step, hst', Option.map_some], _, h'⟩
  | .up st, .crash, h, hcalm =>
    obtain ⟨hinv, hsound⟩ := h.keeps
    have honly : DiskOnly P st.store.fs := Threads.Only.disk h.only hinv hsound
    have hne := fun k ↦ leftOf_ne_none_iff (r := st.newestFile) (k := k) honly h.written
    refine ⟨_, rfl, leftOf st.store.fs st.newestFile m, ?_⟩
    rw [wrote_of_ne (by simp)]
    refine ⟨⟨_, _, (hinv.recoverable hsound hcalm).congr fun k ↦ live_leftOf, fun k hk ↦ ?_⟩, honly,
      fun k v hP ↦ (hne k).mpr (h.written k v hP), fun k w hw hP honce ↦ ?_⟩
    · exact (BloomFile.get_congr rfl k).trans (hinv.covers k ((hne k).mp hk))
    · refine leftOf_once honly hw (h.once k w hw hP honce) honce fun hnone ↦ ?_
      exact (hinv.newest_disk_iff hsound hcalm k).mpr fun hloses ↦ hinv.newest_ne_none hloses hnone
  | .down fs, .start env₀ env₁, h, hcalm =>
    obtain ⟨r, arr, hrec, hcovers⟩ := h.keeps
    obtain ⟨s, hs, hbooted, hasc, -, honly⟩ := hrec.boot hcalm
    refine ⟨.up ⟨s, 0, none⟩, by rw [Machine.step, hs, Option.map_some], m, ?_⟩
    rw [wrote_of_ne (by simp)]
    exact ⟨⟨hbooted.inv hcovers, .of_ascends hasc⟩, (honly P h.only).threads hbooted, h.written, h.once⟩
  | .down fs, .cutShort env₀ env₁ i j, h, hcalm =>
    obtain ⟨r, arr, hrec, hcovers⟩ := h.keeps
    obtain ⟨s, r', hs, hrec', -, hdisk, hiff⟩ := hrec.bootUntil hcalm.1 i hcalm.2
    have honly := hdisk P h.only
    have hne := fun k ↦ leftOf_ne_none_iff (r := r') (k := k) honly h.written
    refine ⟨.down s.fs, by rw [Machine.step, hs, Option.map_some], leftOf s.fs r' m, ?_⟩
    rw [wrote_of_ne (by simp)]
    refine ⟨⟨r', arr, hrec'.congr fun k ↦ live_leftOf, fun k hk ↦ hcovers k ((hne k).mp hk)⟩, honly,
      fun k v hP ↦ (hne k).mpr (h.written k v hP), fun k w hw hP honce ↦ ?_⟩
    refine leftOf_once honly hw (h.once k w hw hP honce) honce fun hnone ↦ ?_
    exact (hiff k).mpr fun hu ↦ hu.2.newest_ne_none r' hnone

/-- **Every run** without such a crash. -/
theorem Machine.Holds.run {M : Machine} {events : List (Machine.Event Time)} (h : M.Holds Time P m)
    (hcalm : Runs.Along Machine.step Machine.Calm M events) :
    ∃ M', Runs.run Machine.step M events = some M' ∧
      ∃ m', M'.Holds Time (events.foldl Machine.Event.wrote P) m' := by
  have hstep : ∀ (M : Machine) P (e : Machine.Event Time), (∃ m, M.Holds Time P m) → M.Calm e →
      ∃ M', M.step e = some M' ∧ ∃ m', M'.Holds Time (e.wrote P) m' := by
    rintro M P e ⟨m, h⟩ hcalm
    exact h.step hcalm
  exact Runs.run_total_note_along hstep ⟨m, h⟩ hcalm

omit [LinearOrder Time] in
/-- What `dbread` finds was written. -/
theorem Threads.Only.dbread (h : st.Only P) (hwf : st.store.WF) {k : K} {w : V} {c : Store}
    (hread : dbread k st.store = some (some w, c)) : P k w := by
  obtain ⟨c', hc', -⟩ := Master.dbread_eq hwf k
  obtain ⟨hv, -⟩ := Prod.mk.inj (Option.some.inj (hread.symm.trans hc'))
  split_ifs at hv
  obtain ⟨l, hl, hlk⟩ := exists_of_newest hv.symm
  rcases List.mem_append.mp hl with hl | hl
  · exact h.memory k l hl w hlk
  · obtain ⟨i, -, rfl⟩ := List.mem_map.mp hl
    exact h.files i k w hlk

theorem holds_makeFS {disk fs : FS} (hw : ∀ name, disk.writable name = true)
    {times : Fin numFiles → Time} (htimes : StrictMono times) {dummy : K × K}
    (hmade : makeFS times dummy disk = some fs) :
    Machine.Holds Time (.down fs) (fun _ _ ↦ False) fun _ ↦ none := by
  obtain ⟨fs', hmade', h⟩ := makeFS_eq hw times dummy
  obtain rfl := Option.some.inj (hmade'.symm.trans hmade)
  refine ⟨keeps_makeFS hw htimes hmade, ⟨fun i k v hv ↦ ?_, fun i k v hv ↦ ?_⟩, fun _ _ hP ↦ hP.elim,
    fun _ _ _ hP ↦ hP.elim⟩
  · rw [(logHas_of_empty (h.backups i)).logAt_eq] at hv
    cases hv
  · rw [h.fileAt_eq] at hv
    cases hv

/-- **A key with one value is never lost**, and nothing is made up.  On files made by `fs.cpp`, in every
run of threads, crashes, starts and starts that are cut short, as long as the clock moves on between two
dumps and no crash comes between the truncation and the merge: what `dbread` finds, whenever the program is
up and no `adjust` is at work, was written to that key in some lifetime, and a key that was given one value
only, in whichever lifetimes, has it. -/
theorem written_once_found {disk : FS} (hw : ∀ name, disk.writable name = true)
    {times : Fin numFiles → Time} (htimes : StrictMono times) (dummy : K × K) :
    ∃ fs, makeFS times dummy disk = some fs ∧ ∀ events : List (Machine.Event Time),
      Runs.Along Machine.step Machine.Calm (.down fs) events →
        ∃ M, Runs.run Machine.step (.down fs) events = some M ∧ ∀ st, M = .up st → st.holder = none →
          ∀ k, ∃ v c, dbread k st.store = some (v, c) ∧ (∀ w, v = some w → Written events k w) ∧
            ∀ w, w ≠ tombstone V → Written events k w → (∀ w', Written events k w' → w' = w) →
              v = some w := by
  obtain ⟨fs, hmade, -⟩ := makeFS_eq hw times dummy
  refine ⟨fs, hmade, fun events hcalm ↦ ?_⟩
  obtain ⟨M, hrun, m, hM⟩ := (holds_makeFS hw htimes hmade).run hcalm
  refine ⟨M, hrun, ?_⟩
  rintro st rfl hholder k
  have hiff := foldl_wrote (P := fun _ _ ↦ False) events
  simp only [false_or] at hiff
  obtain ⟨v, c, hread, hlive⟩ := hM.keeps.1.dbread_eq hholder k
  refine ⟨v, c, hread, ?_, fun w hw' hwritten honce ↦ ?_⟩
  · rintro w rfl
    exact (hiff k w).mp (Threads.Only.dbread hM.only hM.keeps.1.wf hread)
  · have hm := hM.once k w hw' ((hiff k w).mpr hwritten) fun v' hv' ↦ honce v' ((hiff k v').mp hv')
    rw [hm, live_of_ne hw', live_eq_some_iff] at hlive
    exact hlive.1

/-- The key of zeros is given its value in the first lifetime and read in the second. -/
theorem written_once_found_twoLives : ∃ fs st,
    makeFS secondsApart (zeroK, zeroK) FS.blank = some fs ∧
      Runs.run Machine.step (.down fs) twoLives = some (.up st) ∧
      ∃ c, dbread zeroK st.store = some (some zeroV, c) := by
  obtain ⟨fs, hmade, hall⟩ := written_once_found writable_blank strictMono_secondsApart (zeroK, zeroK)
  obtain ⟨hspares, s, hrun⟩ := twoLives_spec hmade
  obtain ⟨M, hrun', hread⟩ := hall twoLives (hspares.mono fun _ _ ↦ Machine.Spares.calm)
  obtain rfl := Option.some.inj (hrun'.symm.trans hrun)
  have hevents : ∀ v, Written twoLives zeroK v ↔ v = zeroV := by simp [Written, twoLives, oneLife]
  obtain ⟨v, c, hc, -, honce⟩ := hread _ rfl rfl zeroK
  refine ⟨fs, _, hmade, hrun, c, ?_⟩
  rw [hc, honce zeroV zeroV_ne_tombstone ((hevents _).mpr rfl) fun w' ↦ (hevents w').mp]

end Master

end ScratchStore
