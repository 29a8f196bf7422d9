import Mathlib.Order.Fin.Basic
import ScratchStore.Lib.Runs
import ScratchStore.Master.Flush

/-!
# Finding the newest file after a restart

The constructor finds the position in the ring from the times in the headers: `recent` is the first
file whose successor is older.  A flush stamps the file it writes with the current second and keeps
the header of the file it merges into, so after `n` flushes the ring holds the last ten of all stamps,
the first ten of which are the headers at the start: `Stamped`.

The stamps never decrease, so the only place where the times can descend is behind the newest file,
and they do there exactly when the oldest stamp still in the ring is earlier than the newest.  When
all ten are the same second there is no descent, and the scan settles for the last file whatever the
position is: `ringScan_iff`.

Only the header times matter, so the proofs are about a sequence of stamps, of which the ring has the last ten.
`ringScan_of_descent` is what the scan finds when the times descend in one place, and `Stamped.flush` that a
flush moves this place on by one.

That `mktime` gives the time of a header back is an assumption on `Time` (`TimeFormat`).
-/

set_option autoImplicit false

namespace ScratchStore

namespace Master

open SortedAssoc FileIO

variable {Time : Type} [TimeFormat Time]

/-- The time in the header of a file. -/
def headerTime (Time : Type) [TimeFormat Time] (bs : Bytes) : Time := TimeFormat.mktime (bs.take 128)

/-- The files of the ring. -/
def ringBytes (fs : FS) (i : Fin numFiles) : Bytes := fs.read (File.filesys i).path

theorem headerTime_dumpBytes (t : BinaryTree K V) (now : Time) : headerTime Time (t.dumpBytes now) = now := by
  have hlen : (timeStr (Pod.sizeof (K × V)) now).length = 128 := length_timeStr le_sizeof now
  rw [headerTime, BinaryTree.dumpBytes, List.take_left' hlen]
  simpa using mktime_timeStr (Pod.sizeof (K × V)) now []

theorem headerTime_mergeFiles (unset : Uninitialised K V) {d2 : Bytes} (h : IsDataFile K V d2) (d1 : Bytes) :
    headerTime Time (mergeFiles unset d2 d1) = headerTime Time d2 := by
  have hlen : (mergeHeader unset d2).length = 128 := length_mergeHeader unset d2
  rw [headerTime, mergeFiles_eq, List.take_left' hlen, mergeHeader_eq unset (isDataFile_iff.mp h).1]
  rfl

/-! ## The scan

The scan goes through the ring once, in the order of the numbers, and stops at the first descent. -/

section Scan

variable [LinearOrder Time]

theorem nextOlder_eq {fs : FS} (hfiles : FilesOk fs) (i : Fin numFiles) :
    nextOlder Time fs i =
      some (decide (headerTime Time (ringBytes fs (i + 1)) < headerTime Time (ringBytes fs i))) := by
  obtain ⟨bs, hbs, -⟩ := hfiles i
  obtain ⟨bs', hbs', -⟩ := hfiles (i + 1)
  simp [nextOlder, headerTime, ringBytes, FS.fopenRead, FS.read, hbs, hbs', RFile.fread]

/-- The scan looks for the first descent. -/
theorem ringScan_eq {fs : FS} (hfiles : FilesOk fs) (is : List (Fin numFiles)) :
    ringScan Time fs is =
      some ((is.find? fun i ↦
        decide (headerTime Time (ringBytes fs (i + 1)) < headerTime Time (ringBytes fs i))).getD 9) := by
  induction is with
  | nil => rfl
  | cons i is ih =>
    rw [ringScan, nextOlder_eq hfiles, Option.bind_some, ih, List.find?_cons]
    cases decide (headerTime Time (ringBytes fs (i + 1)) < headerTime Time (ringBytes fs i)) <;> rfl

/-- The only descent there can be is at `r`. -/
theorem ringScan_of_descent {fs : FS} (hfiles : FilesOk fs) {r : Fin numFiles} {c : Prop}
    [Decidable c]
    (h : ∀ i, headerTime Time (ringBytes fs (i + 1)) < headerTime Time (ringBytes fs i) ↔ i = r ∧ c) :
    ringScan Time fs (List.finRange numFiles) = some r ↔ r = 9 ∨ c := by
  have hfind : ∀ r : Fin numFiles, (List.finRange numFiles).find? (fun i ↦ decide (i = r)) = some r := by
    decide
  rw [ringScan_eq hfiles]
  simp only [h]
  by_cases hc : c
  · simp [hc, hfind]
  · have hnone : (List.finRange numFiles).find? (fun _ ↦ false) = none := by decide
    simp [hc, hnone, eq_comm]

end Scan

/-! ## Flushes -/

/-- A tree to be written and what `adjust` finds when it writes it. -/
structure Flush (Time : Type) where
  tree : BinaryTree K V
  wf : tree.WF
  logsAside : tree.LogsAside
  env : Env Time

/-- A completed `adjust` with that tree as `reserve`. -/
def flush (s : Store) (f : Flush Time) : Option Store := adjust f.env { s with reserve := some f.tree }

/-- The header times after a flush. -/
theorem headerTime_adjusted {s : Store} (h : s.WF) {t : BinaryTree K V} (ht : s.reserve = some t)
    (hfiles : ∀ i, IsDataFile K V (s.fs.read (File.filesys i).path)) (env : Env Time)
    (i : Fin numFiles) :
    headerTime Time (ringBytes (adjusted env s t).fs i) =
      if i = s.recent + 1 then env.now else headerTime Time (ringBytes s.fs i) := by
  rw [ringBytes, FS.read, content_adjusted env h ht]
  split_ifs with h1 h2
  · exact headerTime_dumpBytes t env.now
  · rw [h2]
    exact headerTime_mergeFiles env.unset (hfiles _) _
  · rfl

/-- The stamps of the files: ten headers, and then the readings of the clock. -/
def stampAt (headers : Fin numFiles → Time) (flushes : List (Flush Time)) (m : ℕ) : Time :=
  if h : m < numFiles then headers ⟨m, h⟩
  else (flushes[m - numFiles]?.map fun f ↦ f.env.now).getD (headers 9)

/-- After `n` flushes the ring holds the stamps `n … n + 9`, the last one in the newest file. -/
structure Stamped (stamps : ℕ → Time) (n : ℕ) (s : Store) : Prop where
  wf : s.WF
  files : ∀ i, IsDataFile K V (s.fs.read (File.filesys i).path)
  /-- `recent` started at 9. -/
  recent : s.recent = Fin.ofNat numFiles (n + 9)
  /-- The ring has the ten stamps from the `n`-th on. -/
  times : ∀ m, n ≤ m → m ≤ n + 9 → headerTime Time (ringBytes s.fs (Fin.ofNat numFiles m)) = stamps m

theorem numFiles_eq : numFiles = 10 := rfl

theorem ofNat_add_one (m : ℕ) : Fin.ofNat numFiles m + 1 = Fin.ofNat numFiles (m + 1) := by
  apply Fin.ext
  simp [Fin.val_add]

theorem ofNat_eq_iff {m n : ℕ} : Fin.ofNat numFiles m = Fin.ofNat numFiles n ↔ m % 10 = n % 10 := by
  rw [Fin.ext_iff]
  rfl

/-- **One flush** writes the next stamp over the oldest. -/
theorem Stamped.flush {stamps : ℕ → Time} {n : ℕ} {s : Store} (h : Stamped stamps n s) (f : Flush Time)
    (hf : f.env.now = stamps (n + 10)) :
    ∃ s', Master.flush s f = some s' ∧ Stamped stamps (n + 1) s' := by
  have hwf : Store.WF { s with reserve := some f.tree } := h.wf.with_reserve f.wf f.logsAside
  refine ⟨_, adjust_eq f.env hwf rfl, hwf.adjusted f.env rfl,
    isDataFile_adjusted f.env hwf rfl h.files, ?_, fun m hlow hhigh ↦ ?_⟩
  · rw [recent_adjusted]
    dsimp only
    rw [h.recent, ofNat_add_one]
  · rw [headerTime_adjusted hwf rfl h.files]
    dsimp only
    rw [h.recent, ofNat_add_one]
    split_ifs with hm
    · rw [ofNat_eq_iff] at hm
      rw [hf, show m = n + 10 by omega]
    · rw [ofNat_eq_iff] at hm
      exact h.times m (by omega) (by omega)

/-- **A run of flushes** leaves the last ten stamps. -/
theorem Stamped.run {stamps : ℕ → Time} (flushes : List (Flush Time)) {n : ℕ} {s : Store}
    (h : Stamped stamps n s)
    (hnow : ∀ j, (hj : j < flushes.length) → flushes[j].env.now = stamps (n + 10 + j)) :
    ∃ s', Runs.run Master.flush s flushes = some s' ∧ Stamped stamps (n + flushes.length) s' := by
  induction flushes generalizing n s with
  | nil => exact ⟨s, rfl, h⟩
  | cons f flushes ih =>
    obtain ⟨s₁, hs₁, h₁⟩ := h.flush f (hnow 0 (by simp))
    obtain ⟨s₂, hs₂, h₂⟩ := ih h₁ fun j hj ↦ by
      have hj' := hnow (j + 1) (by simpa using hj)
      rw [List.getElem_cons_succ] at hj'
      rw [hj']
      congr 1
      omega
    refine ⟨s₂, by rw [Runs.run_cons, hs₁, Option.bind_some, hs₂], ?_⟩
    rw [List.length_cons, show n + (flushes.length + 1) = n + 1 + flushes.length by omega]
    exact h₂

/-- The ring at the start. -/
theorem stamped_start {s : Store} (h : s.WF)
    (hfiles : ∀ i, IsDataFile K V (s.fs.read (File.filesys i).path)) (hr : s.recent = 9)
    (flushes : List (Flush Time)) : Stamped (stampAt (headerTime Time ∘ ringBytes s.fs) flushes) 0 s where
  wf := h
  files := hfiles
  recent := hr
  times m _ hm := by
    have hlt : m < numFiles := Nat.lt_succ_of_le hm
    have hm' : Fin.ofNat numFiles m = ⟨m, hlt⟩ := Fin.ext (Nat.mod_eq_of_lt hlt)
    rw [stampAt, dif_pos hlt, hm']
    rfl

/-- The ring after a run of flushes. -/
theorem stamped_run {s : Store} (h : s.WF)
    (hfiles : ∀ i, IsDataFile K V (s.fs.read (File.filesys i).path)) (hr : s.recent = 9)
    (flushes : List (Flush Time)) :
    ∃ s', Runs.run Master.flush s flushes = some s' ∧
      Stamped (stampAt (headerTime Time ∘ ringBytes s.fs) flushes) flushes.length s' := by
  have hnow : ∀ j, (hj : j < flushes.length) →
      flushes[j].env.now = stampAt (headerTime Time ∘ ringBytes s.fs) flushes (0 + 10 + j) := by
    intro j hj
    have hsub : 0 + 10 + j - numFiles = j := by rw [numFiles_eq]; omega
    rw [stampAt, dif_neg (by rw [numFiles_eq]; omega), hsub, List.getElem?_eq_getElem hj]
    rfl
  obtain ⟨s', hrun, hs'⟩ := (stamped_start h hfiles hr flushes).run flushes hnow
  rw [Nat.zero_add] at hs'
  exact ⟨s', hrun, hs'⟩

section Scan

variable [LinearOrder Time]

/-- What the scan finds in a ring of stamps that never decrease. -/
theorem Stamped.scan_eq_some_iff {stamps : ℕ → Time} {n : ℕ} {s : Store} (h : Stamped stamps n s)
    (hmono : ∀ m, n ≤ m → m < n + 9 → stamps m ≤ stamps (m + 1)) :
    ringScan Time s.fs (List.finRange numFiles) = some s.recent ↔
      n % 10 = 0 ∨ stamps n < stamps (n + 9) := by
  have hdescent : ∀ i, headerTime Time (ringBytes s.fs (i + 1)) < headerTime Time (ringBytes s.fs i) ↔
      i = s.recent ∧ stamps n < stamps (n + 9) := by
    intro i
    obtain ⟨m, hlow, hhigh, rfl⟩ : ∃ m, n ≤ m ∧ m ≤ n + 9 ∧ i = Fin.ofNat numFiles m := by
      have hi : i.val < 10 := i.isLt
      have hmod : (n + (i.val + 10 - n % 10) % 10) % 10 = i.val := by omega
      exact ⟨n + (i.val + 10 - n % 10) % 10, by omega, by omega, Fin.ext hmod.symm⟩
    rw [ofNat_add_one, h.times m hlow hhigh, h.recent, ofNat_eq_iff]
    by_cases hm : m = n + 9
    · have hwrap : Fin.ofNat numFiles (m + 1) = Fin.ofNat numFiles n := ofNat_eq_iff.mpr (by omega)
      rw [hwrap, h.times n le_rfl (by omega), hm]
      simp
    · rw [h.times (m + 1) (by omega) (by omega)]
      have hle := hmono m hlow (by omega)
      constructor
      · exact fun hlt ↦ absurd hlt (not_lt.mpr hle)
      · exact fun hr ↦ absurd hr.1 (by omega)
  have hnine : s.recent = 9 ↔ n % 10 = 0 := by
    rw [h.recent, show (9 : Fin numFiles) = Fin.ofNat numFiles 9 from rfl, ofNat_eq_iff]
    omega
  rw [ringScan_of_descent (h.wf.files) hdescent, hnine]

/-- All stamps in the order in which they were made: the headers, and then the readings. -/
def allStamps (headers : Fin numFiles → Time) (flushes : List (Flush Time)) : List Time :=
  (List.finRange numFiles).map headers ++ flushes.map fun f ↦ f.env.now

omit [TimeFormat Time] [LinearOrder Time] in
theorem length_allStamps (headers : Fin numFiles → Time) (flushes : List (Flush Time)) :
    (allStamps headers flushes).length = flushes.length + 10 := by
  rw [allStamps, List.length_append, List.length_map, List.length_finRange, List.length_map, numFiles_eq,
    Nat.add_comm]

omit [TimeFormat Time] [LinearOrder Time] in
theorem getElem_allStamps (headers : Fin numFiles → Time) (flushes : List (Flush Time)) {m : ℕ}
    (hm : m < (allStamps headers flushes).length) :
    (allStamps headers flushes)[m] = stampAt headers flushes m := by
  rw [length_allStamps] at hm
  by_cases hlt : m < numFiles
  · simp [allStamps, stampAt, hlt]
  · have hlen : ((List.finRange numFiles).map headers).length ≤ m := by simpa using hlt
    have hsub : m - numFiles < flushes.length := by rw [numFiles_eq] at hlt ⊢; omega
    simp [allStamps, stampAt, hlt, List.getElem_append_right hlen, List.getElem?_eq_getElem hsub]

omit [TimeFormat Time] in
theorem stampAt_le {headers : Fin numFiles → Time} {flushes : List (Flush Time)}
    (hsorted : (allStamps headers flushes).Pairwise (· ≤ ·)) {m : ℕ} (hm : m < flushes.length + 9) :
    stampAt headers flushes m ≤ stampAt headers flushes (m + 1) := by
  have hlen := length_allStamps headers flushes
  have hle := List.pairwise_iff_getElem.mp hsorted m (m + 1) (by omega) (by omega) (Nat.lt_succ_self m)
  rwa [getElem_allStamps, getElem_allStamps] at hle

/-- **The scan finds the newest file exactly when** the number of flushes is a multiple of ten or the
oldest stamp in the ring is earlier than the newest.

The stamps are those of the files at the start, from the oldest to the newest, and then one for each flush.
They never decrease, but they may be equal, and after `n` flushes the `n`-th is the oldest in the ring and
the one nine places on the newest. -/
theorem ringScan_iff (s : Store) (h : s.WF)
    (hfiles : ∀ i, IsDataFile K V (s.fs.read (File.filesys i).path)) (hr : s.recent = 9)
    (flushes : List (Flush Time))
    (hsorted : (allStamps (headerTime Time ∘ ringBytes s.fs) flushes).Pairwise (· ≤ ·)) :
    ∃ s', Runs.run flush s flushes = some s' ∧
      (ringScan Time s'.fs (List.finRange numFiles) = some s'.recent ↔
        flushes.length % 10 = 0 ∨
          stampAt (headerTime Time ∘ ringBytes s.fs) flushes flushes.length <
            stampAt (headerTime Time ∘ ringBytes s.fs) flushes (flushes.length + 9)) := by
  obtain ⟨s', hrun, hs'⟩ := stamped_run h hfiles hr flushes
  exact ⟨s', hrun, hs'.scan_eq_some_iff fun m _ hm ↦ stampAt_le hsorted hm⟩

end Scan

/-! ## Flushes within one second

The clock has seconds, so flushes that follow each other at once have the same stamp. -/

theorem files_freshStore (times : Fin numFiles → Time) (recent i : Fin numFiles) :
    IsDataFile K V ((freshStore times recent).fs.read (File.filesys i).path) := by
  have hread : (freshStore times recent).fs.read (File.filesys i).path =
      timeStr (Pod.sizeof (K × V)) (times i) := by
    rw [FS.read, content_freshStore]
    rfl
  rw [hread]
  exact ⟨⟨_, [], length_timeStr le_sizeof (times i), ascending_nil⟩, by simp [DataFile.bytes]⟩

theorem headerTime_freshStore (times : Fin numFiles → Time) (recent i : Fin numFiles) :
    headerTime Time (ringBytes (freshStore times recent).fs i) = times i := by
  have hlen : (timeStr (Pod.sizeof (K × V)) (times i)).length = 128 := length_timeStr le_sizeof _
  rw [ringBytes, FS.read, content_freshStore, Option.getD_some, headerTime, List.take_of_length_le hlen.le]
  simpa using mktime_timeStr (Pod.sizeof (K × V)) (times i) []

/-- The tree `oneNode`, flushed at some time. -/
def flushAt (now : DaySecond) : Flush DaySecond := ⟨oneNode, wf_oneNode, logsAside_oneNode, someEnv now⟩

/-- The header times of a fresh store, one second apart. -/
def secondsApart (i : Fin numFiles) : DaySecond := Fin.ofNat 86400 i.val

theorem allStamps_secondsApart (flushes : List (Flush DaySecond)) :
    allStamps (headerTime DaySecond ∘ ringBytes (freshStore secondsApart 9).fs) flushes =
      [0, 1, 2, 3, 4, 5, 6, 7, 8, 9] ++ flushes.map fun f ↦ f.env.now := by
  have hheaders : headerTime DaySecond ∘ ringBytes (freshStore secondsApart 9).fs = secondsApart :=
    funext fun i ↦ headerTime_freshStore secondsApart 9 i
  rw [allStamps, hheaders]
  rfl

/-- One flush, later than all the headers. -/
theorem ringScan_iff_oneFlush : ∃ s', Runs.run flush (freshStore secondsApart 9) [flushAt 20] = some s' ∧
    (ringScan DaySecond s'.fs (List.finRange numFiles) = some s'.recent ↔
      [flushAt 20].length % 10 = 0 ∨
        stampAt (headerTime DaySecond ∘ ringBytes (freshStore secondsApart 9).fs) [flushAt 20] 1 <
          stampAt (headerTime DaySecond ∘ ringBytes (freshStore secondsApart 9).fs) [flushAt 20] 10) := by
  refine ringScan_iff (freshStore secondsApart 9) (fresh_freshStore _ 9).wf (files_freshStore _ 9) rfl
    [flushAt 20] ?_
  rw [allStamps_secondsApart]
  simp only [List.map_cons, List.map_nil, flushAt, someEnv]
  decide

/-- Eleven flushes within one second. -/
def elevenFlushes : List (Flush DaySecond) := List.replicate 11 (flushAt 20)

/-- **Eleven flushes within one second** leave ten equal stamps, and the newest file is not the last. -/
theorem ringScan_elevenFlushes : (freshStore secondsApart 9).WF ∧
    (∀ i, IsDataFile K V ((freshStore secondsApart 9).fs.read (File.filesys i).path)) ∧
    (allStamps (headerTime DaySecond ∘ ringBytes (freshStore secondsApart 9).fs) elevenFlushes).Pairwise (· ≤ ·) ∧
    ∃ s', Runs.run flush (freshStore secondsApart 9) elevenFlushes = some s' ∧
      ringScan DaySecond s'.fs (List.finRange numFiles) ≠ some s'.recent := by
  have hwf := (fresh_freshStore secondsApart 9).wf
  have hfiles := files_freshStore secondsApart 9
  have hsorted : (allStamps (headerTime DaySecond ∘ ringBytes (freshStore secondsApart 9).fs)
      elevenFlushes).Pairwise (· ≤ ·) := by
    rw [allStamps_secondsApart, elevenFlushes, List.map_replicate]
    simp only [flushAt, someEnv]
    decide
  obtain ⟨s', hrun, hs'⟩ := stamped_run hwf hfiles rfl elevenFlushes
  refine ⟨hwf, hfiles, hsorted, s', hrun, ?_⟩
  rw [ne_eq, hs'.scan_eq_some_iff fun m _ hm ↦ stampAt_le hsorted hm]
  -- the second flush and the eleventh are the oldest and the newest in the ring
  have hlate : ∀ m, 10 ≤ m → m < 21 →
      stampAt (headerTime DaySecond ∘ ringBytes (freshStore secondsApart 9).fs) elevenFlushes m = 20 := by
    intro m hlow hhigh
    have hlt : m - numFiles < 11 := by rw [numFiles_eq]; omega
    rw [stampAt, dif_neg (by rw [numFiles_eq]; omega), elevenFlushes, List.getElem?_replicate,
      if_pos hlt]
    rfl
  have hlen : elevenFlushes.length = 11 := by rw [elevenFlushes, List.length_replicate]
  rw [hlen, hlate 11 (by omega) (by omega), hlate (11 + 9) (by omega) (by omega)]
  decide

end Master

end ScratchStore
