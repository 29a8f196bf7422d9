import ScratchStore.Master.MakeFS

/-!
# Many lifetimes

The program is started, works, is killed between any two of its steps, perhaps while it is starting, and is
started again, any number of times.

* `Machine`, `Machine.step`: the program is up or down; its threads take steps, it crashes, it starts, and a
  start is cut short.
* `Machine.Spares`: the clock moves on between two dumps, and the crash is not one of those that lose
  something: between the truncation and the merge, while the logs are in the wrong order for a key, or when
  a deleted key comes back.
* `Machine.Keeps`: the invariant, of the threads or of the disk; `Machine.Keeps.step` and `.run`.
* `lifetimes_keep_writes`: what was written last to a key in any lifetime is what a read finds in every later
  one.
* `restart_keeps_iff`, `cutShort_keeps_iff`: which crashes lose something is exact, key by key.

The times in the headers read back as they were written: that is the law of `TimeFormat`.
-/

set_option autoImplicit false

namespace ScratchStore

namespace Master

open SortedAssoc FileIO Layers

variable {Time : Type} [TimeFormat Time] [LinearOrder Time]

/-! ## The machine

A lifetime begins with a start and ends with a crash.  A start may itself be cut short, any number of
times, before the program is up. -/

/-- The program runs, or there is only the disk. -/
inductive Machine where
  | up (st : Threads)
  | down (fs : FS)

/-- What can happen: a step of some thread, a crash, a start, and a start that is cut short in the round
of the backup `i`, after the first `j` operations of `adjust`. -/
inductive Machine.Event (Time : Type) where
  /-- A step of some thread. -/
  | act (a : Action Time)
  /-- The program ends, at any point between two steps. -/
  | crash
  /-- The constructor, which reads the clock once in each round. -/
  | start (env₀ env₁ : Env Time)
  /-- The constructor is cut short in the round of the backup `i`, after `j` operations of `adjust`. -/
  | cutShort (env₀ env₁ : Env Time) (i : Fin 2) (j : ℕ)

/-- One event, if it can happen.  A crash comes between two steps, so the log record and the Bloom bits of a
`dbwrite` are both on disk or neither, and so is the Bloom file the constructor makes or opens. -/
def Machine.step : Machine → Machine.Event Time → Option Machine
  | .up st, .act a => (st.step a).map .up
  | .up st, .crash => some (.down st.store.fs)
  | .down fs, .start env₀ env₁ =>
    (boot (replayFuel fs) env₀ env₁ (asleep fs)).map fun s ↦ .up ⟨s, 0, none⟩
  | .down fs, .cutShort env₀ env₁ i j =>
    (bootUntil (replayFuel fs) env₀ env₁ i j (asleep fs)).map fun s ↦ .down s.fs
  | _, _ => none

/-- The clock moves on between two dumps, and no crash loses anything. -/
def Machine.Spares : Machine → Machine.Event Time → Prop
  | .up st, .act a => st.Later a
  | .up st, .crash => ¬st.Torn ∧ ∀ k, ¬st.Loses k
  | .down fs, .start env₀ env₁ => ClockMoves fs env₀ env₁
  | .down fs, .cutShort env₀ env₁ i j => ClockMoves fs env₀ env₁ ∧ j ≠ 3 ∧
    ∀ s, bootUntil (replayFuel fs) env₀ env₁ i j (asleep fs) = some s →
      ∀ k, ¬((j = 4 ∨ j = 5) ∧ Unburied s.fs s.recent k)
  | _, _ => False

/-- What an event does to the map of the values written last: only what a thread does counts. -/
def Machine.Event.note (m : K → Option V) : Machine.Event Time → K → Option V
  | .act a => a.note m
  | _ => m

/-- The value written last to each key, in whichever lifetime. -/
def lastWrittenEver (events : List (Machine.Event Time)) : K → Option V :=
  events.foldl Machine.Event.note fun _ ↦ none

/-! ## What lives on

Up, it is the invariant of the threads with ascending header times; down, it is what the constructor
needs. -/

/-- The invariant. -/
def Machine.Keeps (Time : Type) [TimeFormat Time] [LinearOrder Time] (M : Machine)
    (m : K → Option V) : Prop :=
  match M with
  | .up st => st.Inv Time m ∧ st.Sound Time
  | .down fs => ∃ r arr, Recoverable Time fs r arr m ∧ ∀ k, m k ≠ none → (bloomOf arr).get k = true

/-- **Every event** that spares the map keeps it. -/
theorem Machine.Keeps.step {M : Machine} {m : K → Option V} {e : Machine.Event Time} (h : M.Keeps Time m)
    (hspares : M.Spares e) : ∃ M', M.step e = some M' ∧ M'.Keeps Time (e.note m) := by
  match M, e, h, hspares with
  | .up st, .act a, h, hspares =>
    obtain ⟨st', hst', hinv⟩ := h.1.step a
    exact ⟨.up st', by rw [Machine.step, hst', Option.map_some], hinv, h.2.step h.1 hspares hst'⟩
  | .up st, .crash, h, hspares =>
    have hlive := fun k ↦ (h.1.newest_disk_iff h.2 hspares.1 k).mpr (hspares.2 k)
    exact ⟨_, rfl, st.newestFile, _, (h.1.recoverable h.2 hspares.1).congr hlive, fun k hk ↦
      (BloomFile.get_congr rfl k).trans (h.1.covers k hk)⟩
  | .down fs, .start env₀ env₁, h, hspares =>
    obtain ⟨r, arr, hrec, hcovers⟩ := h
    obtain ⟨s, hs, hbooted, hasc, -⟩ := hrec.boot hspares
    exact ⟨.up ⟨s, 0, none⟩, by rw [Machine.step, hs, Option.map_some], hbooted.inv hcovers,
      .of_ascends hasc⟩
  | .down fs, .cutShort env₀ env₁ i j, h, hspares =>
    obtain ⟨r, arr, hrec, hcovers⟩ := h
    obtain ⟨s, r', hs, hrec', -, -, hiff⟩ := hrec.bootUntil hspares.1 i hspares.2.1
    have hlive := fun k ↦ (hiff k).mpr (hspares.2.2 s hs k)
    exact ⟨.down s.fs, by rw [Machine.step, hs, Option.map_some], r', arr, hrec'.congr hlive, hcovers⟩

/-- **Every run** that spares the map keeps it. -/
theorem Machine.Keeps.run {M : Machine} {m : K → Option V} {events : List (Machine.Event Time)}
    (h : M.Keeps Time m) (hspares : Runs.Along Machine.step Machine.Spares M events) :
    ∃ M', Runs.run Machine.step M events = some M' ∧ M'.Keeps Time (events.foldl Machine.Event.note m) := by
  have hstep : ∀ (M : Machine) m (e : Machine.Event Time), M.Keeps Time m → M.Spares e →
      ∃ M', M.step e = some M' ∧ M'.Keeps Time (e.note m) := fun _ _ _ h hspares ↦ h.step hspares
  exact Runs.run_total_note_along hstep h hspares

omit [LinearOrder Time] in
/-- What `dbread` finds when no `adjust` is at work. -/
theorem Threads.Inv.dbread_eq {st : Threads} {m : K → Option V} (h : st.Inv Time m)
    (hholder : st.holder = none) (k : K) :
    ∃ v c, dbread k st.store = some (v, c) ∧ live isTomb v = live isTomb (m k) := by
  obtain ⟨c, hc, -⟩ := Master.dbread_eq h.wf k
  have hlive := h.live_eq k
  obtain ⟨s, waiting, holder⟩ := st
  obtain rfl : holder = none := hholder
  refine ⟨_, c, hc, ?_⟩
  split_ifs with hb
  · rw [below_of_idle s waiting (.inl rfl)] at hlive
    rw [Store.layers, Store.memory, List.cons_append, newest_cons]
    exact hlive
  · -- the filter has every key that was written
    have hnone : m k = none := by_contra fun hk ↦ hb (h.covers k hk)
    rw [hnone]

theorem keeps_makeFS {disk fs : FS} (hw : ∀ name, disk.writable name = true)
    {times : Fin numFiles → Time} (htimes : StrictMono times) {dummy : K × K}
    (hmade : makeFS times dummy disk = some fs) : Machine.Keeps Time (.down fs) fun _ ↦ none := by
  obtain ⟨fs', hmade', h⟩ := makeFS_eq hw times dummy
  obtain rfl := Option.some.inj (hmade'.symm.trans hmade)
  exact ⟨9, _, h.recoverable htimes, fun _ hk ↦ absurd rfl hk⟩

/-- **What was written last is found in every later lifetime.**  On files made by `fs.cpp`, every run
of threads, crashes, starts and starts that are cut short goes through, and whenever the program is up
and no `adjust` is at work, `dbread` finds the value written last to each key in any lifetime, and no
value for a key that was deleted or never written.

The crashes are those that lose nothing, and the clock moves on between two dumps (`Machine.Spares`).  A crash
comes between two steps, and all of `dbwrite` is one. -/
theorem lifetimes_keep_writes {disk : FS} (hw : ∀ name, disk.writable name = true)
    {times : Fin numFiles → Time} (htimes : StrictMono times) (dummy : K × K) :
    ∃ fs, makeFS times dummy disk = some fs ∧ ∀ events : List (Machine.Event Time),
      Runs.Along Machine.step Machine.Spares (.down fs) events →
        ∃ M, Runs.run Machine.step (.down fs) events = some M ∧ ∀ st, M = .up st → st.holder = none →
          ∀ k, ∃ v c, dbread k st.store = some (v, c) ∧
            live isTomb v = live isTomb (lastWrittenEver events k) := by
  obtain ⟨fs, hmade, -⟩ := makeFS_eq hw times dummy
  refine ⟨fs, hmade, fun events hspares ↦ ?_⟩
  obtain ⟨M, hrun, hM⟩ := (keeps_makeFS hw htimes hmade).run hspares
  refine ⟨M, hrun, ?_⟩
  rintro st rfl hholder k
  exact hM.1.dbread_eq hholder k

/-! ### Two lifetimes -/

omit [TimeFormat Time] [LinearOrder Time] in
theorem writable_blank (name : String) : FS.blank.writable name = true := rfl

theorem strictMono_secondsApart : StrictMono secondsApart := by
  have h : ∀ i j : Fin numFiles, i < j → secondsApart i < secondsApart j := by decide
  exact fun i j hij ↦ h i j hij

/-- The program is started, and writes. -/
def oneLife : List (Machine.Event DaySecond) := [.start (someEnv 20) (someEnv 21), .act (.write zeroK zeroV)]

theorem oneLife_spec {fs : FS} (hmade : makeFS secondsApart (zeroK, zeroK) FS.blank = some fs) :
    Runs.Along Machine.step Machine.Spares (.down fs) oneLife ∧
      ∃ st, Runs.run Machine.step (.down fs) oneLife = some (.up st) ∧ st.holder = none ∧
        st.store.reserve = none ∧ ClockMoves st.store.fs (someEnv 30) (someEnv 31) := by
  obtain ⟨fs', hmade', h⟩ := makeFS_eq writable_blank secondsApart (zeroK, zeroK)
  obtain rfl := Option.some.inj (hmade'.symm.trans hmade)
  have hclock : ClockMoves fs' (someEnv 20) (someEnv 21) := by
    refine ⟨fun i ↦ ?_, by decide⟩
    rw [h.headerTime_eq]
    revert i
    decide
  obtain ⟨s, hs, hbooted, -, htimes, -⟩ := (h.recoverable strictMono_secondsApart).boot hclock
  have hstart : Machine.step (.down fs') (.start (someEnv 20) (someEnv 21)) = some (.up ⟨s, 0, none⟩) := by
    rw [Machine.step, hs, Option.map_some]
  have hsame := sameFiles_dbwrite hbooted.wf (hbooted.current ▸ hbooted.bintreeLog) zeroK zeroV
  refine ⟨⟨hclock, fun M hM ↦ ⟨?_, fun _ _ ↦ trivial⟩⟩, ⟨dbwrite zeroK zeroV s, 0, none⟩, ?_, rfl,
    hsame.reserve.trans hbooted.reserve, fun i ↦ ?_, by decide⟩
  · obtain rfl := Option.some.inj (hstart.symm.trans hM)
    rintro env todo ⟨⟩
  · rw [oneLife, Runs.run_cons, hstart]
    rfl
  · rw [hsame.ringBytes_eq]
    exact (htimes i).trans_lt (by decide)

/-- The program is killed and started again. -/
def twoLives : List (Machine.Event DaySecond) := oneLife ++ [.crash, .start (someEnv 30) (someEnv 31)]

theorem not_torn_of_holder {st : Threads} (hholder : st.holder = none) : ¬st.Torn := by
  rintro ⟨todo, htorn⟩
  rw [hholder] at htorn
  cases htorn

theorem not_loses_of_reserve {st : Threads} (hholder : st.holder = none) (hr : st.store.reserve = none)
    (k : K) : ¬st.Loses k := by
  obtain ⟨s, waiting, holder⟩ := st
  obtain rfl : holder = none := hholder
  rintro ⟨-, v, v', -, ho, -⟩
  rw [Store.reserveMap, hr] at ho
  cases ho

theorem twoLives_spec {fs : FS} (hmade : makeFS secondsApart (zeroK, zeroK) FS.blank = some fs) :
    Runs.Along Machine.step Machine.Spares (.down fs) twoLives ∧
      ∃ s, Runs.run Machine.step (.down fs) twoLives = some (.up ⟨s, 0, none⟩) := by
  obtain ⟨halong, st, hrun, hholder, hr, hclock⟩ := oneLife_spec hmade
  have hspares : Runs.Along Machine.step Machine.Spares (.down fs) twoLives := by
    refine halong.append_of_run hrun
      ⟨⟨not_torn_of_holder hholder, not_loses_of_reserve hholder hr⟩, fun M hM ↦ ?_⟩
    obtain rfl := Option.some.inj hM
    exact ⟨hclock, fun _ _ ↦ trivial⟩
  obtain ⟨M, hrun', -⟩ :=
    (keeps_makeFS writable_blank strictMono_secondsApart hmade).run hspares
  -- a run that ends with a start ends with the program up
  obtain ⟨s, -, rfl⟩ : ∃ s, boot (replayFuel st.store.fs) (someEnv 30) (someEnv 31)
      (asleep st.store.fs) = some s ∧ Machine.up ⟨s, 0, none⟩ = M := by
    rw [twoLives, Runs.run_append, hrun, Option.bind_some, Runs.run_cons, Machine.step, Option.bind_some,
      Runs.run_cons, Machine.step] at hrun'
    simpa using hrun'
  exact ⟨hspares, s, hrun'⟩

/-- A value is written, the program crashes and is started again. -/
theorem lifetimes_keep_writes_twoLives : ∃ fs st,
    makeFS secondsApart (zeroK, zeroK) FS.blank = some fs ∧
      Runs.run Machine.step (.down fs) twoLives = some (.up st) ∧
      ∃ c, dbread zeroK st.store = some (some zeroV, c) := by
  obtain ⟨fs, hmade, hall⟩ :=
    lifetimes_keep_writes writable_blank strictMono_secondsApart (zeroK, zeroK)
  obtain ⟨hspares, s, hrun⟩ := twoLives_spec hmade
  obtain ⟨M, hrun', hread⟩ := hall twoLives hspares
  obtain rfl := Option.some.inj (hrun'.symm.trans hrun)
  obtain ⟨v, c, hc, hlive⟩ := hread _ rfl rfl zeroK
  have hlast : lastWrittenEver twoLives zeroK = some zeroV := by decide
  rw [hlast, live_of_ne zeroV_ne_tombstone, live_eq_some_iff] at hlive
  exact ⟨fs, _, hmade, hrun, c, by rw [hc, hlive.1]⟩

/-! ## Which crashes lose something -/

/-- **One key after a crash and a restart**: it has the value written last in any lifetime exactly when
the crash does not lose it.

The lifetimes before have lost nothing (`Machine.Spares`), so this is about the one crash at the end, at any
step but the truncation. -/
theorem restart_keeps_iff {disk fs : FS} (hw : ∀ name, disk.writable name = true)
    {times : Fin numFiles → Time} (htimes : StrictMono times) {dummy : K × K}
    (hmade : makeFS times dummy disk = some fs) {events : List (Machine.Event Time)}
    (hspares : Runs.Along Machine.step Machine.Spares (.down fs) events) {st : Threads}
    (hrun : Runs.run Machine.step (.down fs) events = some (.up st)) (htorn : ¬st.Torn)
    {env₀ env₁ : Env Time} (hclock : ClockMoves st.store.fs env₀ env₁) :
    ∃ s, boot (replayFuel st.store.fs) env₀ env₁ (asleep st.store.fs) = some s ∧
      ∀ k, s.abstractMap k = live isTomb (lastWrittenEver events k) ↔ ¬st.Loses k := by
  have hkeeps := keeps_makeFS hw htimes hmade
  obtain ⟨M, hrun', hM⟩ := hkeeps.run hspares
  obtain rfl := Option.some.inj (hrun'.symm.trans hrun)
  obtain ⟨hinv, hsound⟩ := hM
  obtain ⟨s, hs, hbooted, -⟩ := (hinv.recoverable hsound htorn).boot hclock
  refine ⟨s, hs, fun k ↦ ?_⟩
  rw [hbooted.abstractMap_eq]
  exact hinv.newest_disk_iff hsound htorn k

/-- A crash right after the first write. -/
theorem restart_keeps_iff_oneLife : ∃ fs st s,
    makeFS secondsApart (zeroK, zeroK) FS.blank = some fs ∧
      Runs.run Machine.step (.down fs) oneLife = some (.up st) ∧
      boot (replayFuel st.store.fs) (someEnv 30) (someEnv 31) (asleep st.store.fs) = some s ∧
      (s.abstractMap zeroK = live isTomb (lastWrittenEver oneLife zeroK) ↔ ¬st.Loses zeroK) := by
  obtain ⟨fs, hmade, -⟩ := makeFS_eq writable_blank secondsApart (zeroK, zeroK)
  obtain ⟨halong, st, hrun, hholder, hr, hclock⟩ := oneLife_spec hmade
  obtain ⟨s, hs, hiff⟩ := restart_keeps_iff writable_blank strictMono_secondsApart hmade halong hrun
    (not_torn_of_holder hholder) hclock
  exact ⟨fs, st, s, hmade, hrun, hs, hiff zeroK⟩

/-- **One key after a constructor was cut short and started again**: it has the value written last in any
lifetime, unless it was deleted and came back with the merge. -/
theorem cutShort_keeps_iff {disk fs fs' : FS} (hw : ∀ name, disk.writable name = true)
    {times : Fin numFiles → Time} (htimes : StrictMono times) {dummy : K × K}
    (hmade : makeFS times dummy disk = some fs) {events : List (Machine.Event Time)}
    (hspares : Runs.Along Machine.step Machine.Spares (.down fs) events)
    (hrun : Runs.run Machine.step (.down fs) events = some (.down fs')) {env₀ env₁ env₂ env₃ : Env Time}
    (hclock : ClockMoves fs' env₀ env₁) (hlater : env₁.now < env₂.now) (hsleep : env₂.now < env₃.now)
    (i : Fin 2) {j : ℕ} (htorn : j ≠ 3) :
    ∃ s s', bootUntil (replayFuel fs') env₀ env₁ i j (asleep fs') = some s ∧
      boot (replayFuel s.fs) env₂ env₃ (asleep s.fs) = some s' ∧
      ∀ k, s'.abstractMap k = live isTomb (lastWrittenEver events k) ↔
        ¬((j = 4 ∨ j = 5) ∧ Unburied s.fs s.recent k) := by
  obtain ⟨M, hrun', hM⟩ := (keeps_makeFS hw htimes hmade).run hspares
  obtain rfl := Option.some.inj (hrun'.symm.trans hrun)
  obtain ⟨r, arr, hrec, -⟩ := hM
  obtain ⟨s, r', hs, hrec', hle, -, hiff⟩ := hrec.bootUntil hclock i htorn
  obtain ⟨s', hs', hbooted, -⟩ := hrec'.boot ⟨fun i ↦ (hle i).trans_lt hlater, hsleep⟩
  refine ⟨s, s', hs, hs', fun k ↦ ?_⟩
  rw [hbooted.abstractMap_eq]
  exact hiff k

/-- The start after that crash is cut short in its second round, one operation before the truncation. -/
theorem cutShort_keeps_iff_crashed : ∃ fs fs' s s',
    makeFS secondsApart (zeroK, zeroK) FS.blank = some fs ∧
      Runs.run Machine.step (.down fs) (oneLife ++ [.crash]) = some (.down fs') ∧
      bootUntil (replayFuel fs') (someEnv 30) (someEnv 31) 1 2 (asleep fs') = some s ∧
      boot (replayFuel s.fs) (someEnv 40) (someEnv 41) (asleep s.fs) = some s' ∧
      (s'.abstractMap zeroK = live isTomb (lastWrittenEver (oneLife ++ [.crash]) zeroK) ↔
        ¬((2 = 4 ∨ 2 = 5) ∧ Unburied s.fs s.recent zeroK)) := by
  obtain ⟨fs, hmade, -⟩ := makeFS_eq writable_blank secondsApart (zeroK, zeroK)
  obtain ⟨halong, st, hrun, hholder, hr, hclock⟩ := oneLife_spec hmade
  have hspares : Runs.Along Machine.step Machine.Spares (.down fs) (oneLife ++ [.crash]) :=
    halong.append_of_run hrun
      ⟨⟨not_torn_of_holder hholder, not_loses_of_reserve hholder hr⟩, fun _ _ ↦ trivial⟩
  have hrun' : Runs.run Machine.step (.down fs) (oneLife ++ [.crash]) = some (.down st.store.fs) := by
    rw [Runs.run_append, hrun]
    rfl
  have hlater : (someEnv 31).now < (someEnv 40).now ∧ (someEnv 40).now < (someEnv 41).now := by decide
  obtain ⟨s, s', hs, hs', hiff⟩ := cutShort_keeps_iff writable_blank strictMono_secondsApart hmade hspares
    hrun' hclock hlater.1 hlater.2 1 (j := 2) (by decide)
  exact ⟨fs, st.store.fs, s, s', hmade, hrun', hs, hs', hiff zeroK⟩

end Master

end ScratchStore
