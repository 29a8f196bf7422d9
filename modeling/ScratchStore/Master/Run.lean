import ScratchStore.Lib.Runs
import ScratchStore.Master.Flush

/-!
# Sequential runs

One thread serves its lines one after the other, and the `adjust` threads it starts run to completion
between two of them.

* `Serving` is the store with the number of `adjust` threads to come, and `Serving.step` one line or one
  of these threads.
* `Agrees` is the invariant: the newest layer that has a key has the value that was written last, and
  there is an `adjust` to come exactly when there is a `reserve`.
* `dbread_run`: whatever the sequence, a read finds the value that was written last.
* `Fresh.run_lines`: lines that write to enough keys swap the trees, so that `adjust` has something to do.
-/

set_option autoImplicit false

namespace ScratchStore

namespace Master

open SortedAssoc FileIO Layers

variable {Time : Type} [TimeFormat Time]

/-- What happens next: a line is served, or a thread that was started earlier runs `adjust`. -/
inductive Event (Time : Type) where
  /-- An `r` line. -/
  | read (k : K)
  /-- A `w` line, and the test for a swap after it. -/
  | write (k : K) (v : V)
  /-- An `adjust` that was started earlier, from beginning to end. -/
  | adjust (env : Env Time)

/-- The store and the number of `adjust` threads that have not run yet. -/
structure Serving where
  store : Store
  pending : ℕ

/-- The end of the loop of `serve`: swap the trees and start a thread if the tree is large enough. -/
def checkSwap (s : Store) (pending : ℕ) : Serving :=
  if wantsSwap s then ⟨swap s, pending + 1⟩ else ⟨s, pending⟩

/-- One event.  Without a thread that is waiting, `adjust` does not happen. -/
def Serving.step (st : Serving) : Event Time → Option Serving
  | .read k => (dbread k st.store).map fun answer ↦ checkSwap answer.2 st.pending
  | .write k v => some (checkSwap (dbwrite k v st.store) st.pending)
  | .adjust env =>
    if st.pending = 0 then some st
    else (Master.adjust env st.store).map fun s ↦ ⟨s, st.pending - 1⟩

/-- What an event does to the map of the values written last. -/
def Event.note (m : K → Option V) : Event Time → K → Option V
  | .write k v => Function.update m k (some v)
  | _ => m

/-- The value written last to each key. -/
def lastWrite (events : List (Event Time)) : K → Option V := events.foldl Event.note fun _ ↦ none

/-- No event writes the reserved value. -/
def Event.Live (e : Event Time) : Prop := ∀ k v, e = .write k v → v ≠ tombstone V

/-- The layers of the store agree with the map `m` of the last writes. -/
structure Agrees (st : Serving) (m : K → Option V) : Prop where
  wf : st.store.WF
  /-- The Bloom filter lets every stored key through. -/
  covers : st.store.BloomCovers
  /-- The layers have the last write of each key. -/
  newest_eq : ∀ k, newest st.store.layers k = m k
  /-- Nobody has written the reserved value. -/
  live : ∀ k, m k ≠ some (tombstone V)
  /-- An `adjust` is to come exactly when there is a `reserve`. -/
  pending : st.pending = if st.store.reserve.isSome then 1 else 0

variable {s : Store} {m : K → Option V}

/-- The test for a swap keeps the invariant. -/
theorem Agrees.checkSwap {pending : ℕ} (h : Agrees ⟨s, pending⟩ m) : Agrees (checkSwap s pending) m := by
  rw [Master.checkSwap]
  split_ifs with hswap
  · have hr := reserve_of_wantsSwap hswap
    refine ⟨h.wf.swap, fun k v hk ↦ ?_, fun k ↦ ?_, h.live, ?_⟩
    · rw [newest_swap h.wf hr] at hk
      exact h.covers k v hk
    · rw [newest_swap h.wf hr]
      exact h.newest_eq k
    · have hp := h.pending
      dsimp only at hp
      rw [hr] at hp
      simp [hp]
  · exact h

theorem Agrees.cached {pending : ℕ} {s' : Store} (h : Agrees ⟨s, pending⟩ m)
    (hc : Store.Cached s s') : Agrees ⟨s', pending⟩ m := by
  have hlayers := hc.layers_eq
  have hwf := h.wf.cached hc
  obtain ⟨⟨sys, rfl⟩, -, -⟩ := hc
  refine ⟨hwf, fun k v hk ↦ ?_, fun k ↦ ?_, h.live, h.pending⟩
  · dsimp only at hk
    rw [hlayers] at hk
    exact h.covers k v hk
  · dsimp only
    rw [hlayers]
    exact h.newest_eq k

theorem Agrees.dbwrite {pending : ℕ} (h : Agrees ⟨s, pending⟩ m) (k : K) {v : V}
    (hv : v ≠ tombstone V) :
    Agrees ⟨dbwrite k v s, pending⟩ (Function.update m k (some v)) := by
  have hnew : ∀ k', newest (Master.dbwrite k v s).layers k' = Function.update m k (some v) k' := by
    intro k'
    rw [newest_dbwrite k v h.wf, Function.update_apply]
    split_ifs
    · rfl
    · exact h.newest_eq k'
  refine ⟨h.wf.dbwrite k v, fun k' v' hk' ↦ ?_, hnew, fun k' ↦ ?_, h.pending⟩
  · dsimp only at hk'
    rw [newest_dbwrite k v h.wf] at hk'
    split_ifs at hk' with hk
    · rw [hk]; exact bloom_dbwrite_self k v h.wf
    · exact bloom_dbwrite_of_get k v h.wf (h.covers k' v' hk')
  · rw [Function.update_apply]
    split_ifs
    · exact fun he ↦ hv (Option.some.inj he)
    · exact h.live k'

theorem Agrees.adjusted {pending : ℕ} (h : Agrees ⟨s, pending⟩ m) {t : BinaryTree K V}
    (ht : s.reserve = some t) (env : Env Time) : Agrees ⟨adjusted env s t, pending - 1⟩ m := by
  have hnew : ∀ k, newest (Master.adjusted env s t).layers k = newest s.layers k := fun k ↦
    newest_adjusted env h.wf ht (by rw [h.newest_eq k]; exact h.live k)
  refine ⟨h.wf.adjusted env ht, fun k v hk ↦ ?_, fun k ↦ (hnew k).trans (h.newest_eq k), h.live, ?_⟩
  · dsimp only at hk
    rw [hnew] at hk
    exact h.covers k v hk
  · have hp := h.pending
    dsimp only at hp
    rw [hp, ht]
    rfl

/-- **One event** goes through and keeps the invariant. -/
theorem Agrees.step {st : Serving} (h : Agrees st m) {e : Event Time} (he : e.Live) :
    ∃ st', st.step e = some st' ∧ Agrees st' (e.note m) := by
  cases e with
  | read k =>
    obtain ⟨c, hc, hcached⟩ := dbread_eq h.wf k
    refine ⟨_, by rw [Serving.step, hc, Option.map_some], ?_⟩
    exact (h.cached hcached).checkSwap
  | write k v => exact ⟨_, rfl, (h.dbwrite k (he k v rfl)).checkSwap⟩
  | adjust env =>
    rw [Serving.step]
    by_cases hp : st.pending = 0
    · exact ⟨st, by rw [if_pos hp], h⟩
    · have hsome : st.store.reserve.isSome := by
        by_contra hnone
        exact hp (by rw [h.pending, if_neg hnone])
      obtain ⟨t, ht⟩ := Option.isSome_iff_exists.mp hsome
      refine ⟨_, by rw [if_neg hp, adjust_eq env h.wf ht, Option.map_some], ?_⟩
      exact h.adjusted ht env

/-- A fresh store agrees with the map that has no key. -/
theorem Fresh.agrees (h : Fresh Time s) : Agrees ⟨s, 0⟩ fun _ ↦ none where
  wf := h.wf
  covers k v hk := by
    dsimp only at hk
    rw [h.newest_eq] at hk
    cases hk
  newest_eq := h.newest_eq
  live _ := by simp
  pending := by simp [h.reserve]

/-- **The store is a map.**  From a fresh store every sequence of events goes through, and after it
`dbread` delivers the value that was written last to the key, if there was one. -/
theorem dbread_run (s : Store) (h : Fresh Time s) (events : List (Event Time))
    (hlive : ∀ e ∈ events, e.Live) :
    ∃ st, Runs.run Serving.step ⟨s, 0⟩ events = some st ∧
      ∀ k, ∃ c, dbread k st.store = some (lastWrite events k, c) := by
  have hstep : ∀ (st : Serving) m (e : Event Time), Agrees st m → e.Live →
      ∃ st', st.step e = some st' ∧ Agrees st' (e.note m) := fun _ _ _ hst he ↦ hst.step he
  obtain ⟨st, hrun, hst⟩ := Runs.run_total hstep h.agrees events hlive
  refine ⟨st, hrun, fun k ↦ ?_⟩
  obtain ⟨c, hc, -⟩ := dbread_of_covers hst.wf hst.covers k
  exact ⟨c, by rw [hc, hst.newest_eq, lastWrite]⟩

/-! ## Lines that fill the tree -/

/-- The lines that write a value to each of the keys. -/
def lines (Time : Type) (keys : List K) (v : V) : List (Event Time) := keys.map fun k ↦ .write k v

/-- A line leaves no tree that is large enough for a swap. -/
theorem wantsSwap_checkSwap (s : Store) (pending : ℕ) : wantsSwap (checkSwap s pending).store = false := by
  rw [checkSwap]
  split_ifs with hswap
  · rw [wantsSwap, reserve_swap]
    simp
  · exact Bool.eq_false_iff.mpr hswap

@[simp] theorem recent_checkSwap (s : Store) (pending : ℕ) :
    (checkSwap s pending).store.recent = s.recent := by
  rw [checkSwap]
  split_ifs <;> rfl

/-- There is a `reserve`, or the tree has these keys. -/
def Store.Holds (s : Store) (keys : List K) : Prop :=
  s.reserve.isSome ∨ ∀ k ∈ keys, (s.bintree.lookup k).isSome

theorem Store.Holds.checkSwap {keys : List K} (h : s.Holds keys) (pending : ℕ) :
    (Master.checkSwap s pending).store.Holds keys := by
  rw [Master.checkSwap]
  split_ifs
  · exact .inl rfl
  · exact h

theorem Store.Holds.dbwrite {keys : List K} (h : s.Holds keys) (hwf : s.WF) (k : K) (v : V) :
    (Master.dbwrite k v s).Holds (k :: keys) := by
  refine h.imp id fun hkeys k' hk' ↦ ?_
  rw [lookup_dbwrite k v hwf]
  split_ifs with hk
  · rfl
  · exact hkeys k' ((List.mem_cons.mp hk').resolve_left hk)

/-- One line after the other. -/
theorem run_lines (Time : Type) [TimeFormat Time] {st : Serving} {seen : List K} (keys : List K) {v : V}
    (hv : v ≠ tombstone V) (h : Agrees st m) (hsmall : wantsSwap st.store = false)
    (hseen : st.store.Holds seen) :
    ∃ st' m', Runs.run Serving.step st (lines Time keys v) = some st' ∧ Agrees st' m' ∧
      st'.store.recent = st.store.recent ∧ wantsSwap st'.store = false ∧
      st'.store.Holds (keys.reverse ++ seen) := by
  induction keys generalizing st m seen with
  | nil => exact ⟨st, m, rfl, h, rfl, hsmall, hseen⟩
  | cons k keys ih =>
    obtain ⟨st', m', hrun, hst', hrecent, hsmall', hholds⟩ := ih (h.dbwrite k hv).checkSwap
      (wantsSwap_checkSwap _ _) ((hseen.dbwrite h.wf k v).checkSwap st.pending)
    refine ⟨st', m', ?_, hst', ?_, hsmall', ?_⟩
    · rw [lines, List.map_cons, Runs.run_cons]
      exact hrun
    · rw [hrecent, recent_checkSwap, recent_dbwrite]
    · rw [List.reverse_cons, List.append_assoc]
      exact hholds

/-- **Enough keys** in a fresh store start an `adjust`. -/
theorem Fresh.run_lines {keys : List K} (h : Fresh Time s) (hnodup : keys.Nodup)
    (hlen : maxTreeSize ≤ keys.length) {v : V} (hv : v ≠ tombstone V) :
    ∃ st m, Runs.run Serving.step ⟨s, 0⟩ (lines Time keys v) = some st ∧ Agrees st m ∧
      st.store.recent = s.recent ∧ st.pending = 1 := by
  have hsmall : wantsSwap s = false := by
    have hsize : s.bintree.size = 0 := by
      rw [h.wf.bintree.size_eq, h.bintree]
      rfl
    rw [wantsSwap, hsize]
    rfl
  have hholds : s.Holds [] := .inr fun _ hk ↦ absurd hk List.not_mem_nil
  obtain ⟨st, m, hrun, hst, hrecent, hsmall', hholds'⟩ :=
    Master.run_lines Time keys hv h.agrees hsmall hholds
  refine ⟨st, m, hrun, hst, hrecent, ?_⟩
  rw [hst.pending, if_pos]
  by_contra hnone
  -- without a `reserve` the tree has all the keys, and the last line would have swapped it
  have hsize : keys.length ≤ st.store.bintree.size :=
    BinaryTree.length_le_size hst.wf.bintree hnodup fun k hk ↦
      (hholds'.resolve_left hnone) k (by simpa using hk)
  have hwants : wantsSwap st.store = true := by
    rw [wantsSwap, Bool.and_eq_true, decide_eq_true_eq]
    exact ⟨hlen.trans hsize, by simpa using hnone⟩
  rw [hsmall'] at hwants
  cases hwants

/-- A read that comes after an `adjust`. -/
theorem run_adjust_read {st : Serving} (h : Agrees st m) (hpending : st.pending = 1) (env : Env Time)
    (k : K) : ∃ st', Runs.run Serving.step st [.adjust env, .read k] = some st' ∧
      st'.store.recent = st.store.recent + 1 := by
  have hsome : st.store.reserve.isSome := by
    by_contra hnone
    rw [h.pending, if_neg hnone] at hpending
    cases hpending
  obtain ⟨t, ht⟩ := Option.isSome_iff_exists.mp hsome
  obtain ⟨c, hc, hcached⟩ := dbread_eq (h.wf.adjusted env ht) k
  refine ⟨checkSwap c 0, ?_, ?_⟩
  · rw [Runs.run_cons, Serving.step, hpending, if_neg one_ne_zero, adjust_eq env h.wf ht, Option.map_some,
      Option.bind_some, Runs.run_cons, Serving.step, hc]
    rfl
  · obtain ⟨⟨sys, rfl⟩, -, -⟩ := hcached
    exact recent_checkSwap _ 0

/-- Lines that fill the tree, the `adjust` they start, and a read of one of the keys. -/
def flushedLines : List (Event DaySecond) :=
  lines DaySecond someKeys zeroV ++ [.adjust (someEnv 1), .read (numbered 0)]

/-- Enough lines for a swap, and the flush after it.  `recent` has moved on from 9 to 0, so the records
that are found are in a file. -/
theorem dbread_run_flushedLines : ∃ st,
    Runs.run Serving.step ⟨freshStore (fun _ ↦ (0 : DaySecond)) 9, 0⟩ flushedLines = some st ∧
      st.store.recent = 0 ∧ ∀ k, ∃ c, dbread k st.store = some (lastWrite flushedLines k, c) := by
  have hfresh := fresh_freshStore (fun _ ↦ (0 : DaySecond)) 9
  obtain ⟨st₁, m, hrun₁, hst₁, hrecent₁, hpending⟩ :=
    hfresh.run_lines nodup_someKeys length_someKeys.ge zeroV_ne_tombstone
  obtain ⟨st₂, hrun₂, hrecent₂⟩ := run_adjust_read hst₁ hpending (someEnv 1) (numbered 0)
  have hlive : ∀ e ∈ flushedLines, e.Live := by
    rintro e he k v rfl
    obtain ⟨-, rfl⟩ : k ∈ someKeys ∧ v = zeroV := by simpa [flushedLines, lines, eq_comm] using he
    exact zeroV_ne_tombstone
  obtain ⟨st, hrun, hread⟩ := dbread_run _ hfresh flushedLines hlive
  refine ⟨st, hrun, ?_, hread⟩
  rw [flushedLines, Runs.run_append, hrun₁, Option.bind_some, hrun₂, Option.some.injEq] at hrun
  rw [← hrun, hrecent₂, hrecent₁]
  rfl

end Master

end ScratchStore
