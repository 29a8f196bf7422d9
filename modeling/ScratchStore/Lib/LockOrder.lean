import Mathlib.Data.Finset.Insert
import Mathlib.Data.Finset.Erase
import Mathlib.Logic.Function.Basic
import Mathlib.Order.WellFounded
import ScratchStore.Lib.Runs

/-!
# Locks that are taken in order

Threads that take and release locks, with everything else they do left open: `Code` is what a thread has
left to do, as a tree of what can come next, and a `State` is the threads and who owns which lock.  A
thread that wants a lock has to wait until nobody owns it.

`Code.Sound` is a check of one thread by itself: it takes locks in ascending order, releases what it
holds, does what it does with the locks that takes, and ends without any.  When every thread is sound,
then in every state that can be reached the locks are owned as the check has it (`sound_run`), no thread
takes a lock it owns or releases one it does not (`State.Sound.not_faulty`), and as long as some thread
is not done, some thread can go on (`State.Sound.progress`): a thread that waits for a lock waits for one
that is higher than all it holds, so the owner of the highest lock does not wait.

The trees of `Code` branch where the program does, and the step says which way it goes, so that the runs
have every choice of every thread in them.  A thread may start another one, which begins without any locks;
this is how a server that hands work to a new thread is described.

The check is of one kind of thread at a time, by its tree alone.  How many threads there are, and in which
order they take their steps, does not come into it.
-/

set_option autoImplicit false

namespace LockOrder

variable {L A : Type*}

/-- What a thread has left to do. -/
inductive Code (L A : Type*) where
  /-- Nothing. -/
  | done
  /-- It waits until the lock is free. -/
  | lock (l : L) (next : Code L A)
  /-- It gives a lock back. -/
  | unlock (l : L) (next : Code L A)
  /-- It does something that the locks are for. -/
  | act (a : A) (next : Code L A)
  /-- It may go either way. -/
  | branch (yes no : Code L A)
  /-- It starts another thread. -/
  | spawn (child next : Code L A)

/-- The threads, and which of them owns a lock. -/
structure State (L A : Type*) where
  threads : List (Code L A)
  owner : L → Option ℕ

/-- These threads, before any of them has done anything. -/
def State.start (threads : List (Code L A)) : State L A := ⟨threads, fun _ ↦ none⟩

/-- The thread `i` goes on with `next`. -/
def State.goOn (st : State L A) (i : ℕ) (next : Code L A) : State L A :=
  { st with threads := st.threads.set i next }

section Step

variable [DecidableEq L]

/-- The next step of a thread, which takes the branch `yes` or the other one.  It is `none` when there is no
such thread, when it is done, when it waits, and when it gives back a lock that it does not own. -/
def State.step (st : State L A) : ℕ × Bool → Option (State L A)
  | (i, yes) =>
    (st.threads[i]?).bind fun code ↦
      match code with
      | .done => none
      | .lock l next =>
        if st.owner l = none then some { st.goOn i next with owner := Function.update st.owner l (some i) }
        else none
      | .unlock l next =>
        if st.owner l = some i then some { st.goOn i next with owner := Function.update st.owner l none }
        else none
      | .act _ next => some (st.goOn i next)
      | .branch a b => some (st.goOn i (if yes then a else b))
      | .spawn child next =>
        some { st.goOn i next with threads := (st.goOn i next).threads ++ [child] }

/-- The thread is about to take a lock it owns, or to release one it does not own. -/
def State.Faulty (st : State L A) (i : ℕ) : Prop :=
  (∃ l next, st.threads[i]? = some (.lock l next) ∧ st.owner l = some i) ∨
    ∃ l next, st.threads[i]? = some (.unlock l next) ∧ st.owner l ≠ some i

/-- What a step can do. -/
inductive State.Does (st : State L A) (i : ℕ) : State L A → Prop
  | lock {l : L} {next : Code L A} (hi : st.threads[i]? = some (.lock l next)) (hfree : st.owner l = none) :
      Does st i { st.goOn i next with owner := Function.update st.owner l (some i) }
  | unlock {l : L} {next : Code L A} (hi : st.threads[i]? = some (.unlock l next))
      (howns : st.owner l = some i) :
      Does st i { st.goOn i next with owner := Function.update st.owner l none }
  | act {a : A} {next : Code L A} (hi : st.threads[i]? = some (.act a next)) : Does st i (st.goOn i next)
  | branch {a b next : Code L A} (hi : st.threads[i]? = some (.branch a b)) (hnext : next = a ∨ next = b) :
      Does st i (st.goOn i next)
  | spawn {child next : Code L A} (hi : st.threads[i]? = some (.spawn child next)) :
      Does st i { st.goOn i next with threads := (st.goOn i next).threads ++ [child] }

theorem State.step_cases {st st' : State L A} {e : ℕ × Bool} (h : st.step e = some st') :
    st.Does e.1 st' := by
  obtain ⟨i, yes⟩ := e
  obtain ⟨code, hi, h⟩ := Option.bind_eq_some_iff.mp h
  cases code with
  | done => cases h
  | lock l next =>
    dsimp only at h
    split_ifs at h with hfree
    cases h
    exact .lock hi hfree
  | unlock l next =>
    dsimp only at h
    split_ifs at h with howns
    cases h
    exact .unlock hi howns
  | act a next =>
    cases h
    exact .act hi
  | branch a b =>
    cases h
    refine .branch hi ?_
    cases yes
    · exact .inr rfl
    · exact .inl rfl
  | spawn child next =>
    cases h
    exact .spawn hi

end Step

/-! ## The check

A code tree passes when every path of it takes the locks in order, releases only what it has, and does
what it does with the locks that are needed for it.  The check follows one thread and knows nothing of
the others. -/

section Sound

variable [LinearOrder L] {allowed : A → Finset L → Prop}

/-- The thread takes locks in ascending order, releases locks it holds, does what the locks it holds allow,
and ends without any. -/
def Code.Sound (allowed : A → Finset L → Prop) : Code L A → Finset L → Prop
  | .done, held => held = ∅
  | .lock l next, held => (∀ l' ∈ held, l' < l) ∧ next.Sound allowed (insert l held)
  | .unlock l next, held => l ∈ held ∧ next.Sound allowed (held.erase l)
  | .act a next, held => allowed a held ∧ next.Sound allowed held
  | .branch yes no, held => yes.Sound allowed held ∧ no.Sound allowed held
  | .spawn child next, held => child.Sound allowed ∅ ∧ next.Sound allowed held

/-- Every thread is sound with the locks it owns. -/
structure State.Sound (allowed : A → Finset L → Prop) (held : ℕ → Finset L) (st : State L A) : Prop where
  /-- What the check takes a thread to hold is what it holds. -/
  mem_iff : ∀ i l, l ∈ held i ↔ st.owner l = some i
  /-- A thread that is not there holds nothing. -/
  outside : ∀ i, st.threads.length ≤ i → held i = ∅
  /-- What each thread has left to do passes the check. -/
  sound : ∀ i (code : Code L A), st.threads[i]? = some code → code.Sound allowed (held i)

variable {held : ℕ → Finset L} {st st' : State L A}

theorem State.sound_start {threads : List (Code L A)} (h : ∀ code ∈ threads, code.Sound allowed ∅) :
    (State.start threads).Sound allowed fun _ ↦ ∅ where
  mem_iff i l := by simp [State.start]
  outside _ _ := rfl
  sound i code hi := h code (List.mem_of_getElem? hi)

/-- One thread goes on, with other locks. -/
theorem State.Sound.goOn (h : st.Sound allowed held) {i : ℕ} {code next : Code L A}
    (hi : st.threads[i]? = some code) {locks : Finset L} (hnext : next.Sound allowed locks)
    {owner : L → Option ℕ} (howner : ∀ j l, l ∈ Function.update held i locks j ↔ owner l = some j) :
    State.Sound allowed (Function.update held i locks) { st.goOn i next with owner := owner } where
  mem_iff := howner
  outside j hj := by
    have hlt := (List.getElem?_eq_some_iff.mp hi).1
    rw [State.goOn, List.length_set] at hj
    rw [Function.update_of_ne (by omega)]
    exact h.outside j hj
  sound j code' hj := by
    have hlt := (List.getElem?_eq_some_iff.mp hi).1
    by_cases hij : j = i
    · subst hij
      rw [State.goOn, List.getElem?_set_self hlt, Option.some.injEq] at hj
      rw [Function.update_self, ← hj]
      exact hnext
    · rw [State.goOn, List.getElem?_set_ne (Ne.symm hij)] at hj
      rw [Function.update_of_ne hij]
      exact h.sound j code' hj

/-- One thread goes on, with the same locks. -/
theorem State.Sound.goOn_same (h : st.Sound allowed held) {i : ℕ} {code next : Code L A}
    (hi : st.threads[i]? = some code) (hnext : next.Sound allowed (held i)) :
    (st.goOn i next).Sound allowed held := by
  have howner : ∀ j l, l ∈ Function.update held i (held i) j ↔ st.owner l = some j := by
    rw [Function.update_eq_self]
    exact h.mem_iff
  have hgo := h.goOn hi hnext howner
  rwa [Function.update_eq_self] at hgo

/-- There is a new thread. -/
theorem State.Sound.spawn (h : st.Sound allowed held) {child : Code L A} (hchild : child.Sound allowed ∅) :
    State.Sound allowed held { st with threads := st.threads ++ [child] } where
  mem_iff := h.mem_iff
  outside i hi := by
    rw [List.length_append] at hi
    exact h.outside i (Nat.le_of_add_right_le hi)
  sound i code hi := by
    rcases Nat.lt_or_ge i st.threads.length with hlt | hge
    · rw [List.getElem?_append_left hlt] at hi
      exact h.sound i code hi
    · rw [List.getElem?_append_right hge, List.getElem?_singleton] at hi
      split_ifs at hi
      rw [h.outside i hge, ← Option.some.inj hi]
      exact hchild

/-- **A step** keeps every thread sound. -/
theorem State.Sound.step (h : st.Sound allowed held) {e : ℕ × Bool} (hstep : st.step e = some st') :
    ∃ held', st'.Sound allowed held' := by
  obtain ⟨i, yes⟩ := e
  cases State.step_cases hstep with
  | @lock l next hi hfree =>
    obtain ⟨-, hnext⟩ := h.sound i _ hi
    refine ⟨_, h.goOn hi hnext fun j l' ↦ ?_⟩
    by_cases hj : j = i
    · by_cases hl : l' = l
      · simp [hj, hl]
      · simp [hj, hl, h.mem_iff]
    · by_cases hl : l' = l
      · simp [hj, hl, h.mem_iff, hfree, Ne.symm hj]
      · simp [hj, hl, h.mem_iff]
  | @unlock l next hi howns =>
    obtain ⟨-, hnext⟩ := h.sound i _ hi
    refine ⟨_, h.goOn hi hnext fun j l' ↦ ?_⟩
    by_cases hj : j = i
    · by_cases hl : l' = l
      · simp [hj, hl]
      · simp [hj, hl, h.mem_iff]
    · by_cases hl : l' = l
      · simp [hj, hl, h.mem_iff, howns, Ne.symm hj]
      · simp [hj, hl, h.mem_iff]
  | act hi => exact ⟨_, h.goOn_same hi (h.sound i _ hi).2⟩
  | branch hi hnext =>
    obtain ⟨hyes, hno⟩ := h.sound i _ hi
    rcases hnext with rfl | rfl
    · exact ⟨_, h.goOn_same hi hyes⟩
    · exact ⟨_, h.goOn_same hi hno⟩
  | spawn hi =>
    obtain ⟨hchild, hnext⟩ := h.sound i _ hi
    exact ⟨_, (h.goOn_same hi hnext).spawn hchild⟩

/-- **In every state that is reached** the threads are sound. -/
theorem sound_run {threads : List (Code L A)} (h : ∀ code ∈ threads, code.Sound allowed ∅)
    {es : List (ℕ × Bool)} (hrun : Runs.run State.step (State.start threads) es = some st) :
    ∃ held, st.Sound allowed held := by
  have hstep : ∀ (st : State L A) e st', (∃ held, st.Sound allowed held) → st.step e = some st' →
      ∃ held, st'.Sound allowed held := by
    rintro st e st' ⟨held, hst⟩ hstep
    exact hst.step hstep
  exact Runs.run_invariant hstep ⟨_, State.sound_start h⟩ hrun

/-! ## What it is good for

When all threads pass, a thread that waits for a lock waits for one that has it, and that one can only
wait for a later lock.  So some thread can go on. -/

/-- **No thread misuses a lock.** -/
theorem State.Sound.not_faulty (h : st.Sound allowed held) (i : ℕ) : ¬st.Faulty i := by
  rintro (⟨l, next, hi, howns⟩ | ⟨l, next, hi, hne⟩)
  · exact lt_irrefl l ((h.sound i _ hi).1 l ((h.mem_iff i l).mpr howns))
  · exact hne ((h.mem_iff i l).mp (h.sound i _ hi).1)

/-- A thread can go on unless it is done or waits. -/
theorem State.Sound.step_or_waits (h : st.Sound allowed held) {i : ℕ} {code : Code L A}
    (hi : st.threads[i]? = some code) (hdone : code ≠ .done) :
    (∃ st', st.step (i, true) = some st') ∨ ∃ l next j, code = .lock l next ∧ st.owner l = some j := by
  have hsound := h.sound i code hi
  cases code with
  | done => exact absurd rfl hdone
  | lock l next =>
    cases howner : st.owner l with
    | none => exact .inl ⟨_, by rw [State.step, hi, Option.bind_some]; exact if_pos howner⟩
    | some j => exact .inr ⟨l, next, j, rfl, howner⟩
  | unlock l next =>
    have howns := (h.mem_iff i l).mp hsound.1
    exact .inl ⟨_, by rw [State.step, hi, Option.bind_some]; exact if_pos howns⟩
  | act a next => exact .inl ⟨_, by rw [State.step, hi, Option.bind_some]⟩
  | branch a b => exact .inl ⟨_, by rw [State.step, hi, Option.bind_some]⟩
  | spawn child next => exact .inl ⟨_, by rw [State.step, hi, Option.bind_some]⟩

/-- While a lock is owned some thread can go on. -/
theorem State.Sound.exists_step_of_owner [WellFoundedGT L] (h : st.Sound allowed held) {l : L} {i : ℕ}
    (howner : st.owner l = some i) : ∃ e st', st.step e = some st' := by
  -- from the highest lock down: an owner that waits does so for a higher lock
  induction l using WellFoundedGT.induction generalizing i with
  | _ l ih =>
    have hmem := (h.mem_iff i l).mpr howner
    have hlt : i < st.threads.length := by
      by_contra hge
      rw [h.outside i (Nat.le_of_not_lt hge)] at hmem
      exact absurd hmem (Finset.notMem_empty l)
    have hi := List.getElem?_eq_getElem hlt
    have hsound := h.sound i _ hi
    have hdone : st.threads[i] ≠ .done := by
      intro hd
      rw [hd] at hsound
      exact Finset.notMem_empty l (hsound ▸ hmem)
    rcases h.step_or_waits hi hdone with ⟨st', hstep⟩ | ⟨l', next, j, hcode, howner'⟩
    · exact ⟨_, st', hstep⟩
    · rw [hcode] at hsound
      exact ih l' (hsound.1 l hmem) howner'

/-- **No deadlock.** -/
theorem State.Sound.progress [WellFoundedGT L] (h : st.Sound allowed held) {i : ℕ} {code : Code L A}
    (hi : st.threads[i]? = some code) (hdone : code ≠ .done) : ∃ e st', st.step e = some st' := by
  rcases h.step_or_waits hi hdone with ⟨st', hstep⟩ | ⟨l, next, j, -, howner⟩
  · exact ⟨_, st', hstep⟩
  · exact h.exists_step_of_owner howner

end Sound

end LockOrder
