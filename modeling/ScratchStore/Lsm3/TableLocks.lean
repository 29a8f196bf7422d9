import Mathlib.Algebra.Ring.Int.Defs
import ScratchStore.Lsm3.Lifecycle

/-!
# The locks of a statement

While a merge is in progress `lsm3_insert` releases a lock on the top index that is merged, which its
statement took when it opened the indexes and will release when it closes them.  The executor would warn
that it does not own a lock, so `lsm3_executor_finish` takes the locks again that have been released.

* `opened` is how often a backend has a top index open, and `reclaimed` whether the hook has run since its
  last insert.
* `WellBehaved` runs are those in which a statement closes only what it has opened, and comes to its end
  before it does.  When a transaction fails that has released a lock, `Lsm3ReleasedLocks` is not reset, so
  this must not happen either.
* `State.held_of_reclaimed`: after the hook a backend holds a lock on each top index for each time it has it
  open.

`Owns` is the invariant: what a backend holds, and what it has released and will take again, is together
what it has open (`Backend.owned`).  An insert moves a lock from the one to the other, the hook moves all of
them back, and opening and closing an index changes both sides.
-/

set_option autoImplicit false

namespace ScratchStore

namespace Lsm3

open Runs

variable {n : ℕ} {D : Fin n → Type} {sortKeys : SortKeys D} {B : NBTree sortKeys} {ι : Type} [DecidableEq ι]

/-- How often the backend `b` has the top index `a` open after a step, when it was `k` times before. -/
def opens (b : ι) (a : Fin 2) (k : ℤ) : Action ι B → ℤ
  | .openIndex c a' => if c = b ∧ a' = a then k + 1 else k
  | .closeIndex c a' => if c = b ∧ a' = a then k - 1 else k
  | .abort c => if c = b then 0 else k
  | _ => k

/-- How often the backend `b` has the top index `a` open. -/
def opened (b : ι) (a : Fin 2) (acts : List (Action ι B)) : ℤ := acts.foldl (opens b a) 0

/-- The hook of the executor takes the locks of the backend `b` again, and an insert may release one. -/
def reclaims (b : ι) (r : Bool) : Action ι B → Bool
  | .executorFinish c => r || c = b
  | .leave c => r && c ≠ b
  | _ => r

/-- Whether the hook of the executor has run since the last insert of the backend `b`. -/
def reclaimed (b : ι) (acts : List (Action ι B)) : Bool := acts.foldl (reclaims b) true

/-- A statement closes an index that it has open, after the hook of the executor, and a transaction that fails
has no locks to take again. -/
def Allowed (pre : List (Action ι B)) : Action ι B → Prop
  | .closeIndex b a => 0 < opened b a pre ∧ reclaimed b pre = true
  | .abort b => reclaimed b pre = true
  | _ => True

def WellBehaved (acts : List (Action ι B)) : Prop := ∀ pre act post, acts = pre ++ act :: post → Allowed pre act

theorem opened_concat (b : ι) (a : Fin 2) (acts : List (Action ι B)) (act : Action ι B) :
    opened b a (acts ++ [act]) = opens b a (opened b a acts) act := by
  rw [opened, List.foldl_append]
  rfl

theorem reclaimed_concat (b : ι) (acts : List (Action ι B)) (act : Action ι B) :
    reclaimed b (acts ++ [act]) = reclaims b (reclaimed b acts) act := by
  rw [reclaimed, List.foldl_append]
  rfl

theorem WellBehaved.left {acts acts' : List (Action ι B)} (h : WellBehaved (acts ++ acts')) : WellBehaved acts :=
  fun pre act post heq ↦ h pre act (post ++ acts') (by rw [heq]; simp)

theorem wellBehaved_iff {acts : List (Action ι B)} :
    WellBehaved acts ↔ ∀ i : Fin acts.length, Allowed (acts.take i) (acts.get i) := by
  constructor
  · intro h i
    refine h (acts.take i) (acts.get i) (acts.drop (i + 1)) ?_
    rw [List.get_eq_getElem, List.cons_getElem_drop_succ, List.take_append_drop]
  · rintro h pre act post rfl
    have hi := h ⟨pre.length, by simp⟩
    simpa using hi

/-- The locks that a backend holds or will take again. -/
def Backend.owned (x : Backend D) (a : Fin 2) : ℕ := x.held a + x.released.count a

namespace State

section Sections

variable (s : State ι B)

omit [DecidableEq ι] in
theorem backends_merging (src : Fin 2) (pos : Option B.Pos) : (s.merging src pos).backends = s.backends := by
  cases pos <;> rfl

omit [DecidableEq ι] in
theorem backends_requestMerge : s.requestMerge.backends = s.backends := by
  rw [requestMerge_eq]

/-- A lock that is released will be taken again. -/
theorem backends_releaseLock (b : ι) (a : Fin 2) (c : ι) :
    (∀ a', ((s.releaseLock b a).backends c).owned a' = (s.backends c).owned a') ∧
      (c ≠ b → ((s.releaseLock b a).backends c).released = (s.backends c).released) := by
  rw [releaseLock]
  split_ifs with hheld
  · exact ⟨fun _ ↦ rfl, fun _ ↦ rfl⟩
  · by_cases hc : c = b
    · subst hc
      refine ⟨fun a' ↦ ?_, fun hne ↦ absurd rfl hne⟩
      simp only [setBackend, Function.update_self, Backend.owned, List.count_append, Function.update_apply]
      by_cases ha : a' = a
      · subst ha
        simp
        omega
      · simp [ha, Ne.symm ha]
    · refine ⟨fun a' ↦ ?_, fun _ ↦ ?_⟩ <;> simp [setBackend, hc]

/-- The end of an insert. -/
theorem backends_leaveSection (b : ι) (ins : Insert D) (overflow : Bool) (c : ι) :
    (∀ a, (((s.setInsert b none).leaveSection b ins overflow).backends c).owned a = (s.backends c).owned a) ∧
      (c ≠ b → (((s.setInsert b none).leaveSection b ins overflow).backends c).released =
        (s.backends c).released) := by
  have hset : (∀ a, ((s.setInsert b none).backends c).owned a = (s.backends c).owned a) ∧
      (c ≠ b → ((s.setInsert b none).backends c).released = (s.backends c).released) := by
    by_cases hc : c = b
    · subst hc
      simp [setInsert, setBackend, Backend.owned]
    · simp [setInsert, setBackend, hc]
  have hduring : ∀ (t : State ι B) (a : Fin 2), t.backends = (s.setInsert b none).backends →
      (∀ a', ((t.duringMerge b a).backends c).owned a' = (s.backends c).owned a') ∧
        (c ≠ b → ((t.duringMerge b a).backends c).released = (s.backends c).released) := by
    intro t a ht
    obtain ⟨howned, hreleased⟩ := t.backends_releaseLock b (1 - a) c
    rw [ht] at howned hreleased
    rw [duringMerge]
    dsimp only
    split_ifs
    · rw [backends_requestMerge]
      exact ⟨fun a' ↦ (howned a').trans (hset.1 a'), fun hc ↦ (hreleased hc).trans (hset.2 hc)⟩
    · exact ⟨fun a' ↦ (howned a').trans (hset.1 a'), fun hc ↦ (hreleased hc).trans (hset.2 hc)⟩
    · rw [ht]
      exact hset
  exact hduring _ _ rfl

end Sections

variable {s s' : State ι B}

/-- The locks are those of the indexes that are open, and none is to be taken again after the hook. -/
def Owns (s : State ι B) (acts : List (Action ι B)) : Prop :=
  ∀ b, (∀ a, ((s.backends b).owned a : ℤ) = opened b a acts) ∧
    (reclaimed b acts = true → (s.backends b).released = [])

/-- A step that has nothing to do with locks. -/
theorem Owns.frame {acts : List (Action ι B)} {act : Action ι B} (h : s.Owns acts)
    (hbackends : ∀ b, (s'.backends b).held = (s.backends b).held ∧
      (s'.backends b).released = (s.backends b).released)
    (hopens : ∀ b a k, opens b a k act = k) (hreclaims : ∀ b r, reclaims b r act = r) :
    s'.Owns (acts ++ [act]) := by
  intro b
  obtain ⟨hheld, hreleased⟩ := hbackends b
  rw [reclaimed_concat, hreclaims, hreleased]
  refine ⟨fun a ↦ ?_, (h b).2⟩
  rw [opened_concat, hopens, ← (h b).1 a, Backend.owned, Backend.owned, hheld, hreleased]

/-- The backend `b` does something with its locks. -/
theorem Owns.setBackend {acts : List (Action ι B)} {act : Action ι B} (h : s.Owns acts) {b : ι} {x : Backend D}
    (howned : ∀ a, (x.owned a : ℤ) = opens b a (opened b a acts) act)
    (hreleased : reclaims b (reclaimed b acts) act = true → x.released = [])
    (hopens : ∀ c, c ≠ b → ∀ a k, opens c a k act = k) (hreclaims : ∀ c, c ≠ b → ∀ r, reclaims c r act = r) :
    (s.setBackend b x).Owns (acts ++ [act]) := by
  intro c
  rw [reclaimed_concat]
  by_cases hc : c = b
  · subst hc
    simp only [State.setBackend, Function.update_self]
    exact ⟨fun a ↦ (howned a).trans (opened_concat _ _ _ _).symm, hreleased⟩
  · simp only [State.setBackend, Function.update_of_ne hc]
    rw [hreclaims c hc]
    refine ⟨fun a ↦ ?_, (h c).2⟩
    rw [opened_concat, hopens c hc]
    exact (h c).1 a

variable [Fintype ι]

theorem Owns.step {acts : List (Action ι B)} {act : Action ι B} (h : s.Owns acts)
    (hwell : WellBehaved (acts ++ [act])) (hstep : s.step act = some s') : s'.Owns (acts ++ [act]) := by
  have hinsert : ∀ (t : State ι B) (b : ι) insert, t.backends = s.backends → ∀ c,
      ((t.setInsert b insert).backends c).held = (s.backends c).held ∧
        ((t.setInsert b insert).backends c).released = (s.backends c).released := by
    intro t b insert ht c
    by_cases hc : c = b
    · subst hc
      simp [setInsert, State.setBackend, ht]
    · simp [setInsert, State.setBackend, ht, hc]
  have hsame : ∀ c, (s.backends c).held = (s.backends c).held ∧
      (s.backends c).released = (s.backends c).released := fun _ ↦ ⟨rfl, rfl⟩
  cases step_cases hstep with
  | enter | btinsert | testMerge | testInserts | testSize =>
    exact h.frame (hinsert _ _ _ rfl) (fun _ _ _ ↦ rfl) fun _ _ ↦ rfl
  | @leave b a m overflow hb =>
    intro c
    obtain ⟨howned, hreleased⟩ := s.backends_leaveSection b ⟨a, m, .leave overflow⟩ overflow c
    refine ⟨fun a' ↦ ?_, fun hr ↦ ?_⟩
    · rw [howned, opened_concat, (h c).1 a']
      rfl
    · simp only [reclaimed_concat, reclaims, Bool.and_eq_true, decide_eq_true_eq] at hr
      rw [hreleased (Ne.symm hr.2)]
      exact (h c).2 hr.1
  | abort b =>
    have hnone : (s.backends b).released = [] := (h b).2 (hwell acts (.abort b) [] rfl)
    refine h.setBackend (fun a ↦ ?_) (fun _ ↦ hnone) (fun c hc a k ↦ if_neg (Ne.symm hc)) fun _ _ _ ↦ rfl
    simp [Backend.owned, hnone, opens]
  | startMerge =>
    have hbackends : s.startMergeSection.backends = s.backends := by
      rw [startMergeSection]
      split_ifs
      · rfl
      · dsimp only
        split_ifs
        · rw [backends_requestMerge]
        · rfl
    exact h.frame (fun c ↦ by rw [hbackends]; exact hsame c) (fun _ _ _ ↦ rfl) fun _ _ ↦ rfl
  | openIndex b a =>
    refine h.setBackend (fun a' ↦ ?_) (h b).2 (fun c hc a' k ↦ if_neg fun heq ↦ hc heq.1.symm) fun _ _ _ ↦ rfl
    rw [← (h b).1 a']
    simp only [Backend.owned, opens, Function.update_apply]
    by_cases ha : a' = a
    · subst ha
      simp
      omega
    · simp [ha, Ne.symm ha]
  | executorFinish b =>
    refine h.setBackend (fun a' ↦ ?_) (fun _ ↦ rfl) (fun _ _ _ _ ↦ rfl) fun c hc r ↦ ?_
    · rw [← (h b).1 a']
      simp [Backend.owned, opens]
    · simp [reclaims, Ne.symm hc]
  | closeIndex b a =>
    obtain ⟨hopen, hr⟩ := hwell acts (.closeIndex b a) [] rfl
    have hnone := (h b).2 hr
    have hheld : 0 < (s.backends b).held a := by
      have howned := (h b).1 a
      rw [Backend.owned, hnone, List.count_nil, add_zero] at howned
      omega
    refine h.setBackend (fun a' ↦ ?_) (fun _ ↦ hnone) (fun c hc a' k ↦ if_neg fun heq ↦ hc heq.1.symm)
      fun _ _ _ ↦ rfl
    rw [← (h b).1 a']
    simp only [Backend.owned, opens, Function.update_apply]
    by_cases ha : a' = a
    · subst ha
      simp
      omega
    · simp [ha, Ne.symm ha]
  | first | next =>
    exact h.frame (fun c ↦ by rw [backends_merging]; exact hsame c) (fun _ _ _ ↦ rfl) fun _ _ ↦ rfl
  | _ => exact h.frame hsame (fun _ _ _ ↦ rfl) fun _ _ ↦ rfl

variable {topIndexSize : UInt32} {heap : List (IndexTuple D)}

theorem owns_run {acts : List (Action ι B)} (hwell : WellBehaved acts)
    (hrun : run step (build topIndexSize heap) acts = some s) : s.Owns acts := by
  induction acts using List.reverseRecOn generalizing s with
  | nil =>
    obtain rfl := Option.some.inj hrun
    exact fun b ↦ ⟨fun _ ↦ rfl, fun _ ↦ rfl⟩
  | append_singleton acts act ih =>
    rw [run_append, Option.bind_eq_some_iff] at hrun
    obtain ⟨s₁, hrun, hlast⟩ := hrun
    obtain ⟨s₂, hstep, hnil⟩ := run_cons_eq_some.mp hlast
    obtain rfl := Option.some.inj hnil
    exact (ih hwell.left hrun).step hwell hstep

/-- **The locks of a statement**: after the hook of the executor a backend holds a lock on each top index for
each time it has it open, whatever merges have been in progress in the meantime. -/
theorem held_of_reclaimed {acts : List (Action ι B)} (hwell : WellBehaved acts)
    (hrun : run step (build topIndexSize heap) acts = some s) {b : ι}
    (hr : reclaimed b acts = true) (a : Fin 2) : ((s.backends b).held a : ℤ) = opened b a acts := by
  obtain ⟨howned, hreleased⟩ := owns_run hwell hrun b
  rw [← howned a, Backend.owned, hreleased hr, List.count_nil, add_zero]

instance (pre : List (Action ι B)) : ∀ act, Decidable (Allowed pre act)
  | .closeIndex b a => inferInstanceAs (Decidable (0 < opened b a pre ∧ reclaimed b pre = true))
  | .abort b => inferInstanceAs (Decidable (reclaimed b pre = true))
  | .enter _ _ | .btinsert _ _ | .testMerge _ | .testInserts _ | .testSize _ _ _ | .leave _ | .startMerge
  | .openIndex _ _ | .executorFinish _ | .beginscan _ | .endscan _ | .waitLatch | .cancel | .resetLatch
  | .checkRequest | .first _ | .doinsert | .next _ | .truncate | .finish | .exit =>
    inferInstanceAs (Decidable True)

/-- A statement inserts a row before a merge begins and one during the merge, which releases a lock. -/
def releasing : List (Action Unit numberTrees) :=
  .openIndex () 0 :: .openIndex () 1 :: insertFirst 1 ++ .startMerge ::
    [.enter () (tuple 2), .btinsert () (tuple 2), .testMerge (), .leave ()]

/-- The insert during the merge releases the lock on the other top index, and the hook takes it again.  Then the
statement closes one of the indexes. -/
theorem held_of_reclaimed_releasing :
    ∃ s, run step emptyIndex (releasing ++ [.executorFinish (), .closeIndex () 0]) = some s ∧
      ((run step emptyIndex releasing).map fun t ↦ (t.backends ()).released) = some [0] ∧
      ((s.backends ()).held 0 : ℤ) = 0 ∧ ((s.backends ()).held 1 : ℤ) = 1 := by
  have hwell : WellBehaved (releasing ++ [.executorFinish (), .closeIndex () 0]) := wellBehaved_iff.mpr (by decide)
  exact exists_of_isSome rfl fun s hrun ↦
    ⟨rfl, held_of_reclaimed hwell hrun rfl 0, held_of_reclaimed hwell hrun rfl 1⟩

end State

end Lsm3

end ScratchStore
