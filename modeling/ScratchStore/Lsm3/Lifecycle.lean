import ScratchStore.Lsm3.Contents

/-!
# The life of an index

An index is built from the rows that are there, with empty top indexes, and then inserts and merges go on
for as long as the server runs.  When it is restarted the shared memory is gone, and with it the number of
the active index, the access counts and whether there was a merge; the merger and the backends are gone
too, whatever they were doing.  What the B-trees hold is still there.

* `Event`s are steps and restarts, and a life is any list of them, from `State.build` on.
* `State.control_live`: the assertions of `lsm3_insert` hold, and nobody inserts into the index that is
  merged.
* `State.holds_live`: the indexes hold what was there and what was inserted.  Nothing is ever removed from
  an index here but by a merge; rows that are dead keep their tuples.

A restart may come at any time, in the middle of an insert or of a merge.  The entry is made anew when it is
first used, and what it takes for the active index is the larger one, since that is all it can see.  So
after a restart both top indexes may have tuples, or the base index some of those that a top index has.
`control_live` and `holds_live` are true all the same, and what needs more of a restart says so
(`CleanEvent` and `TidyEvent` in the modules that follow).
-/

set_option autoImplicit false

namespace ScratchStore

namespace Lsm3

open Runs Std

variable {n : ℕ} {D : Fin n → Type} {sortKeys : SortKeys D} {B : NBTree sortKeys} {ι : Type}

/-- A step, or a restart, after which `lsm3_get_entry` finds the top indexes to be of some size. -/
inductive Event (ι : Type) {n : ℕ} {D : Fin n → Type} {sortKeys : SortKeys D} (B : NBTree sortKeys) where
  | step (act : Action ι B)
  | restart (topIndexSize : UInt32) (size : Fin 2 → ℕ)

/-- B-trees of numbers. -/
abbrev numberTrees : NBTree (SortKeys.ofOrd fun _ : Fin 1 ↦ ℕ) := .byItem _

/-- A tuple of such a B-tree. -/
def tuple (k : ℕ) : IndexTuple (fun _ : Fin 1 ↦ ℕ) := ⟨fun _ ↦ some k, ⟨0, k⟩⟩

instance : DecidableEq (IndexTuple fun _ : Fin 1 ↦ ℕ) := fun a b ↦
  decidable_of_iff (compareIndexTuples (SortKeys.ofOrd fun _ : Fin 1 ↦ ℕ) a b = .eq)
    ⟨LawfulEqCmp.eq_of_compare, fun h ↦ h ▸ ReflCmp.compare_self⟩

/-- The tuple that an event inserts. -/
def Event.inserted : Event ι B → Option (IndexTuple D)
  | .step act => act.inserted
  | .restart _ _ => none

/-- A backend before its first statement. -/
def Backend.start : Backend D := ⟨none, fun _ ↦ 0, []⟩

namespace State

/-- `lsm3_build`: all the rows of the heap are in the base index, and `lsm3_build_empty` leaves nothing in
the others. -/
def build (topIndexSize : UInt32) (heap : List (IndexTuple D)) : State ι B where
  entry := initEntry topIndexSize
  latch := false
  merger := .absent
  backends _ := .start
  index := Function.update (fun _ ↦ []) base (B.btbuild heap)
  scans := ∅

/-- The state after a restart. -/
def restart (topIndexSize : UInt32) (size : Fin 2 → ℕ) (s : State ι B) : State ι B where
  entry := getEntry topIndexSize size
  latch := false
  merger := .absent
  backends _ := .start
  index := s.index
  scans := ∅

variable [Fintype ι] [DecidableEq ι]

/-- One event. -/
def live (s : State ι B) : Event ι B → Option (State ι B)
  | .step act => s.step act
  | .restart topIndexSize size => some (s.restart topIndexSize size)

/-- Every insert is of a new tuple. -/
def FreshEvent (s : State ι B) (event : Event ι B) : Prop := ∀ itup ∈ event.inserted, ¬s.Holds itup

variable {topIndexSize : UInt32} {heap : List (IndexTuple D)} {s s' : State ι B}

omit [Fintype ι] [DecidableEq ι] in
theorem index_build (i : Fin 3) : (build topIndexSize heap : State ι B).index i =
    if i = base then B.btbuild heap else [] := by
  simp only [build, Function.update_apply]

omit [DecidableEq ι] in
theorem Control.start {e : Lsm3DictEntry} (hs : e.startMerge = false) (hm : e.mergeInProgress = false)
    (hmerger : e.merger = false) (index : Fin 3 → Index D) :
    ({ entry := e, latch := false, merger := .absent, backends := fun _ ↦ .start, index := index,
       scans := ∅ } : State ι B).Control := by
  have hpins : ∀ b : ι, ∀ pin, (Backend.start : Backend D).insert.map Insert.pin ≠ some pin := fun _ _ ↦ by
    simp [Backend.start]
  refine ⟨⟨fun a ↦ ?_, fun b a m hb ↦ absurd hb (hpins b _), fun _ hsrc ↦ (nomatch hsrc), fun hr ↦ ?_, ?_⟩,
    fun hm' ↦ ?_⟩
  · exact (accesses_eq_zero.mpr fun b m ↦ hpins b _).trans_le (Nat.zero_le _)
  · exact absurd (hs.symm.trans hr) (by simp)
  · simp [hmerger]
  · exact absurd (hm.symm.trans hm') (by simp)

omit [DecidableEq ι] in
theorem Control.build : (build topIndexSize heap : State ι B).Control :=
  Control.start rfl rfl rfl _

omit [DecidableEq ι] in
theorem Control.restart (size : Fin 2 → ℕ) : (s.restart topIndexSize size).Control :=
  Control.start rfl rfl rfl _

theorem Control.live (h : s.Control) {event : Event ι B} (hlive : s.live event = some s') :
    s'.Control := by
  cases event with
  | step act => exact h.step hlive
  | restart size =>
    obtain rfl := Option.some.inj hlive
    exact Control.restart _

omit [Fintype ι] [DecidableEq ι] in
theorem Placed.build : (build topIndexSize heap : State ι B).Placed := by
  refine ⟨fun i ↦ ?_, trivial⟩
  rw [index_build]
  split
  · exact B.ordered_btbuild heap
  · exact .nil

theorem Placed.live (hcontrol : s.Control) (h : s.Placed) {event : Event ι B} (hlive : s.live event = some s') :
    s'.Placed := by
  cases event with
  | step act => exact h.step hcontrol hlive
  | restart size =>
    obtain rfl := Option.some.inj hlive
    exact h.frame rfl (Or.inr rfl)

omit [Fintype ι] [DecidableEq ι] in
theorem Contents.build : (build topIndexSize heap : State ι B).Contents := by
  refine ⟨Placed.build, fun a ↦ ?_, fun _ hsrc ↦ (nomatch hsrc)⟩
  rw [index_build, if_neg (top_ne_base a)]
  exact List.nodup_nil

omit [Fintype ι] [DecidableEq ι] in
theorem Contents.restart (h : s.Contents) (size : Fin 2 → ℕ) :
    (s.restart topIndexSize size).Contents := h.frame rfl (Or.inr rfl)

theorem Contents.live (hcontrol : s.Control) (h : s.Contents) {event : Event ι B}
    (hfresh : FreshEvent s event) (hlive : s.live event = some s') : s'.Contents := by
  cases event with
  | step act => exact h.step hcontrol hfresh hlive
  | restart size =>
    obtain rfl := Option.some.inj hlive
    exact h.restart _

omit [Fintype ι] [DecidableEq ι] in
theorem holds_build (x : IndexTuple D) : (build topIndexSize heap : State ι B).Holds x ↔ x ∈ heap := by
  rw [Holds, ← (B.perm_btbuild heap).mem_iff]
  constructor
  · rintro ⟨i, hi⟩
    rw [index_build] at hi
    split at hi
    · exact hi
    · exact absurd hi List.not_mem_nil
  · intro hx
    exact ⟨base, by rwa [index_build, if_pos rfl]⟩

/-! ## B-trees to compute with -/

/-- An index of an empty table, with one column. -/
abbrev emptyIndex : State Unit numberTrees := build 0 []

instance [DecidableEq (IndexTuple D)] (s : State ι B) (x : IndexTuple D) : Decidable (s.Holds x) :=
  inferInstanceAs (Decidable (∃ i, x ∈ s.index i))

instance [DecidableEq (IndexTuple D)] : ∀ (s : State ι B) (event : Event ι B), Decidable (FreshEvent s event) :=
  fun s event ↦ inferInstanceAs (Decidable (∀ itup ∈ event.inserted, ¬s.Holds itup))

/-- The first insert since the server was started. -/
def insertFirst (k : ℕ) : List (Action Unit numberTrees) :=
  [.enter () (tuple k), .btinsert () (tuple k), .testMerge (), .testInserts (), .testSize () 0 0, .leave ()]

/-- Another insert. -/
def insertNext (k : ℕ) : List (Action Unit numberTrees) :=
  [.enter () (tuple k), .btinsert () (tuple k), .testMerge (), .testInserts (), .leave ()]

/-- The merger puts the first tuple of a top index into the base index. -/
def mergeBegins : List (Action Unit numberTrees) :=
  [.waitLatch, .resetLatch, .checkRequest, .first (), .doinsert]

/-- It was the only one. -/
def mergeEnds : List (Action Unit numberTrees) := [.next (), .truncate, .finish]

/-! ## What is true in every life

`Control` is about the entry and the processes and needs nothing of the indexes, so it comes first. -/

/-- The assertions of `lsm3_insert` hold whenever they are reached, and while the merger is at a top index,
from its first page to the end of the merge, this is not the active one and no insert that is under way is
counted for it. -/
structure Safe (s : State ι B) : Prop where
  /-- The two assertions in the second section. -/
  asserts : ∀ b ins overflow, (s.backends b).insert = some ins → ins.stage = .leave overflow →
    (s.entry.switches ins.nMerges overflow = true → s.entry.activeIndex = ins.activeIndex) ∧
      0 < s.entry.accessCount ins.activeIndex
  /-- The index that is merged is left alone by inserts. -/
  excluded : ∀ src, s.merger.source = some src → s.entry.mergeInProgress = true ∧
    src ≠ s.entry.activeIndex ∧ ∀ b ins, (s.backends b).insert = some ins → ins.activeIndex ≠ src

/-- **What the control structure guarantees**, in any life of an index: any number of backends, in any order of
steps, with inserts that fail, merges that are cancelled, and restarts.  It asks nothing of the B-trees, since
only the entry in shared memory and the places of the processes matter. -/
theorem control_live {events : List (Event ι B)}
    (hrun : run live (build topIndexSize heap) events = some s) : s.Safe := by
  have hlive : ∀ (s : State ι B) event s', s.Control → live s event = some s' → s'.Control :=
    fun _ _ _ h ↦ h.live
  have h : s.Control := run_invariant hlive Control.build hrun
  refine ⟨fun b ins overflow hb _ ↦ ?_, fun src hsrc ↦ ?_⟩
  · have hpin : s.pins b = some (ins.activeIndex, ins.nMerges) := by rw [pins, hb]; rfl
    exact h.asserts hpin overflow
  · obtain ⟨hm, hs, -, -⟩ := h.merging src hsrc
    exact ⟨hm, hs ▸ one_sub_ne _, fun b ins hb ↦ (h.ne_source hb hsrc).symm⟩

/-- An insert comes to its second section while the merger is in the other top index. -/
def insertDuringMerge : List (Action Unit numberTrees) :=
  insertFirst 1 ++ .startMerge :: mergeBegins ++ [.enter () (tuple 2), .btinsert () (tuple 2), .testMerge ()]

/-- The insert is in its second section, and the merger is at the tuple of the other top index. -/
theorem control_live_insertDuringMerge : ∃ s, run live emptyIndex (insertDuringMerge.map .step) = some s ∧
    ((s.backends ()).insert = some ⟨1, 1, .leave false⟩ ∧ s.merger = .next 0 (tuple 1)) ∧ s.Safe := by
  refine exists_of_isSome rfl fun s hrun ↦ ⟨?_, control_live hrun⟩
  obtain rfl := Option.some.inj hrun
  exact ⟨rfl, rfl⟩

/-- What a life adds to the indexes. -/
theorem holds_run {events : List (Event ι B)} (hcontrol : s.Control) (hcontents : s.Contents)
    (hfresh : Along live FreshEvent s events) (hrun : run live s events = some s') (x : IndexTuple D) :
    s'.Holds x ↔ s.Holds x ∨ x ∈ events.filterMap Event.inserted := by
  induction events generalizing s with
  | nil =>
    obtain rfl := Option.some.inj hrun
    simp
  | cons event events ih =>
    obtain ⟨s₁, hlive, hrun⟩ := run_cons_eq_some.mp hrun
    have hrest := ih (hcontrol.live hlive) (hcontents.live hcontrol hfresh.1 hlive) (hfresh.2 s₁ hlive) hrun
    have hstep : s₁.Holds x ↔ s.Holds x ∨ event.inserted = some x := by
      cases event with
      | step act => exact Changes.holds (hcontents.changes hlive) x
      | restart size =>
        obtain rfl := Option.some.inj hlive
        simp [Event.inserted, Holds, State.restart]
    refine hrest.trans ?_
    rw [hstep, or_assoc]
    refine or_congr_right ?_
    cases hins : event.inserted with
    | none => simp [hins]
    | some y => simp [hins, eq_comm]

/-- **No tuple is lost or made up**, however inserts, merges and restarts are interleaved: the indexes
together hold the rows they were built from and what was inserted.

A row that is inserted is a new one, which is what PostgreSQL's heap sees to: the row pointer is part of the
tuple. -/
theorem holds_live {events : List (Event ι B)}
    (hfresh : Along live FreshEvent (build topIndexSize heap) events)
    (hrun : run live (build topIndexSize heap) events = some s) (x : IndexTuple D) :
    s.Holds x ↔ x ∈ heap ∨ x ∈ events.filterMap Event.inserted := by
  rw [holds_run Control.build Contents.build hfresh hrun, holds_build]

/-- A merge, and a restart in the middle of the next one. -/
def twoMerges : List (Event Unit numberTrees) :=
  (insertFirst 1 ++ .startMerge :: mergeBegins ++ mergeEnds ++ insertNext 2 ++ .startMerge :: mergeBegins).map
    .step ++ .restart 0 ![0, 1] :: (insertFirst 3).map .step

/-- The restart finds a tuple in a top index and the same one in the base index. -/
theorem holds_live_twoMerges : ∃ s, run live emptyIndex twoMerges = some s ∧
    ∀ x, s.Holds x ↔ x ∈ [] ∨ x ∈ twoMerges.filterMap Event.inserted :=
  exists_of_isSome rfl fun _ hrun ↦ holds_live (by decide) hrun

end State

end Lsm3

end ScratchStore
