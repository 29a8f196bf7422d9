import Mathlib.Data.Fintype.Basic
import ScratchStore.Lib.Runs
import ScratchStore.Lsm3.Scan

/-!
# The backends and the merger

Tuples go into the active top index.  When it is too large, or on demand, the top indexes are swapped, and
when the last insert into the one that is no longer active is over, a background worker puts its tuples
into the base index and truncates it.  All of this is controlled by an `Lsm3DictEntry` in shared memory,
whose members are written under a spinlock and in part read without it.

A step is a section of code under the spinlock, a read of one member outside of it, an access to one of
the B-trees, or a lock taken or released.  Between two of them the other processes may do anything.  An
action that has to wait, or whose process is somewhere else, is not possible: the result is `none`.

* `Lsm3DictEntry` is the shared memory, with what the sections of `lsm3_insert` do to it.
* `State` has the entry, the processes and the three B-trees, whose functions are those of an `NBTree`.
* `State.step` is one step, for each `Action`; `State.Does` says what it can do, and `State.step_cases`
  that it does nothing else.

An insert may fail between its two sections, in `index_open` or in `btinsert` say, and then it stays
counted (`Action.abort`).  The merger does not fail, and it is always possible to launch it.

## What is one step

* The sections of `lsm3_insert` and of `lsm3_start_merge` are under the spinlock, and each is one step, `enter`,
  `leave` and `startMerge`.  Between `enter` and `leave` an insert reads `merge_in_progress` and `n_inserts`
  without the lock, and these reads are steps of their own.
* The size of an index is asked of PostgreSQL, and the answer may be anything: it is an argument of `testSize`.
* Putting a tuple into a B-tree is one step, and so is reading its next tuple.  PostgreSQL locks pages, not
  trees, but an index that is inserted into is not merged, and what a scan sees of it is for `Lsm3.Scan` to
  say.
* The truncation is one step, as it is under `AccessExclusiveLock`, and it waits for the locks of statements and
  of scans.

The backends are those of any finite type `ι`, and a backend that has ended is one without an insert and without
locks.
-/

set_option autoImplicit false

namespace ScratchStore

namespace Lsm3

open PageScan Std

/-- `Lsm3DictEntry`.  `merger` tells whether it is not `NULL`; the indexes are numbered, so there are no
`Oid`s. -/
structure Lsm3DictEntry where
  accessCount : Fin 2 → ℕ
  activeIndex : Fin 2
  nMerges : UInt64
  nInserts : UInt64
  startMerge : Bool
  mergeInProgress : Bool
  merger : Bool
  topIndexSize : UInt32

/-- `lsm3_init_entry`, for the option `top_index_size` -/
def initEntry (topIndexSize : UInt32) : Lsm3DictEntry :=
  ⟨fun _ ↦ 0, 0, 0, 0, false, false, false, topIndexSize⟩

/-- `lsm3_get_entry`, when there is no entry: the larger top index is the active one. -/
def getEntry (topIndexSize : UInt32) (size : Fin 2 → ℕ) : Lsm3DictEntry :=
  { initEntry topIndexSize with activeIndex := if size 0 ≥ size 1 then 0 else 1 }

def lsm3CheckTopIndexSizePeriod : UInt64 := 64 * 1024

/-- `BLCKSZ/1024` -/
def blockKb : UInt32 := 8

namespace Lsm3DictEntry

variable (e : Lsm3DictEntry)

/-- The first section of `lsm3_insert`. -/
def enter : Lsm3DictEntry :=
  { e with accessCount := Function.update e.accessCount e.activeIndex (e.accessCount e.activeIndex + 1) }

/-- The top indexes are swapped and a merge begins. -/
def switch : Lsm3DictEntry :=
  { e with mergeInProgress := true, activeIndex := e.activeIndex ^^^ 1, nMerges := e.nMerges + 1 }

/-- Whether an insert that found `overflow` swaps the top indexes. -/
def switches (nMerges : UInt64) (overflow : Bool) : Bool :=
  overflow && !e.mergeInProgress && e.nMerges == nMerges

/-- The end of an insert into the top index `a`. -/
def leave (a : Fin 2) : Lsm3DictEntry :=
  { e with accessCount := Function.update e.accessCount a (e.accessCount a - 1), nInserts := e.nInserts + 1 }

end Lsm3DictEntry

variable {n : ℕ} {D : Fin n → Type} {sortKeys : SortKeys D}

/-- What is next in `lsm3_insert`: the tuple goes into the index, the three parts of `overflow` are read,
or the second section comes. -/
inductive Stage {n : ℕ} (D : Fin n → Type) where
  /-- `btinsert(index, values, isnull, …)` -/
  | btinsert (itup : IndexTuple D)
  /-- `!entry->merge_in_progress` -/
  | testMerge
  /-- `entry->n_inserts % LSM3_CHECK_TOP_INDEX_SIZE_PERIOD == 0` -/
  | testInserts
  /-- `RelationGetNumberOfBlocks(index) * (BLCKSZ/1024) > top_index_size` -/
  | testSize
  /-- The second section. -/
  | leave (overflow : Bool)

/-- A call of `lsm3_insert`, with its local variables. -/
structure Insert {n : ℕ} (D : Fin n → Type) where
  activeIndex : Fin 2
  nMerges : UInt64
  stage : Stage D

/-- A backend: the insert it is in, how often it holds a `RowExclusiveLock` on each top index, and
`Lsm3ReleasedLocks`. -/
structure Backend {n : ℕ} (D : Fin n → Type) where
  insert : Option (Insert D)
  held : Fin 2 → ℕ
  released : List (Fin 2)

/-- What is next in `lsm3_merger_main`: it waits for its latch, resets it and looks for a request; it
reads the first tuple of the index `src`, puts a tuple into the base index, reads the next one, truncates
`src` and ends the merge. -/
inductive Merger {n : ℕ} {D : Fin n → Type} {sortKeys : SortKeys D} (B : NBTree sortKeys) where
  /-- There is no worker. -/
  | absent
  /-- `WaitLatch` -/
  | waitLatch
  /-- `ResetLatch` -/
  | resetLatch
  /-- `if (entry->start_merge)` -/
  | checkRequest
  /-- `_bt_first` of the index `src` -/
  | first (src : Fin 2)
  /-- `_bt_doinsert` into the base index -/
  | doinsert (src : Fin 2) (pos : B.Pos)
  /-- `_bt_next` -/
  | next (src : Fin 2) (pos : B.Pos)
  /-- `lsm3_truncate_index` -/
  | truncate (src : Fin 2)
  /-- `entry->merge_in_progress = false` -/
  | finish (src : Fin 2)
  /-- The loop was left, and `entry->merger` is not `NULL` yet. -/
  | exit

variable {B : NBTree sortKeys}

/-- The top index that is being merged. -/
def Merger.source : Merger B → Option (Fin 2)
  | first src | doinsert src _ | next src _ | truncate src | finish src => some src
  | _ => none

/-- The processes, the three B-trees, `merger->procLatch` and the scans that hold an `AccessShareLock` on
the top indexes. -/
structure State (ι : Type) {n : ℕ} {D : Fin n → Type} {sortKeys : SortKeys D} (B : NBTree sortKeys) where
  entry : Lsm3DictEntry
  latch : Bool
  merger : Merger B
  backends : ι → Backend D
  index : Fin 3 → Index D
  scans : Finset ℕ

/-- A step of one of the processes: of a backend, in the order of `lsm3_insert`, or the end of its transaction
by an error, wherever it is; of a session that calls `lsm3_start_merge`; of the executor, which opens and
closes the indexes a statement writes to, and has the locks reclaimed before it closes them; of a scan; or
of the merger, which reads a page as the layout of its index has it. -/
inductive Action (ι : Type) {n : ℕ} {D : Fin n → Type} {sortKeys : SortKeys D} (B : NBTree sortKeys) where
  /-- The first section of `lsm3_insert`, for a row with this tuple. -/
  | enter (b : ι) (itup : IndexTuple D)
  /-- The tuple goes into the index. -/
  | btinsert (b : ι) (itup : IndexTuple D)
  /-- Is a merge in progress? -/
  | testMerge (b : ι)
  /-- Is it time to look at the size? -/
  | testInserts (b : ι)
  /-- Is the index too large?  It has so many blocks, and this is the limit of the configuration. -/
  | testSize (b : ι) (blocks lsm3TopIndexSize : UInt32)
  /-- The second section. -/
  | leave (b : ι)
  /-- An error ends the transaction. -/
  | abort (b : ι)
  /-- `lsm3_start_merge` -/
  | startMerge
  /-- A statement opens a top index. -/
  | openIndex (b : ι) (a : Fin 2)
  /-- `lsm3_executor_finish` -/
  | executorFinish (b : ι)
  /-- A statement closes a top index. -/
  | closeIndex (b : ι) (a : Fin 2)
  /-- A scan opens the top indexes. -/
  | beginscan (k : ℕ)
  /-- And closes them. -/
  | endscan (k : ℕ)
  /-- The worker wakes up. -/
  | waitLatch
  /-- The worker finds that it was cancelled. -/
  | cancel
  /-- It resets its latch. -/
  | resetLatch
  /-- It looks for a request. -/
  | checkRequest
  /-- It reads the first tuple. -/
  | first (layout : B.Layout)
  /-- It puts a tuple into the base index. -/
  | doinsert
  /-- It reads the next tuple. -/
  | next (layout : B.Layout)
  /-- It truncates its index. -/
  | truncate
  /-- The merge has ended. -/
  | finish
  /-- The worker is gone. -/
  | exit

namespace State

variable {ι : Type} [DecidableEq ι]

section Sections

variable (s : State ι B)

/-- The backend `b` in another state. -/
def setBackend (b : ι) (x : Backend D) : State ι B := { s with backends := Function.update s.backends b x }

/-- The backend `b` at another stage of its insert. -/
def setInsert (b : ι) (insert : Option (Insert D)) : State ι B :=
  s.setBackend b { s.backends b with insert := insert }

/-- The index `i` with other tuples. -/
def setIndex (i : Fin 3) (index : Index D) : State ι B := { s with index := Function.update s.index i index }

/-- Lazy start of the background worker, and `SetLatch`. -/
def wake : State ι B :=
  if s.entry.merger then { s with latch := true }
  else { s with entry := { s.entry with merger := true }, merger := .waitLatch, latch := true }

/-- `start_merge` is set once nobody inserts into the top index that is not active. -/
def requestMerge : State ι B := { s with entry := { s.entry with startMerge := true } }.wake

/-- A lock on the top index `a` that is held is released, and will be reclaimed. -/
def releaseLock (b : ι) (a : Fin 2) : State ι B :=
  if (s.backends b).held a = 0 then s
  else
    s.setBackend b
      { s.backends b with
        held := Function.update (s.backends b).held a ((s.backends b).held a - 1)
        released := (s.backends b).released ++ [a] }

/-- The end of the second section of `lsm3_insert`, for an insert into the top index `a`. -/
def duringMerge (b : ι) (a : Fin 2) : State ι B :=
  if s.entry.mergeInProgress then
    let s := s.releaseLock b (1 - a)
    -- the last insert into the index that is not active any more
    if s.entry.activeIndex ≠ a ∧ s.entry.accessCount a = 0 then s.requestMerge else s
  else s

/-- The second section of `lsm3_insert`, for the local variables of the call. -/
def leaveSection (b : ι) (ins : Insert D) (overflow : Bool) : State ι B :=
  let e := if s.entry.switches ins.nMerges overflow then s.entry.switch else s.entry
  { s with entry := e.leave ins.activeIndex }.duringMerge b ins.activeIndex

/-- The section of `lsm3_start_merge`. -/
def startMergeSection : State ι B :=
  if s.entry.mergeInProgress then s
  else
    let s := { s with entry := s.entry.switch }
    if s.entry.accessCount (1 - s.entry.activeIndex) = 0 then s.requestMerge else s

/-- The merger after `_bt_first` or `_bt_next` of the index it merges. -/
def merging (src : Fin 2) : Option B.Pos → State ι B
  | none => { s with merger := .truncate src }
  | some pos => { s with merger := .doinsert src pos }

end Sections

variable [Fintype ι] (s : State ι B)

/-- One step.  An error ends a transaction, which gives up its locks; `access_count` and `Lsm3ReleasedLocks`
stay as they are. -/
def step : Action ι B → Option (State ι B)
  | .enter b itup =>
    match (s.backends b).insert with
    | none =>
      some ({ s with entry := s.entry.enter }.setInsert b
        (some ⟨s.entry.activeIndex, s.entry.nMerges, .btinsert itup⟩))
    | some _ => none
  | .btinsert b itup =>
    match (s.backends b).insert with
    | some ⟨a, m, .btinsert itup'⟩ =>
      if compareIndexTuples sortKeys itup itup' = .eq then
        some ((s.setIndex (top a) (B.btinsert itup (s.index (top a)))).setInsert b
          (some ⟨a, m, .testMerge⟩))
      else none
    | _ => none
  | .testMerge b =>
    match (s.backends b).insert with
    | some ⟨a, m, .testMerge⟩ =>
      some (s.setInsert b (some ⟨a, m, if s.entry.mergeInProgress then .leave false else .testInserts⟩))
    | _ => none
  | .testInserts b =>
    match (s.backends b).insert with
    | some ⟨a, m, .testInserts⟩ =>
      some (s.setInsert b
        (some ⟨a, m, if s.entry.nInserts % lsm3CheckTopIndexSizePeriod = 0 then .testSize
          else .leave false⟩))
    | _ => none
  | .testSize b blocks lsm3TopIndexSize =>
    match (s.backends b).insert with
    | some ⟨a, m, .testSize⟩ =>
      let topIndexSize := if s.entry.topIndexSize ≠ 0 then s.entry.topIndexSize else lsm3TopIndexSize
      some (s.setInsert b (some ⟨a, m, .leave (blocks * blockKb > topIndexSize)⟩))
    | _ => none
  | .leave b =>
    match (s.backends b).insert with
    | some ⟨a, m, .leave overflow⟩ =>
      some ((s.setInsert b none).leaveSection b ⟨a, m, .leave overflow⟩ overflow)
    | _ => none
  | .abort b => some (s.setBackend b { s.backends b with insert := none, held := fun _ ↦ 0 })
  | .startMerge => some s.startMergeSection
  | .openIndex b a =>
    some (s.setBackend b
      { s.backends b with held := Function.update (s.backends b).held a ((s.backends b).held a + 1) })
  | .executorFinish b =>
    some (s.setBackend b
      { s.backends b with
        held := fun a ↦ (s.backends b).held a + (s.backends b).released.count a
        released := [] })
  | .closeIndex b a =>
    some (s.setBackend b
      { s.backends b with held := Function.update (s.backends b).held a ((s.backends b).held a - 1) })
  | .beginscan k => if k ∈ s.scans then none else some { s with scans := insert k s.scans }
  | .endscan k => if k ∈ s.scans then some { s with scans := s.scans.erase k } else none
  | .waitLatch =>
    match s.merger with
    | .waitLatch => if s.latch then some { s with merger := .resetLatch } else none
    | _ => none
  | .cancel =>
    match s.merger with
    | .waitLatch => some { s with merger := .exit }
    | _ => none
  | .resetLatch =>
    match s.merger with
    | .resetLatch => some { s with merger := .checkRequest, latch := false }
    | _ => none
  | .checkRequest =>
    match s.merger with
    | .checkRequest =>
      some (if s.entry.startMerge then
        { s with merger := .first (1 - s.entry.activeIndex), entry := { s.entry with startMerge := false } }
        else { s with merger := .waitLatch })
    | _ => none
  | .first layout =>
    match s.merger with
    | .first src =>
      some (s.merging src (B.first .forward (fun _ ↦ true) (still (s.index (top src)) layout)))
    | _ => none
  | .doinsert =>
    match s.merger with
    | .doinsert src pos =>
      some { s.setIndex base (B.doinsert (B.item pos) (s.index base)) with merger := .next src pos }
    | _ => none
  | .next layout =>
    match s.merger with
    | .next src pos =>
      some (s.merging src (B.next .forward (fun _ ↦ true) (still (s.index (top src)) layout) pos))
    | _ => none
  | .truncate =>
    match s.merger with
    | .truncate src =>
      -- `AccessExclusiveLock`
      if (∀ b, (s.backends b).held src = 0) ∧ s.scans = ∅ then
        some { s.setIndex (top src) [] with merger := .finish src }
      else none
    | _ => none
  | .finish =>
    match s.merger with
    | .finish _ => some { s with merger := .waitLatch, entry := { s.entry with mergeInProgress := false } }
    | _ => none
  | .exit =>
    match s.merger with
    | .exit => some { s with merger := .absent, entry := { s.entry with merger := false } }
    | _ => none

/-- What a step can do. -/
inductive Does : Action ι B → State ι B → Prop
  | enter {b : ι} {itup : IndexTuple D} (h : (s.backends b).insert = none) :
      Does (.enter b itup) ({ s with entry := s.entry.enter }.setInsert b
        (some ⟨s.entry.activeIndex, s.entry.nMerges, .btinsert itup⟩))
  | btinsert {b : ι} {itup : IndexTuple D} {a : Fin 2} {m : UInt64}
      (h : (s.backends b).insert = some ⟨a, m, .btinsert itup⟩) :
      Does (.btinsert b itup) ((s.setIndex (top a) (B.btinsert itup (s.index (top a)))).setInsert b
        (some ⟨a, m, .testMerge⟩))
  | testMerge {b : ι} {a : Fin 2} {m : UInt64} (h : (s.backends b).insert = some ⟨a, m, .testMerge⟩)
      (stage : Stage D) : Does (.testMerge b) (s.setInsert b (some ⟨a, m, stage⟩))
  | testInserts {b : ι} {a : Fin 2} {m : UInt64} (h : (s.backends b).insert = some ⟨a, m, .testInserts⟩)
      (stage : Stage D) : Does (.testInserts b) (s.setInsert b (some ⟨a, m, stage⟩))
  | testSize {b : ι} {a : Fin 2} {m : UInt64} {blocks size : UInt32}
      (h : (s.backends b).insert = some ⟨a, m, .testSize⟩) (overflow : Bool) :
      Does (.testSize b blocks size) (s.setInsert b (some ⟨a, m, .leave overflow⟩))
  | leave {b : ι} {a : Fin 2} {m : UInt64} {overflow : Bool}
      (h : (s.backends b).insert = some ⟨a, m, .leave overflow⟩) :
      Does (.leave b) ((s.setInsert b none).leaveSection b ⟨a, m, .leave overflow⟩ overflow)
  | abort (b : ι) : Does (.abort b) (s.setBackend b { s.backends b with insert := none, held := fun _ ↦ 0 })
  | startMerge : Does .startMerge s.startMergeSection
  | openIndex (b : ι) (a : Fin 2) : Does (.openIndex b a) (s.setBackend b
      { s.backends b with held := Function.update (s.backends b).held a ((s.backends b).held a + 1) })
  | executorFinish (b : ι) : Does (.executorFinish b) (s.setBackend b
      { s.backends b with
        held := fun a ↦ (s.backends b).held a + (s.backends b).released.count a
        released := [] })
  | closeIndex (b : ι) (a : Fin 2) : Does (.closeIndex b a) (s.setBackend b
      { s.backends b with held := Function.update (s.backends b).held a ((s.backends b).held a - 1) })
  | beginscan {k : ℕ} (h : k ∉ s.scans) : Does (.beginscan k) { s with scans := insert k s.scans }
  | endscan {k : ℕ} (h : k ∈ s.scans) : Does (.endscan k) { s with scans := s.scans.erase k }
  | waitLatch (h : s.merger = .waitLatch) (hl : s.latch = true) :
      Does .waitLatch { s with merger := .resetLatch }
  | cancel (h : s.merger = .waitLatch) : Does .cancel { s with merger := .exit }
  | resetLatch (h : s.merger = .resetLatch) :
      Does .resetLatch { s with merger := .checkRequest, latch := false }
  | request (h : s.merger = .checkRequest) (hs : s.entry.startMerge = true) :
      Does .checkRequest { s with
        merger := .first (1 - s.entry.activeIndex)
        entry := { s.entry with startMerge := false } }
  | noRequest (h : s.merger = .checkRequest) (hs : s.entry.startMerge = false) :
      Does .checkRequest { s with merger := .waitLatch }
  | first {src : Fin 2} (h : s.merger = .first src) (layout : B.Layout) :
      Does (.first layout) (s.merging src (B.first .forward (fun _ ↦ true)
        (still (s.index (top src)) layout)))
  | doinsert {src : Fin 2} {pos : B.Pos} (h : s.merger = .doinsert src pos) :
      Does .doinsert { s.setIndex base (B.doinsert (B.item pos) (s.index base)) with merger := .next src pos }
  | next {src : Fin 2} {pos : B.Pos} (h : s.merger = .next src pos) (layout : B.Layout) :
      Does (.next layout) (s.merging src (B.next .forward (fun _ ↦ true)
        (still (s.index (top src)) layout) pos))
  | truncate {src : Fin 2} (h : s.merger = .truncate src) (hheld : ∀ b, (s.backends b).held src = 0)
      (hscans : s.scans = ∅) : Does .truncate { s.setIndex (top src) [] with merger := .finish src }
  | finish {src : Fin 2} (h : s.merger = .finish src) :
      Does .finish { s with merger := .waitLatch, entry := { s.entry with mergeInProgress := false } }
  | exit (h : s.merger = .exit) :
      Does .exit { s with merger := .absent, entry := { s.entry with merger := false } }

variable {s}

theorem step_cases {s' : State ι B} {act : Action ι B} (h : s.step act = some s') : s.Does act s' := by
  cases act with
  | abort b =>
    obtain rfl := Option.some.inj h
    exact .abort b
  | startMerge =>
    obtain rfl := Option.some.inj h
    exact .startMerge
  | openIndex b a =>
    obtain rfl := Option.some.inj h
    exact .openIndex b a
  | executorFinish b =>
    obtain rfl := Option.some.inj h
    exact .executorFinish b
  | closeIndex b a =>
    obtain rfl := Option.some.inj h
    exact .closeIndex b a
  | enter b itup =>
    simp only [step] at h
    split at h
    · obtain rfl := Option.some.inj h
      exact .enter ‹_›
    · contradiction
  | btinsert b itup =>
    simp only [step] at h
    split at h
    · next hb =>
      split at h
      · next heq =>
        obtain rfl := Option.some.inj h
        obtain rfl := LawfulEqCmp.eq_of_compare heq
        exact .btinsert hb
      · contradiction
    · contradiction
  | testMerge b =>
    simp only [step] at h
    split at h
    · obtain rfl := Option.some.inj h
      exact .testMerge ‹_› _
    · contradiction
  | testInserts b =>
    simp only [step] at h
    split at h
    · obtain rfl := Option.some.inj h
      exact .testInserts ‹_› _
    · contradiction
  | testSize b blocks size =>
    simp only [step] at h
    split at h
    · obtain rfl := Option.some.inj h
      exact .testSize ‹_› _
    · contradiction
  | leave b =>
    simp only [step] at h
    split at h
    · obtain rfl := Option.some.inj h
      exact .leave ‹_›
    · contradiction
  | beginscan k =>
    simp only [step] at h
    split at h
    · contradiction
    · obtain rfl := Option.some.inj h
      exact .beginscan ‹_›
  | endscan k =>
    simp only [step] at h
    split at h
    · obtain rfl := Option.some.inj h
      exact .endscan ‹_›
    · contradiction
  | waitLatch =>
    simp only [step] at h
    split at h
    · split at h
      · obtain rfl := Option.some.inj h
        exact .waitLatch ‹_› ‹_›
      · contradiction
    · contradiction
  | cancel =>
    simp only [step] at h
    split at h
    · obtain rfl := Option.some.inj h
      exact .cancel ‹_›
    · contradiction
  | resetLatch =>
    simp only [step] at h
    split at h
    · obtain rfl := Option.some.inj h
      exact .resetLatch ‹_›
    · contradiction
  | checkRequest =>
    simp only [step] at h
    split at h
    · split at h
      · obtain rfl := Option.some.inj h
        exact .request ‹_› ‹_›
      · obtain rfl := Option.some.inj h
        exact .noRequest ‹_› (Bool.eq_false_iff.mpr ‹_›)
    · contradiction
  | first layout =>
    simp only [step] at h
    split at h
    · obtain rfl := Option.some.inj h
      exact .first ‹_› layout
    · contradiction
  | doinsert =>
    simp only [step] at h
    split at h
    · obtain rfl := Option.some.inj h
      exact .doinsert ‹_›
    · contradiction
  | next layout =>
    simp only [step] at h
    split at h
    · obtain rfl := Option.some.inj h
      exact .next ‹_› layout
    · contradiction
  | truncate =>
    simp only [step] at h
    split at h
    · split at h
      · next hfree =>
        obtain rfl := Option.some.inj h
        exact .truncate ‹_› hfree.1 hfree.2
      · contradiction
    · contradiction
  | finish =>
    simp only [step] at h
    split at h
    · obtain rfl := Option.some.inj h
      exact .finish ‹_›
    · contradiction
  | exit =>
    simp only [step] at h
    split at h
    · obtain rfl := Option.some.inj h
      exact .exit ‹_›
    · contradiction

end State

end Lsm3

end ScratchStore
