import ScratchStore.Lsm3.Merges

/-!
# Merges come to their end

When a merge is in progress, the inserts into its index that are under way end, the last of them asks the
merger for the merge, the merger wakes up, goes through the index, and truncates it as soon as nobody has a
lock on it.

There are two ways in which this fails.  The worker may be cancelled while it is asked for the merge: then
nobody asks again (`State.Lost`).  And an insert that has failed stays counted, so when it was into the index
that is to be merged, no insert is the last one (`State.Blocked`).

* `State.failed_step`: nothing but a failure makes the inserts more that have failed, and nothing makes
  them less.
* `State.reaches_asked`, `State.reaches_first` and `State.reaches_truncate` are the way of a merge up to the
  end of its index, and `State.reaches_unlocked` and `State.reaches_released` the ways in which the locks on
  it go away.
* `State.lost_run` and `State.blocked_run`: a merge of the one or the other kind is in progress until the
  server is restarted.
* `State.merge_ends_iff`: every other one can be completed, by what goes on already;
  `State.merge_ends_during_statements`: or by inserts alone, when there are no scans.

## How it is proved

"Can be completed" is an existence statement: there are steps, and none of them is a new scan, a new
statement or a new merge.  Nothing is assumed about when they are taken, so this is not a theorem about
fairness; it says that no process is stuck for good.

The steps are found one after the other, and `State.Merging` is what is kept meanwhile.

1. Each insert that is under way takes its next step (`exists_step_insert`, by `Stage.rank`), and the last one
   into the index that is merged asks the merger (`reaches_asked`).
2. The merger wakes up and goes through its index, and that this comes to an end is a property of the scans of a
   B-tree that does not change (`NBTree.scan_ends`).
3. Scans and statements end, or statements insert one row more for each lock they hold, and the index is
   truncated.

The other direction of `merge_ends_iff` is that neither `Lost` nor `Blocked` goes away.
-/

set_option autoImplicit false

namespace ScratchStore

namespace Lsm3

open PageScan Runs

variable {n : ℕ} {D : Fin n → Type} {sortKeys : SortKeys D} {B : NBTree sortKeys} {ι : Type}

/-- The steps of inserts that are under way, and of the merger unless it is cancelled. -/
def Action.GoesOn : Action ι B → Prop
  | .enter _ _ | .abort _ | .startMerge | .openIndex _ _ | .executorFinish _ | .closeIndex _ _ | .beginscan _
  | .endscan _ | .cancel => False
  | _ => True

/-- Besides, scans are ended and statements close the indexes they write to. -/
def Action.Ends : Action ι B → Prop
  | .closeIndex _ _ | .endscan _ => True
  | act => act.GoesOn

/-- Besides, statements go on and insert more rows. -/
def Action.Inserts : Action ι B → Prop
  | .enter _ _ => True
  | act => act.GoesOn

theorem Action.GoesOn.ends {act : Action ι B} (h : act.GoesOn) : act.Ends := by
  cases act <;> trivial

theorem Action.GoesOn.inserts {act : Action ι B} (h : act.GoesOn) : act.Inserts := by
  cases act <;> trivial

/-- How much of an insert there is still to come. -/
def Stage.rank : Stage D → ℕ
  | .btinsert _ => 4
  | .testMerge => 3
  | .testInserts => 2
  | .testSize => 1
  | .leave _ => 0

namespace State

/-- The worker does not know that it was asked for a merge, and nobody will ask again. -/
def Lost (s : State ι B) : Prop :=
  s.entry.mergeInProgress = true ∧ s.entry.startMerge = true ∧ (s.merger = .exit ∨ s.merger = .absent)

/-- The inserts into the top index `a` that have failed: they are still counted. -/
def failed [Fintype ι] (s : State ι B) (a : Fin 2) : ℕ := s.entry.accessCount a - accesses s.pins a

/-- A merge waits for an insert that has failed. -/
def Blocked [Fintype ι] (s : State ι B) : Prop :=
  s.entry.mergeInProgress = true ∧ s.failed (1 - s.entry.activeIndex) ≠ 0

/-- An insert that is counted. -/
theorem exists_insert [Fintype ι] {s : State ι B} {a : Fin 2} (hfailed : s.failed a = 0)
    (hcount : s.entry.accessCount a ≠ 0) : ∃ b ins, (s.backends b).insert = some ins ∧ ins.activeIndex = a := by
  by_contra hnone
  have hzero : accesses s.pins a = 0 := accesses_eq_zero.mpr fun b m hb ↦ hnone ?_
  · rw [failed, hzero, Nat.sub_zero] at hfailed
    exact hcount hfailed
  obtain ⟨ins, hins, hpin⟩ := Option.map_eq_some_iff.mp hb
  exact ⟨b, ins, hins, congrArg Prod.fst hpin⟩

variable [DecidableEq ι] {s s' : State ι B}

theorem setInsert_setInsert (s : State ι B) (b : ι) (x y : Option (Insert D)) :
    (s.setInsert b x).setInsert b y = s.setInsert b y := by
  simp [setInsert, setBackend]

/-- An insert into the top index `a` at its end, when a merge is in progress. -/
def ended (s : State ι B) (b : ι) (a : Fin 2) : State ι B :=
  { s.setInsert b none with entry := s.entry.leave a }.duringMerge b a

theorem leaveSection_eq_ended (hm : s.entry.mergeInProgress = true) (b : ι) (ins : Insert D)
    (overflow : Bool) : (s.setInsert b none).leaveSection b ins overflow = s.ended b ins.activeIndex := by
  have hswitches : (s.setInsert b none).entry.switches ins.nMerges overflow = false := by
    rw [Lsm3DictEntry.switches, show (s.setInsert b none).entry.mergeInProgress = true from hm]
    simp
  rw [leaveSection, hswitches]
  rfl

variable [Fintype ι]

theorem control_of_reaches {allowed : Action ι B → Prop} (h : s.Control)
    (hreach : Reaches State.step allowed s s') : s'.Control :=
  hreach.invariant (fun _ _ _ _ hs hstep ↦ hs.step hstep) h

/-- What goes on does not have to do with scans. -/
theorem scans_of_reaches (h : Reaches step Action.GoesOn s s') : s'.scans = s.scans := by
  have hstep : ∀ (t : State ι B) act t', Action.GoesOn act → t.scans = s.scans →
      step t act = some t' → t'.scans = s.scans := by
    intro t act t' hact ht hstep
    rw [← ht]
    cases step_cases hstep with
    | leave => exact (t.sameIndexes_leaveSection _ _ _).scans
    | startMerge | beginscan | endscan => exact hact.elim
    | first | next => exact scans_merging _ _ _
    | _ => rfl
  exact h.invariant hstep rfl

/-! ## Inserts that have failed -/

omit [DecidableEq ι] [Fintype ι] in
theorem pins_merging (s : State ι B) (src : Fin 2) (pos : Option B.Pos) : (s.merging src pos).pins = s.pins := by
  cases pos <;> rfl

omit [DecidableEq ι] [Fintype ι] in
theorem counts_requestMerge (s : State ι B) :
    s.requestMerge.entry.accessCount = s.entry.accessCount ∧ s.requestMerge.pins = s.pins := by
  rw [requestMerge_eq]
  exact ⟨rfl, rfl⟩

omit [Fintype ι] in
theorem counts_duringMerge (s : State ι B) (b : ι) (a : Fin 2) :
    (s.duringMerge b a).entry.accessCount = s.entry.accessCount ∧ (s.duringMerge b a).pins = s.pins := by
  rw [duringMerge]
  dsimp only
  split_ifs
  · obtain ⟨hcount, hpins⟩ := (s.releaseLock b (1 - a)).counts_requestMerge
    exact ⟨hcount.trans (by rw [entry_releaseLock]), hpins.trans (s.pins_releaseLock b (1 - a))⟩
  · exact ⟨by rw [entry_releaseLock], s.pins_releaseLock b (1 - a)⟩
  · exact ⟨rfl, rfl⟩

omit [Fintype ι] in
theorem counts_leaveSection (s : State ι B) (b : ι) (ins : Insert D) (overflow : Bool) :
    ((s.setInsert b none).leaveSection b ins overflow).entry.accessCount =
        (s.entry.leave ins.activeIndex).accessCount ∧
      ((s.setInsert b none).leaveSection b ins overflow).pins = Function.update s.pins b none := by
  have hpins := s.pins_setInsert b none
  rw [leaveSection]
  split_ifs
  · obtain ⟨hcount, hpins'⟩ := counts_duringMerge
      { s.setInsert b none with entry := s.entry.switch.leave ins.activeIndex } b ins.activeIndex
    exact ⟨hcount, hpins'.trans hpins⟩
  · obtain ⟨hcount, hpins'⟩ := counts_duringMerge
      { s.setInsert b none with entry := s.entry.leave ins.activeIndex } b ins.activeIndex
    exact ⟨hcount, hpins'.trans hpins⟩

omit [DecidableEq ι] [Fintype ι] in
theorem counts_startMergeSection (s : State ι B) :
    s.startMergeSection.entry.accessCount = s.entry.accessCount ∧ s.startMergeSection.pins = s.pins := by
  rw [startMergeSection]
  split_ifs
  · exact ⟨rfl, rfl⟩
  · dsimp only
    split_ifs
    · exact counts_requestMerge { s with entry := s.entry.switch }
    · exact ⟨rfl, rfl⟩

/-- **An insert that has failed stays counted**, and nothing but a failure makes them more. -/
theorem failed_step {act : Action ι B} (hstep : s.step act = some s') (a : Fin 2) :
    s.failed a ≤ s'.failed a ∧ ((∀ b, act ≠ .abort b) → s'.failed a = s.failed a) := by
  have hstays : s'.failed a = s.failed a → s.failed a ≤ s'.failed a ∧
      ((∀ b, act ≠ .abort b) → s'.failed a = s.failed a) := fun heq ↦ ⟨heq.ge, fun _ ↦ heq⟩
  have hsame : s'.entry.accessCount = s.entry.accessCount → s'.pins = s.pins → s.failed a ≤ s'.failed a ∧
      ((∀ b, act ≠ .abort b) → s'.failed a = s.failed a) := fun hcount hpins ↦
    hstays (by rw [failed, failed, hcount, hpins])
  cases step_cases hstep with
  | @enter b itup hb =>
    refine hstays ?_
    have hpin : s.pins b = none := by rw [pins, hb]; rfl
    have hsum := accesses_update s.pins b (some (s.entry.activeIndex, s.entry.nMerges)) a
    have heq : s.entry.enter.accessCount a -
        accesses (Function.update s.pins b (some (s.entry.activeIndex, s.entry.nMerges))) a = s.failed a := by
      rw [hpin, show counted a none = 0 from rfl] at hsum
      rw [failed, s.entry.accessCount_enter]
      omega
    rw [← heq, failed, pins_setInsert]
    rfl
  | @leave b a' m overflow hb =>
    refine hstays ?_
    have hpin : s.pins b = some (a', m) := by rw [pins, hb]; rfl
    obtain ⟨hcount, hpins⟩ := s.counts_leaveSection b ⟨a', m, .leave overflow⟩ overflow
    have hsum := accesses_update s.pins b none a
    rw [hpin, show counted a none = 0 from rfl] at hsum
    rw [failed, failed, hcount, hpins, s.entry.accessCount_leave_eq a a' m]
    omega
  | abort b =>
    refine ⟨?_, fun hact ↦ absurd rfl (hact b)⟩
    have hsum := accesses_update s.pins b none a
    have hnone : counted a none = 0 := rfl
    rw [failed, failed, pins_setBackend]
    exact Nat.sub_le_sub_left (by simp only [Option.map_none]; omega) _
  | startMerge => exact hsame s.counts_startMergeSection.1 s.counts_startMergeSection.2
  | btinsert hb | testMerge hb | testInserts hb | testSize hb => exact hsame rfl (pins_stage hb _)
  | openIndex b | executorFinish b | closeIndex b => exact hsame rfl (s.pins_setBackend_self b rfl)
  | first | next => exact hsame (congrArg _ (entry_merging _ _ _)) (pins_merging _ _ _)
  | _ => exact hsame rfl rfl

theorem failed_of_reaches (hreach : Reaches step Action.GoesOn s s') (a : Fin 2) : s'.failed a = s.failed a := by
  have hstep : ∀ (t : State ι B) act t', Action.GoesOn act → t.failed a = s.failed a → step t act = some t' →
      t'.failed a = s.failed a := by
    intro t act t' hact hfailed hstep
    refine ((failed_step hstep a).2 fun b hb ↦ ?_).trans hfailed
    subst hb
    exact hact
  exact hreach.invariant hstep rfl

/-! ## Inserts come to their ends

Each has at most five steps to go. -/

/-- The next step of an insert. -/
theorem exists_step_insert {b : ι} {a : Fin 2} {m : UInt64} {stage : Stage D}
    (hb : (s.backends b).insert = some ⟨a, m, stage⟩) (hrank : stage.rank ≠ 0) :
    ∃ act index stage', Action.GoesOn act ∧ stage'.rank < stage.rank ∧
      step s act = some ({ s with index := index }.setInsert b (some ⟨a, m, stage'⟩)) := by
  cases stage with
  | btinsert itup =>
    refine ⟨.btinsert b itup, Function.update s.index (top a) (B.btinsert itup (s.index (top a))),
      .testMerge, trivial, by simp [Stage.rank], ?_⟩
    simp only [step, hb, Std.ReflCmp.compare_self, if_true]
    rfl
  | testMerge =>
    refine ⟨.testMerge b, s.index, if s.entry.mergeInProgress then .leave false else .testInserts, trivial,
      ?_, by simp only [step, hb]⟩
    split <;> simp [Stage.rank]
  | testInserts =>
    refine ⟨.testInserts b, s.index,
      if s.entry.nInserts % lsm3CheckTopIndexSizePeriod = 0 then .testSize else .leave false, trivial,
      ?_, by simp only [step, hb]⟩
    split <;> simp [Stage.rank]
  | testSize => exact ⟨.testSize b 0 0, s.index, .leave _, trivial, Nat.zero_lt_one, by simp only [step, hb]; rfl⟩
  | leave overflow => exact absurd rfl hrank

/-- **An insert that is under way comes to its end.** -/
theorem reaches_ended (hm : s.entry.mergeInProgress = true) {b : ι} {ins : Insert D}
    (hb : (s.backends b).insert = some ins) :
    ∃ index, Reaches step Action.GoesOn s ({ s with index := index }.ended b ins.activeIndex) := by
  obtain ⟨a, m, stage⟩ := ins
  induction hn : stage.rank using Nat.strongRecOn generalizing s stage with
  | ind k ih =>
    by_cases hrank : stage.rank = 0
    · obtain ⟨overflow, rfl⟩ : ∃ overflow, stage = .leave overflow := by
        cases stage with
        | leave overflow => exact ⟨overflow, rfl⟩
        | _ => exact absurd hrank (by simp [Stage.rank])
      have hleave : step s (.leave b) = some (s.ended b a) := by
        simp only [step, hb]
        exact congrArg some (leaveSection_eq_ended hm b ⟨a, m, .leave overflow⟩ overflow)
      exact ⟨s.index, .of_step (e := .leave b) trivial hleave⟩
    · obtain ⟨act, index, stage', hact, hlt, hstep⟩ := exists_step_insert hb hrank
      have hb' : (({ s with index := index }.setInsert b (some ⟨a, m, stage'⟩)).backends b).insert =
          some ⟨a, m, stage'⟩ := by simp [setInsert, setBackend]
      obtain ⟨index', hrest⟩ := ih stage'.rank (hn ▸ hlt)
        (s := { s with index := index }.setInsert b (some ⟨a, m, stage'⟩)) hm stage' hb' rfl
      refine ⟨index', (Reaches.of_step hact hstep).trans ?_⟩
      have hsame : ({ ({ s with index := index }.setInsert b (some ⟨a, m, stage'⟩)) with
          index := index' } : State ι B).ended b a = { s with index := index' }.ended b a := by
        have hset := setInsert_setInsert ({ s with index := index' } : State ι B) b (some ⟨a, m, stage'⟩) none
        exact congrArg (fun t : State ι B ↦ ({ t with entry := s.entry.leave a } : State ι B).duringMerge b a) hset
      rwa [← hsame]

/-! ## The merger is asked

By the last insert into the index, or when the merge begins if there is none. -/

omit [Fintype ι] in
theorem ended_eq (hm : s.entry.mergeInProgress = true) (b : ι) (a : Fin 2) : s.ended b a =
    if s.entry.activeIndex ≠ a ∧ s.entry.accessCount a - 1 = 0 then
      ({ s.setInsert b none with entry := s.entry.leave a }.releaseLock b (1 - a)).requestMerge
    else { s.setInsert b none with entry := s.entry.leave a }.releaseLock b (1 - a) := by
  have hm' : (s.entry.leave a).mergeInProgress = true := hm
  have hcount : (s.entry.leave a).accessCount a = s.entry.accessCount a - 1 := Function.update_self _ _ _
  rw [ended, duringMerge, if_pos hm']
  simp only [entry_releaseLock, hcount]
  rfl

/-- After an insert into the index that is to be merged. -/
theorem ended_cases (h : s.Control) (hm : s.entry.mergeInProgress = true) (b : ι) (a : Fin 2) :
    (s.ended b a).entry.mergeInProgress = true ∧ (s.ended b a).entry.activeIndex = s.entry.activeIndex ∧
      ((s.ended b a).entry.startMerge = true ∧ (s.ended b a).merger ≠ .absent ∧
          ((s.ended b a).merger = .exit → s.merger = .exit) ∨
        (s.ended b a).entry.startMerge = s.entry.startMerge ∧ (s.ended b a).merger = s.merger ∧
          (s.ended b a).entry.accessCount a = s.entry.accessCount a - 1) := by
  rw [ended_eq hm]
  split_ifs with hlast
  · rw [requestMerge_eq]
    simp only [entry_releaseLock, merger_releaseLock]
    refine ⟨hm, rfl, Or.inl ⟨trivial, ?_, ?_⟩⟩
    · split
      · exact fun habsent ↦ absurd ((h.launched.mpr habsent).symm.trans ‹_›) (by simp)
      · exact fun habsent ↦ nomatch habsent
    · split
      · exact id
      · exact fun hexit ↦ nomatch hexit
  · simp only [entry_releaseLock, merger_releaseLock]
    exact ⟨hm, rfl, Or.inr ⟨rfl, rfl, Function.update_self _ _ _⟩⟩

/-- A merge that has begun, that does not wait for an insert that has failed and whose worker is not going
away. -/
structure Merging (s : State ι B) : Prop where
  control : s.Control
  /-- Every insert that the merge waits for is under way. -/
  failed : s.failed (1 - s.entry.activeIndex) = 0
  inProgress : s.entry.mergeInProgress = true
  exit : s.merger ≠ .exit
  /-- A merge that was asked for has somebody to do it. -/
  absent : s.entry.startMerge = true → s.merger ≠ .absent

/-- **The last insert asks for the merge.** -/
theorem reaches_asked (h : s.Merging) : ∃ s', Reaches step Action.GoesOn s s' ∧ s'.Merging ∧
    (s'.entry.startMerge = true ∨ s'.merger.source ≠ none) := by
  have hmeasure : ∀ t : State ι B, t.Merging →
      (if t.entry.startMerge = false ∧ t.merger.source = none then
        t.entry.accessCount (1 - t.entry.activeIndex) else 0) ≠ 0 →
      ∃ t', Reaches step Action.GoesOn t t' ∧ t'.Merging ∧
        (if t'.entry.startMerge = false ∧ t'.merger.source = none then
          t'.entry.accessCount (1 - t'.entry.activeIndex) else 0) <
        if t.entry.startMerge = false ∧ t.merger.source = none then
          t.entry.accessCount (1 - t.entry.activeIndex) else 0 := by
    intro t ht hcount
    obtain ⟨hwait, hcount⟩ := (ite_ne_right_iff).mp hcount
    obtain ⟨b, ins, hb, ha⟩ := exists_insert ht.failed hcount
    obtain ⟨index, hreach⟩ := reaches_ended ht.inProgress hb
    rw [ha] at hreach
    have hended := ended_cases (s := { t with index := index }) ht.control ht.inProgress b
      (1 - t.entry.activeIndex)
    generalize ({ t with index := index } : State ι B).ended b (1 - t.entry.activeIndex) = t' at hreach hended
    obtain ⟨hm, hactive, hends⟩ := hended
    have hcontrol := control_of_reaches ht.control hreach
    have hfailed : t'.failed (1 - t'.entry.activeIndex) = 0 := by
      rw [hactive, failed_of_reaches hreach]
      exact ht.failed
    refine ⟨t', hreach, ?_, ?_⟩
    · rcases hends with ⟨-, habsent, hexit⟩ | ⟨hs, hmerger, -⟩
      · exact ⟨hcontrol, hfailed, hm, fun he ↦ ht.exit (hexit he), fun _ ↦ habsent⟩
      · refine ⟨hcontrol, hfailed, hm, ?_, fun hs' ↦ absurd ((hs.symm.trans hs').symm.trans hwait.1) (by simp)⟩
        rw [hmerger]
        exact ht.exit
    · rw [if_pos hwait]
      rcases hends with ⟨hs, -⟩ | ⟨hs, hmerger, hcount'⟩
      · rw [if_neg fun hno ↦ absurd (hs.symm.trans hno.1) (by simp)]
        exact Nat.pos_of_ne_zero hcount
      · split
        · rw [hactive, hcount']
          exact Nat.sub_one_lt hcount
        · exact Nat.pos_of_ne_zero hcount
  obtain ⟨s', hreach, hs', hzero⟩ := reaches_of_measure hmeasure h
  refine ⟨s', hreach, hs', ?_⟩
  by_contra hnot
  rw [not_or, not_not, Bool.not_eq_true] at hnot
  rw [if_pos hnot] at hzero
  exact hs'.control.drain hs'.inProgress hnot.1 hnot.2 hzero

/-- **The merger wakes up** when it is asked. -/
theorem reaches_first (h : s.Merging) (hs : s.entry.startMerge = true) :
    ∃ s' src, Reaches step Action.GoesOn s s' ∧ s'.merger.source = some src := by
  have hcheck : ∀ t : State ι B, t.merger = .checkRequest → t.entry.startMerge = true →
      ∃ s' src, Reaches step Action.GoesOn t s' ∧ s'.merger.source = some src := by
    intro t ht hst
    have hstep : step t .checkRequest = some { t with
        merger := .first (1 - t.entry.activeIndex), entry := { t.entry with startMerge := false } } := by
      simp only [step, ht, if_pos hst]
    exact ⟨_, 1 - t.entry.activeIndex, .of_step (e := .checkRequest) trivial hstep, rfl⟩
  have hreset : ∀ t : State ι B, t.merger = .resetLatch → t.entry.startMerge = true →
      ∃ s' src, Reaches step Action.GoesOn t s' ∧ s'.merger.source = some src := by
    intro t ht hst
    obtain ⟨s', src, hreach, hsrc⟩ := hcheck { t with merger := .checkRequest, latch := false } rfl hst
    refine ⟨s', src, (Reaches.of_step (e := .resetLatch) trivial ?_).trans hreach, hsrc⟩
    simp only [step, ht]
  cases hw : s.merger with
  | absent => exact absurd hw (h.absent hs)
  | exit => exact absurd hw h.exit
  | waitLatch =>
    have hlatch := (h.control.request hs).2.2 hw
    obtain ⟨s', src, hreach, hsrc⟩ := hreset { s with merger := .resetLatch } rfl hs
    refine ⟨s', src, (Reaches.of_step (e := .waitLatch) trivial ?_).trans hreach, hsrc⟩
    simp only [step, hw, if_pos hlatch]
  | resetLatch => exact hreset s hw hs
  | checkRequest => exact hcheck s hw hs
  | first src | doinsert src | next src | truncate src | finish src => exact ⟨s, src, .refl s, by rw [hw]; rfl⟩

/-! ## The merger goes through its index -/

/-- The merger goes on from a tuple that it has put into the base index, by what is left of its scan. -/
theorem reaches_truncate_of_ends {src : Fin 2} {layout : B.Layout} {index : Index D} {pos : B.Pos}
    (hends : B.Ends .forward (fun _ ↦ true) (still index layout) pos) :
    ∀ t : State ι B, t.merger = .next src pos → t.index (top src) = index →
      ∃ t', Reaches step Action.GoesOn t t' ∧ t'.merger = .truncate src := by
  refine ScanOps.Ends.induction (motive := fun pos ↦ ∀ t : State ι B, t.merger = .next src pos →
    t.index (top src) = index → ∃ t', Reaches step Action.GoesOn t t' ∧ t'.merger = .truncate src) hends ?_ ?_
  · intro pos hnext t ht hindex
    refine ⟨t.merging src none, .of_step (e := .next layout) trivial ?_, rfl⟩
    simp only [step, ht, hindex, hnext]
  · intro pos q hnext ih t ht hindex
    have hstep : step t (.next layout) = some (t.merging src (some q)) := by
      simp only [step, ht, hindex, hnext]
    obtain ⟨t', hreach, ht'⟩ := ih
      { (t.merging src (some q)).setIndex base (B.doinsert (B.item q) (t.index base)) with
        merger := .next src q } rfl (by rw [index_setIndex, if_neg (top_ne_base src), index_merging, hindex])
    exact ⟨t', ((Reaches.of_step (e := .next layout) trivial hstep).trans
      (.of_step (e := .doinsert) trivial rfl)).trans hreach, ht'⟩

/-- **The merger comes to the end of its index.** -/
theorem reaches_truncate {src : Fin 2} (h : s.Placed) (hsrc : s.merger.source = some src) :
    ∃ s', Reaches step Action.GoesOn s s' ∧ (s'.merger = .truncate src ∨ s'.merger = .finish src) := by
  have hnext : ∀ t pos, B.At .forward (s.index (top src)) pos → t.merger = .next src pos →
      t.index (top src) = s.index (top src) →
      ∃ t' : State ι B, Reaches step Action.GoesOn t t' ∧ t'.merger = .truncate src := fun t pos hpos ht hindex ↦
    reaches_truncate_of_ends (B.scan_ends .forward _ _ B.layout pos (h.ordered _) hpos) t ht hindex
  have hdoinsert : ∀ t pos, B.At .forward (s.index (top src)) pos → t.merger = .doinsert src pos →
      t.index (top src) = s.index (top src) →
      ∃ t' : State ι B, Reaches step Action.GoesOn t t' ∧ t'.merger = .truncate src := by
    intro t pos hpos ht hindex
    have hstep : step t .doinsert = some { t.setIndex base (B.doinsert (B.item pos) (t.index base)) with
        merger := .next src pos } := by simp only [step, ht]
    obtain ⟨t', hreach, ht'⟩ := hnext { t.setIndex base (B.doinsert (B.item pos) (t.index base)) with
      merger := .next src pos } pos hpos rfl (by rw [index_setIndex, if_neg (top_ne_base src), hindex])
    exact ⟨t', (Reaches.of_step (e := .doinsert) trivial hstep).trans hreach, ht'⟩
  have hplace := h.place
  cases hw : s.merger with
  | absent | waitLatch | resetLatch | checkRequest | exit => simp [hw, Merger.source] at hsrc
  | truncate src' =>
    rw [hw] at hsrc
    exact ⟨s, .refl s, Or.inl (Option.some.inj hsrc ▸ hw)⟩
  | finish src' =>
    rw [hw] at hsrc
    exact ⟨s, .refl s, Or.inr (Option.some.inj hsrc ▸ hw)⟩
  | first src' =>
    rw [hw] at hsrc
    obtain rfl := Option.some.inj hsrc
    have hstep : step s (.first B.layout) = some (s.merging src' (B.first .forward (fun _ ↦ true)
        (still (s.index (top src')) B.layout))) := by simp only [step, hw]
    cases hfirst : B.first .forward (fun _ ↦ true) (still (s.index (top src')) B.layout) with
    | none =>
      rw [hfirst] at hstep
      exact ⟨_, .of_step (e := .first B.layout) trivial hstep, Or.inl rfl⟩
    | some pos =>
      rw [hfirst] at hstep
      obtain ⟨t', hreach, ht'⟩ := hdoinsert (s.merging src' (some pos)) pos (.first hfirst) rfl rfl
      exact ⟨t', (Reaches.of_step (e := .first B.layout) trivial hstep).trans hreach, Or.inl ht'⟩
  | doinsert src' pos =>
    rw [hw] at hsrc hplace
    obtain rfl := Option.some.inj hsrc
    obtain ⟨t', hreach, ht'⟩ := hdoinsert s pos hplace hw rfl
    exact ⟨t', hreach, Or.inl ht'⟩
  | next src' pos =>
    rw [hw] at hsrc hplace
    obtain rfl := Option.some.inj hsrc
    obtain ⟨t', hreach, ht'⟩ := hnext s pos hplace hw rfl
    exact ⟨t', hreach, Or.inl ht'⟩

theorem placed_of_reaches {allowed : Action ι B → Prop} (h : s.Control) (hplaced : s.Placed)
    (hreach : Reaches State.step allowed s s') : s'.Placed := by
  have hstep : ∀ (t : State ι B) act t', allowed act → t.Control ∧ t.Placed → State.step t act = some t' →
      t'.Control ∧ t'.Placed := fun _ _ _ _ ht hstep ↦ ⟨ht.1.step hstep, ht.2.step ht.1 hstep⟩
  exact (hreach.invariant hstep ⟨h, hplaced⟩).2

/-- The merger gets to the end of its index, when it has not been cancelled and no insert has failed that it
waits for. -/
theorem reaches_truncate_of_not_lost (h : s.Control) (hplaced : s.Placed) (hm : s.entry.mergeInProgress = true)
    (hlost : ¬s.Lost) (hblocked : ¬s.Blocked) :
    ∃ s' src, Reaches step Action.GoesOn s s' ∧ s'.Control ∧ s'.scans = s.scans ∧
      (s'.merger = .truncate src ∨ s'.merger = .finish src) := by
  have hfailed : s.failed (1 - s.entry.activeIndex) = 0 := by
    by_contra hne
    exact hblocked ⟨hm, hne⟩
  have hmerging : ∃ s₁, Reaches step Action.GoesOn s s₁ ∧ s₁.Merging := by
    by_cases hexit : s.merger = .exit
    · have hs : s.entry.startMerge ≠ true := fun hs ↦ hlost ⟨hm, hs, Or.inl hexit⟩
      have hstep : step s .exit =
          some { s with merger := .absent, entry := { s.entry with merger := false } } := by
        simp only [step, hexit]
      exact ⟨_, .of_step (e := .exit) trivial hstep, h.step hstep, hfailed, hm, by simp, fun hs' ↦ absurd hs' hs⟩
    · exact ⟨s, .refl s, h, hfailed, hm, hexit, fun hs habsent ↦ hlost ⟨hm, hs, Or.inr habsent⟩⟩
  obtain ⟨s₁, hreach₁, h₁⟩ := hmerging
  obtain ⟨s₂, hreach₂, h₂, hasked⟩ := reaches_asked h₁
  have hfirst : ∃ s₃ src, Reaches step Action.GoesOn s₂ s₃ ∧ s₃.merger.source = some src := by
    rcases hasked with hs | hsrc
    · exact reaches_first h₂ hs
    · obtain ⟨src, hsrc⟩ := Option.ne_none_iff_exists'.mp hsrc
      exact ⟨s₂, src, .refl s₂, hsrc⟩
  obtain ⟨s₃, src, hreach₃, hsrc⟩ := hfirst
  have hreach := (hreach₁.trans hreach₂).trans hreach₃
  obtain ⟨s', hreach', hs'⟩ := reaches_truncate (placed_of_reaches h hplaced hreach) hsrc
  exact ⟨s', src, hreach.trans hreach', control_of_reaches h (hreach.trans hreach'),
    scans_of_reaches (hreach.trans hreach'), hs'⟩

/-! ## The index is truncated

The merger waits for the locks of scans and of statements.  A statement gives up its lock at its end, or
with the next row it inserts. -/

/-- The last step of a merge. -/
theorem reaches_end_of_finish {src : Fin 2} (hw : s.merger = .finish src) :
    ∃ s', Reaches step Action.GoesOn s s' ∧ s'.entry.mergeInProgress = false := by
  have hfinish : step s .finish =
      some { s with merger := .waitLatch, entry := { s.entry with mergeInProgress := false } } := by
    simp only [step, hw]
  exact ⟨_, .of_step (e := .finish) trivial hfinish, rfl⟩

/-- The last steps, once nobody has a lock on the index. -/
theorem reaches_end {src : Fin 2} (hw : s.merger = .truncate src) (hscans : s.scans = ∅)
    (hheld : ∀ b, (s.backends b).held src = 0) :
    ∃ s', Reaches step Action.GoesOn s s' ∧ s'.entry.mergeInProgress = false := by
  have htruncate : step s .truncate = some { s.setIndex (top src) [] with merger := .finish src } := by
    simp only [step, hw, if_pos (And.intro hheld hscans)]
  obtain ⟨s', hreach, hm⟩ :=
    reaches_end_of_finish (s := { s.setIndex (top src) [] with merger := .finish src }) rfl
  exact ⟨s', (Reaches.of_step (e := .truncate) trivial htruncate).trans hreach, hm⟩

/-- The locks that all backends hold on a top index, after one of them is released or given up. -/
theorem sum_held_setBackend (s : State ι B) {b : ι} {a : Fin 2} (hb : (s.backends b).held a ≠ 0)
    {x : Backend D} (hx : x.held a = (s.backends b).held a - 1) :
    ∑ c, ((s.setBackend b x).backends c).held a < ∑ c, (s.backends c).held a := by
  have hsum : ∑ c, ((s.setBackend b x).backends c).held a + (s.backends b).held a =
      ∑ c, (s.backends c).held a + x.held a := sum_update (fun y : Backend D ↦ y.held a) s.backends b x
  omega

omit [DecidableEq ι] in
theorem exists_held {a : Fin 2} (h : ∑ b, (s.backends b).held a ≠ 0) : ∃ b, (s.backends b).held a ≠ 0 := by
  obtain ⟨b, -, hb⟩ := Finset.exists_ne_zero_of_sum_ne_zero h
  exact ⟨b, hb⟩

/-- When scans and statements end, nobody has a lock on the index. -/
theorem reaches_unlocked {src : Fin 2} (hw : s.merger = .truncate src) :
    ∃ s', Reaches step Action.Ends s s' ∧ s'.merger = .truncate src ∧ s'.scans = ∅ ∧
      ∀ b, (s'.backends b).held src = 0 := by
  have hmeasure : ∀ t : State ι B, t.merger = .truncate src →
      t.scans.card + ∑ b, (t.backends b).held src ≠ 0 →
      ∃ t', Reaches step Action.Ends t t' ∧ t'.merger = .truncate src ∧
        t'.scans.card + ∑ b, (t'.backends b).held src < t.scans.card + ∑ b, (t.backends b).held src := by
    intro t ht hlocks
    by_cases hscans : t.scans = ∅
    · obtain ⟨b, hb⟩ := exists_held (s := t) (a := src) (by simpa [hscans] using hlocks)
      refine ⟨_, .of_step (e := .closeIndex b src) trivial rfl, ht, ?_⟩
      exact Nat.add_lt_add_left (t.sum_held_setBackend hb (Function.update_self _ _ _)) _
    · obtain ⟨k, hk⟩ := Finset.nonempty_of_ne_empty hscans
      refine ⟨{ t with scans := t.scans.erase k },
        .of_step (e := .endscan k) trivial (by simp only [step, if_pos hk]), ht, ?_⟩
      exact Nat.add_lt_add_right (Finset.card_erase_lt_of_mem hk) _
  obtain ⟨s', hreach, hw', hzero⟩ := reaches_of_measure hmeasure hw
  obtain ⟨hscans, hheld⟩ := Nat.add_eq_zero_iff.mp hzero
  exact ⟨s', hreach, hw', Finset.card_eq_zero.mp hscans, fun b ↦
    Finset.sum_eq_zero_iff.mp hheld b (Finset.mem_univ b)⟩

/-- A backend that holds a lock on the index that is merged releases it with the next row it inserts. -/
theorem reaches_release {src : Fin 2} {b : ι} (h : s.Control) (hw : s.merger = .truncate src)
    (hb : (s.backends b).held src ≠ 0) :
    ∃ s', Reaches step Action.Inserts s s' ∧ s'.merger = .truncate src ∧ s'.scans = s.scans ∧
      ∑ c, (s'.backends c).held src < ∑ c, (s.backends c).held src := by
  obtain ⟨hm, hsrc, -, -⟩ := h.merging src (by rw [hw]; rfl)
  -- it is in an insert, or begins one
  have hinsert : ∃ t ins, Reaches step Action.Inserts s t ∧ (t.backends b).insert = some ins ∧
      t.merger = s.merger ∧ t.scans = s.scans ∧ t.entry.mergeInProgress = s.entry.mergeInProgress ∧
      t.entry.activeIndex = s.entry.activeIndex ∧ ∀ c, (t.backends c).held = (s.backends c).held := by
    cases hins : (s.backends b).insert with
    | some ins => exact ⟨s, ins, .refl s, hins, rfl, rfl, rfl, rfl, fun _ ↦ rfl⟩
    | none =>
      have henter : step s (.enter b ⟨fun _ ↦ none, ⟨0, 0⟩⟩) =
          some ({ s with entry := s.entry.enter }.setInsert b
            (some ⟨s.entry.activeIndex, s.entry.nMerges, .btinsert ⟨fun _ ↦ none, ⟨0, 0⟩⟩⟩)) := by
        simp only [step, hins]
      refine ⟨_, ⟨s.entry.activeIndex, s.entry.nMerges, .btinsert ⟨fun _ ↦ none, ⟨0, 0⟩⟩⟩,
        .of_step (e := .enter b ⟨fun _ ↦ none, ⟨0, 0⟩⟩) trivial henter, by simp [setInsert, setBackend], rfl, rfl,
        rfl, rfl, fun c ↦ ?_⟩
      by_cases hc : c = b
      · subst hc
        simp [setInsert, setBackend]
      · simp [setInsert, setBackend, hc]
  obtain ⟨t, ins, hreach, hins, htw, htscans, htm, htactive, htheld⟩ := hinsert
  have hcontrol := control_of_reaches h hreach
  obtain ⟨index, hended⟩ := reaches_ended (htm.trans hm) hins
  have ha : ins.activeIndex = t.entry.activeIndex := by
    have hne := hcontrol.ne_source hins (show t.merger.source = some src by rw [htw, hw]; rfl)
    rw [ne_iff_eq_one_sub.mp hne, htactive, hsrc, one_sub_one_sub]
  have hheld : ((({ t with index := index } : State ι B).setInsert b none).backends b).held src ≠ 0 := by
    simpa [setInsert, setBackend, htheld b] using hb
  rw [ended_eq (s := { t with index := index }) (htm.trans hm), if_neg fun hlast ↦ hlast.1 ha.symm, ha, htactive,
    ← hsrc, releaseLock, if_neg hheld] at hended
  refine ⟨_, hreach.trans (hended.mono fun _ ↦ Action.GoesOn.inserts), htw.trans hw, htscans, ?_⟩
  refine (sum_held_setBackend _ hheld (Function.update_self _ _ _)).trans_le (le_of_eq ?_)
  refine Finset.sum_congr rfl fun c _ ↦ ?_
  rw [← htheld c]
  by_cases hc : c = b
  · subst hc
    simp [setInsert, setBackend]
  · simp [setInsert, setBackend, hc]

/-- When each backend that holds a lock on the index inserts one more row for each of them, nobody has. -/
theorem reaches_released {src : Fin 2} (h : s.Control) (hw : s.merger = .truncate src) (hscans : s.scans = ∅) :
    ∃ s', Reaches step Action.Inserts s s' ∧ s'.merger = .truncate src ∧ s'.scans = ∅ ∧
      ∀ b, (s'.backends b).held src = 0 := by
  have hmeasure : ∀ t : State ι B, t.Control ∧ t.merger = .truncate src ∧ t.scans = ∅ →
      ∑ b, (t.backends b).held src ≠ 0 →
      ∃ t', Reaches step Action.Inserts t t' ∧
        (t'.Control ∧ t'.merger = .truncate src ∧ t'.scans = ∅) ∧
        ∑ b, (t'.backends b).held src < ∑ b, (t.backends b).held src := by
    rintro t ⟨ht, htw, htscans⟩ hlocks
    obtain ⟨b, hb⟩ := exists_held hlocks
    obtain ⟨t', hreach, hw', hscans', hlt⟩ := reaches_release ht htw hb
    exact ⟨t', hreach, ⟨control_of_reaches ht hreach, hw', hscans'.trans htscans⟩, hlt⟩
  obtain ⟨s', hreach, ⟨-, hw', hscans'⟩, hzero⟩ := reaches_of_measure hmeasure ⟨h, hw, hscans⟩
  exact ⟨s', hreach, hw', hscans', fun b ↦ Finset.sum_eq_zero_iff.mp hzero b (Finset.mem_univ b)⟩

/-! ## The whole merge -/

theorem Lost.step (hcontrol : s.Control) (h : s.Lost) {act : Action ι B}
    (hstep : s.step act = some s') : s'.Lost := by
  obtain ⟨hm, hs, hmerger⟩ := h
  have hnone : s.merger.source = none := by
    rcases hmerger with hw | hw <;> rw [hw] <;> rfl
  cases step_cases hstep with
  | startMerge =>
    rw [startMergeSection, if_pos hm]
    exact ⟨hm, hs, hmerger⟩
  | @leave b a m overflow hb =>
    -- no insert that a merge waits for is under way
    have hactive : s.entry.activeIndex = a := by
      have hpin : s.pins b = some (a, m) := by rw [pins, hb]; rfl
      have hpos := hcontrol.count_pos hpin
      by_contra hne
      rw [ne_iff_eq_one_sub.mp hne, (hcontrol.request hs).2.1] at hpos
      exact absurd hpos (lt_irrefl 0)
    rw [leaveSection_eq_ended hm, ended_eq hm, if_neg fun hlast ↦ hlast.1 hactive]
    simp only [Lost, entry_releaseLock, merger_releaseLock]
    exact ⟨hm, hs, hmerger⟩
  | exit => exact ⟨hm, hs, Or.inr rfl⟩
  | waitLatch hw | cancel hw | resetLatch hw | request hw | noRequest hw =>
    rcases hmerger with hw' | hw' <;> exact absurd (hw.symm.trans hw') (by simp)
  | first hw | doinsert hw | next hw | truncate hw | finish hw => simp [hw, Merger.source] at hnone
  | _ => exact ⟨hm, hs, hmerger⟩

variable {topIndexSize : UInt32} {heap : List (IndexTuple D)} {events : List (Event ι B)}

/-- A merge goes on waiting for an insert that has failed. -/
theorem Blocked.step (hcontrol : s.Control) (h : s.Blocked) {act : Action ι B} (hstep : s.step act = some s') :
    s'.Blocked := by
  obtain ⟨hm, hfailed⟩ := h
  have hcount : s.entry.accessCount (1 - s.entry.activeIndex) ≠ 0 := fun hzero ↦
    hfailed (by rw [failed, hzero, Nat.zero_sub])
  cases turns_step hstep with
  | stays _ hm' ha =>
    refine ⟨hm'.trans hm, ha ▸ fun hzero ↦ hfailed ?_⟩
    exact Nat.le_zero.mp (hzero ▸ (failed_step hstep _).1)
  | swaps _ hnot => exact absurd (hnot.symm.trans hm) (by simp)
  | @ends src _ hw =>
    obtain ⟨-, hsrc, hzero, -⟩ := hcontrol.merging src (by rw [hw]; rfl)
    exact absurd (hsrc ▸ hzero) hcount

theorem control_of_live (hlive : run live (build topIndexSize heap) events = some s) :
    s.Control :=
  run_invariant (fun _ _ _ (h : State.Control _) ↦ h.live) Control.build hlive

/-- **A merge that is lost is in progress for ever**, whatever the backends do, until the server is
restarted. -/
theorem lost_run (hlive : run live (build topIndexSize heap) events = some s) (hlost : s.Lost)
    {acts : List (Action ι B)} (hrun : run step s acts = some s') : s'.Lost := by
  have hstep : ∀ (t : State ι B) act t', t.Control ∧ t.Lost → step t act = some t' →
      t'.Control ∧ t'.Lost := fun _ _ _ h hs ↦ ⟨h.1.step hs, h.2.step h.1 hs⟩
  exact (run_invariant hstep ⟨control_of_live hlive, hlost⟩ hrun).2

/-- The worker is cancelled before it knows what it was launched for, and asking for another merge does not
help. -/
theorem lost_run_cancel : ∃ s, run live emptyIndex [.step .startMerge, .step .cancel] = some s ∧
    ∃ s', run step s [.exit, .startMerge] = some s' ∧ s'.Lost := by
  refine exists_of_isSome rfl fun s hrun ↦ ?_
  have hlost : s.Lost := by
    obtain rfl := Option.some.inj hrun
    exact ⟨rfl, rfl, Or.inl rfl⟩
  have hexit : (run step s [.exit, .startMerge]).isSome = true := by
    obtain rfl := Option.some.inj hrun
    rfl
  exact exists_of_isSome hexit fun s' hrun' ↦ lost_run hrun hlost hrun'

theorem blocked_run (hlive : run live (build topIndexSize heap) events = some s) (hblocked : s.Blocked)
    {acts : List (Action ι B)} (hrun : run step s acts = some s') : s'.Blocked := by
  have hstep : ∀ (t : State ι B) act t', t.Control ∧ t.Blocked → step t act = some t' → t'.Control ∧ t'.Blocked :=
    fun _ _ _ h hs ↦ ⟨h.1.step hs, h.2.step h.1 hs⟩
  exact (run_invariant hstep ⟨control_of_live hlive, hblocked⟩ hrun).2

theorem placed_of_live (hlive : run live (build topIndexSize heap) events = some s) : s.Placed := by
  have hstep : ∀ (t : State ι B) event t', t.Control ∧ t.Placed → live t event = some t' →
      t'.Control ∧ t'.Placed := fun _ _ _ h hs ↦ ⟨h.1.live hs, h.2.live h.1 hs⟩
  exact (run_invariant hstep ⟨Control.build, Placed.build⟩ hlive).2

/-- **When a merge can be completed** by what goes on already: the worker is not cancelled while it is asked
for the merge, and no insert has failed that the merge waits for.

`Lost` is a merge that has been asked for when the worker is about to exit or is gone, and nobody launches
another one.  `Blocked` is an insert that an error has ended between its two sections, so that it is counted for
ever.  What goes on already are the inserts, scans and statements that have begun, and the worker. -/
theorem merge_ends_iff (hlive : run live (build topIndexSize heap) events = some s) :
    (∃ acts s', (∀ act ∈ acts, act.Ends) ∧ run step s acts = some s' ∧ s'.entry.mergeInProgress = false) ↔
      ¬s.Lost ∧ ¬s.Blocked := by
  constructor
  · rintro ⟨acts, s', -, hrun, hm⟩
    refine ⟨fun hlost ↦ ?_, fun hblocked ↦ ?_⟩
    · exact absurd (hm.symm.trans (lost_run hlive hlost hrun).1) (by simp)
    · exact absurd (hm.symm.trans (blocked_run hlive hblocked hrun).1) (by simp)
  · rintro ⟨hlost, hblocked⟩
    cases hm : s.entry.mergeInProgress with
    | false => exact ⟨[], s, List.forall_mem_nil _, rfl, hm⟩
    | true =>
      obtain ⟨s₁, src, hreach, -, -, hw⟩ := reaches_truncate_of_not_lost (control_of_live hlive)
        (placed_of_live hlive) hm hlost hblocked
      have hend : ∃ s', Reaches step Action.Ends s₁ s' ∧ s'.entry.mergeInProgress = false := by
        rcases hw with hw | hw
        · obtain ⟨s₂, hreach₂, hw₂, hscans, hheld⟩ := reaches_unlocked hw
          obtain ⟨s', hreach', hm'⟩ := reaches_end hw₂ hscans hheld
          exact ⟨s', hreach₂.trans (hreach'.mono fun _ ↦ Action.GoesOn.ends), hm'⟩
        · obtain ⟨s', hreach', hm'⟩ := reaches_end_of_finish hw
          exact ⟨s', hreach'.mono fun _ ↦ Action.GoesOn.ends, hm'⟩
      obtain ⟨s', hreach', hm'⟩ := hend
      obtain ⟨acts, hacts, hrun⟩ := (hreach.mono fun _ ↦ Action.GoesOn.ends).trans hreach'
      exact ⟨acts, s', hacts, hrun, hm'⟩

/-- An insert fails in the middle, and a merge of its index is asked for. -/
def failsInMerge : List (Action Unit numberTrees) :=
  [.enter () (tuple 1), .btinsert () (tuple 1), .abort (), .startMerge]

/-- An insert fails between its two sections, and the merge that is started next waits for it. -/
theorem merge_ends_iff_failsInMerge : ∃ s, run live emptyIndex (failsInMerge.map .step) = some s ∧ s.Blocked ∧
    ((∃ acts s', (∀ act ∈ acts, act.Ends) ∧ run step s acts = some s' ∧ s'.entry.mergeInProgress = false) ↔
      ¬s.Lost ∧ ¬s.Blocked) := by
  refine exists_of_isSome rfl fun s hrun ↦ ⟨?_, merge_ends_iff hrun⟩
  obtain rfl := Option.some.inj hrun
  exact ⟨rfl, by decide⟩

/-- **A merge does not have to wait for the end of a statement**: when there are no scans, it is enough that
the statements that are under way go on and insert rows. -/
theorem merge_ends_during_statements (hlive : run live (build topIndexSize heap) events = some s)
    (hlost : ¬s.Lost) (hblocked : ¬s.Blocked) (hscans : s.scans = ∅) :
    ∃ acts s', (∀ act ∈ acts, act.Inserts) ∧ run step s acts = some s' ∧ s'.entry.mergeInProgress = false := by
  cases hm : s.entry.mergeInProgress with
  | false => exact ⟨[], s, List.forall_mem_nil _, rfl, hm⟩
  | true =>
    obtain ⟨s₁, src, hreach, hcontrol, hscans₁, hw⟩ := reaches_truncate_of_not_lost (control_of_live hlive)
      (placed_of_live hlive) hm hlost hblocked
    have hend : ∃ s', Reaches step Action.Inserts s₁ s' ∧ s'.entry.mergeInProgress = false := by
      rcases hw with hw | hw
      · obtain ⟨s₂, hreach₂, hw₂, hscans₂, hheld⟩ := reaches_released hcontrol hw (hscans₁.trans hscans)
        obtain ⟨s', hreach', hm'⟩ := reaches_end hw₂ hscans₂ hheld
        exact ⟨s', hreach₂.trans (hreach'.mono fun _ ↦ Action.GoesOn.inserts), hm'⟩
      · obtain ⟨s', hreach', hm'⟩ := reaches_end_of_finish hw
        exact ⟨s', hreach'.mono fun _ ↦ Action.GoesOn.inserts, hm'⟩
    obtain ⟨s', hreach', hm'⟩ := hend
    obtain ⟨acts, hacts, hrun⟩ := (hreach.mono fun _ ↦ Action.GoesOn.inserts).trans hreach'
    exact ⟨acts, s', hacts, hrun, hm'⟩

/-- A statement has the indexes open and has inserted a row when a merge is asked for. -/
def startDuringStatement : List (Action Unit numberTrees) :=
  .openIndex () 0 :: .openIndex () 1 :: insertFirst 1 ++ [.startMerge]

/-- The statement has both top indexes open when the merge is started. -/
theorem merge_ends_during_statements_startDuringStatement :
    ∃ s, run live emptyIndex (startDuringStatement.map .step) = some s ∧
      ∃ acts s', (∀ act ∈ acts, act.Inserts) ∧ run step s acts = some s' ∧ s'.entry.mergeInProgress = false := by
  refine exists_of_isSome rfl fun s hrun ↦ ?_
  have hstart : s.merger = .waitLatch ∧ s.scans = ∅ ∧ s.failed (1 - s.entry.activeIndex) = 0 := by
    obtain rfl := Option.some.inj hrun
    exact ⟨rfl, rfl, by decide⟩
  obtain ⟨hmerger, hscans, hfailed⟩ := hstart
  refine merge_ends_during_statements hrun (fun hlost ↦ ?_) (fun hblocked ↦ ?_) hscans
  · rcases hlost.2.2 with hw | hw <;> exact absurd (hmerger.symm.trans hw) (by simp)
  · exact hblocked.2 hfailed

end State

end Lsm3

end ScratchStore
