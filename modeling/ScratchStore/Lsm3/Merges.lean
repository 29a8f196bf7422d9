import ScratchStore.Lsm3.Lifecycle

/-!
# What a merge achieves

A merge takes what is in the top index that was active when it began to the base index.

* `State.Turns` are the ways in which a step can change what the entry says about merges.
* `State.Tidy`: the other top index was empty then, as long as every restart finds one of them empty
  (`State.TidyEvent`).  After a restart in the middle of a merge both may hold tuples, and then a merge on
  demand takes one of them only.
* `State.merged_of_run`: when `lsm3_start_merge` has begun a merge and `lsm3_wait_merge_completion` has
  returned, every tuple that was in the index before is in the base index.
* `State.nMerges_live`: what `lsm3_get_merge_count` counts.

The proof of `merged_of_run` follows a set `W` of tuples (`State.Moved`): while the merge is in progress
they are in the base index or in the index that is merged, and no step takes one out of both.  When there is
no merge any more they are in the base index, whatever else was begun and ended in the meantime.

`nMerges_live` counts modulo `2 ^ 64`, as the member does.
-/

set_option autoImplicit false

namespace ScratchStore

namespace Lsm3

open PageScan Runs

variable {n : ℕ} {D : Fin n → Type} {sortKeys : SortKeys D} {B : NBTree sortKeys} {ι : Type}
  {s s' : State ι B}

namespace State

/-- A step goes on with a merge or without one, swaps the top indexes, or ends a merge. -/
inductive Turns (e : Lsm3DictEntry) (merger : Merger B) (act : Action ι B) (e' : Lsm3DictEntry) : Prop
  /-- Nothing changes as far as merges go. -/
  | stays (hact : act ≠ .finish) (hm : e'.mergeInProgress = e.mergeInProgress)
      (ha : e'.activeIndex = e.activeIndex) (hn : e'.nMerges = e.nMerges)
  /-- The top indexes are swapped. -/
  | swaps (hact : act ≠ .finish) (hm : e.mergeInProgress = false) (hm' : e'.mergeInProgress = true)
      (ha : e'.activeIndex = 1 - e.activeIndex) (hn : e'.nMerges = e.nMerges + 1)
  /-- A merge ends. -/
  | ends {src : Fin 2} (hact : act = .finish) (h : merger = .finish src) (hm : e'.mergeInProgress = false)
      (ha : e'.activeIndex = e.activeIndex) (hn : e'.nMerges = e.nMerges)

theorem Turns.of_switch {e e' : Lsm3DictEntry} {merger : Merger B} {act : Action ι B} (hact : act ≠ .finish)
    (hm : e.mergeInProgress = false) (hm' : e'.mergeInProgress = e.switch.mergeInProgress)
    (ha : e'.activeIndex = e.switch.activeIndex) (hn : e'.nMerges = e.switch.nMerges) : Turns e merger act e' :=
  .swaps hact hm hm' (ha.trans (xor_one _)) hn

theorem entry_merging (s : State ι B) (src : Fin 2) (pos : Option B.Pos) :
    (s.merging src pos).entry = s.entry := by
  cases pos <;> rfl

theorem turns_startMergeSection (s : State ι B) {act : Action ι B} (hact : act ≠ .finish) :
    Turns s.entry s.merger act s.startMergeSection.entry := by
  rw [startMergeSection]
  by_cases hm : s.entry.mergeInProgress = true
  · rw [if_pos hm]
    exact .stays hact rfl rfl rfl
  · rw [if_neg hm]
    have hm' : s.entry.mergeInProgress = false := by simpa using hm
    dsimp only
    split_ifs
    · rw [requestMerge_eq]
      exact .of_switch hact hm' rfl rfl rfl
    · exact .of_switch hact hm' rfl rfl rfl

variable [DecidableEq ι]

theorem entry_duringMerge (s : State ι B) (b : ι) (a : Fin 2) :
    (s.duringMerge b a).entry.mergeInProgress = s.entry.mergeInProgress ∧
      (s.duringMerge b a).entry.activeIndex = s.entry.activeIndex ∧
      (s.duringMerge b a).entry.nMerges = s.entry.nMerges := by
  rw [duringMerge]
  dsimp only
  split_ifs
  · rw [requestMerge_eq, entry_releaseLock]
    exact ⟨rfl, rfl, rfl⟩
  · rw [entry_releaseLock]
    exact ⟨rfl, rfl, rfl⟩
  · exact ⟨rfl, rfl, rfl⟩

theorem turns_leaveSection (s : State ι B) (b : ι) (ins : Insert D) (overflow : Bool) {act : Action ι B}
    (hact : act ≠ .finish) :
    Turns s.entry s.merger act (s.leaveSection b ins overflow).entry := by
  rw [leaveSection]
  split_ifs with hs
  · have hm : s.entry.mergeInProgress = false := by
      simp only [Lsm3DictEntry.switches, Bool.and_eq_true, Bool.not_eq_true'] at hs
      exact hs.1.2
    obtain ⟨hm', ha, hn⟩ := entry_duringMerge { s with entry := s.entry.switch.leave ins.activeIndex } b
      ins.activeIndex
    exact .of_switch hact hm hm' ha hn
  · obtain ⟨hm', ha, hn⟩ := entry_duringMerge { s with entry := s.entry.leave ins.activeIndex } b
      ins.activeIndex
    exact .stays hact hm' ha hn

variable [Fintype ι]

theorem turns_step {act : Action ι B} (hstep : s.step act = some s') : Turns s.entry s.merger act s'.entry := by
  cases step_cases hstep with
  | leave hb => exact turns_leaveSection (s.setInsert _ none) _ _ _ (by simp)
  | startMerge => exact s.turns_startMergeSection (by simp)
  | finish hw => exact .ends rfl hw rfl rfl rfl
  | first | next =>
    rw [entry_merging]
    exact .stays (by simp) rfl rfl rfl
  | _ => exact .stays (by simp) rfl rfl rfl

omit [DecidableEq ι] [Fintype ι] in
/-- The base index only grows. -/
theorem Changes.base_subset {act : Action ι B} {index : Fin 3 → Index D}
    (h : s.Changes act index) : s.index base ⊆ index base := by
  cases h with
  | nothing => exact List.Subset.refl _
  | @insert b itup a =>
    rw [Function.update_of_ne (top_ne_base a).symm]
    exact List.Subset.refl _
  | copy =>
    rw [Function.update_self]
    exact fun x hx ↦ B.doinsert_spec.mem_iff.mpr (Or.inr hx)
  | @truncate src =>
    rw [Function.update_of_ne (top_ne_base src).symm]
    exact List.Subset.refl _

omit [DecidableEq ι] [Fintype ι] in
/-- A top index only grows until it is in the base index. -/
theorem Changes.top_subset {act : Action ι B} {index : Fin 3 → Index D}
    (h : s.Changes act index) (a : Fin 2) {x : IndexTuple D} (hx : x ∈ s.index (top a)) :
    x ∈ index (top a) ∨ x ∈ index base := by
  cases h with
  | nothing => exact Or.inl hx
  | @insert b itup c =>
    rw [Function.update_apply]
    split
    · next heq => exact Or.inl (B.btinsert_spec.mem_iff.mpr (Or.inr (heq ▸ hx)))
    · exact Or.inl hx
  | copy =>
    rw [Function.update_of_ne (top_ne_base a)]
    exact Or.inl hx
  | @truncate src hw hscans hsub =>
    rw [Function.update_apply, Function.update_of_ne (top_ne_base src).symm]
    split
    · next heq => exact Or.inr (hsub (heq ▸ hx))
    · exact Or.inl hx

/-- When no merge is in progress, the top index that is not active is empty. -/
def Tidy (s : State ι B) : Prop :=
  s.entry.mergeInProgress = false → s.index (top (1 - s.entry.activeIndex)) = []

theorem Tidy.step (hcontrol : s.Control) (hcontents : s.Contents) (h : s.Tidy)
    {act : Action ι B} (hstep : s.step act = some s') : s'.Tidy := by
  have hchanges := hcontents.changes hstep
  intro hm'
  cases turns_step hstep with
  | stays _ hm ha =>
    have hnot : s.entry.mergeInProgress = false := hm.symm.trans hm'
    have hempty := h hnot
    have hsource : ∀ src, s.merger.source ≠ some src := fun src hsrc ↦
      absurd ((hcontrol.merging src hsrc).1.symm.trans hnot) (by simp)
    rw [ha]
    generalize s'.index = index at hchanges
    cases hchanges with
    | nothing => exact hempty
    | @insert b itup a m hb =>
      -- without a merge every insert is into the active index
      have hpin : s.pins b = some (a, m) := by rw [pins, hb]; rfl
      rcases hcontrol.inserts b a m hpin with ⟨-, hactive⟩ | ⟨-, -, hprogress⟩
      · rw [Function.update_of_ne fun heq ↦ ?_]
        · exact hempty
        · exact one_sub_ne _ ((top_injective heq).trans hactive.symm)
      · exact absurd (hnot.symm.trans hprogress) (by simp)
    | @copy src pos hw => exact absurd (by rw [hw]; rfl) (hsource src)
    | @truncate src hw => exact absurd (by rw [hw]; rfl) (hsource src)
  | swaps _ _ hm => exact absurd (hm'.symm.trans hm) (by simp)
  | @ends src hact hw _ ha =>
    obtain ⟨-, hsrc, -, -⟩ := hcontrol.merging src (by rw [hw]; rfl)
    have hplace := hcontents.place
    rw [hw, hsrc] at hplace
    subst hact
    rw [ha]
    generalize s'.index = index at hchanges
    cases hchanges
    exact hplace

/-- The tuples `W` are in the base index, or in the top index that is being merged. -/
def Moved (W : IndexTuple D → Prop) (s : State ι B) : Prop :=
  ∀ x, W x → x ∈ s.index base ∨
    s.entry.mergeInProgress = true ∧ x ∈ s.index (top (1 - s.entry.activeIndex))

theorem Moved.step {W : IndexTuple D → Prop} (hcontrol : s.Control) (hcontents : s.Contents)
    (h : s.Moved W) {act : Action ι B} (hstep : s.step act = some s') : s'.Moved W := by
  have hchanges := hcontents.changes hstep
  intro x hx
  rcases h x hx with hbase | ⟨hm, htop⟩
  · exact Or.inl (hchanges.base_subset hbase)
  · cases turns_step hstep with
    | stays _ hm' ha =>
      rw [hm', hm, ha]
      exact (hchanges.top_subset _ htop).symm.imp_right fun h ↦ ⟨rfl, h⟩
    | swaps _ hnot => exact absurd (hnot.symm.trans hm) (by simp)
    | @ends src hact hw =>
      -- the index has been truncated
      obtain ⟨-, hsrc, -, -⟩ := hcontrol.merging src (by rw [hw]; rfl)
      have hplace := hcontents.place
      rw [hw, hsrc] at hplace
      rw [show s.index (top (1 - s.entry.activeIndex)) = [] from hplace] at htop
      exact absurd htop List.not_mem_nil

omit [DecidableEq ι] [Fintype ι] in
/-- After a merge has begun, what was in the active index and in the base index is on its way. -/
theorem moved_startMerge (hm : s.entry.mergeInProgress = false) :
    s.startMergeSection.Moved fun x ↦ x ∈ s.index (top s.entry.activeIndex) ∨ x ∈ s.index base := by
  have hindex : s.startMergeSection.index = s.index := s.sameIndexes_startMergeSection.index
  have hturns : s.startMergeSection.entry.mergeInProgress = true ∧
      s.startMergeSection.entry.activeIndex = s.entry.activeIndex ^^^ 1 := by
    rw [startMergeSection, if_neg (by simp [hm])]
    dsimp only
    split_ifs
    · rw [requestMerge_eq]
      exact ⟨rfl, rfl⟩
    · exact ⟨rfl, rfl⟩
  intro x hx
  rw [hindex, hturns.1, hturns.2, xor_one, one_sub_one_sub]
  exact hx.symm.imp_right fun h ↦ ⟨rfl, h⟩

omit [DecidableEq ι] [Fintype ι] in
theorem tidy_build {topIndexSize : UInt32} {heap : List (IndexTuple D)} :
    (build topIndexSize heap : State ι B).Tidy := by
  intro _
  rw [index_build, if_neg (top_ne_base _)]

/-- Inserts are of new tuples, and a restart finds one of the top indexes empty and does not make it the
active one. -/
def TidyEvent (s : State ι B) : Event ι B → Prop
  | .step act => Fresh s act
  | .restart topIndexSize size => (s.restart topIndexSize size).Tidy

/-- The three invariants of a life in which restarts are like that. -/
theorem tidy_live {topIndexSize : UInt32} {heap : List (IndexTuple D)} {events : List (Event ι B)}
    (htidy : Along live TidyEvent (build topIndexSize heap) events)
    (hlive : run live (build topIndexSize heap) events = some s) : s.Control ∧ s.Contents ∧ s.Tidy := by
  have hstep : ∀ (s : State ι B) event s', s.Control ∧ s.Contents ∧ s.Tidy → TidyEvent s event →
      s.live event = some s' → s'.Control ∧ s'.Contents ∧ s'.Tidy := by
    rintro s event s' ⟨hcontrol, hcontents, h⟩ htidy hlive
    cases event with
    | step act => exact ⟨hcontrol.step hlive, hcontents.step hcontrol htidy hlive, h.step hcontrol hcontents hlive⟩
    | restart topIndexSize size =>
      obtain rfl := Option.some.inj hlive
      exact ⟨Control.restart _, hcontents.restart _, htidy⟩
  exact run_invariant_along hstep ⟨Control.build, Contents.build, tidy_build⟩ htidy hlive

/-- What is on its way arrives, or is still on its way. -/
theorem moved_run {W : IndexTuple D → Prop} (hcontrol : s.Control) (hcontents : s.Contents) (h : s.Moved W)
    {acts : List (Action ι B)} (hfresh : Along step Fresh s acts) (hrun : run step s acts = some s') :
    s'.Moved W := by
  have hstep : ∀ (s : State ι B) act s', s.Control ∧ s.Contents ∧ s.Moved W → Fresh s act →
      s.step act = some s' → s'.Control ∧ s'.Contents ∧ s'.Moved W :=
    fun _ _ _ ⟨hcontrol, hcontents, h⟩ hfresh hs ↦
      ⟨hcontrol.step hs, hcontents.step hcontrol hfresh hs, h.step hcontrol hcontents hs⟩
  exact (run_invariant_along hstep ⟨hcontrol, hcontents, h⟩ hfresh hrun).2.2

/-- **A merge on demand**: when `lsm3_start_merge` begins a merge and later, after any steps of the other
processes, no merge is in progress, every tuple that was in one of the indexes before is in the base
index.

A restart before that leaves one of the top indexes empty and does not make it the active one (`TidyEvent`).
After any other restart the merge may leave the tuples of one of the top indexes where they are. -/
theorem merged_of_run {topIndexSize : UInt32} {heap : List (IndexTuple D)} {events : List (Event ι B)}
    {acts : List (Action ι B)} (htidy : Along live TidyEvent (build topIndexSize heap) events)
    (hlive : run live (build topIndexSize heap) events = some s) (hm : s.entry.mergeInProgress = false)
    (hfresh : Along step Fresh s (.startMerge :: acts)) (hrun : run step s (.startMerge :: acts) = some s')
    (hm' : s'.entry.mergeInProgress = false) {x : IndexTuple D} (hx : s.Holds x) : x ∈ s'.index base := by
  obtain ⟨hcontrol, hcontents, htidy⟩ := tidy_live htidy hlive
  obtain ⟨s₁, hstart, hrun⟩ := run_cons_eq_some.mp hrun
  have hcontrol₁ := hcontrol.step hstart
  have hcontents₁ := hcontents.step hcontrol hfresh.1 hstart
  have hfresh₁ := hfresh.2 s₁ hstart
  obtain rfl : s.startMergeSection = s₁ := Option.some.inj hstart
  have hmoved := moved_run hcontrol₁ hcontents₁ (moved_startMerge hm) hfresh₁ hrun
  have hW : x ∈ s.index (top s.entry.activeIndex) ∨ x ∈ s.index base := by
    obtain ⟨i, hi⟩ := hx
    rcases eq_top_or_base i s.entry.activeIndex with rfl | rfl | rfl
    · exact Or.inl hi
    · rw [htidy hm] at hi
      exact absurd hi List.not_mem_nil
    · exact Or.inr hi
  exact (hmoved x hW).resolve_right fun h ↦ absurd (hm'.symm.trans h.1) (by simp)

instance [DecidableEq (IndexTuple D)] (s : State ι B) (act : Action ι B) : Decidable (Fresh s act) :=
  inferInstanceAs (Decidable (∀ itup ∈ act.inserted, ¬s.Holds itup))

instance [DecidableEq (IndexTuple D)] (s : State ι B) : ∀ event : Event ι B, Decidable (TidyEvent s event)
  | .step act => inferInstanceAs (Decidable (Fresh s act))
  | .restart topIndexSize size =>
    inferInstanceAs (Decidable ((s.restart topIndexSize size).entry.mergeInProgress = false →
      (s.restart topIndexSize size).index (top (1 - (s.restart topIndexSize size).entry.activeIndex)) = []))

/-- Two inserts with a restart between them. -/
def twoInserts : List (Event Unit numberTrees) :=
  (insertFirst 1).map .step ++ .restart 0 ![1, 0] :: (insertFirst 2).map .step

/-- The two tuples are merged. -/
def mergeTwo : List (Action Unit numberTrees) := mergeBegins ++ [.next (), .doinsert] ++ mergeEnds

/-- A tuple is inserted before a restart and one after it, and then both are merged. -/
theorem merged_of_run_twoInserts : ∃ s s', run live emptyIndex twoInserts = some s ∧
    run step s (.startMerge :: mergeTwo) = some s' ∧ tuple 1 ∈ s'.index base := by
  have hinserts : (run live emptyIndex twoInserts).any (fun s ↦ !s.entry.mergeInProgress &&
      decide (s.Holds (tuple 1)) && decide (Along step Fresh s (.startMerge :: mergeTwo)) &&
      (run step s (.startMerge :: mergeTwo)).any (fun s' ↦ !s'.entry.mergeInProgress)) = true := by decide
  obtain ⟨s, hlive, hs⟩ := (Option.any_eq_true _ _).mp hinserts
  simp only [Bool.and_eq_true, Bool.not_eq_true', decide_eq_true_eq] at hs
  obtain ⟨⟨⟨hm, hx⟩, hfresh⟩, hmerge⟩ := hs
  obtain ⟨s', hrun, hm'⟩ := (Option.any_eq_true _ _).mp hmerge
  exact ⟨s, s', hlive, hrun, merged_of_run (by decide) hlive hm hfresh hrun (by simpa using hm') hx⟩

/-! ## The number of merges -/

/-- Merges that have come to their end since the server was started. -/
def finished (k : ℕ) : Event ι B → ℕ
  | .step .finish => k + 1
  | .step _ => k
  | .restart _ _ => 0

omit [DecidableEq ι] [Fintype ι] in
theorem finished_of_ne {act : Action ι B} (hact : act ≠ .finish) (k : ℕ) : finished k (.step act) = k := by
  cases act with
  | finish => exact absurd rfl hact
  | _ => rfl

/-- **The number of merges** that `lsm3_get_merge_count` returns: those that have come to their end since the
server was started, and the one that is in progress. -/
theorem nMerges_live {topIndexSize : UInt32} {heap : List (IndexTuple D)} {events : List (Event ι B)}
    (hlive : run live (build topIndexSize heap) events = some s) :
    s.entry.nMerges =
      UInt64.ofNat (events.foldl finished 0 + if s.entry.mergeInProgress = true then 1 else 0) := by
  suffices h : s.Control ∧ s.entry.nMerges =
      UInt64.ofNat (events.foldl finished 0 + if s.entry.mergeInProgress = true then 1 else 0) from h.2
  induction events using List.reverseRecOn generalizing s with
  | nil =>
    obtain rfl := Option.some.inj hlive
    exact ⟨Control.build, rfl⟩
  | append_singleton events event ih =>
    rw [run_append, Option.bind_eq_some_iff] at hlive
    obtain ⟨s₁, hlive, hlast⟩ := hlive
    obtain ⟨s₂, hevent, hnil⟩ := run_cons_eq_some.mp hlast
    obtain rfl := Option.some.inj hnil
    obtain ⟨hcontrol, hcount⟩ := ih hlive
    refine ⟨hcontrol.live hevent, ?_⟩
    rw [List.foldl_append, List.foldl_cons, List.foldl_nil]
    cases event with
    | restart =>
      obtain rfl := Option.some.inj hevent
      rfl
    | step act =>
      cases turns_step hevent with
      | stays hact hm _ hn => rw [hn, hm, finished_of_ne hact, hcount]
      | swaps hact hm hm' _ hn =>
        rw [hn, hcount, hm, hm', finished_of_ne hact]
        simp
      | @ends src hact hw hm _ hn =>
        have hm₁ := (hcontrol.merging src (by rw [hw]; rfl)).1
        rw [hn, hcount, hm, hm₁, hact, finished]
        simp

/-- Two merges on demand, of which the first comes to its end. -/
def startTwice : List (Action Unit numberTrees) :=
  insertFirst 1 ++ .startMerge :: mergeBegins ++ mergeEnds ++ [.startMerge]

/-- The first merge has come to its end and the second has begun. -/
theorem nMerges_live_startTwice :
    ∃ s, run live emptyIndex (startTwice.map .step) = some s ∧ s.entry.nMerges = 2 := by
  refine exists_of_isSome rfl fun s hrun ↦ ?_
  have hcount := nMerges_live hrun
  have hm : (run live emptyIndex (startTwice.map .step)).all (fun s ↦ s.entry.mergeInProgress) = true := rfl
  rw [hrun] at hm
  rw [hcount, if_pos (show s.entry.mergeInProgress = true from hm)]
  rfl

end State

end Lsm3

end ScratchStore
