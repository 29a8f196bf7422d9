import ScratchStore.Lsm3.Merges

/-!
# Scans while tuples are inserted and merged

A tuple is in one index only, but for those that the merger has put into the base index and has not
truncated yet.  A scan holds a lock on the top indexes, so none of them is truncated before it ends, and the
indexes only grow.  This is what a scan needs, so it returns every tuple that was there when it began.

* `State.Distinct` says where a tuple may be twice, and `State.Sound` has all the invariants of the indexes.
  They are true in a life in which no tuple is inserted twice and no restart is in the middle of a merge
  (`State.CleanEvent`): such a restart leaves tuples in two indexes that are merged again.
* `State.During` are the contents of an index at the times of a run, and `State.run_during_scan` that they
  only grow as long as a scan is open.
* `State.fetch_run`: what a scan returns, whose every page shows an index as it is at some time of the run
  (`State.Fetched`).  Each call reads `active_index` twice, and this is for calls that read the same.

The lock matters in one place.  While a scan is open `truncate` is not possible, so `Changes.subset` has
only insertions to look at, and a tuple that is in an index stays there.  Without it the merger could take a
tuple out of a top index after the scan has been in the base index and before it comes to that one.

A tuple that the merger is moving is in two indexes.  The scan sees it twice, one after the other, since it
has the same keys and the same row, and the loop of `lsm3_gettuple` skips the second.
-/

set_option autoImplicit false

namespace ScratchStore

namespace Lsm3

open PageScan Runs

variable {n : ℕ} {D : Fin n → Type} {sortKeys : SortKeys D} {B : NBTree sortKeys} {ι : Type}
  {s s' : State ι B}

namespace State

/-- No tuple is in an index twice, or in two of them unless the merger has just put it there. -/
structure Distinct (s : State ι B) : Prop where
  nodup : (s.index base).Nodup
  /-- The top indexes have no tuple in common. -/
  tops : ∀ a, ∀ x ∈ s.index (top a), x ∉ s.index (top (1 - a))
  /-- A top index and the base index have only those in common that the merger has left behind. -/
  below : ∀ a, ∀ x ∈ s.index (top a), (s.merger.source = some a → s.merger.Left x) →
    x ∉ s.index base

theorem Distinct.build {topIndexSize : UInt32} {heap : List (IndexTuple D)} (hheap : heap.Nodup) :
    (build topIndexSize heap : State ι B).Distinct := by
  have hempty : ∀ a, (State.build topIndexSize heap : State ι B).index (top a) = [] := fun a ↦ by
    rw [index_build, if_neg (top_ne_base a)]
  refine ⟨?_, fun a x hx ↦ ?_, fun a x hx ↦ ?_⟩
  · rw [index_build, if_pos rfl]
    exact (B.perm_btbuild heap).nodup_iff.mpr hheap
  · rw [hempty a] at hx
    exact absurd hx List.not_mem_nil
  · rw [hempty a] at hx
    exact absurd hx List.not_mem_nil

/-- A step that leaves the indexes alone, and after which the merger has no more left to do than before. -/
theorem Distinct.frame (h : s.Distinct) (hindex : s'.index = s.index)
    (hleft : ∀ a, ∀ x ∈ s.index (top a), (s'.merger.source = some a → s'.merger.Left x) →
      s.merger.source = some a → s.merger.Left x) : s'.Distinct := by
  refine ⟨hindex ▸ h.nodup, hindex ▸ h.tops, fun a x hx hleft' ↦ ?_⟩
  rw [hindex] at hx ⊢
  exact h.below a x hx (hleft a x hx hleft')

theorem Distinct.restart (h : s.Distinct) (hsource : s.merger.source = none) (topIndexSize : UInt32)
    (size : Fin 2 → ℕ) : (s.restart topIndexSize size).Distinct :=
  h.frame rfl fun _ _ _ _ hsrc ↦ absurd (hsource.symm.trans hsrc) (by simp)

/-- A new tuple is put into a top index. -/
theorem Distinct.btinsert (h : s.Distinct) {itup : IndexTuple D} {a : Fin 2} (hnew : ∀ i, itup ∉ s.index i)
    (hindex : ∀ i, s'.index i = if i = top a then B.btinsert itup (s.index (top a)) else s.index i)
    (hmerger : s'.merger = s.merger) : s'.Distinct := by
  refine ⟨?_, fun c x hx ↦ ?_, fun c x hx hleft ↦ ?_⟩
  · rw [hindex, if_neg (top_ne_base a).symm]
    exact h.nodup
  · rw [hindex] at hx ⊢
    by_cases hca : c = a
    · subst hca
      rw [if_pos rfl, B.btinsert_spec.mem_iff] at hx
      rw [if_neg fun heq ↦ one_sub_ne c (top_injective heq)]
      rcases hx with rfl | hx
      · exact hnew _
      · exact h.tops c x hx
    · have hne : top c ≠ top a := fun heq ↦ hca (top_injective heq)
      rw [if_neg hne] at hx
      rw [ne_iff_eq_one_sub.mp hca, if_pos rfl, B.btinsert_spec.mem_iff, not_or]
      exact ⟨fun heq ↦ hnew _ (heq ▸ hx), h.tops c x hx⟩
  · rw [hmerger] at hleft
    rw [hindex] at hx
    rw [hindex, if_neg (top_ne_base a).symm]
    split at hx
    · next hca =>
      rcases B.btinsert_spec.mem_iff.mp hx with rfl | hx
      · exact hnew _
      · exact h.below a x hx (top_injective hca ▸ hleft)
    · exact h.below c x hx hleft

/-- The merger puts the tuple it is at into the base index, and leaves it behind. -/
theorem Distinct.doinsert (h : s.Distinct) {src : Fin 2} {pos : B.Pos} (hw : s.merger = .doinsert src pos)
    (hmem : B.item pos ∈ s.index (top src)) :
    ({ s.setIndex base (B.doinsert (B.item pos) (s.index base)) with
      merger := .next src pos } : State ι B).Distinct := by
  have hbelow := h.below
  rw [hw] at hbelow
  refine ⟨?_, fun c x hx ↦ ?_, fun c x hx hleft ↦ ?_⟩
  · rw [index_setIndex, if_pos rfl]
    exact B.doinsert_spec.nodup h.nodup (hbelow src _ hmem fun _ ↦ irrefl_of _ (B.item pos))
  · rw [index_setIndex, if_neg (top_ne_base _)] at hx ⊢
    exact h.tops c x hx
  · rw [index_setIndex, if_neg (top_ne_base _)] at hx
    rw [index_setIndex, if_pos rfl, B.doinsert_spec.mem_iff, not_or]
    by_cases hcs : c = src
    · subst hcs
      have hlt : before sortKeys .forward (B.item pos) x := hleft rfl
      exact ⟨fun heq ↦ irrefl_of _ _ (heq ▸ hlt), hbelow c x hx fun _ ↦ asymm_of _ hlt⟩
    · refine ⟨fun heq ↦ ?_, hbelow c x hx fun hsrc ↦ absurd (Option.some.inj hsrc).symm hcs⟩
      have hother := h.tops c x hx
      rw [← ne_iff_eq_one_sub.mp hcs, heq] at hother
      exact hother hmem

/-- A top index is truncated. -/
theorem Distinct.truncate (h : s.Distinct) {src : Fin 2} (hw : s.merger = .truncate src) :
    ({ s.setIndex (top src) [] with merger := .finish src } : State ι B).Distinct := by
  have hsub : ∀ c, ∀ x ∈ (if top c = top src then [] else s.index (top c)), c ≠ src ∧ x ∈ s.index (top c) := by
    intro c x hx
    split at hx
    · exact absurd hx List.not_mem_nil
    · exact ⟨fun heq ↦ ‹¬top c = top src› (heq ▸ rfl), hx⟩
  refine ⟨?_, fun c x hx ↦ ?_, fun c x hx hleft ↦ ?_⟩
  · rw [index_truncate, if_neg (top_ne_base src).symm]
    exact h.nodup
  · rw [index_truncate] at hx ⊢
    exact fun hx' ↦ h.tops c x (hsub c x hx).2 (hsub _ x hx').2
  · rw [index_truncate] at hx
    rw [index_truncate, if_neg (top_ne_base src).symm]
    obtain ⟨hne, hx⟩ := hsub c x hx
    refine h.below c x hx fun hsrc ↦ ?_
    rw [hw] at hsrc
    exact absurd (Option.some.inj hsrc).symm hne

/-- The merger goes on to the next tuple, or to the end of its index. -/
theorem Distinct.next (hcontents : s.Contents) (h : s.Distinct) {src : Fin 2} {pos : B.Pos}
    (hw : s.merger = .next src pos) (layout : B.Layout) :
    (s.merging src (B.next .forward (fun _ ↦ true) (still (s.index (top src)) layout) pos)).Distinct := by
  have hplace := hcontents.place
  rw [hw] at hplace
  have hnext := Scanner.next_still layout (hcontents.sorted src) hplace
  refine h.frame (index_merging _ _ _) fun a x _ hleft hsrc ↦ ?_
  rw [hw] at hsrc ⊢
  obtain rfl := Option.some.inj hsrc
  cases hq : B.next .forward (fun _ ↦ true) (still (s.index (top src)) layout) pos with
  | none =>
    rw [hq] at hleft
    exact (hleft rfl).elim
  | some q =>
    rw [hq] at hnext hleft
    have hlt : before sortKeys .forward (B.item pos) (B.item q) := hnext.1
    rcases trichotomous_of (before sortKeys .forward) (B.item q) x with hgt | rfl | hback
    · exact trans_of _ hlt hgt
    · exact hlt
    · exact absurd hback (hleft rfl)

variable [Fintype ι]

/-- A section under the spinlock. -/
theorem Distinct.section (hcontrol : s.Control) (h : s.Distinct) (hsame : s.SameIndexes s') :
    s'.Distinct := by
  refine h.frame hsame.index fun a x _ hleft hsrc ↦ ?_
  rcases hsame.merger with hm | ⟨hnone, -⟩
  · rw [hm] at hleft
    exact hleft hsrc
  · -- there is no merger
    have habsent := hcontrol.launched.mp hnone
    simp [habsent, Merger.source] at hsrc

variable [DecidableEq ι]

/-- **Every step keeps the tuples apart.** -/
theorem Distinct.step (hcontrol : s.Control) (hcontents : s.Contents) (h : s.Distinct)
    {act : Action ι B} (hfresh : Fresh s act) (hstep : s.step act = some s') :
    s'.Distinct := by
  cases step_cases hstep with
  | @btinsert b itup a m hb =>
    exact h.btinsert (fun i hi ↦ hfresh itup rfl ⟨i, hi⟩) (fun i ↦ s.index_setIndex (top a) i _) rfl
  | @doinsert src pos hw =>
    have hplace := hcontents.place
    rw [hw] at hplace
    exact h.doinsert hw (Scanner.At.mem (hcontents.sorted src) hplace)
  | truncate hw => exact h.truncate hw
  | leave hb => exact h.section hcontrol (s.sameIndexes_leaveSection _ _ _)
  | startMerge => exact h.section hcontrol s.sameIndexes_startMergeSection
  | enter | testMerge | testInserts | testSize | abort | openIndex | executorFinish | closeIndex | beginscan
  | endscan => exact h.frame rfl fun _ _ _ hleft hsrc ↦ hleft hsrc
  | waitLatch hw | cancel hw | resetLatch hw | noRequest hw | exit hw | request hw =>
    refine h.frame rfl fun a x _ _ hsrc ↦ ?_
    simp [hw, Merger.source] at hsrc
  | @first src hw layout =>
    refine h.frame (index_merging _ _ _) fun a x _ _ _ ↦ ?_
    rw [hw]
    trivial
  | next hw layout => exact h.next hcontents hw layout
  | @finish src hw =>
    have hplace := hcontents.place
    rw [hw] at hplace
    refine h.frame rfl fun a x hx _ hsrc ↦ ?_
    rw [hw] at hsrc
    obtain rfl := Option.some.inj hsrc
    rw [show s.index (top src) = [] from hplace] at hx
    exact absurd hx List.not_mem_nil

/-! ## While a scan is open

The indexes grow, and what a page shows is between what they had in the beginning and what they have in
the end. -/

omit [Fintype ι] [DecidableEq ι] in
/-- The indexes only grow as long as there is a scan. -/
theorem Changes.subset {act : Action ι B} {index : Fin 3 → Index D} (h : s.Changes act index)
    (hscans : s.scans ≠ ∅) (i : Fin 3) : s.index i ⊆ index i := by
  have hgrow : ∀ {insert : IndexTuple D → Index D → Index D}, Inserts sortKeys insert →
      ∀ (j : Fin 3) (itup : IndexTuple D), s.index i ⊆ Function.update s.index j (insert itup (s.index j)) i := by
    intro insert hinsert j itup x hx
    rw [Function.update_apply]
    split
    · next heq => exact hinsert.mem_iff.mpr (Or.inr (heq ▸ hx))
    · exact hx
  cases h with
  | nothing => exact List.Subset.refl _
  | insert => exact hgrow B.btinsert_spec _ _
  | copy => exact hgrow B.doinsert_spec _ _
  | truncate _ hnone => exact absurd hnone hscans

/-- A scan is open until it is ended. -/
theorem scans_step {act : Action ι B} (hstep : s.step act = some s') {k : ℕ} (hk : k ∈ s.scans)
    (hact : act ≠ .endscan k) : k ∈ s'.scans := by
  cases step_cases hstep with
  | leave hb => exact (s.sameIndexes_leaveSection _ _ _).scans ▸ hk
  | startMerge => exact s.sameIndexes_startMergeSection.scans ▸ hk
  | beginscan => exact Finset.mem_insert_of_mem hk
  | endscan => exact Finset.mem_erase.mpr ⟨fun heq ↦ hact (heq ▸ rfl), hk⟩
  | first | next =>
    rw [scans_merging]
    exact hk
  | _ => exact hk

/-- The invariants of the indexes, together. -/
structure Sound (s : State ι B) : Prop where
  control : s.Control
  contents : s.Contents
  distinct : s.Distinct

theorem Sound.step (h : s.Sound) {act : Action ι B} (hfresh : Fresh s act)
    (hstep : s.step act = some s') : s'.Sound :=
  ⟨h.control.step hstep, h.contents.step h.control hfresh hstep,
    h.distinct.step h.control h.contents hfresh hstep⟩

/-- Inserts are of new tuples, and the server is not restarted in the middle of a merge. -/
def CleanEvent (s : State ι B) : Event ι B → Prop
  | .step act => Fresh s act
  | .restart _ _ => s.merger.source = none

theorem sound_live {topIndexSize : UInt32} {heap : List (IndexTuple D)} {events : List (Event ι B)}
    (hheap : heap.Nodup) (hclean : Along live CleanEvent (build topIndexSize heap) events)
    (hrun : run live (build topIndexSize heap) events = some s) : s.Sound := by
  have hlive : ∀ (s : State ι B) event s', s.Sound → CleanEvent s event →
      live s event = some s' → s'.Sound := by
    intro s event s' h hclean hevent
    cases event with
    | step act => exact h.step hclean hevent
    | restart size =>
      obtain rfl := Option.some.inj hevent
      exact ⟨Control.restart _, h.contents.restart _, h.distinct.restart hclean _ _⟩
  exact run_invariant_along hlive ⟨Control.build, Contents.build, Distinct.build hheap⟩ hclean hrun

omit [DecidableEq ι] in
/-- Every index is in the order of a scan. -/
theorem Sound.sorted (h : s.Sound) (i : Fin 3) : Sorted sortKeys (s.index i) := by
  refine (h.contents.ordered i).pairwise ?_
  rcases eq_top_or_base i 0 with rfl | rfl | rfl
  · exact h.contents.nodup _
  · exact h.contents.nodup _
  · exact h.distinct.nodup

/-- What an index is at some time of a run. -/
def During (s : State ι B) (acts : List (Action ι B)) (i : Fin 3)
    (index : Index D) : Prop :=
  ∃ pre post t, acts = pre ++ post ∧ run step s pre = some t ∧ index = t.index i

/-- As long as a scan is open the indexes grow, and they are in order all the time. -/
theorem run_during_scan {acts : List (Action ι B)} (h : s.Sound)
    (hfresh : Along step Fresh s acts) {k : ℕ} (hk : k ∈ s.scans) (hopen : .endscan k ∉ acts)
    (hrun : run step s acts = some s') :
    s'.Sound ∧ k ∈ s'.scans ∧ ∀ i, s.index i ⊆ s'.index i := by
  induction acts generalizing s with
  | nil =>
    obtain rfl := Option.some.inj hrun
    exact ⟨h, hk, fun i ↦ List.Subset.refl _⟩
  | cons act acts ih =>
    rw [List.mem_cons, not_or] at hopen
    obtain ⟨hact, hopen⟩ := hopen
    obtain ⟨s₁, hstep, hrun⟩ := run_cons_eq_some.mp hrun
    have hsub := (h.contents.changes hstep).subset (Finset.ne_empty_of_mem hk)
    obtain ⟨h', hk', hsub'⟩ := ih (h.step hfresh.1 hstep) (hfresh.2 s₁ hstep)
      (scans_step hstep hk (Ne.symm hact)) hopen hrun
    exact ⟨h', hk', fun i ↦ List.Subset.trans (hsub i) (hsub' i)⟩

/-- What a page shows that is read while the scan is open. -/
theorem shows_during {acts : List (Action ι B)} (scan : IndexScan D) (h : s.Sound)
    (hfresh : Along step Fresh s acts) {k : ℕ} (hk : k ∈ s.scans) (hopen : .endscan k ∉ acts)
    (hrun : run step s acts = some s') {i : Fin 3} {index : Index D}
    (hindex : During s acts i index) :
    Shows (Sorted sortKeys) scan.want ((s.index i).filter scan.want)
      (fun x ↦ scan.want x = true ∧ s'.Holds x) index := by
  obtain ⟨pre, post, t, rfl, hpre, rfl⟩ := hindex
  rw [List.mem_append, not_or] at hopen
  obtain ⟨ht, hkt, hsub⟩ := run_during_scan h hfresh.left_of_append hk hopen.1 hpre
  rw [run_append, hpre, Option.bind_some] at hrun
  have hsub' := (run_during_scan ht (hfresh.of_append hpre) hkt hopen.2 hrun).2.2
  exact ⟨fun x hx ↦ hsub i (List.mem_filter.mp hx).1, ht.sorted i, fun x hx hwant ↦
    ⟨hwant, i, hsub' i hx⟩⟩

omit [DecidableEq ι] [Fintype ι] in
/-- A scan does not return more tuples than the indexes hold. -/
theorem length_le_of_holds {dir : ScanDirection} {l : List (IndexTuple D)}
    (hl : l.Pairwise (before sortKeys dir)) (hholds : ∀ t ∈ l, s.Holds t) :
    l.length ≤ ((List.finRange 3).flatMap s.index).length := by
  have hnodup : l.Nodup := hl.imp fun {a b} hlt (heq : a = b) ↦
    irrefl_of (before sortKeys dir) b (by rwa [heq] at hlt)
  refine (hnodup.subperm fun t ht ↦ ?_).length_le
  obtain ⟨i, hi⟩ := hholds t ht
  exact List.mem_flatMap.mpr ⟨i, List.mem_finRange i, hi⟩

/-- What a scan returns that is opened at `s` and goes on until `s'`: tuples in order and each of them once,
only what is wanted and in one of the indexes, and what was there in the beginning, unless the scan has not
come so far. -/
structure Fetched (scan : IndexScan D) (dir : ScanDirection) (s s' : State ι B)
    (r : List (IndexTuple D) × Bool) : Prop where
  /-- In the order of the scan, and so each of them once. -/
  ordered : r.1.Pairwise (before sortKeys dir)
  /-- Only what is wanted and in one of the indexes. -/
  sound : ∀ t ∈ r.1, scan.want t = true ∧ s'.Holds t
  /-- All that was there, as far as the scan has come. -/
  complete : ∀ x, s.Holds x → scan.want x = true → x ∈ r.1 ∨ r.2 = false ∧ ∀ t ∈ r.1, before sortKeys dir t x

/-- **A scan while tuples are inserted and merged**, of which every page shows an index as it is at some time
while the scan is open.  It comes to its end.

Before the scan there may be any number of merges and restarts, but no restart in the middle of a merge: that
leaves tuples that are in two indexes for as long as nobody merges them again. -/
theorem fetch_run {topIndexSize : UInt32} {heap : List (IndexTuple D)} {events : List (Event ι B)}
    {acts : List (Action ι B)} (scan : IndexScan D) (dir : ScanDirection) {k : ℕ} {vs : List (View B)}
    (hheap : heap.Nodup) (hclean : Along live CleanEvent (build topIndexSize heap) events)
    (hlive : run live (build topIndexSize heap) events = some s) (hk : k ∈ s.scans)
    (hfresh : Along step Fresh s acts) (hopen : .endscan k ∉ acts)
    (hrun : run step s acts = some s') (hplain : ¬(scan.unique = true ∧ scan.numberOfKeys = n))
    (hvs : ∀ v ∈ vs, v.activeIndex' = v.activeIndex ∧ v.Reads (During s acts)) :
    Fetched scan dir s s' (fetch scan dir vs rescan) ∧
      (((List.finRange 3).flatMap s'.index).length < vs.length →
        (fetch scan dir vs rescan).2 = true) := by
  have h := sound_live hheap hclean hlive
  have hsees : ∀ v ∈ vs, v.activeIndex' = v.activeIndex ∧ v.Sees scan
      (fun i ↦ (s.index i).filter scan.want) (fun x ↦ scan.want x = true ∧ s'.Holds x) := by
    intro v hv
    obtain ⟨hactive, hadvance, hfirst, hskip⟩ := hvs v hv
    have hshows : ∀ {i index}, During s acts i index → _ := fun hindex ↦
      shows_during scan h hfresh hk hopen hrun hindex
    exact ⟨hactive, fun i k ↦ hshows (hadvance i k), fun j k ↦ hshows (hfirst j k), fun j k ↦ hshows (hskip j k)⟩
  obtain ⟨hordered, hsound, hcover, hlength⟩ := fetch_spec dir
    (fun i x hx ↦ (List.mem_filter.mp hx).2) hplain hsees scanning_rescan List.Pairwise.nil
    (fun _ ht ↦ nomatch ht)
  simp only [List.nil_append] at hordered hsound hcover
  refine ⟨⟨hordered, hsound, fun x ⟨i, hi⟩ hwant ↦ hcover i x (List.mem_filter.mpr ⟨hi, hwant⟩)⟩, fun hlong ↦ ?_⟩
  by_contra hmore
  have hle := length_le_of_holds hordered fun t ht ↦ (hsound t ht).2
  rw [hlength (Bool.eq_false_iff.mpr hmore)] at hle
  exact absurd hlong (not_lt.mpr hle)

/-! ## A scan while a merge goes on -/

instance [DecidableEq (IndexTuple D)] (s : State ι B) : ∀ event : Event ι B, Decidable (CleanEvent s event)
  | .step act => inferInstanceAs (Decidable (Fresh s act))
  | .restart _ _ => inferInstanceAs (Decidable (s.merger.source = none))

/-- What a call sees when the indexes do not change. -/
def view (s : State ι B) (a : Fin 2) : View B where
  activeIndex := a
  activeIndex' := a
  advance i := still (s.index i) B.layout
  first j := still (s.index (![top a, top (1 - a), base] j)) B.layout
  skip j := still (s.index (![top a, top (1 - a), base] j)) B.layout

omit [Fintype ι] [DecidableEq ι] in
theorem reads_view (s : State ι B) (a : Fin 2) {p : Fin 3 → Index D → Prop} (h : ∀ i, p i (s.index i)) :
    (s.view a).Reads p where
  advance i _ := h i
  first _ _ := h _
  skip _ _ := h _

/-- At the end of the run. -/
theorem during_end {acts : List (Action ι B)} (hrun : run step s acts = some s') (i : Fin 3) :
    During s acts i (s'.index i) := ⟨acts, [], s', (List.append_nil _).symm, hrun, rfl⟩

/-- When the scan is opened. -/
theorem during_self (s : State ι B) (acts : List (Action ι B)) (i : Fin 3) :
    During s acts i (s.index i) := ⟨[], acts, s, rfl, rfl, rfl⟩

/-- A scan without keys. -/
def everything : IndexScan (fun _ : Fin 1 ↦ ℕ) := ⟨fun _ ↦ true, 0, false⟩

/-- There are two tuples, and a scan is opened. -/
def scanTwo : List (Event Unit numberTrees) := (insertFirst 1 ++ insertNext 3 ++ [Action.beginscan 0]).map .step

/-- The first of them is in the base index already when another one is inserted. -/
def mergeMeanwhile : List (Action Unit numberTrees) :=
  .startMerge :: mergeBegins ++ [.enter () (tuple 2), .btinsert () (tuple 2)]

theorem exists_scanTwo : ∃ s s', run live emptyIndex scanTwo = some s ∧ run step s mergeMeanwhile = some s' ∧
    0 ∈ s.scans ∧ Along step Fresh s mergeMeanwhile := by
  have hrun : (run live emptyIndex scanTwo).any (fun s ↦ (run step s mergeMeanwhile).isSome &&
      decide (0 ∈ s.scans) && decide (Along step Fresh s mergeMeanwhile)) = true := by decide
  obtain ⟨s, hlive, hs⟩ := (Option.any_eq_true _ _).mp hrun
  simp only [Bool.and_eq_true, decide_eq_true_eq] at hs
  obtain ⟨s', hrun⟩ := Option.isSome_iff_exists.mp hs.1.1
  exact ⟨s, s', hlive, hrun, hs.1.2, hs.2⟩

/-- A scan of which the first call is before the merge and the others are after it. -/
theorem fetch_run_scanTwo : ∃ s s', run live emptyIndex scanTwo = some s ∧ run step s mergeMeanwhile = some s' ∧
    Fetched everything .forward s s'
      (fetch everything .forward [s.view 0, s'.view 1, s'.view 1, s'.view 1] rescan) := by
  obtain ⟨s, s', hlive, hrun, hk, hfresh⟩ := exists_scanTwo
  have hbegin := s.reads_view 0 (during_self s mergeMeanwhile)
  have hend := s'.reads_view 1 (during_end hrun)
  refine ⟨s, s', hlive, hrun, (fetch_run _ _ List.nodup_nil (by decide) hlive hk hfresh
    (by simp [mergeMeanwhile, mergeBegins]) hrun (by simp [everything]) ?_).1⟩
  simp only [List.forall_mem_cons]
  exact ⟨⟨rfl, hbegin⟩, ⟨rfl, hend⟩, ⟨rfl, hend⟩, ⟨rfl, hend⟩, List.forall_mem_nil _⟩

end State

end Lsm3

end ScratchStore
