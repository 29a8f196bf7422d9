import ScratchStore.Lsm3.Control

/-!
# What the indexes hold

What the merger has not put into the base index yet is behind the tuple it is at, and since nobody inserts
into the index it goes through, that index is in the base index when it is truncated.

* `Merger.Left` are the tuples that are left to the merger, and `Merger.At` is where it is in its index.
* `State.Placed` and `State.Contents` are the invariants of the B-trees, without and with the assumption that
  no tuple is inserted twice (`Fresh`).
* `State.Changes` is what a step can make of the indexes, and `State.Changes.holds` that it adds the tuple
  of an insert to what they hold, and nothing else.

## Why the indexes can be read like this

The merger reads one tuple after the other, with steps of all the others in between, but nobody inserts into its
index meanwhile (`Control.ne_source`).  So one list is enough for that index, and what `_bt_first` and `_bt_next`
may do is what they may do to an index that does not change: `Merger.At` says that the scan has got to its
place that way, and `Merger.Left` is what such a scan still returns.

`State.Placed` needs no tuple to be new.  It is what the merger relies on when it comes to its end
(`Lsm3.Progress`).  `State.Contents` adds that no index has a tuple twice, and from it follows what is lost and
what is not: nothing is behind the merger that is not in the base index.

A restart forgets the place of the merger.  Nothing is lost then either, since the index has not been truncated,
but some of its tuples are in the base index as well.
-/

set_option autoImplicit false

namespace ScratchStore

namespace Lsm3

open PageScan

variable {n : ℕ} {D : Fin n → Type} {sortKeys : SortKeys D} {B : NBTree sortKeys} {ι : Type}

/-- The tuple is in one of the indexes. -/
def State.Holds (s : State ι B) (x : IndexTuple D) : Prop := ∃ i, x ∈ s.index i

/-- The tuples of its index that the merger has not put into the base index yet. -/
def Merger.Left (x : IndexTuple D) : Merger B → Prop
  | .first _ => True
  | .doinsert _ pos => ¬before sortKeys .forward x (B.item pos)
  | .next _ pos => before sortKeys .forward (B.item pos) x
  | _ => False

/-- Where the merger is in its index. -/
def Merger.At (index : Fin 3 → Index D) : Merger B → Prop
  | .doinsert src pos | .next src pos => B.At .forward (index (top src)) pos
  | .finish src => index (top src) = []
  | _ => True

/-- The indexes are in order, and the merger has got to its place by reading its index. -/
structure State.Placed (s : State ι B) : Prop where
  ordered : ∀ i, (s.index i).Ordered sortKeys
  /-- The merger has read its index up to its place, and the other tuples are behind it. -/
  place : s.merger.At s.index

/-- The invariant of the indexes, when no tuple is inserted twice. -/
structure State.Contents (s : State ι B) : Prop extends Placed s where
  nodup : ∀ a, (s.index (top a)).Nodup
  copied : ∀ src, s.merger.source = some src → ∀ x ∈ s.index (top src),
    s.merger.Left x ∨ x ∈ s.index base

/-- The tuple that a step inserts. -/
def Action.inserted : Action ι B → Option (IndexTuple D)
  | .btinsert _ itup => some itup
  | _ => none

/-- Every insert is of a new tuple. -/
def Fresh (s : State ι B) (act : Action ι B) : Prop := ∀ itup ∈ act.inserted, ¬s.Holds itup

variable {s s' : State ι B}

namespace State

theorem Contents.sorted (h : s.Contents) (a : Fin 2) : Sorted sortKeys (s.index (top a)) :=
  (h.ordered _).pairwise (h.nodup a)

/-- A step that has nothing to do with the indexes. -/
theorem Placed.frame (h : s.Placed) (hindex : s'.index = s.index)
    (hmerger : s'.merger = s.merger ∨ s'.merger.source = none) : s'.Placed := by
  refine ⟨hindex ▸ h.ordered, ?_⟩
  rw [hindex]
  rcases hmerger with hm | hnone
  · exact hm ▸ h.place
  · cases hm : s'.merger <;> first | trivial | simp [hm, Merger.source] at hnone

theorem Contents.frame (h : s.Contents) (hindex : s'.index = s.index)
    (hmerger : s'.merger = s.merger ∨ s'.merger.source = none) : s'.Contents := by
  refine ⟨h.toPlaced.frame hindex hmerger, hindex ▸ h.nodup, fun src hsrc ↦ ?_⟩
  rw [hindex]
  rcases hmerger with hm | hnone
  · exact hm ▸ h.copied src (hm ▸ hsrc)
  · exact absurd (hnone.symm.trans hsrc) (by simp)

/-- The indexes and the scans are left alone, and so is the merger, if there is one. -/
structure SameIndexes (s s' : State ι B) : Prop where
  index : s'.index = s.index
  scans : s'.scans = s.scans
  merger : s'.merger = s.merger ∨ s.entry.merger = false ∧ s'.merger.source = none

/-- A section under the spinlock. -/
theorem Placed.section (h : s.Placed) (hsame : s.SameIndexes s') : s'.Placed :=
  h.frame hsame.index (hsame.merger.imp_right And.right)

theorem Contents.section (h : s.Contents) (hsame : s.SameIndexes s') : s'.Contents :=
  h.frame hsame.index (hsame.merger.imp_right And.right)

section Sections

variable (s)

theorem index_setIndex (i j : Fin 3) (index : Index D) :
    (s.setIndex i index).index j = if j = i then index else s.index j := by
  simp [setIndex, Function.update_apply]

/-- The indexes after a top index is truncated. -/
theorem index_truncate (src : Fin 2) (i : Fin 3) (merger : Merger B) :
    ({ s.setIndex (top src) [] with merger := merger } : State ι B).index i =
      if i = top src then [] else s.index i :=
  s.index_setIndex (top src) i []

theorem index_merging (src : Fin 2) (pos : Option B.Pos) : (s.merging src pos).index = s.index := by
  cases pos <;> rfl

theorem scans_merging (src : Fin 2) (pos : Option B.Pos) : (s.merging src pos).scans = s.scans := by
  cases pos <;> rfl

theorem sameIndexes_requestMerge : s.SameIndexes s.requestMerge := by
  rw [requestMerge_eq]
  refine ⟨rfl, rfl, ?_⟩
  dsimp only
  split
  · exact Or.inl rfl
  · exact Or.inr ⟨by simpa using ‹¬s.entry.merger = true›, rfl⟩

theorem sameIndexes_startMergeSection : s.SameIndexes s.startMergeSection := by
  rw [startMergeSection]
  split_ifs
  · exact ⟨rfl, rfl, Or.inl rfl⟩
  · dsimp only
    split_ifs
    · obtain ⟨hindex, hscans, hmerger⟩ := sameIndexes_requestMerge { s with entry := s.entry.switch }
      exact ⟨hindex, hscans, hmerger⟩
    · exact ⟨rfl, rfl, Or.inl rfl⟩

variable [DecidableEq ι]

@[simp] theorem index_setInsert (b : ι) (insert : Option (Insert D)) :
    (s.setInsert b insert).index = s.index := rfl

theorem sameIndexes_releaseLock (b : ι) (a : Fin 2) : s.SameIndexes (s.releaseLock b a) := by
  rw [releaseLock]
  split <;> exact ⟨rfl, rfl, Or.inl rfl⟩

theorem sameIndexes_duringMerge (b : ι) (a : Fin 2) : s.SameIndexes (s.duringMerge b a) := by
  obtain ⟨hindex, hscans, -⟩ := s.sameIndexes_releaseLock b (1 - a)
  rw [duringMerge]
  dsimp only
  split_ifs
  · obtain ⟨hindex', hscans', hmerger⟩ := (s.releaseLock b (1 - a)).sameIndexes_requestMerge
    rw [merger_releaseLock, entry_releaseLock] at hmerger
    exact ⟨hindex'.trans hindex, hscans'.trans hscans, hmerger⟩
  · exact s.sameIndexes_releaseLock b (1 - a)
  · exact ⟨rfl, rfl, Or.inl rfl⟩

/-- The second section of `lsm3_insert`. -/
theorem sameIndexes_leaveSection (b : ι) (ins : Insert D) (overflow : Bool) :
    s.SameIndexes ((s.setInsert b none).leaveSection b ins overflow) := by
  rw [leaveSection]
  split_ifs
  · obtain ⟨hindex, hscans, hmerger⟩ := sameIndexes_duringMerge
      { s.setInsert b none with entry := s.entry.switch.leave ins.activeIndex } b ins.activeIndex
    exact ⟨hindex, hscans, hmerger⟩
  · obtain ⟨hindex, hscans, hmerger⟩ := sameIndexes_duringMerge
      { s.setInsert b none with entry := s.entry.leave ins.activeIndex } b ins.activeIndex
    exact ⟨hindex, hscans, hmerger⟩

end Sections

/-- Where the merger is does not depend on the index that tuples are inserted into. -/
theorem at_congr (merger : Merger B) {index index' : Fin 3 → Index D}
    (h : ∀ src, merger.source = some src → index' (top src) = index (top src)) :
    merger.At index' ↔ merger.At index := by
  cases merger <;> simp_all [Merger.At, Merger.source]

/-- The merger after it has read its index. -/
theorem Placed.reads (h : s.Placed) {src : Fin 2} {pos : Option B.Pos}
    (hpos : ∀ p, pos = some p → B.At .forward (s.index (top src)) p) : (s.merging src pos).Placed := by
  cases pos with
  | none => exact ⟨h.ordered, trivial⟩
  | some p => exact ⟨h.ordered, hpos p rfl⟩

theorem Contents.reads (h : s.Contents) {src : Fin 2} {pos : Option B.Pos} (hplaced : (s.merging src pos).Placed)
    (hcopied : ∀ x ∈ s.index (top src),
      (∃ p, pos = some p ∧ ¬before sortKeys .forward x (B.item p)) ∨ x ∈ s.index base) :
    (s.merging src pos).Contents := by
  refine ⟨hplaced, (s.index_merging src pos).symm ▸ h.nodup, fun src' hsrc x hx ↦ ?_⟩
  cases pos with
  | none =>
    obtain rfl := Option.some.inj hsrc
    exact Or.inr ((hcopied x hx).resolve_left fun ⟨p, hp, _⟩ ↦ nomatch hp)
  | some p =>
    obtain rfl := Option.some.inj hsrc
    exact (hcopied x hx).imp_left fun ⟨q, hq, hle⟩ ↦ Option.some.inj hq ▸ hle

variable [Fintype ι]

/-- Nobody inserts into the index that is being merged. -/
theorem Control.ne_source (h : s.Control) {b : ι} {ins : Insert D} (hb : (s.backends b).insert = some ins)
    {src : Fin 2} (hsrc : s.merger.source = some src) : src ≠ ins.activeIndex := by
  rintro rfl
  have hpin : s.pins b = some (ins.activeIndex, ins.nMerges) := by rw [pins, hb]; rfl
  exact (h.count_pos hpin).ne' (h.merging _ hsrc).2.2.1

variable [DecidableEq ι]

/-- **Every step leaves the indexes in order**, whatever is inserted. -/
theorem Placed.step (hcontrol : s.Control) (h : s.Placed) {act : Action ι B} (hstep : s.step act = some s') :
    s'.Placed := by
  cases step_cases hstep with
  | @btinsert b itup a m hb =>
    refine ⟨fun i ↦ ?_, (at_congr s.merger fun src hsrc ↦ ?_).mpr h.place⟩
    · rw [index_setInsert, index_setIndex]
      split
      · exact B.btinsert_spec.ordered itup _ (h.ordered _)
      · exact h.ordered i
    · rw [index_setInsert, index_setIndex, if_neg fun heq ↦ hcontrol.ne_source hb hsrc (top_injective heq)]
  | request => exact ⟨h.ordered, trivial⟩
  | first => exact h.reads fun p hp ↦ .first hp
  | @doinsert src pos hw =>
    have hplace := h.place
    rw [hw] at hplace
    refine ⟨fun i ↦ ?_, (at_congr (.next src pos) fun c _ ↦ ?_).mpr hplace⟩
    · rw [index_setIndex]
      split
      · exact B.doinsert_spec.ordered _ _ (h.ordered _)
      · exact h.ordered i
    · rw [index_setIndex, if_neg (top_ne_base c)]
  | next hw =>
    have hplace := h.place
    rw [hw] at hplace
    exact h.reads fun p hp ↦ .next hplace hp
  | @truncate src hw hheld hscans =>
    refine ⟨fun i ↦ ?_, (s.index_truncate src _ _).trans (if_pos rfl)⟩
    rw [index_truncate]
    split
    · exact .nil
    · exact h.ordered i
  | leave hb => exact h.section (s.sameIndexes_leaveSection _ _ _)
  | startMerge => exact h.section s.sameIndexes_startMergeSection
  | enter | testMerge | testInserts | testSize | abort | openIndex | executorFinish | closeIndex | beginscan
  | endscan => exact h.frame rfl (Or.inl rfl)
  | waitLatch | cancel | resetLatch | noRequest | finish | exit => exact h.frame rfl (Or.inr rfl)

/-- **Every step keeps the invariant of the indexes.** -/
theorem Contents.step (hcontrol : s.Control) (h : s.Contents) {act : Action ι B} (hfresh : Fresh s act)
    (hstep : s.step act = some s') : s'.Contents := by
  have hplaced := h.toPlaced.step hcontrol hstep
  cases step_cases hstep with
  | @btinsert b itup a m hb =>
    have hne : ∀ src, s.merger.source = some src → top src ≠ top a := fun src hsrc heq ↦
      hcontrol.ne_source hb hsrc (top_injective heq)
    have hnew : itup ∉ s.index (top a) := fun hmem ↦ hfresh itup rfl ⟨_, hmem⟩
    refine ⟨hplaced, fun c ↦ ?_, fun src hsrc x hx ↦ ?_⟩
    · rw [index_setInsert, index_setIndex]
      split
      · exact B.btinsert_spec.nodup (h.nodup a) hnew
      · exact h.nodup c
    · rw [index_setInsert, index_setIndex, if_neg (hne src hsrc)] at hx
      rw [index_setInsert, index_setIndex, if_neg (top_ne_base a).symm]
      exact h.copied src hsrc x hx
  | request hw hs => exact ⟨hplaced, h.nodup, fun _ _ _ _ ↦ Or.inl trivial⟩
  | @first src hw layout =>
    have hfirst := Scanner.first_still B.toScanner .forward layout (h.sorted src)
    refine h.reads hplaced fun x hx ↦ ?_
    cases hp : B.first .forward (fun _ ↦ true) (still (s.index (top src)) layout) with
    | none =>
      rw [hp] at hfirst
      exact absurd hx (hfirst x)
    | some p =>
      rw [hp] at hfirst
      exact Or.inl ⟨p, rfl, hfirst x hx⟩
  | @doinsert src pos hw =>
    refine ⟨hplaced, fun c ↦ ?_, fun c hc x hx ↦ ?_⟩
    · rw [index_setIndex, if_neg (top_ne_base c)]
      exact h.nodup c
    · obtain rfl := Option.some.inj hc
      rw [index_setIndex, if_neg (top_ne_base _)] at hx
      rw [index_setIndex, if_pos rfl, B.doinsert_spec.mem_iff]
      rcases trichotomous_of (before sortKeys .forward) (B.item pos) x with hlt | heq | hgt
      · exact Or.inl hlt
      · exact Or.inr (Or.inl heq.symm)
      · have hcopied := h.copied _ (show s.merger.source = some _ by rw [hw]; rfl) x hx
        rw [hw] at hcopied
        exact Or.inr (Or.inr (hcopied.resolve_left fun hle ↦ hle hgt))
  | @next src pos hw layout =>
    have hplace := h.place
    have hcopied := h.copied src (by rw [hw]; rfl)
    rw [hw] at hplace hcopied
    have hnext := Scanner.next_still layout (h.sorted src) hplace
    refine h.reads hplaced fun x hx ↦ ?_
    cases hp : B.next .forward (fun _ ↦ true) (still (s.index (top src)) layout) pos with
    | none =>
      rw [hp] at hnext
      exact Or.inr ((hcopied x hx).resolve_left (hnext x hx))
    | some p =>
      rw [hp] at hnext
      by_cases hlt : before sortKeys .forward x (B.item p)
      · exact Or.inr ((hcopied x hx).resolve_left (hnext.2 x hx hlt))
      · exact Or.inl ⟨p, rfl, hlt⟩
  | @truncate src hw hheld hscans =>
    refine ⟨hplaced, fun c ↦ ?_, fun c hc x hx ↦ ?_⟩
    · rw [index_truncate]
      split
      · exact List.nodup_nil
      · exact h.nodup c
    · obtain rfl := Option.some.inj hc
      rw [index_truncate, if_pos rfl] at hx
      exact absurd hx List.not_mem_nil
  | leave hb => exact h.section (s.sameIndexes_leaveSection _ _ _)
  | startMerge => exact h.section s.sameIndexes_startMergeSection
  | enter | testMerge | testInserts | testSize | abort | openIndex | executorFinish | closeIndex | beginscan
  | endscan => exact h.frame rfl (Or.inl rfl)
  | waitLatch | cancel | resetLatch | noRequest | finish | exit => exact h.frame rfl (Or.inr rfl)

variable (s) in
/-- What a step can make of the indexes. -/
inductive Changes : Action ι B → (Fin 3 → Index D) → Prop
  /-- No index is changed. -/
  | nothing {act : Action ι B} (h : act.inserted = none) : Changes act s.index
  /-- A tuple is put into a top index. -/
  | insert {b : ι} {itup : IndexTuple D} {a : Fin 2} {m : UInt64}
      (h : (s.backends b).insert = some ⟨a, m, .btinsert itup⟩) : Changes (.btinsert b itup)
        (Function.update s.index (top a) (B.btinsert itup (s.index (top a))))
  /-- The merger puts a tuple of its index into the base index. -/
  | copy {src : Fin 2} {pos : B.Pos} (h : s.merger = .doinsert src pos)
      (hmem : B.item pos ∈ s.index (top src)) : Changes .doinsert
        (Function.update s.index base (B.doinsert (B.item pos) (s.index base)))
  /-- The merger empties its index, which is in the base index by now. -/
  | truncate {src : Fin 2} (h : s.merger = .truncate src) (hscans : s.scans = ∅)
      (hsub : s.index (top src) ⊆ s.index base) : Changes .truncate
        (Function.update s.index (top src) [])

theorem Contents.changes (h : s.Contents) {act : Action ι B}
    (hstep : s.step act = some s') : s.Changes act s'.index := by
  cases step_cases hstep with
  | btinsert hb => exact .insert hb
  | @doinsert src pos hw =>
    have hplace := h.place
    rw [hw] at hplace
    exact .copy hw (Scanner.At.mem (h.sorted src) hplace)
  | @truncate src hw hheld hscans =>
    refine .truncate hw hscans fun x hx ↦ ?_
    have hcopied := h.copied src (by rw [hw]; rfl) x hx
    rw [hw] at hcopied
    exact hcopied.resolve_left id
  | leave hb =>
    rw [(s.sameIndexes_leaveSection _ _ _).index]
    exact .nothing rfl
  | startMerge =>
    rw [s.sameIndexes_startMergeSection.index]
    exact .nothing rfl
  | first =>
    rw [index_merging]
    exact .nothing rfl
  | next =>
    rw [index_merging]
    exact .nothing rfl
  | _ => exact .nothing rfl

omit [Fintype ι] [DecidableEq ι] in
/-- What the indexes hold when one of them has changed. -/
theorem holds_of_update {i : Fin 3} {index : Index D} {x : IndexTuple D}
    (hindex : s'.index = Function.update s.index i index) :
    s'.Holds x ↔ x ∈ index ∨ ∃ j, j ≠ i ∧ x ∈ s.index j := by
  constructor
  · rintro ⟨j, hj⟩
    rw [hindex, Function.update_apply] at hj
    split at hj
    · exact Or.inl hj
    · exact Or.inr ⟨j, ‹_›, hj⟩
  · rintro (hx | ⟨j, hj, hx⟩)
    · exact ⟨i, by rwa [hindex, Function.update_self]⟩
    · exact ⟨j, by rwa [hindex, Function.update_of_ne hj]⟩

omit [Fintype ι] [DecidableEq ι] in
theorem holds_split (i : Fin 3) {x : IndexTuple D} :
    s.Holds x ↔ x ∈ s.index i ∨ ∃ j, j ≠ i ∧ x ∈ s.index j :=
  holds_of_update (Function.update_eq_self i s.index).symm

omit [Fintype ι] [DecidableEq ι] in
/-- **A step adds what it inserts to the indexes**, and nothing else changes what they hold together. -/
theorem Changes.holds {act : Action ι B} (h : s.Changes act s'.index) (x : IndexTuple D) :
    s'.Holds x ↔ s.Holds x ∨ act.inserted = some x := by
  generalize hindex : s'.index = index at h
  cases h with
  | nothing hnone => simp [Holds, hindex, hnone]
  | @insert b itup a m hb =>
    rw [holds_of_update hindex, holds_split (top a), B.btinsert_spec.mem_iff, Action.inserted, Option.some.injEq,
      eq_comm]
    exact or_assoc.trans or_comm
  | @copy src pos hw hmem =>
    rw [holds_of_update hindex, holds_split base, B.doinsert_spec.mem_iff]
    simp only [Action.inserted, reduceCtorEq, or_false]
    constructor
    · rintro ((rfl | hx) | hx)
      · exact Or.inr ⟨top src, top_ne_base src, hmem⟩
      · exact Or.inl hx
      · exact Or.inr hx
    · exact fun hx ↦ hx.imp_left Or.inr
  | @truncate src hw hscans hsub =>
    rw [holds_of_update hindex, holds_split (top src)]
    simp only [Action.inserted, reduceCtorEq, or_false, List.not_mem_nil, false_or]
    constructor
    · exact Or.inr
    · rintro (hx | hx)
      · exact ⟨base, (top_ne_base src).symm, hsub hx⟩
      · exact hx

end State

end Lsm3

end ScratchStore
