import Mathlib.Data.List.Basic
import Mathlib.Order.RelClasses

/-!
# Scans of an ordered index, a page at a time

A scan of an index reads a page of it into memory, hands out the items of that page one by one, and goes
on to the next page when none is left.  Other threads put items into the index in the meantime, so every
page shows the index as it is when the page is read, and where a page ends is not up to the scan.

How that is done is left open here.

* `ScanOps` are the operations of a scan: its first item and the next one, in one of the directions `Dir`.
  Each reads as many pages as it likes: `Reads` is the index at each of these times, and how its items are
  laid out on pages.
* `Shows` is what is known of the index when a page is read: it has the items `S` in any case, and only
  items that are `P` if they are wanted.
* `Scanner` are operations that can be relied on: as long as every page shows all of `S`, none of them is
  skipped, and a scan only goes forward.  This is asked of positions that a scan has got to
  (`ScanOps.Reached`), since what is on a page in memory has been read before.
* `ScanOps.Visits` are the positions of a scan of an index that does not change, and `ScanOps.Ends` is that
  such a scan comes to its end.
* `Scanner.first_finds` and `Scanner.next_finds` say the same about what is still to come
  (`ScanOps.Pending`), which is what invariants of a scan are made of; `Scanner.rest_spec` is a whole scan
  and `Scanner.next_still` a scan of an index that does not change.
* `Scanner.byItem` reads a page for each item, and is a `Scanner`.
-/

set_option autoImplicit false

namespace PageScan

variable {Dir α : Type*}

/-- What an operation reads: the layout of the index, and its items each time a page is read. -/
structure Reads (Layout α : Type*) where
  layout : Layout
  index : ℕ → List α

/-- The pages of an index that is always the same. -/
def still {Layout : Type*} (index : List α) (layout : Layout) : Reads Layout α := ⟨layout, fun _ ↦ index⟩

/-- The operations of a scan.  `item` is the item a position is at, `first` and `next` take what is wanted of
an item. -/
structure ScanOps (Dir α : Type*) where
  Layout : Type
  Pos : Type
  item : Pos → α
  first : Dir → (α → Bool) → Reads Layout α → Option Pos
  next : Dir → (α → Bool) → Reads Layout α → Pos → Option Pos

/-- What a page shows: the items `S` in any case, all of them in order, and only items that are `P` if they
are wanted. -/
structure Shows (ordered : List α → Prop) (want : α → Bool) (S : List α) (P : α → Prop) (index : List α) :
    Prop where
  /-- The items that are to be found are there. -/
  subset : S ⊆ index
  /-- The index is in order. -/
  ordered : ordered index
  /-- Every item that is wanted is `P`. -/
  sound : ∀ x ∈ index, want x = true → P x

namespace ScanOps

variable (ops : ScanOps Dir α)

/-- A position a scan has got to by pages that show all of `S`. -/
inductive Reached (ordered : List α → Prop) (dir : Dir) (want : α → Bool) (S : List α) (P : α → Prop) :
    ops.Pos → Prop
  /-- The pages that are read until the first item is found. -/
  | first {R : Reads ops.Layout α} {p : ops.Pos} (hR : ∀ k, Shows ordered want S P (R.index k))
      (h : ops.first dir want R = some p) : Reached ordered dir want S P p
  /-- The pages that are read from one item to the next. -/
  | next {R : Reads ops.Layout α} {p q : ops.Pos} (hp : Reached ordered dir want S P p)
      (hR : ∀ k, Shows ordered want S P (R.index k)) (h : ops.next dir want R p = some q) :
      Reached ordered dir want S P q

/-- A position a scan has got to of an index that does not change. -/
inductive Visits (dir : Dir) (want : α → Bool) (index : List α) : ops.Pos → Prop
  | first {layout : ops.Layout} {p : ops.Pos} (h : ops.first dir want (still index layout) = some p) :
      Visits dir want index p
  | next {layout : ops.Layout} {p q : ops.Pos} (hp : Visits dir want index p)
      (h : ops.next dir want (still index layout) p = some q) : Visits dir want index q

/-- What is still to come of the items `S`, and the item the scan is at. -/
def Pending (r : Dir → α → α → Prop) (dir : Dir) (S : List α) (p : ops.Pos) (x : α) : Prop :=
  x = ops.item p ∨ x ∈ S ∧ r dir (ops.item p) x

/-- The items behind the one a scan is at, one for each time the caller asks for the next, and whether
there are no more. -/
def rest (dir : Dir) (want : α → Bool) : List (Reads ops.Layout α) → ops.Pos → List α × Bool
  | [], _ => ([], false)
  | R :: Rs, p =>
    match ops.next dir want R p with
    | none => ([], true)
    | some q => (ops.item q :: (rest dir want Rs q).1, (rest dir want Rs q).2)

/-- The scan of an index that does not change comes to its end. -/
def Ends (dir : Dir) (want : α → Bool) (R : Reads ops.Layout α) (p : ops.Pos) : Prop :=
  ∃ k, (ops.rest dir want (List.replicate k R) p).2 = true

variable {ops} {dir : Dir} {want : α → Bool} {R : Reads ops.Layout α} {p q : ops.Pos}

theorem ends_of_none (h : ops.next dir want R p = none) : ops.Ends dir want R p :=
  ⟨1, by simp only [List.replicate_one, rest, h]⟩

theorem ends_of_some (h : ops.next dir want R p = some q) (hq : ops.Ends dir want R q) :
    ops.Ends dir want R p := by
  obtain ⟨k, hk⟩ := hq
  exact ⟨k + 1, by simp only [List.replicate_succ, rest, h, hk]⟩

/-- Induction over what is left of a scan. -/
theorem Ends.induction {motive : ops.Pos → Prop} (h : ops.Ends dir want R p)
    (hnone : ∀ p, ops.next dir want R p = none → motive p)
    (hsome : ∀ p q, ops.next dir want R p = some q → motive q → motive p) : motive p := by
  obtain ⟨k, hk⟩ := h
  induction k generalizing p with
  | zero => exact absurd hk (by simp [rest])
  | succ k ih =>
    rw [List.replicate_succ, rest] at hk
    cases hnext : ops.next dir want R p with
    | none => exact hnone p hnext
    | some q =>
      rw [hnext] at hk
      exact hsome p q hnext (ih hk)

end ScanOps

/-- A scan that can be relied on, of indexes that are `ordered`; `r` is the order of each direction. -/
structure Scanner (Dir α : Type*) (ordered : List α → Prop) (r : Dir → α → α → Prop) extends
    ScanOps Dir α where
  first_spec : ∀ (dir : Dir) (want : α → Bool) (S : List α) (P : α → Prop) (R : Reads Layout α),
    (∀ x ∈ S, want x = true) → (∀ k, Shows ordered want S P (R.index k)) →
      match first dir want R with
      | none => ∀ x, x ∉ S
      | some p => P (item p) ∧ ∀ x ∈ S, x = item p ∨ r dir (item p) x
  next_spec : ∀ (dir : Dir) (want : α → Bool) (S : List α) (P : α → Prop) (R : Reads Layout α) (p : Pos),
    (∀ x ∈ S, want x = true) → (∀ k, Shows ordered want S P (R.index k)) →
      toScanOps.Reached ordered dir want S P p →
        match next dir want R p with
        | none => ∀ x ∈ S, ¬r dir (item p) x
        | some q => r dir (item p) (item q) ∧ P (item q) ∧
            ∀ x ∈ S, r dir (item p) x → x = item q ∨ r dir (item q) x

namespace Scanner

variable {ordered : List α → Prop} {r : Dir → α → α → Prop} (scanner : Scanner Dir α ordered r) {dir : Dir}
  {want : α → Bool} {S : List α} {P : α → Prop}

/-- What a scan finds: an item that is `after`, when there is one, and none of those that are `todo` is
behind it. -/
def Finds (dir : Dir) (want : α → Bool) (S : List α) (P after todo : α → Prop) : Option scanner.Pos → Prop
  | none => ∀ x, ¬todo x
  | some p => scanner.Reached ordered dir want S P p ∧ after (scanner.item p) ∧
      ∀ x, todo x → scanner.Pending r dir S p x

variable {scanner}

/-- The first item: all of `S` is still to come. -/
theorem first_finds (hS : ∀ x ∈ S, want x = true) {R : Reads scanner.Layout α}
    (hR : ∀ k, Shows ordered want S P (R.index k)) :
    scanner.Finds dir want S P (fun _ ↦ True) (· ∈ S) (scanner.first dir want R) := by
  have hspec := scanner.first_spec dir want S P R hS hR
  cases hfirst : scanner.first dir want R with
  | none =>
    rw [hfirst] at hspec
    exact hspec
  | some p =>
    rw [hfirst] at hspec
    exact ⟨.first hR hfirst, trivial, fun x hx ↦ (hspec.2 x hx).imp_right fun hlt ↦ ⟨hx, hlt⟩⟩

/-- The next item: it is beyond the last one, and nothing else is lost. -/
theorem next_finds (hS : ∀ x ∈ S, want x = true) {R : Reads scanner.Layout α}
    (hR : ∀ k, Shows ordered want S P (R.index k)) {p : scanner.Pos}
    (hp : scanner.Reached ordered dir want S P p) :
    scanner.Finds dir want S P (r dir (scanner.item p))
      (fun x ↦ scanner.Pending r dir S p x ∧ x ≠ scanner.item p) (scanner.next dir want R p) := by
  have hspec := scanner.next_spec dir want S P R p hS hR hp
  cases hnext : scanner.next dir want R p with
  | none =>
    rw [hnext] at hspec
    rintro x ⟨hx, hne⟩
    obtain ⟨hmem, hlt⟩ := hx.resolve_left hne
    exact hspec x hmem hlt
  | some q =>
    rw [hnext] at hspec
    refine ⟨.next hp hR hnext, hspec.1, fun x hx ↦ ?_⟩
    obtain ⟨hmem, hlt⟩ := hx.1.resolve_left hx.2
    exact (hspec.2.2 x hmem hlt).imp_right fun hq ↦ ⟨hmem, hq⟩

/-- A scan is only at items that are `P`. -/
theorem sound (hS : ∀ x ∈ S, want x = true) {p : scanner.Pos}
    (hp : scanner.Reached ordered dir want S P p) : P (scanner.item p) := by
  cases hp with
  | first hR h =>
    have hspec := scanner.first_spec dir want S P _ hS hR
    rw [h] at hspec
    exact hspec.1
  | next hp hR h =>
    have hspec := scanner.next_spec dir want S P _ _ hS hR hp
    rw [h] at hspec
    exact hspec.2.1

/-- **A scan of one index**: it returns items that are `P`, each once and in order, and what was still to
come, unless it has not come so far. -/
theorem rest_spec [IsTrans α (r dir)] (hS : ∀ x ∈ S, want x = true) {Rs : List (Reads scanner.Layout α)}
    (hRs : ∀ R ∈ Rs, ∀ k, Shows ordered want S P (R.index k)) {p : scanner.Pos}
    (hp : scanner.Reached ordered dir want S P p) :
    (scanner.item p :: (scanner.rest dir want Rs p).1).Pairwise (r dir) ∧
      (∀ x ∈ scanner.item p :: (scanner.rest dir want Rs p).1, P x) ∧
      (∀ x, scanner.Pending r dir S p x → x ∈ scanner.item p :: (scanner.rest dir want Rs p).1 ∨
        (scanner.rest dir want Rs p).2 = false ∧
          ∀ t ∈ scanner.item p :: (scanner.rest dir want Rs p).1, r dir t x) ∧
      ((scanner.rest dir want Rs p).2 = false → (scanner.rest dir want Rs p).1.length = Rs.length) := by
  have hitem : P (scanner.item p) := sound hS hp
  induction Rs generalizing p with
  | nil =>
    refine ⟨List.pairwise_singleton _ _, List.forall_mem_singleton.mpr hitem, fun x hx ↦ ?_, fun _ ↦ rfl⟩
    exact hx.imp List.mem_singleton.mpr fun hlt ↦ ⟨rfl, List.forall_mem_singleton.mpr hlt.2⟩
  | cons R Rs ih =>
    obtain ⟨hR, hRs⟩ := List.forall_mem_cons.mp hRs
    have hfinds := next_finds hS hR hp
    rw [ScanOps.rest]
    cases hnext : scanner.next dir want R p with
    | none =>
      rw [hnext] at hfinds
      refine ⟨List.pairwise_singleton _ _, List.forall_mem_singleton.mpr hitem, fun x hx ↦ Or.inl ?_,
        fun hf ↦ nomatch hf⟩
      by_contra hne
      exact hfinds x ⟨hx, fun heq ↦ hne (List.mem_singleton.mpr heq)⟩
    | some q =>
      rw [hnext] at hfinds
      obtain ⟨hq, hpq, hpending⟩ := hfinds
      obtain ⟨hordered, hsound, hcover, hlength⟩ := ih hRs hq (sound hS hq)
      refine ⟨List.pairwise_cons.mpr ⟨List.forall_mem_cons.mpr ⟨hpq, fun t ht ↦ ?_⟩, hordered⟩,
        List.forall_mem_cons.mpr ⟨hitem, hsound⟩, fun x hx ↦ ?_, fun hf ↦ congrArg (· + 1) (hlength hf)⟩
      · exact trans_of (r dir) hpq ((List.pairwise_cons.mp hordered).1 t ht)
      · by_cases hxp : x = scanner.item p
        · exact Or.inl (hxp ▸ List.mem_cons_self)
        · rcases hcover x (hpending x ⟨hx, hxp⟩) with hmem | ⟨hmore, hlt⟩
          · exact Or.inl (List.mem_cons_of_mem _ hmem)
          · refine Or.inr ⟨hmore, List.forall_mem_cons.mpr ⟨?_, hlt⟩⟩
            exact trans_of (r dir) hpq (hlt _ List.mem_cons_self)

/-! ## Scans of an index that does not change -/

variable {index : List α} [IsStrictOrder α (r dir)]

/-- A position in an index that does not change, all of which is scanned. -/
abbrev At (scanner : Scanner Dir α ordered r) (dir : Dir) (index : List α) (p : scanner.Pos) : Prop :=
  scanner.Visits dir (fun _ ↦ true) index p

omit [IsStrictOrder α (r dir)] in
theorem shows_still (layout : scanner.Layout) (hindex : ordered index) (k : ℕ) :
    Shows ordered (fun _ ↦ true) index (· ∈ index) ((still index layout).index k) :=
  ⟨List.Subset.refl _, hindex, fun _ hx _ ↦ hx⟩

omit [IsStrictOrder α (r dir)] in
theorem At.reached (hindex : ordered index) {p : scanner.Pos} (hp : scanner.At dir index p) :
    scanner.Reached ordered dir (fun _ ↦ true) index (· ∈ index) p := by
  induction hp with
  | first h => exact .first (shows_still _ hindex) h
  | next _ h ih => exact .next ih (shows_still _ hindex) h

omit [IsStrictOrder α (r dir)] in
/-- A scan is at an item of the index. -/
theorem At.mem (hindex : ordered index) {p : scanner.Pos} (hp : scanner.At dir index p) :
    scanner.item p ∈ index := sound (fun _ _ ↦ rfl) (hp.reached hindex)

variable (scanner dir) in
/-- The first item of an index. -/
theorem first_still (layout : scanner.Layout) (hindex : ordered index) :
    match scanner.first dir (fun _ ↦ true) (still index layout) with
    | none => ∀ x, x ∉ index
    | some p => ∀ x ∈ index, ¬r dir x (scanner.item p) := by
  have hfinds : scanner.Finds dir (fun _ ↦ true) index (· ∈ index) (fun _ ↦ True) (· ∈ index)
      (scanner.first dir (fun _ ↦ true) (still index layout)) :=
    first_finds (fun _ _ ↦ rfl) (shows_still layout hindex)
  cases hfirst : scanner.first dir (fun _ ↦ true) (still index layout) with
  | none =>
    rw [hfirst] at hfinds
    exact hfinds
  | some p =>
    rw [hfirst] at hfinds
    obtain ⟨-, -, hpending⟩ := hfinds
    intro x hx hlt
    rcases hpending x hx with rfl | ⟨-, hgt⟩
    · exact irrefl_of (r dir) _ hlt
    · exact irrefl_of (r dir) _ (trans_of (r dir) hlt hgt)

/-- The next item of an index: nothing is between it and the last one. -/
theorem next_still (layout : scanner.Layout) (hindex : ordered index) {p : scanner.Pos}
    (hp : scanner.At dir index p) :
    match scanner.next dir (fun _ ↦ true) (still index layout) p with
    | none => ∀ x ∈ index, ¬r dir (scanner.item p) x
    | some q => r dir (scanner.item p) (scanner.item q) ∧
        ∀ x ∈ index, r dir x (scanner.item q) → ¬r dir (scanner.item p) x := by
  have hfinds := next_finds (fun _ _ ↦ rfl) (shows_still layout hindex) (hp.reached hindex)
  have htodo : ∀ x ∈ index, r dir (scanner.item p) x →
      scanner.Pending r dir index p x ∧ x ≠ scanner.item p := fun x hx hlt ↦
    ⟨Or.inr ⟨hx, hlt⟩, by rintro rfl; exact irrefl_of (r dir) _ hlt⟩
  cases hnext : scanner.next dir (fun _ ↦ true) (still index layout) p with
  | none =>
    rw [hnext] at hfinds
    exact fun x hx hlt ↦ hfinds x (htodo x hx hlt)
  | some q =>
    rw [hnext] at hfinds
    obtain ⟨-, hpq, hpending⟩ := hfinds
    refine ⟨hpq, fun x hx hlt hgt ↦ ?_⟩
    rcases hpending x (htodo x hx hgt) with rfl | ⟨-, hgt'⟩
    · exact irrefl_of (r dir) _ hlt
    · exact irrefl_of (r dir) _ (trans_of (r dir) hlt hgt')

end Scanner

/-! ## A page for each item -/

section ByItem

/-- The first item of an ordered list that is wanted. -/
theorem find?_spec {s : α → α → Prop} {l : List α} (hl : l.Pairwise s) {p : α → Bool} {a : α}
    (h : l.find? p = some a) : a ∈ l ∧ p a = true ∧ ∀ x ∈ l, p x = true → x = a ∨ s a x := by
  obtain ⟨hp, as, bs, rfl, has⟩ := List.find?_eq_some_iff_append.mp h
  refine ⟨by simp, hp, fun x hx hpx ↦ ?_⟩
  rcases List.mem_append.mp hx with hx | hx
  · have hnot := has x hx
    rw [hpx] at hnot
    cases hnot
  · rcases List.mem_cons.mp hx with rfl | hx
    · exact Or.inl rfl
    · exact Or.inr ((List.pairwise_cons.mp (List.pairwise_append.mp hl).2.1).1 x hx)

/-- The scan that reads the index anew for each item, from the beginning of the direction. -/
def Scanner.byItem {α : Type} (r : Dir → α → α → Prop) [∀ dir, DecidableRel (r dir)]
    (ordered : List α → Prop) (turn : Dir → List α → List α) (hmem : ∀ dir l x, x ∈ turn dir l ↔ x ∈ l)
    (hturn : ∀ dir l, ordered l → (turn dir l).Pairwise (r dir)) : Scanner Dir α ordered r where
  Layout := Unit
  Pos := α
  item := id
  first dir want R := (turn dir (R.index 0)).find? want
  next dir want R p := (turn dir (R.index 0)).find? fun x ↦ want x && decide (r dir p x)
  first_spec dir want S P R hS hR := by
    cases hfind : (turn dir (R.index 0)).find? want with
    | none => exact fun x hx ↦ List.find?_eq_none.mp hfind x ((hmem dir _ x).mpr ((hR 0).subset hx)) (hS x hx)
    | some p =>
      obtain ⟨hp, hwant, hrest⟩ := find?_spec (hturn dir _ (hR 0).ordered) hfind
      exact ⟨(hR 0).sound p ((hmem dir _ p).mp hp) hwant, fun x hx ↦
        hrest x ((hmem dir _ x).mpr ((hR 0).subset hx)) (hS x hx)⟩
  next_spec dir want S P R p hS hR _ := by
    cases hfind : (turn dir (R.index 0)).find? fun x ↦ want x && decide (r dir p x) with
    | none =>
      intro x hx hlt
      refine List.find?_eq_none.mp hfind x ((hmem dir _ x).mpr ((hR 0).subset hx)) ?_
      rw [hS x hx, Bool.true_and]
      exact decide_eq_true hlt
    | some q =>
      obtain ⟨hq, hgood, hrest⟩ := find?_spec (hturn dir _ (hR 0).ordered) hfind
      rw [Bool.and_eq_true, decide_eq_true_eq] at hgood
      refine ⟨hgood.2, (hR 0).sound q ((hmem dir _ q).mp hq) hgood.1, fun x hx hlt ↦ ?_⟩
      refine hrest x ((hmem dir _ x).mpr ((hR 0).subset hx)) ?_
      rw [hS x hx, Bool.true_and]
      exact decide_eq_true hlt

/-- A scan that goes forward comes to its end. -/
theorem ScanOps.ends_of_forward {ops : ScanOps Dir α} {r : α → α → Prop} [IsStrictOrder α r] {dir : Dir}
    {want : α → Bool} {R : Reads ops.Layout α} (items : List α)
    (hnext : ∀ p q, ops.next dir want R p = some q → ops.item q ∈ items ∧ r (ops.item p) (ops.item q))
    (p : ops.Pos) : ops.Ends dir want R p := by
  classical
  -- the items it has not passed become fewer
  induction hn : (items.filter fun x ↦ decide (r (ops.item p) x)).length using Nat.strongRecOn generalizing p with
  | ind n ih =>
    cases hq : ops.next dir want R p with
    | none => exact ends_of_none hq
    | some q =>
      obtain ⟨hmem, hlt⟩ := hnext p q hq
      refine ends_of_some hq (ih _ ?_ q rfl)
      have hfilter : (items.filter fun x ↦ decide (r (ops.item q) x)) =
          (items.filter fun x ↦ decide (r (ops.item p) x)).filter fun x ↦ decide (r (ops.item q) x) := by
        rw [List.filter_filter]
        refine List.filter_congr fun x _ ↦ ?_
        by_cases hx : r (ops.item q) x
        · simp [hx, trans_of r hlt hx]
        · simp [hx]
      rw [hfilter, ← hn]
      refine List.length_filter_lt_length_iff_exists.mpr ⟨ops.item q, ?_, ?_⟩
      · exact List.mem_filter.mpr ⟨hmem, decide_eq_true hlt⟩
      · simp [irrefl_of r (ops.item q)]

end ByItem

end PageScan
