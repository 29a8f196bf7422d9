import ScratchStore.Lsm3.ScanRun

/-!
# Bitmap scans

`lsm3_getbitmap` goes through the three indexes one after the other, and PostgreSQL's `btgetbitmap` puts the
rows of their tuples into a bitmap.  The bitmap is a set of rows here, so it does not get lossy.

* `FillsBitmap.trans` is what two scans that fill the same bitmap do together.
* `State.getbitmap_run`: while tuples are inserted and merged, a bitmap scan finds every tuple that was there
  in the beginning.  The number it returns counts a tuple twice that is being merged.

A bitmap scan has no order to keep and nothing to skip, so all there is to say about an index is which rows
it sets (`FillsBitmap`).  In a run it needs the same as any other scan: what was there in the beginning
stays in one of the indexes as long as the scan is open (`Lsm3.ScanRun`).
-/

set_option autoImplicit false

namespace ScratchStore

namespace Lsm3

open PageScan Runs

variable {n : ℕ} {D : Fin n → Type} {sortKeys : SortKeys D} {B : NBTree sortKeys} (scan : IndexScan D)

/-- `lsm3_getbitmap`: the rows in the bitmap, and `ntids`. -/
def getbitmap (R : Fin 3 → Reads B.Layout (IndexTuple D)) : Finset ItemPointer × ℕ :=
  (List.finRange 3).foldl
    (fun r i ↦ ((B.btgetbitmap scan.want (R i) r.1).1, r.2 + (B.btgetbitmap scan.want (R i) r.1).2)) (∅, 0)

variable {scan} {S S' : Index D} {P : IndexTuple D → Prop} {tbm : Finset ItemPointer}
  {r r' : Finset ItemPointer × ℕ}

theorem FillsBitmap.zero : FillsBitmap ([] : Index D) P tbm (tbm, 0) :=
  ⟨[], List.forall_mem_nil _, List.nil_subset _, by simp, rfl⟩

/-- One scan after the other. -/
theorem FillsBitmap.trans (h : FillsBitmap S P tbm r) (h' : FillsBitmap S' P r.1 r') :
    FillsBitmap (S ++ S') P tbm (r'.1, r.2 + r'.2) := by
  obtain ⟨ts, hts, hS, hmem, hlength⟩ := h
  obtain ⟨ts', hts', hS', hmem', hlength'⟩ := h'
  refine ⟨ts ++ ts', List.forall_mem_append.mpr ⟨hts, hts'⟩, List.append_subset.mpr ⟨?_, ?_⟩, fun tid ↦ ?_, ?_⟩
  · exact List.Subset.trans hS (List.subset_append_left _ _)
  · exact List.Subset.trans hS' (List.subset_append_right _ _)
  · rw [hmem', hmem, or_assoc]
    simp only [List.mem_append, or_and_right, exists_or]
  · rw [List.length_append, hlength, hlength']

/-- There are no more rows in a bitmap than are counted. -/
theorem FillsBitmap.card_le (h : FillsBitmap S P tbm r) : r.1.card ≤ tbm.card + r.2 := by
  obtain ⟨ts, -, -, hmem, hlength⟩ := h
  have hsub : r.1 ⊆ tbm ∪ (ts.map IndexTuple.tid).toFinset := by
    intro tid htid
    rw [Finset.mem_union, List.mem_toFinset, List.mem_map]
    exact (hmem tid).mp htid
  have hts : (ts.map IndexTuple.tid).toFinset.card ≤ r.2 :=
    (List.toFinset_card_le _).trans (by rw [List.length_map, hlength])
  calc r.1.card ≤ (tbm ∪ (ts.map IndexTuple.tid).toFinset).card := Finset.card_le_card hsub
    _ ≤ tbm.card + (ts.map IndexTuple.tid).toFinset.card := Finset.card_union_le _ _
    _ ≤ tbm.card + r.2 := Nat.add_le_add_left hts _

/-- **The loop of a bitmap scan.** -/
theorem getbitmap_spec {S : Fin 3 → Index D} (hwant : ∀ i, ∀ x ∈ S i, scan.want x = true)
    {R : Fin 3 → Reads B.Layout (IndexTuple D)}
    (hR : ∀ i k, Shows (Sorted sortKeys) scan.want (S i) P ((R i).index k)) :
    FillsBitmap ((List.finRange 3).flatMap S) P ∅ (getbitmap scan R) := by
  have hfold : ∀ (is : List (Fin 3)) (S₀ : Index D) (r : Finset ItemPointer × ℕ), FillsBitmap S₀ P ∅ r →
      FillsBitmap (S₀ ++ is.flatMap S) P ∅ (is.foldl (fun r i ↦
        ((B.btgetbitmap scan.want (R i) r.1).1, r.2 + (B.btgetbitmap scan.want (R i) r.1).2)) r) := by
    intro is
    induction is with
    | nil =>
      intro S₀ r h
      rwa [List.flatMap_nil, List.append_nil]
    | cons i is ih =>
      intro S₀ r h
      rw [List.flatMap_cons, ← List.append_assoc, List.foldl_cons]
      exact ih _ _ (h.trans (B.btgetbitmap_spec scan.want (S i) P (R i) r.1 (hwant i) (hR i)))
  exact hfold (List.finRange 3) [] (∅, 0) .zero

namespace State

variable {ι : Type} [Fintype ι] [DecidableEq ι] {s s' : State ι B}

/-- **A bitmap scan while tuples are inserted and merged**: the rows of all the tuples that were there in the
beginning and are wanted are in the bitmap, and no row is without a tuple.

The bitmap is a set of rows, so a tuple that two of the indexes have does no harm.  The number that is returned
counts such a tuple twice, and it is no less than the number of rows. -/
theorem getbitmap_run {topIndexSize : UInt32} {heap : List (IndexTuple D)} {events : List (Event ι B)}
    {acts : List (Action ι B)} (scan : IndexScan D) {k : ℕ} {R : Fin 3 → Reads B.Layout (IndexTuple D)}
    (hheap : heap.Nodup) (hclean : Along live CleanEvent (build topIndexSize heap) events)
    (hlive : run live (build topIndexSize heap) events = some s) (hk : k ∈ s.scans)
    (hfresh : Along step Fresh s acts) (hopen : .endscan k ∉ acts) (hrun : run step s acts = some s')
    (hR : ∀ i k, During s acts i ((R i).index k)) :
    (∀ x, s.Holds x → scan.want x = true → x.tid ∈ (getbitmap scan R).1) ∧
      (∀ t ∈ (getbitmap scan R).1, ∃ x, scan.want x = true ∧ s'.Holds x ∧ x.tid = t) ∧
      (getbitmap scan R).1.card ≤ (getbitmap scan R).2 := by
  have h := sound_live hheap hclean hlive
  have hfills := getbitmap_spec (fun i x hx ↦ (List.mem_filter.mp hx).2) fun i k ↦
    shows_during scan h hfresh hk hopen hrun (hR i k)
  have hcard := hfills.card_le
  rw [Finset.card_empty, Nat.zero_add] at hcard
  obtain ⟨ts, hts, hS, hmem, -⟩ := hfills
  refine ⟨fun x ⟨i, hi⟩ hwant ↦ ?_, fun tid htid ↦ ?_, hcard⟩
  · have hx : x ∈ ts :=
      hS (List.mem_flatMap.mpr ⟨i, List.mem_finRange i, List.mem_filter.mpr ⟨hi, hwant⟩⟩)
    exact (hmem x.tid).mpr (Or.inr ⟨x, hx, rfl⟩)
  · obtain ⟨x, hx, rfl⟩ := ((hmem tid).mp htid).resolve_left (Finset.notMem_empty _)
    exact ⟨x, (hts x hx).1, (hts x hx).2, rfl⟩

/-- The pages of the indexes as they are. -/
def pages (s : State ι B) (i : Fin 3) : Reads B.Layout (IndexTuple D) := still (s.index i) B.layout

/-- A bitmap scan after a tuple has been put into the base index, which is counted twice. -/
theorem getbitmap_run_scanTwo : ∃ s s', run live emptyIndex scanTwo = some s ∧
    run step s mergeMeanwhile = some s' ∧
    ((∀ x, s.Holds x → everything.want x = true → x.tid ∈ (getbitmap everything s'.pages).1) ∧
      (∀ t ∈ (getbitmap everything s'.pages).1, ∃ x, everything.want x = true ∧ s'.Holds x ∧ x.tid = t) ∧
      (getbitmap everything s'.pages).1.card ≤ (getbitmap everything s'.pages).2) := by
  obtain ⟨s, s', hlive, hrun, hk, hfresh⟩ := exists_scanTwo
  exact ⟨s, s', hlive, hrun, getbitmap_run everything List.nodup_nil (by decide) hlive hk hfresh
    (by simp [mergeMeanwhile, mergeBegins]) hrun fun i _ ↦ during_end hrun i⟩

end State

end Lsm3

end ScratchStore
