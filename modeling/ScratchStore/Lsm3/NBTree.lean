import Mathlib.Data.Finset.Basic
import ScratchStore.Lib.PageScan
import ScratchStore.Lsm3.IndexTuple

/-!
# PostgreSQL's B-trees

The three indexes of `lsm3` are B-trees, and what is done to them is done by functions of PostgreSQL:
`btinsert`, `_bt_doinsert`, `btbuild`, `_bt_first`, `_bt_next` and `btgetbitmap`.

* `NBTree` are these functions, with what the extension relies on: an insertion puts in one tuple and keeps
  the order; a build puts in the rows of the heap; a scan is a `PageScan.Scanner`, in both directions, and
  comes to its end when nothing is inserted; and a bitmap scan finds what any scan finds and counts it.  How
  a B-tree stores its tuples is up to it.  Tuples of dead rows, which PostgreSQL may remove, are left out.
* `NBTree.byItem` is one of them that is easy to compute with: its insertion is that into a sorted list,
  and its scan reads a page for each tuple.

## Why a structure

None of these functions is part of the extension, and what is proved about it should hold for any B-tree
that does its work.  So each of them is a field, and the laws are what PostgreSQL documents of it and no
more: an insertion says which tuples there are afterwards and that they are in order, and not where the new
one is put among its equals; and a scan may read ahead, a page at a time, and go on from where it was.
-/

set_option autoImplicit false

namespace ScratchStore

namespace Lsm3

open Std PageScan

variable {n : ℕ} {D : Fin n → Type}

/-- What a scan needs of an index: its tuples are in the order of a forward scan, each of them once. -/
def Sorted (sortKeys : SortKeys D) (index : Index D) : Prop := index.Pairwise (before sortKeys .forward)

/-- An insertion that can be relied on. -/
structure Inserts (sortKeys : SortKeys D) (insert : IndexTuple D → Index D → Index D) : Prop where
  /-- It puts in the tuple and takes none out. -/
  perm : ∀ itup index, (insert itup index).Perm (itup :: index)
  /-- Among tuples that compare as equal it may go anywhere. -/
  ordered : ∀ itup index, index.Ordered sortKeys → (insert itup index).Ordered sortKeys

/-- What a bitmap scan of an index may do: it finds tuples that are `P`, all of `S` among them, sets the bits
of their rows and returns how many it has found. -/
structure FillsBitmap (S : Index D) (P : IndexTuple D → Prop) (tbm : Finset ItemPointer)
    (result : Finset ItemPointer × ℕ) : Prop where
  exists_found : ∃ ts : List (IndexTuple D), (∀ t ∈ ts, P t) ∧ S ⊆ ts ∧
    (∀ tid, tid ∈ result.1 ↔ tid ∈ tbm ∨ ∃ t ∈ ts, t.tid = tid) ∧ result.2 = ts.length

/-- The B-trees of PostgreSQL, with these sort keys.  `first` and `next` of the scans are `_bt_first` and
`_bt_next`, `doinsert` is `_bt_doinsert`, and `layout` is how the tuples of an index may lie on pages. -/
structure NBTree (sortKeys : SortKeys D) extends
    Scanner ScanDirection (IndexTuple D) (Sorted sortKeys) (before sortKeys) where
  layout : Layout
  btinsert : IndexTuple D → Index D → Index D
  doinsert : IndexTuple D → Index D → Index D
  btbuild : List (IndexTuple D) → Index D
  btgetbitmap : (IndexTuple D → Bool) → Reads Layout (IndexTuple D) → Finset ItemPointer →
    Finset ItemPointer × ℕ
  scan_ends : ∀ (dir : ScanDirection) (want : IndexTuple D → Bool) (index : Index D) (layout : Layout) (p : Pos),
    index.Ordered sortKeys → toScanOps.Visits dir want index p → toScanOps.Ends dir want (still index layout) p
  btinsert_spec : Inserts sortKeys btinsert
  doinsert_spec : Inserts sortKeys doinsert
  perm_btbuild : ∀ heap, (btbuild heap).Perm heap
  ordered_btbuild : ∀ heap, (btbuild heap).Ordered sortKeys
  btgetbitmap_spec : ∀ (want : IndexTuple D → Bool) (S : Index D) (P : IndexTuple D → Prop)
    (R : Reads Layout (IndexTuple D)) (tbm : Finset ItemPointer), (∀ x ∈ S, want x = true) →
      (∀ k, Shows (Sorted sortKeys) want S P (R.index k)) → FillsBitmap S P tbm (btgetbitmap want R tbm)

section Inserts

variable {sortKeys : SortKeys D} {insert : IndexTuple D → Index D → Index D} {itup t : IndexTuple D}
  {index : Index D}

theorem Inserts.mem_iff (h : Inserts sortKeys insert) : t ∈ insert itup index ↔ t = itup ∨ t ∈ index := by
  rw [(h.perm itup index).mem_iff, List.mem_cons]

theorem Inserts.nodup (h : Inserts sortKeys insert) (hindex : index.Nodup) (hnew : itup ∉ index) :
    (insert itup index).Nodup :=
  (h.perm itup index).nodup_iff.mpr (List.nodup_cons.mpr ⟨hnew, hindex⟩)

end Inserts

/-! ## Sorted lists as B-trees -/

section ByItem

variable (sortKeys : SortKeys D)

/-- The tuples of an index in the order of a scan. -/
def ScanDirection.turn (dir : ScanDirection) (index : Index D) : Index D :=
  match dir with
  | .forward => index
  | .backward => index.reverse

theorem mem_turn (dir : ScanDirection) (index : Index D) (x : IndexTuple D) :
    x ∈ dir.turn index ↔ x ∈ index := by
  cases dir with
  | forward => exact Iff.rfl
  | backward => exact List.mem_reverse

theorem pairwise_turn (dir : ScanDirection) (index : Index D) (h : Sorted sortKeys index) :
    (dir.turn index).Pairwise (before sortKeys dir) := by
  cases dir with
  | forward => exact h
  | backward => exact List.pairwise_reverse.mpr h

/-- The insertion into a sorted list. -/
def insertSorted (itup : IndexTuple D) (index : Index D) : Index D :=
  index.orderedInsert (fun a b ↦ ¬before sortKeys .forward b a) itup

theorem inserts_insertSorted : Inserts sortKeys (insertSorted sortKeys) where
  perm itup index := List.perm_orderedInsert _ itup index
  ordered itup index h := by
    have : Std.Total fun a b : IndexTuple D ↦ ¬before sortKeys .forward b a :=
      ⟨fun a b ↦ by
        by_cases hab : before sortKeys .forward a b
        · exact Or.inl (asymm_of (before sortKeys .forward) hab)
        · exact Or.inr hab⟩
    have : IsTrans (IndexTuple D) fun a b ↦ ¬before sortKeys .forward b a :=
      ⟨fun a b c hab hbc hca ↦ by
        rcases trichotomous_of (before sortKeys .forward) a b with h | rfl | h
        · exact hbc (trans_of _ hca h)
        · exact hbc hca
        · exact hab h⟩
    exact List.Pairwise.orderedInsert itup index h

theorem insertSorted_foldr (heap : List (IndexTuple D)) :
    (heap.foldr (insertSorted sortKeys) []).Perm heap ∧
      (heap.foldr (insertSorted sortKeys) []).Ordered sortKeys := by
  induction heap with
  | nil => exact ⟨List.Perm.nil, .nil⟩
  | cons itup heap ih =>
    exact ⟨((inserts_insertSorted sortKeys).perm itup _).trans (ih.1.cons itup),
      (inserts_insertSorted sortKeys).ordered itup _ ih.2⟩

/-- Sorted lists, scanned a tuple at a time. -/
def NBTree.byItem : NBTree sortKeys where
  toScanner := Scanner.byItem (before sortKeys) (Sorted sortKeys) ScanDirection.turn mem_turn
    (pairwise_turn sortKeys)
  layout := ()
  scan_ends dir want index _ p _ _ := ScanOps.ends_of_forward (r := before sortKeys dir) index
    (fun p q hq ↦ by
      have hgood := List.find?_some hq
      simp only [Bool.and_eq_true, decide_eq_true_eq] at hgood
      exact ⟨(mem_turn dir _ q).mp (List.mem_of_find?_eq_some hq), hgood.2⟩) p
  btinsert := insertSorted sortKeys
  doinsert := insertSorted sortKeys
  btbuild heap := heap.foldr (insertSorted sortKeys) []
  btgetbitmap want R tbm :=
    let found := (R.index 0).filter want
    (tbm ∪ (found.map IndexTuple.tid).toFinset, found.length)
  btinsert_spec := inserts_insertSorted sortKeys
  doinsert_spec := inserts_insertSorted sortKeys
  perm_btbuild heap := (insertSorted_foldr sortKeys heap).1
  ordered_btbuild heap := (insertSorted_foldr sortKeys heap).2
  btgetbitmap_spec want S P R tbm hS hR := by
    refine ⟨(R.index 0).filter want, fun t ht ↦ ?_, fun x hx ↦ ?_, fun tid ↦ ?_, rfl⟩
    · obtain ⟨hmem, hwant⟩ := List.mem_filter.mp ht
      exact (hR 0).sound t hmem hwant
    · exact List.mem_filter.mpr ⟨(hR 0).subset hx, hS x hx⟩
    · simp only [Finset.mem_union, List.mem_toFinset, List.mem_map]

end ByItem

/-! ## Columns and places to compute with -/

/-- Data in their own order, nulls first. -/
def SortSupport.ofOrd (D : Type) [LinearOrder D] : SortSupport D where
  applySortComparator := compare

instance : TransCmp (compareLex (compareOn ItemPointer.block) (compareOn ItemPointer.offset)) :=
  inferInstanceAs (TransCmp (compareLex _ _))

instance : LawfulEqCmp (compareLex (compareOn ItemPointer.block) (compareOn ItemPointer.offset)) where
  compare_self {a} := ReflCmp.compare_self
  eq_of_compare {a b} h := by
    rw [compareLex_eq_eq] at h
    obtain ⟨block, offset⟩ := a
    obtain ⟨block', offset'⟩ := b
    rw [ItemPointer.mk.injEq]
    exact ⟨LawfulEqOrd.eq_of_compare h.1, LawfulEqOrd.eq_of_compare h.2⟩

/-- Columns of ordered data, and places by block and offset. -/
def SortKeys.ofOrd (D : Fin n → Type) [∀ i, LinearOrder (D i)] : SortKeys D where
  ssup i := SortSupport.ofOrd (D i)
  itemPointerCompare := compareLex (compareOn ItemPointer.block) (compareOn ItemPointer.offset)

end Lsm3

end ScratchStore
