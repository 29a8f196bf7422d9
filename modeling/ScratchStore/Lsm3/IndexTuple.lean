import Mathlib.Data.List.Sort
import ScratchStore.Lib.PageScan

/-!
# Index tuples and their order

An index tuple has a datum, or null, for each key column and the place of a row in the heap.
`lsm3_compare_index_tuples` compares column by column, as `SortSupport` says for each of them, and then
the places; the B-trees below are in the same order.

* `SortSupport` and `SortKeys` are the comparisons of PostgreSQL that this uses, with what is known of them.
* `compareIndexTuples` is the comparison of tuples, and `before` the order of a scan in either direction.
* `before.isStrictTotalOrder`: it is a total order in which no two tuples are equal, whatever the columns'
  types and options, so it is an order to scan an index in (`PageScan`).
* `Index` is the contents of a B-tree and `Index.Ordered` what is true of its order.

The options of a column, descending order or nulls first, are part of its comparison and need not be known.  All
that is used is that the comparison is total and transitive, and that data it finds equal may be taken for each
other.
-/

set_option autoImplicit false

namespace ScratchStore

namespace Lsm3

open Std

/-- `ItemPointerData` -/
structure ItemPointer where
  block : ℕ
  offset : ℕ
deriving DecidableEq

/-- A tuple of an index with `n` key columns. -/
structure IndexTuple {n : ℕ} (D : Fin n → Type) where
  key : ∀ i, Option (D i)
  tid : ItemPointer

/-- How a column is sorted: `ApplySortComparator` with its `SortSupport`, which is PostgreSQL's.  It is a total
order of the data and null, and the data are taken up to what it finds equal. -/
structure SortSupport (D : Type) where
  applySortComparator : Option D → Option D → Ordering
  [transCmp : TransCmp applySortComparator]
  [lawfulEqCmp : LawfulEqCmp applySortComparator]

/-- What tuples are compared with: `sortKeys`, and PostgreSQL's `ItemPointerCompare`. -/
structure SortKeys {n : ℕ} (D : Fin n → Type) where
  ssup : ∀ i, SortSupport (D i)
  itemPointerCompare : ItemPointer → ItemPointer → Ordering
  [transCmp : TransCmp itemPointerCompare]
  [lawfulEqCmp : LawfulEqCmp itemPointerCompare]

attribute [instance] SortSupport.transCmp SortSupport.lawfulEqCmp SortKeys.transCmp SortKeys.lawfulEqCmp

/-! ## The order of an index -/

theorem transCmp_comap {α β : Type} (cmp : β → β → Ordering) [TransCmp cmp] (f : α → β) :
    TransCmp fun a b ↦ cmp (f a) (f b) where
  eq_swap := OrientedCmp.eq_swap
  isLE_trans := TransCmp.isLE_trans

variable {n : ℕ} {D : Fin n → Type} (sortKeys : SortKeys D)

/-- The loop of `lsm3_compare_index_tuples`, over the columns that are left. -/
def compareColumns : List (Fin n) → IndexTuple D → IndexTuple D → Ordering
  | [] => fun _ _ ↦ .eq
  | i :: is =>
    compareLex (fun a b ↦ (sortKeys.ssup i).applySortComparator (a.key i) (b.key i)) (compareColumns is)

/-- `lsm3_compare_index_tuples` -/
def compareIndexTuples : IndexTuple D → IndexTuple D → Ordering :=
  compareLex (compareColumns sortKeys (List.finRange n)) fun a b ↦ sortKeys.itemPointerCompare a.tid b.tid

instance (is : List (Fin n)) : TransCmp (compareColumns sortKeys is) := by
  induction is with
  | nil => exact { eq_swap := rfl, isLE_trans := fun _ _ ↦ rfl }
  | cons i is ih =>
    have : TransCmp fun a b : IndexTuple D ↦ (sortKeys.ssup i).applySortComparator (a.key i) (b.key i) :=
      transCmp_comap _ fun a : IndexTuple D ↦ a.key i
    exact inferInstanceAs (TransCmp (compareLex _ _))

theorem key_eq_of_compareColumns {is : List (Fin n)} {a b : IndexTuple D}
    (h : compareColumns sortKeys is a b = .eq) : ∀ i ∈ is, a.key i = b.key i := by
  induction is with
  | nil => simp
  | cons i is ih =>
    rw [compareColumns, compareLex_eq_eq] at h
    exact List.forall_mem_cons.mpr ⟨LawfulEqCmp.eq_of_compare h.1, ih h.2⟩

instance : TransCmp (compareIndexTuples sortKeys) := by
  have : TransCmp fun a b : IndexTuple D ↦ sortKeys.itemPointerCompare a.tid b.tid :=
    transCmp_comap _ fun a : IndexTuple D ↦ a.tid
  exact inferInstanceAs (TransCmp (compareLex _ _))

/-- Two tuples that compare as equal have the same data and are for the same row. -/
instance : LawfulEqCmp (compareIndexTuples sortKeys) where
  compare_self {a} := ReflCmp.compare_self
  eq_of_compare {a b} h := by
    rw [compareIndexTuples, compareLex_eq_eq] at h
    have hkey : a.key = b.key := funext fun i ↦ key_eq_of_compareColumns sortKeys h.1 i (List.mem_finRange i)
    have htid : a.tid = b.tid := LawfulEqCmp.eq_of_compare h.2
    obtain ⟨key, tid⟩ := a
    obtain ⟨key', tid'⟩ := b
    rw [IndexTuple.mk.injEq]
    exact ⟨hkey, htid⟩

/-- `ScanDirection` -/
inductive ScanDirection where
  | forward
  | backward
deriving DecidableEq

/-- The order in which a scan returns tuples. -/
def before (dir : ScanDirection) (a b : IndexTuple D) : Prop :=
  match dir with
  | .forward => compareIndexTuples sortKeys a b = .lt
  | .backward => compareIndexTuples sortKeys b a = .lt

instance (dir : ScanDirection) : DecidableRel (before sortKeys dir) := fun _ _ ↦ by
  cases dir <;> exact inferInstanceAs (Decidable (_ = _))

instance before.isStrictTotalOrder (dir : ScanDirection) :
    IsStrictTotalOrder (IndexTuple D) (before sortKeys dir) where
  trichotomous a b hab hba := by
    cases hcmp : compareIndexTuples sortKeys a b with
    | eq => exact LawfulEqCmp.eq_of_compare hcmp
    | lt =>
      cases dir with
      | forward => exact absurd hcmp hab
      | backward => exact absurd hcmp hba
    | gt =>
      have hlt := OrientedCmp.lt_of_gt hcmp
      cases dir with
      | forward => exact absurd hlt hba
      | backward => exact absurd hlt hab
  irrefl a h := by
    cases dir <;> exact absurd (ReflCmp.compare_self.symm.trans h) (by simp)
  trans a b c hab hbc := by
    cases dir with
    | forward => exact TransCmp.lt_trans hab hbc
    | backward => exact TransCmp.lt_trans hbc hab

/-! ## The tuples of an index -/

/-- The tuples of a B-tree, from left to right. -/
abbrev Index {n : ℕ} (D : Fin n → Type) := List (IndexTuple D)

/-- Sorted, with no tuple before one that is smaller. -/
def Index.Ordered (index : Index D) : Prop := index.Pairwise fun a b ↦ ¬before sortKeys .forward b a

variable {sortKeys}

theorem Index.Ordered.nil : Index.Ordered sortKeys ([] : Index D) := List.Pairwise.nil

/-- An index without duplicates is in the order of a forward scan, and the other way round it is in the
order of a backward scan. -/
theorem Index.Ordered.pairwise {index : Index D} (h : index.Ordered sortKeys) (hnodup : index.Nodup) :
    index.Pairwise (before sortKeys .forward) := by
  refine (h.and hnodup).imp fun hab ↦ ?_
  rcases trichotomous_of (before sortKeys .forward) _ _ with hlt | heq | hgt
  · exact hlt
  · exact absurd heq hab.2
  · exact absurd hgt hab.1

end Lsm3

end ScratchStore
