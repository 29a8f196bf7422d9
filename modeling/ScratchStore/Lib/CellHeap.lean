import Mathlib.Data.List.Basic
import Mathlib.Data.List.Perm.Basic
import Mathlib.Logic.Function.Basic

/-!
# A heap of cells

A heap is a partial map from addresses to cells.  `Holds heap cells` says that the cells of a list are
all there is in it, each at an address of its own.  The order of the list does not matter, so any cell can
be brought to its front, and `holds_cons` says all there is to say about the first one: storing to it,
allocating it and freeing it are `Holds.store`, `Holds.alloc` and `Holds.free`.

An equation between heaps would have to name every address.  `Holds` says the same with a list, and because
it may be reordered (`Holds.perm`), a structure of cells that point to each other is described by any way
of listing them: a tree by its nodes in order, or by the nodes of one of its subtrees and then the others.
Frame conditions come for free, since what is not at the front of the list is not touched.
-/

set_option autoImplicit false

namespace CellHeap

variable {α β : Type*}

/-- The heap has these cells at these addresses, and no others. -/
structure Holds (heap : α → Option β) (cells : List (α × β)) : Prop where
  /-- No two cells share an address. -/
  nodup : (cells.map Prod.fst).Nodup
  /-- The other addresses are not in use. -/
  mem_iff : ∀ a c, heap a = some c ↔ (a, c) ∈ cells

variable {heap : α → Option β} {cells cells' : List (α × β)} {a : α} {c c' : β}

theorem Holds.get (h : Holds heap cells) (hmem : (a, c) ∈ cells) : heap a = some c :=
  (h.mem_iff a c).mpr hmem

theorem Holds.perm (h : Holds heap cells) (hperm : cells.Perm cells') : Holds heap cells' where
  nodup := (hperm.map Prod.fst).nodup_iff.mp h.nodup
  mem_iff a c := (h.mem_iff a c).trans hperm.mem_iff

/-- Where there is no cell the heap is empty. -/
theorem Holds.eq_none (h : Holds heap cells) (ha : a ∉ cells.map Prod.fst) : heap a = none := by
  cases hc : heap a with
  | none => rfl
  | some c => exact absurd (List.mem_map_of_mem (f := Prod.fst) ((h.mem_iff a c).mp hc)) ha

theorem holds_nil_iff : Holds heap [] ↔ heap = fun _ ↦ none := by
  constructor
  · intro h
    funext a
    exact h.eq_none (by simp)
  · rintro rfl
    exact ⟨List.nodup_nil, by simp⟩

variable [DecidableEq α]

/-- **One cell** and the heap without it. -/
theorem holds_cons : Holds heap ((a, c) :: cells) ↔
    heap a = some c ∧ Holds (Function.update heap a none) cells := by
  constructor
  · intro h
    have hnodup := h.nodup
    rw [List.map_cons, List.nodup_cons] at hnodup
    refine ⟨h.get (by simp), hnodup.2, fun b d ↦ ?_⟩
    by_cases hb : b = a
    · subst hb
      rw [Function.update_self]
      exact ⟨nofun, fun hmem ↦ absurd (List.mem_map_of_mem (f := Prod.fst) hmem) hnodup.1⟩
    · rw [Function.update_of_ne hb, h.mem_iff, List.mem_cons]
      exact ⟨fun hmem ↦ hmem.resolve_left fun heq ↦ hb (congrArg Prod.fst heq), Or.inr⟩
  · rintro ⟨ha, h⟩
    have hnot : a ∉ cells.map Prod.fst := by
      intro hmem
      obtain ⟨⟨b, d⟩, hbd, rfl⟩ := List.mem_map.mp hmem
      have hget := h.get hbd
      rw [Function.update_self] at hget
      cases hget
    refine ⟨List.nodup_cons.mpr ⟨hnot, h.nodup⟩, fun b d ↦ ?_⟩
    rw [List.mem_cons, ← h.mem_iff]
    by_cases hb : b = a
    · subst hb
      rw [ha, Function.update_self]
      simp [eq_comm]
    · rw [Function.update_of_ne hb]
      simp [hb]

/-- Assigning to a cell. -/
theorem Holds.store (h : Holds heap ((a, c) :: cells)) (c' : β) :
    Holds (Function.update heap a (some c')) ((a, c') :: cells) := by
  rw [holds_cons, Function.update_self, Function.update_idem]
  exact ⟨rfl, (holds_cons.mp h).2⟩

/-- A new cell. -/
theorem Holds.alloc (h : Holds heap cells) (ha : a ∉ cells.map Prod.fst) (c : β) :
    Holds (Function.update heap a (some c)) ((a, c) :: cells) := by
  rw [holds_cons, Function.update_self, Function.update_idem, ← h.eq_none ha, Function.update_eq_self]
  exact ⟨rfl, h⟩

/-- A cell that is given back. -/
theorem Holds.free (h : Holds heap ((a, c) :: cells)) : Holds (Function.update heap a none) cells :=
  (holds_cons.mp h).2

end CellHeap
