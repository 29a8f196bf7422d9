import Mathlib.Order.Basic
import Mathlib.Data.List.Basic

/-!
# Stacks of partial maps, newest first

A log-structured store keeps several versions of a map side by side and answers a query from the
newest one that has the key.  `newest ls k` is that answer for the stack `ls`, whose head is the
newest map.  Some values are only markers that a key was deleted; `live dead` reads an answer
with the dead values taken as absent.

The two facts everything else rests on are about what may be done at the *bottom* of the stack:
`live_newest_compact` says that replacing the two oldest maps by their overlay, with the dead
values dropped, changes no live answer, and `newest_compact_of_live` that it does not even change
the raw answer for a key whose newest value is not dead.

The last section is about a crash in the middle of a compaction, when the layers may be found in another
order than the one they were written in (`or_or_swap_iff`), or a layer is still there after what it had was
moved (`live_or_left_behind_iff`).  Both are equivalences: they say what must not be stored for the answers
to be right all the same.
-/

set_option autoImplicit false

namespace Layers

variable {K V : Type*}

/-- The answer of the newest map that has the key. -/
def newest (ls : List (K → Option V)) (k : K) : Option V := ls.findSome? (· k)

@[simp] theorem newest_nil (k : K) : newest ([] : List (K → Option V)) k = none := rfl

@[simp] theorem newest_cons (l : K → Option V) (ls : List (K → Option V)) (k : K) :
    newest (l :: ls) k = (l k).or (newest ls k) := by
  rw [newest, List.findSome?_cons]
  cases l k <;> rfl

@[simp] theorem newest_append (as bs : List (K → Option V)) (k : K) :
    newest (as ++ bs) k = (newest as k).or (newest bs k) := by
  induction as with
  | nil => simp
  | cons a as ih => rw [List.cons_append, newest_cons, newest_cons, ih, Option.or_assoc]

theorem newest_eq_none_iff {ls : List (K → Option V)} {k : K} :
    newest ls k = none ↔ ∀ l ∈ ls, l k = none :=
  List.findSome?_eq_none_iff

theorem exists_of_newest {ls : List (K → Option V)} {k : K} {v : V} (h : newest ls k = some v) :
    ∃ l ∈ ls, l k = some v :=
  List.exists_of_findSome?_eq_some h

/-! ## Dead values -/

/-- An answer with the dead values read as absent. -/
def live (dead : V → Bool) (o : Option V) : Option V := o.filter fun v ↦ !dead v

variable {dead : V → Bool}

@[simp] theorem live_none : live dead none = none := rfl

theorem live_some (v : V) : live dead (some v) = if dead v then none else some v := by
  cases h : dead v <;> simp [live, Option.filter, h]

@[simp] theorem live_live (o : Option V) : live dead (live dead o) = live dead o := by
  simp [live]

theorem live_eq_some_iff {o : Option V} {v : V} :
    live dead o = some v ↔ o = some v ∧ dead v = false := by
  simp [live]

/-- Dropping the dead values from an overlay changes nothing a newer map does not already hide,
as far as live answers go. -/
theorem live_or_live (a b : Option V) : live dead (a.or (live dead b)) = live dead (a.or b) := by
  cases a with
  | none => simp
  | some v => simp

/-- The overlay of two maps with the dead values dropped: what compacting them leaves. -/
def compact (dead : V → Bool) (a b : K → Option V) (k : K) : Option V :=
  live dead ((a k).or (b k))

theorem eq_or_eq_of_compact {a b : K → Option V} {k : K} {v : V} (h : compact dead a b k = some v) :
    a k = some v ∨ b k = some v := by
  obtain ⟨hor, -⟩ := live_eq_some_iff.mp h
  exact (Option.or_eq_some_iff.mp hor).imp id And.right

/-- **Compacting the two oldest maps changes no live answer.** -/
theorem live_newest_compact (ls : List (K → Option V)) (a b : K → Option V) (k : K) :
    live dead (newest (ls ++ [compact dead a b]) k) = live dead (newest (ls ++ [a, b]) k) := by
  simp only [newest_append, newest_cons, newest_nil, Option.or_none, compact]
  exact live_or_live _ _

/-- For a key whose newest value is not dead, compacting the two oldest maps changes nothing at
all. -/
theorem newest_compact_of_live {ls : List (K → Option V)} {a b : K → Option V} {k : K}
    (h : ∀ v, newest (ls ++ [a, b]) k = some v → dead v = false) :
    newest (ls ++ [compact dead a b]) k = newest (ls ++ [a, b]) k := by
  simp only [newest_append, newest_cons, newest_nil, Option.or_none, compact] at h ⊢
  cases hn : newest ls k with
  | some v => rfl
  | none =>
    simp only [hn, Option.none_or] at h ⊢
    cases ho : (a k).or (b k) with
    | none => rfl
    | some v => rw [live_some, h v ho]; rfl

/-! ## Layers out of place -/

/-- Two layers can be exchanged for a key unless they have different values for it. -/
theorem or_or_swap_iff {b o x : Option V} : o.or (b.or x) = b.or (o.or x) ↔
    ¬∃ v v', b = some v ∧ o = some v' ∧ v' ≠ v := by
  rcases b with _ | v
  · simp
  · rcases o with _ | v'
    · simp
    · simp

/-- The oldest map may still be there after it was compacted into the one above it, unless it has a
value for a key that was dropped. -/
theorem live_or_left_behind_iff {a c f : Option V} : live dead (a.or (c.or f)) = live dead (a.or c) ↔
    ¬(a = none ∧ c = none ∧ live dead f ≠ none) := by
  rcases a with _ | v
  · rcases c with _ | w
    · simp
    · simp
  · simp

end Layers
