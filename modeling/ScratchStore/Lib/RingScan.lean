import Mathlib.Algebra.Group.Fin.Basic
import Mathlib.Logic.Function.Basic
import ScratchStore.Lib.Layers

/-!
# Reading a ring while it is written

A ring of slots holds maps, the newest in slot `w` and older ones below it, round to the oldest in
`w + 1`.  A writer makes room by merging the two oldest slots into `w + 2`, and then puts a new map into
`w + 1`, which is the newest from there on.  A reader that started when the newest slot was `r` looks at
`r`, `r - 1`, … and may be overtaken.

What the reader is looking for is a *good* value: the newest there was when it started, or a newer one.
`Anchor` says that there is still a slot ahead of the reader that has one, and that nothing else can be
found before it, neither from the reader's side nor from the writer's.  Merging moves the anchor along
with its value (`Anchor.merge`), and the only step that can lose it is a new map in the slot the reader
would look at next (`Anchor.push`).

Nothing here is about files or locks: the slots are `Fin (n + 3)` and what they hold is optional.  What a
reader must be spared is in the hypotheses of the rules.

* `Anchor.next` asks that there was nothing where the reader has looked.
* `Anchor.merge` asks nothing of the reader, but when it leaves the anchor in the slot that is merged away,
  it says that the reader has passed the slot above.
* `Anchor.push` needs just that, and that the reader is not about to look at the slot that is overwritten,
  or that there was nothing in it.
-/

set_option autoImplicit false

namespace RingScan

open Layers

variable {n : ℕ} {V : Type*}

/-- How far down from `r` the slot `x` is. -/
def age (r x : Fin (n + 3)) : ℕ := (r - x).val

theorem age_le (r x : Fin (n + 3)) : age r x ≤ n + 2 := Nat.le_of_lt_succ (r - x).isLt

@[simp] theorem age_self (r : Fin (n + 3)) : age r r = 0 := by simp [age]

theorem age_eq (r x : Fin (n + 3)) :
    age r x = if x.val ≤ r.val then r.val - x.val else n + 3 + r.val - x.val := by
  have hx := x.isLt
  have hr := r.isLt
  rw [age, Fin.val_sub]
  split_ifs with h
  · rw [show n + 3 - x.val + r.val = r.val - x.val + (n + 3) by omega, Nat.add_mod_right]
    exact Nat.mod_eq_of_lt (by omega)
  · rw [Nat.mod_eq_of_lt (by omega)]
    omega

theorem val_add_one (x : Fin (n + 3)) : (x + 1).val = if x.val = n + 2 then 0 else x.val + 1 := by
  rw [Fin.val_add_one]
  simp only [Fin.ext_iff, Fin.val_last]

theorem age_inj {r x y : Fin (n + 3)} (h : age r x = age r y) : x = y := by
  have hx := x.isLt
  have hy := y.isLt
  rw [age_eq, age_eq] at h
  apply Fin.ext
  split_ifs at h <;> omega

/-- The slot above is younger by one, unless it is the last. -/
theorem age_add_one (r x : Fin (n + 3)) :
    age r x = age r (x + 1) + 1 ∨ (age r (x + 1) = n + 2 ∧ age r x = 0) := by
  have hx := x.isLt
  have hr := r.isLt
  rw [age_eq, age_eq, val_add_one]
  split_ifs <;> omega

/-- After a step of the writer every slot but the new one is older by one. -/
theorem age_succ {w x : Fin (n + 3)} (h : x ≠ w + 1) : age (w + 1) x = age w x + 1 := by
  have hx := x.isLt
  have hw := w.isLt
  have hne : x.val ≠ (w + 1).val := fun hv ↦ h (Fin.ext hv)
  rw [val_add_one] at hne
  rw [age_eq, age_eq, val_add_one]
  split_ifs at hne ⊢ <;> omega

/-- The slot the writer is going to write is the oldest. -/
theorem age_next (w : Fin (n + 3)) : age w (w + 1) = n + 2 := by
  rcases age_add_one w w with h | ⟨h, -⟩
  · rw [age_self] at h
    omega
  · exact h

theorem age_lt_next {w x : Fin (n + 3)} (h : x ≠ w + 1) : age w x < n + 2 := by
  have hle := age_le w x
  rcases Nat.lt_or_ge (age w x) (n + 2) with hlt | hge
  · exact hlt
  · exact absurd (age_inj ((Nat.le_antisymm hle hge).trans (age_next w).symm)) h

theorem add_two (w : Fin (n + 3)) : w + 2 = w + 1 + 1 := by
  rw [add_assoc]
  exact congrArg (w + ·) (Fin.ext rfl)

theorem age_second (w : Fin (n + 3)) : age w (w + 2) = n + 1 := by
  have h := age_add_one w (w + 1)
  rw [age_next, ← add_two] at h
  omega

theorem second_ne (w : Fin (n + 3)) : w + 2 ≠ w + 1 := by
  intro h
  have hage := age_second w
  rw [h, age_next] at hage
  omega

/-- The first hit in a list of slots that goes down from `w` and leaves out only older ones. -/
theorem exists_first {w : Fin (n + 3)} {is : List (Fin (n + 3))} (his : is.Pairwise (age w · < age w ·))
    (hall : ∀ x, x ∉ is → ∀ a ∈ is, age w a < age w x) {c : Fin (n + 3) → Option V} {v : V}
    (h : is.findSome? c = some v) :
    ∃ a ∈ is, c a = some v ∧ ∀ x, age w x < age w a → c x = none := by
  obtain ⟨is₁, a, is₂, rfl, hv, hnone⟩ := List.findSome?_eq_some_iff.mp h
  refine ⟨a, by simp, hv, fun x hx ↦ hnone x ?_⟩
  by_contra hx₁
  have hafter : ∀ y ∈ is₂, age w a < age w y :=
    (List.pairwise_cons.mp (List.pairwise_append.mp his).2.1).1
  by_cases hmem : x ∈ is₁ ++ a :: is₂
  · rcases List.mem_cons.mp ((List.mem_append.mp hmem).resolve_left hx₁) with rfl | hx₂
    · exact lt_irrefl _ hx
    · exact lt_asymm hx (hafter x hx₂)
  · exact lt_asymm hx (hall x hmem a (by simp))

/-! ## The anchor

A value is safe from a reader as long as it is in a place that the reader has before it. -/

/-- The slot `a` has a good value, and nothing else is found before it, neither by a reader that starts
at the newest slot `w` nor by the one that started at `r` and has `j` slots behind it. -/
structure Anchor (good : V → Prop) (c : Fin (n + 3) → Option V) (w r : Fin (n + 3)) (j : ℕ)
    (a : Fin (n + 3)) : Prop where
  /-- It has a good value. -/
  hit : ∃ v, c a = some v ∧ good v
  /-- What is in newer slots is good, too. -/
  written : ∀ x, age w x < age w a → ∀ v, c x = some v → good v
  /-- The reader has not passed it. -/
  ahead : j ≤ age r a
  /-- What the reader finds on its way there is good. -/
  read : ∀ x, j ≤ age r x → age r x < age r a → ∀ v, c x = some v → good v

namespace Anchor

variable {good : V → Prop} {c : Fin (n + 3) → Option V} {w r a : Fin (n + 3)} {j : ℕ}

/-- What the reader finds next is good. -/
theorem found (h : Anchor good c w r j a) {x : Fin (n + 3)} (hx : age r x = j) {v : V}
    (hv : c x = some v) : good v := by
  by_cases ha : x = a
  · obtain ⟨v', hv', hgood⟩ := h.hit
    rw [← ha, hv] at hv'
    rwa [Option.some.inj hv']
  · refine h.read x hx.ge (lt_of_le_of_ne (hx.le.trans h.ahead) fun heq ↦ ha (age_inj heq)) v hv

/-- When the reader finds nothing, the anchor is still ahead. -/
theorem next (h : Anchor good c w r j a) {x : Fin (n + 3)} (hx : age r x = j) (hnone : c x = none) :
    Anchor good c w r (j + 1) a where
  hit := h.hit
  written := h.written
  ahead := by
    refine lt_of_le_of_ne h.ahead ?_
    intro heq
    obtain ⟨v, hv, -⟩ := h.hit
    rw [age_inj (hx.trans heq), hv] at hnone
    cases hnone
  read y hy := h.read y (Nat.le_of_succ_le hy)

/-- The reader starts when the newest slot is its first, or the one above it and of no interest. -/
theorem start {v : V} (hv : c a = some v) (hgood : good v) (hnone : ∀ x, age w x < age w a → c x = none)
    (hr : r = w ∨ (w = r + 1 ∧ a ≠ w)) : Anchor good c w r 0 a where
  hit := ⟨v, hv, hgood⟩
  written x hx v' hv' := by
    rw [hnone x hx] at hv'
    cases hv'
  ahead := Nat.zero_le _
  read x _ hx v' hv' := by
    have hlt : age w x < age w a := by
      rcases hr with rfl | ⟨rfl, ha⟩
      · exact hx
      · have hne : x ≠ r + 1 := by
          rintro rfl
          have hle := age_le r a
          rw [age_next] at hx
          omega
        rw [age_succ hne, age_succ ha]
        omega
    rw [hnone x hlt] at hv'
    cases hv'

/-- What is in the second oldest slot after the merge was in one of the two. -/
theorem good_of_merged {dead : V → Bool} {x y : Option V} (hx : ∀ v, x = some v → good v)
    (hy : x = none → ∀ v, y = some v → good v) {v : V} (hv : live dead (x.or y) = some v) : good v := by
  have hor := (live_eq_some_iff.mp hv).1
  cases hc : x with
  | some v' =>
    rw [hc] at hor
    exact hx v (hc.trans hor)
  | none =>
    rw [hc] at hor
    exact hy hc v hor

/-- **Merging** the two oldest slots.  The anchor moves up with its value, unless the reader has been
there. -/
theorem merge {dead : V → Bool} (hlive : ∀ v, good v → dead v = false) (h : Anchor good c w r j a) :
    ∃ a', Anchor good (Function.update c (w + 2) (live dead ((c (w + 2)).or (c (w + 1))))) w r j a' ∧
      (a' = w + 1 → age r (w + 2) < j) := by
  obtain ⟨v₀, hv₀, hgood₀⟩ := h.hit
  by_cases h1 : a = w + 1
  · subst h1
    -- everything else is found before the anchor by the writer
    have hother : ∀ x, x ≠ w + 1 → ∀ v, c x = some v → good v := fun x hx ↦
      h.written x (by rw [age_next]; exact age_lt_next hx)
    have hmerged : ∀ v, live dead ((c (w + 2)).or (c (w + 1))) = some v → good v := fun v ↦
      good_of_merged (hother _ (second_ne w)) fun _ v hv ↦ by
        rw [hv₀] at hv
        rwa [← Option.some.inj hv]
    have hall : ∀ x, x ≠ w + 1 → ∀ v,
        Function.update c (w + 2) (live dead ((c (w + 2)).or (c (w + 1)))) x = some v → good v := by
      intro x hx v hv
      rw [Function.update_apply] at hv
      split_ifs at hv
      · exact hmerged v hv
      · exact hother x hx v hv
    by_cases hbehind : age r (w + 2) < j
    · refine ⟨w + 1, ⟨⟨v₀, ?_, hgood₀⟩, fun x hx ↦ hall x ?_, h.ahead, fun x hj hx ↦ hall x ?_⟩,
        fun _ ↦ hbehind⟩
      · rw [Function.update_of_ne (second_ne w).symm, hv₀]
      · rintro rfl; exact lt_irrefl _ hx
      · rintro rfl; exact lt_irrefl _ hx
    · have hhit : ∃ v, live dead ((c (w + 2)).or (c (w + 1))) = some v := by
        cases hc : c (w + 2) with
        | some v => exact ⟨v, live_eq_some_iff.mpr ⟨rfl, hlive v (hother _ (second_ne w) v hc)⟩⟩
        | none => exact ⟨v₀, live_eq_some_iff.mpr ⟨hv₀, hlive v₀ hgood₀⟩⟩
      obtain ⟨v, hv⟩ := hhit
      refine ⟨w + 2, ⟨⟨v, by rw [Function.update_self, hv], hmerged v hv⟩, fun x hx ↦ hall x ?_,
        Nat.not_lt.mp hbehind, fun x hj hx v' hv' ↦ ?_⟩, fun heq ↦ absurd heq (second_ne w)⟩
      · rintro rfl
        rw [age_next, age_second] at hx
        omega
      · by_cases hx1 : x = w + 1
        · rw [hx1, Function.update_of_ne (second_ne w).symm, hv₀] at hv'
          rwa [← Option.some.inj hv']
        · exact hall x hx1 v' hv'
  · by_cases h2 : a = w + 2
    · subst h2
      have hkeep : live dead ((c (w + 2)).or (c (w + 1))) = c (w + 2) := by
        rw [hv₀, Option.some_or]
        exact live_eq_some_iff.mpr ⟨rfl, hlive v₀ hgood₀⟩
      rw [hkeep, Function.update_eq_self]
      exact ⟨w + 2, h, fun heq ↦ absurd heq (second_ne w)⟩
    · refine ⟨a, ⟨⟨v₀, by rw [Function.update_of_ne h2, hv₀], hgood₀⟩, fun x hx v hv ↦ ?_, h.ahead,
        fun x hj hx v hv ↦ ?_⟩, fun heq ↦ absurd heq h1⟩
      · have hx2 : x ≠ w + 2 := by
          rintro rfl
          have ha := age_lt_next h1
          rw [age_second] at hx
          omega
        rw [Function.update_of_ne hx2] at hv
        exact h.written x hx v hv
      · rw [Function.update_apply] at hv
        split_ifs at hv with hx2
        · -- the oldest slot comes right after the second oldest
          subst hx2
          refine good_of_merged (h.read _ hj hx) (fun _ v hv ↦ h.read (w + 1) ?_ ?_ v hv) hv
          · rcases age_add_one r (w + 1) with hage | hage
            · rw [← add_two] at hage; omega
            · have hle := age_le r a
              rw [← add_two] at hage; omega
          · have hne : age r (w + 1) ≠ age r a := fun heq ↦ h1 (age_inj heq.symm)
            rcases age_add_one r (w + 1) with hage | hage
            · rw [← add_two] at hage; omega
            · have hle := age_le r a
              rw [← add_two] at hage; omega
        · exact h.read x hj hx v hv

/-- **A new map** in the oldest slot, when the reader is not about to look there or would find nothing. -/
theorem push (h : Anchor good c w r j a) (hmoved : a = w + 1 → age r (w + 2) < j)
    (hnext : age r (w + 1) = j → j = 0 ∨ c (w + 1) = none) {t : Option V} (ht : ∀ v, t = some v → good v) :
    Anchor good (Function.update c (w + 1) t) (w + 1) r j a := by
  obtain ⟨v₀, hv₀, hgood₀⟩ := h.hit
  have ha : a ≠ w + 1 := by
    rintro rfl
    have hbehind := hmoved rfl
    have hahead := h.ahead
    rcases age_add_one r (w + 1) with hage | hage <;> rw [← add_two] at hage
    · rcases hnext (by omega) with hj | hnone
      · omega
      · rw [hnone] at hv₀
        cases hv₀
    · omega
  refine ⟨⟨v₀, by rw [Function.update_of_ne ha, hv₀], hgood₀⟩, fun x hx v hv ↦ ?_, h.ahead,
    fun x hj hx v hv ↦ ?_⟩
  · rw [Function.update_apply] at hv
    split_ifs at hv with hx1
    · exact ht v hv
    · rw [age_succ hx1, age_succ ha] at hx
      exact h.written x (by omega) v hv
  · rw [Function.update_apply] at hv
    split_ifs at hv
    · exact ht v hv
    · exact h.read x hj hx v hv

end Anchor

end RingScan
