import Mathlib.Data.Int.Log
import Mathlib.Data.Rat.Floor
import Mathlib.Algebra.Order.Archimedean.Basic
import Mathlib.Tactic.Linarith
import Mathlib.Tactic.FieldSimp

/-!
# Rounding to a 24-bit significand

What storing a positive quotient in a C `float` does to it: the nearest multiple of the unit in
the last place, ties going to the even one.  Subnormal and infinite values are out of scope.

`floor_round_eq_iff` says for which quotients the `float` is a whole number.

* `ulp` is taken from the integer logarithm, so that `round q` is a rational number like `q`, and no real
  number comes in.
* `abs_sub_round_le` bounds what rounding does.
* `floor_round_natCast`: a whole number stays a whole number, though not always the same one.

A program that divides two integers as `float`s and looks whether the result is whole asks whether one
divides the other.  The answer is right as long as the quotient is small, and `floor_round_eq_iff` says how
long that is.
-/

set_option autoImplicit false

namespace Float24

/-- The unit in the last place at `q`. -/
def ulp (q : ℚ) : ℚ := (2 : ℚ) ^ (Int.log 2 q - 23)

/-- The nearest integer, ties to even. -/
def roundEven (x : ℚ) : ℤ :=
  if x - ⌊x⌋ < 1 / 2 then ⌊x⌋
  else if 1 / 2 < x - ⌊x⌋ then ⌊x⌋ + 1
  else if ⌊x⌋ % 2 = 0 then ⌊x⌋ else ⌊x⌋ + 1

/-- The `float` nearest to `q`. -/
def round (q : ℚ) : ℚ := roundEven (q / ulp q) * ulp q

theorem ulp_pos (q : ℚ) : 0 < ulp q := zpow_pos two_pos _

theorem abs_sub_roundEven_le (x : ℚ) : |x - roundEven x| ≤ 1 / 2 := by
  have hle := Int.floor_le x
  have hlt := Int.lt_floor_add_one x
  rw [roundEven, abs_le]
  split_ifs <;> push_cast <;> constructor <;> linarith

/-- At most half away from an even number, also when there is a tie. -/
theorem roundEven_of_even {x : ℚ} {m : ℤ} (hm : m % 2 = 0) (hx : |x - m| ≤ 1 / 2) :
    roundEven x = m := by
  have hfloor : ⌊x⌋ = m ∨ ⌊x⌋ = m - 1 := by
    have hle := Int.floor_le x
    have hlt := Int.lt_floor_add_one x
    obtain ⟨h1, h2⟩ := abs_le.mp hx
    have hlow : m - 2 < ⌊x⌋ := by
      have h : ((m - 2 : ℤ) : ℚ) < (⌊x⌋ : ℚ) := by push_cast; linarith
      exact_mod_cast h
    have hup : ⌊x⌋ < m + 1 := by
      have h : (⌊x⌋ : ℚ) < ((m + 1 : ℤ) : ℚ) := by push_cast; linarith
      exact_mod_cast h
    omega
  obtain ⟨h1, h2⟩ := abs_le.mp hx
  rw [roundEven]
  rcases hfloor with h | h
  · rw [h, if_pos hm]
    split_ifs with hlt hgt
    · rfl
    · linarith
    · rfl
  · have hodd : ¬(m - 1) % 2 = 0 := by omega
    rw [h, if_neg hodd]
    push_cast
    split_ifs with hlt
    · linarith
    · omega
    · omega

/-- The `float` is at most half a unit in the last place off. -/
theorem abs_sub_round_le (q : ℚ) : |q - round q| ≤ ulp q / 2 := by
  have hpos := ulp_pos q
  have hq : q - round q = (q / ulp q - roundEven (q / ulp q)) * ulp q := by
    rw [sub_mul, div_mul_cancel₀ _ hpos.ne', round]
  rw [hq, abs_mul, abs_of_pos hpos]
  have hle := mul_le_mul_of_nonneg_right (abs_sub_roundEven_le (q / ulp q)) hpos.le
  linarith

/-- **The `float` is a whole number** when some whole number is at most half a unit in the last place
away: then either all `float`s of this size are whole numbers, or it is an even multiple of the unit. -/
theorem floor_round_eq_iff (q : ℚ) :
    (⌊round q⌋ : ℚ) = round q ↔ ∃ m : ℤ, |q - m| ≤ ulp q / 2 := by
  constructor
  · intro h
    exact ⟨⌊round q⌋, h ▸ abs_sub_round_le q⟩
  · rintro ⟨m, hm⟩
    have hwhole : ∃ n : ℤ, round q = n := by
      rcases le_or_gt 0 (Int.log 2 q - 23) with he | he
      · obtain ⟨j, hj⟩ := Int.eq_ofNat_of_zero_le he
        refine ⟨roundEven (q / ulp q) * 2 ^ j, ?_⟩
        rw [round]
        push_cast
        rw [ulp, hj, zpow_natCast]
      · obtain ⟨j, hj⟩ := Int.eq_ofNat_of_zero_le (show 0 ≤ 22 - Int.log 2 q by omega)
        have hulp : (m : ℚ) / ulp q = ((m * 2 ^ (j + 1) : ℤ) : ℚ) := by
          rw [ulp, show Int.log 2 q - 23 = -((j + 1 : ℕ) : ℤ) by omega, zpow_neg, zpow_natCast, div_inv_eq_mul]
          push_cast
          rfl
        have heven : m * 2 ^ (j + 1) % 2 = 0 := by
          rw [pow_succ, ← mul_assoc]
          exact Int.mul_emod_left _ _
        have hpos := ulp_pos q
        have hnear : |q / ulp q - ((m * 2 ^ (j + 1) : ℤ) : ℚ)| ≤ 1 / 2 := by
          rw [← hulp, ← sub_div, abs_div, abs_of_pos hpos, div_le_iff₀ hpos]
          linarith
        refine ⟨m, ?_⟩
        rw [round, roundEven_of_even heven hnear, ← hulp, div_mul_cancel₀ _ hpos.ne']
    obtain ⟨n, hn⟩ := hwhole
    rw [hn, Int.floor_intCast]

/-- A whole number stays one. -/
theorem floor_round_natCast (n : ℕ) : (⌊round n⌋ : ℚ) = round n := by
  refine (floor_round_eq_iff n).mpr ⟨n, ?_⟩
  rw [Int.cast_natCast, sub_self, abs_zero]
  exact (half_pos (ulp_pos _)).le

end Float24
