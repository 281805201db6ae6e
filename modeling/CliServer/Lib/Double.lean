import Mathlib

/-!
# Doubles as rationals

The doubles that are neither tiny nor huge, as rationals with 53 significant bits: `double q` is the one next to `q`,
and `roundEven` the integer next to it, the even one of two.  Each is off by half a unit at most
(`abs_roundEven_sub_le`, `abs_double_sub_le`).
-/

namespace Double

/-- The integer next to a number; the even one of two. -/
def roundEven (q : ℚ) : ℤ :=
  if 2 * (q - ⌊q⌋) < 1 ∨ (2 * (q - ⌊q⌋) = 1 ∧ ⌊q⌋ % 2 = 0) then ⌊q⌋ else ⌊q⌋ + 1

/-- The last of the 53 bits. -/
def unit (q : ℚ) : ℚ := 2 ^ (Int.log 2 |q| - 52)

/-- The double next to a number. -/
def double (q : ℚ) : ℚ := if q = 0 then 0 else roundEven (q / unit q) * unit q

variable {q : ℚ}

theorem abs_roundEven_sub_le (q : ℚ) : |(roundEven q : ℚ) - q| ≤ 1 / 2 := by
  have hfloor : (⌊q⌋ : ℚ) ≤ q := Int.floor_le q
  have hnext : q < ⌊q⌋ + 1 := Int.lt_floor_add_one q
  unfold roundEven
  split
  · next hdown =>
    have hhalf : 2 * (q - ⌊q⌋) ≤ 1 := by
      rcases hdown with h | ⟨h, -⟩
      · exact h.le
      · exact h.le
    rw [abs_le]
    constructor <;> linarith
  · next hup =>
    have hhalf : 1 ≤ 2 * (q - ⌊q⌋) := by
      by_contra h
      exact hup (.inl (not_le.1 h))
    push_cast
    rw [abs_le]
    constructor <;> linarith

private theorem unit_pos (q : ℚ) : 0 < unit q := zpow_pos two_pos _

private theorem unit_le (hq : q ≠ 0) : unit q ≤ |q| / 2 ^ 52 := by
  have hlog : (2 : ℚ) ^ Int.log 2 |q| ≤ |q| := by
    have h := Int.zpow_log_le_self (b := 2) one_lt_two (abs_pos.2 hq)
    simpa using h
  rw [unit, zpow_sub₀ two_ne_zero]
  exact (div_le_div_iff_of_pos_right (by positivity)).2 hlog

theorem abs_double_sub_le (q : ℚ) : |double q - q| ≤ |q| / 2 ^ 53 := by
  unfold double
  split
  · next hq => rw [hq, sub_self, abs_zero, zero_div]
  · next hq =>
    have hunit := unit_pos q
    have hround := abs_roundEven_sub_le (q / unit q)
    have hscaled : |(roundEven (q / unit q) : ℚ) * unit q - q| =
        |(roundEven (q / unit q) : ℚ) - q / unit q| * unit q := by
      rw [← abs_of_pos hunit, ← abs_mul, abs_of_pos hunit, sub_mul, div_mul_cancel₀ q hunit.ne']
    calc |(roundEven (q / unit q) : ℚ) * unit q - q|
        = |(roundEven (q / unit q) : ℚ) - q / unit q| * unit q := hscaled
      _ ≤ 1 / 2 * unit q := mul_le_mul_of_nonneg_right hround hunit.le
      _ ≤ 1 / 2 * (|q| / 2 ^ 52) := mul_le_mul_of_nonneg_left (unit_le hq) (by norm_num)
      _ = |q| / 2 ^ 53 := by ring

end Double
