import Mathlib

/-!
# Columns of equal width

A range that is cut into columns of equal width.  The column of a point is the floor of its distance from the start in
widths (`column`); a point lies in the column of that number and in no other (`column_eq_iff`), and a point of the range
in one of its columns (`column_range`).
-/

namespace Columns

variable {K : Type*} [Field K] [LinearOrder K] [IsStrictOrderedRing K] [FloorRing K] {start width x : K}

/-- The number of the column of a point. -/
def column (start width x : K) : ℤ := ⌊(x - start) / width⌋

/-- The column of number `i` has the points from its start to the start of the next. -/
theorem column_eq_iff (hwidth : 0 < width) {i : ℤ} :
    column start width x = i ↔ start + i * width ≤ x ∧ x < start + (i + 1) * width := by
  rw [column, Int.floor_eq_iff, le_div_iff₀ hwidth, div_lt_iff₀ hwidth]
  constructor
  · rintro ⟨hle, hlt⟩
    exact ⟨by linarith, by linarith⟩
  · rintro ⟨hle, hlt⟩
    exact ⟨by linarith, by linarith⟩

theorem column_range (hwidth : 0 < width) {n : ℕ} (hle : start ≤ x) (hlt : x < start + n * width) :
    0 ≤ column start width x ∧ column start width x < n := by
  constructor
  · exact Int.floor_nonneg.2 (div_nonneg (sub_nonneg.2 hle) hwidth.le)
  · rw [column, Int.floor_lt, div_lt_iff₀ hwidth]
    push_cast
    linarith

end Columns
