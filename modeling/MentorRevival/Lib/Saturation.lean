import Mathlib.Algebra.Order.Group.Abs

/-!
# Saturation

Values held within a bound on either side of zero, as two tests in a row hold them.
-/

namespace Saturation

variable {α : Type*} [AddCommGroup α] [LinearOrder α] [IsOrderedAddMonoid α] {m x y : α}

def clamp (m x : α) : α := max (-m) (min m x)

theorem abs_clamp_le (hm : 0 ≤ m) (x : α) : |clamp m x| ≤ m := by
  apply abs_le.mpr
  constructor
  · exact le_max_left (-m) _
  · exact max_le ((neg_nonpos.mpr hm).trans hm) (min_le_left m x)

/-- Testing for the upper bound and then for the lower one clamps. -/
theorem clamp_of_tests (hm : 0 ≤ m) (x : α) :
    (if (if m < x then m else x) < -m then -m else if m < x then m else x) = clamp m x := by
  have hneg : -m ≤ m := (neg_nonpos.mpr hm).trans hm
  by_cases hhigh : m < x
  · rw [if_pos hhigh, if_neg hneg.not_gt, clamp, min_eq_left hhigh.le, max_eq_right hneg]
  · rw [if_neg hhigh, clamp, min_eq_right (not_lt.mp hhigh)]
    by_cases hlow : x < -m
    · rw [if_pos hlow, max_eq_left hlow.le]
    · rw [if_neg hlow, max_eq_right (not_lt.mp hlow)]

/-- What has been cut off by the bound is not missed when more is added. -/
theorem min_min_add (hy : 0 ≤ y) : min m (min m x + y) = min m (x + y) := by
  rw [min_add, ← min_assoc, min_eq_left (le_add_of_nonneg_right hy)]

end Saturation
