import Mathlib.Algebra.Order.Group.Int
import Mathlib.Algebra.Order.Group.MinMax
import Mathlib.Algebra.Order.Group.Unbundled.Int
import Mathlib.Tactic.Common

/-!
# Sign and magnitude

A signed quantity that is handed on as a direction and a magnitude. Scaling the magnitude with
a floored division rounds the signed quantity towards zero, so it keeps the order and the sign;
so does a dead zone around zero.
-/

namespace SignMagnitude

/-- The quantity that a direction and a magnitude stand for. -/
def signed (positive : Bool) (magnitude : Nat) : Int :=
  if positive then magnitude else -magnitude

section Scale

def scale (num den : Nat) (x : Int) : Int := (num * x).tdiv den

variable {num den : Nat}

theorem scale_mono (hden : 0 < den) {x y : Int} (hxy : x ≤ y) :
    scale num den x ≤ scale num den y := by
  apply Int.tdiv_le_tdiv
  · exact Int.natCast_pos.mpr hden
  · exact Int.mul_le_mul_of_nonneg_left hxy (Int.natCast_nonneg num)

theorem scale_neg (x : Int) : scale num den (-x) = -scale num den x := by
  rw [scale, scale, Int.mul_neg, Int.neg_tdiv]

theorem natAbs_scale (x : Int) : (scale num den x).natAbs = num * x.natAbs / den := by
  rw [scale, Int.natAbs_tdiv, Int.natAbs_mul, Int.natAbs_natCast, Int.natAbs_natCast]
  rfl

theorem scale_natCast (n : Nat) : scale num den n = (num * n / den : Nat) := by
  rw [scale, ← Int.natCast_mul, Int.natCast_tdiv_eq_ediv, Int.natCast_ediv]

theorem scale_zero : scale num den 0 = 0 := by
  rw [scale, Int.mul_zero, Int.zero_tdiv]

/-- Any direction that agrees with the sign of a quantity where it has one gives its scaling. -/
theorem signed_scale {positive : Bool} {x : Int} (hpos : 0 < x → positive = true)
    (hneg : x < 0 → positive = false) :
    signed positive (num * x.natAbs / den) = scale num den x := by
  rcases Int.lt_trichotomy x 0 with h | rfl | h
  · have hx : x = -(x.natAbs : Int) := by omega
    rw [signed, hneg h, hx, scale_neg, scale_natCast, Int.natAbs_neg, Int.natAbs_natCast]
    rfl
  · simp [signed, scale_zero]
  · have hx : x = (x.natAbs : Int) := by omega
    rw [signed, hpos h, if_pos rfl, hx, scale_natCast, Int.natAbs_natCast]

end Scale

section DeadZone

variable {α : Type*} [AddCommGroup α] [LinearOrder α] [IsOrderedAddMonoid α]

/-- Zero within `t` of zero, and beyond that the distance to the zone with the sign kept. -/
def deadZone (t x : α) : α := max (x - t) 0 + min (x + t) 0

theorem deadZone_mono (t : α) : Monotone (deadZone t) := by
  intro x y hxy
  apply add_le_add
  · exact max_le_max_right 0 (sub_le_sub_right hxy t)
  · exact min_le_min_right 0 (add_le_add_left hxy t)

theorem deadZone_neg (t x : α) : deadZone t (-x) = -deadZone t x := by
  have hleft : -x - t = -(x + t) := (neg_add' x t).symm
  have hright : -x + t = -(x - t) := (neg_add_eq_sub x t).trans (neg_sub x t).symm
  have hmax : max (-(x + t)) 0 = -min (x + t) 0 := by rw [← max_neg_neg, neg_zero]
  have hmin : min (-(x - t)) 0 = -max (x - t) 0 := by rw [← min_neg_neg, neg_zero]
  rw [deadZone, deadZone, hleft, hright, hmax, hmin, neg_add, add_comm]

theorem deadZone_of_abs_le {t x : α} (h : |x| ≤ t) : deadZone t x = 0 := by
  rcases abs_le.mp h with ⟨hlow, hhigh⟩
  have hmax : x - t ≤ 0 := sub_nonpos.mpr hhigh
  have hmin : 0 ≤ x + t := neg_le_iff_add_nonneg.mp hlow
  rw [deadZone, max_eq_right hmax, min_eq_right hmin, add_zero]

theorem deadZone_of_lt {t x : α} (ht : 0 ≤ t) (h : t < x) : deadZone t x = x - t := by
  have hmax : 0 ≤ x - t := sub_nonneg.mpr h.le
  have hmin : 0 ≤ x + t := add_nonneg (ht.trans h.le) ht
  rw [deadZone, max_eq_left hmax, min_eq_right hmin, add_zero]

theorem abs_deadZone {t : α} (ht : 0 ≤ t) (x : α) : |deadZone t x| = max (|x| - t) 0 := by
  rcases le_or_gt |x| t with h | h
  · rw [deadZone_of_abs_le h, abs_zero, max_eq_right (sub_nonpos.mpr h)]
  · rcases le_total 0 x with hx | hx
    · rw [abs_of_nonneg hx] at h ⊢
      rw [deadZone_of_lt ht h, abs_of_nonneg (sub_nonneg.mpr h.le),
        max_eq_left (sub_nonneg.mpr h.le)]
    · rw [abs_of_nonpos hx] at h ⊢
      rw [← neg_neg x, deadZone_neg, deadZone_of_lt ht h, abs_neg, neg_neg,
        abs_of_nonneg (sub_nonneg.mpr h.le), max_eq_left (sub_nonneg.mpr h.le)]

end DeadZone

end SignMagnitude
