import MentorRevival.Pid.Pid

/-!
# The error accumulator

`sumError` saturates as long as no sum reaches `2 ^ 31`; the first one that does wraps to a
negative `int` before the bounds are tested.
-/

namespace MentorRevival

open History

/-- A call adds `value` to the accumulator within its bounds. -/
structure Saturates (n : Fin NUM_PID) (s : PidState) (before : List PidCall) (value : UInt32) :
    Prop where
  sum : ((pidAddValue n value (addValues before s)).pid n).sumError.toInt =
    min 5000 (((addValues before s).pid n).sumError.toInt + value.toNat)
  increases : ((addValues before s).pid n).sumError.toInt ≤
    ((pidAddValue n value (addValues before s)).pid n).sumError.toInt
  bounded : |((pidAddValue n value (addValues before s)).pid n).sumError.toInt| ≤ 5000

def SaturatesExactly (n : Fin NUM_PID) (s : PidState) (calls : List PidCall) : Prop :=
  AtEach (fun before c => c.1 = n → Saturates n s before c.2) calls

def total (values : List UInt32) : Nat := (values.map UInt32.toNat).sum

/-- The sum that the accumulator is given fits an `int`. -/
def FitsInt (before : List UInt32) (value : UInt32) : Prop :=
  min 5000 (total before) + value.toNat < 2 ^ 31

instance (before : List UInt32) (value : UInt32) : Decidable (FitsInt before value) :=
  inferInstanceAs (Decidable (_ < 2 ^ 31))

section Record

variable {r : TPID}

theorem total_append_singleton (values : List UInt32) (v : UInt32) :
    total (values ++ [v]) = total values + v.toNat := by
  simp [total]

theorem foldl_addValue_append_singleton (values : List UInt32) (v : UInt32) :
    (values ++ [v]).foldl TPID.addValue r = (values.foldl TPID.addValue r).addValue v := by
  rw [List.foldl_append, List.foldl_cons, List.foldl_nil]

theorem sumError_bounded (hsum : r.sumError = 0) (values : List UInt32) :
    |(values.foldl TPID.addValue r).sumError.toInt| ≤ 5000 := by
  induction values using List.reverseRecOn with
  | nil =>
    rw [List.foldl_nil, hsum]
    decide
  | append_singleton values v _ =>
    rw [foldl_addValue_append_singleton]
    exact sumError_addValue_bounds _ v

theorem sumError_addValue_eq_min_iff (h : |r.sumError.toInt| ≤ 5000) (v : UInt32) :
    (r.addValue v).sumError.toInt = min 5000 (r.sumError.toInt + v.toNat) ↔
      r.sumError.toInt + v.toNat < 2 ^ 31 := by
  have hv := v.toNat_lt
  have hcases := sumError_addValue_cases r v h
  rcases abs_le.mp h with ⟨hlow, hhigh⟩
  rw [hcases, Saturation.clamp, Saturation.clamp]
  split_ifs <;> omega

/-- Samples whose sums fit leave the saturated total. -/
theorem sumError_of_fits (hsum : r.sumError = 0) (values : List UInt32)
    (hfits : AtEach FitsInt values) :
    (values.foldl TPID.addValue r).sumError.toInt = min 5000 (total values : Int) := by
  induction values using List.reverseRecOn with
  | nil =>
    rw [List.foldl_nil, hsum]
    rfl
  | append_singleton values v ih =>
    rcases (atEach_append_singleton values v).mp hfits with ⟨hbefore, hv⟩
    have hsofar := ih hbefore
    have hlt : (values.foldl TPID.addValue r).sumError.toInt + v.toNat < 2 ^ 31 := by
      unfold FitsInt at hv
      omega
    have hmin := (sumError_addValue_eq_min_iff (sumError_bounded hsum values) v).mpr hlt
    rw [foldl_addValue_append_singleton, hmin, hsofar, total_append_singleton,
      Saturation.min_min_add (Int.natCast_nonneg _), Int.natCast_add]

theorem eq_min_iff_fitsInt (hsum : r.sumError = 0) {before : List UInt32}
    (hfits : AtEach FitsInt before) (v : UInt32) :
    ((before.foldl TPID.addValue r).addValue v).sumError.toInt =
      min 5000 ((before.foldl TPID.addValue r).sumError.toInt + v.toNat) ↔
        FitsInt before v := by
  have hsofar := sumError_of_fits hsum before hfits
  rw [sumError_addValue_eq_min_iff (sumError_bounded hsum before), FitsInt]
  omega

end Record

theorem saturates_iff {n : Fin NUM_PID} {s : PidState} (hsum : (s.pid n).sumError = 0)
    (before : List PidCall) (v : UInt32) :
    Saturates n s before v ↔
      (((samples n before).foldl TPID.addValue (s.pid n)).addValue v).sumError.toInt =
        min 5000 (((samples n before).foldl TPID.addValue (s.pid n)).sumError.toInt +
          v.toNat) := by
  have hpid := pid_addValues n s before
  have hnext := pid_next n s before v
  have hbounded := sumError_bounded hsum (samples n before)
  rw [← hpid] at hbounded
  rw [← hnext, ← hpid]
  constructor
  · exact Saturates.sum
  · intro h
    constructor
    · exact h
    · rw [h]
      have hhigh := (abs_le.mp hbounded).2
      omega
    · rw [hnext]
      exact sumError_addValue_bounds _ v

/-- Starting from zero the accumulator saturates at every call exactly when every sum fits. -/
theorem saturates_exactly_iff (n : Fin NUM_PID) (s : PidState) (hsum : (s.pid n).sumError = 0)
    (calls : List PidCall) :
    SaturatesExactly n s calls ↔ AtEach FitsInt (samples n calls) := by
  have hone : SaturatesExactly n s calls ↔ AtEach (fun before v =>
      ((before.foldl TPID.addValue (s.pid n)).addValue v).sumError.toInt =
        min 5000 ((before.foldl TPID.addValue (s.pid n)).sumError.toInt + v.toNat))
      (samples n calls) := by
    rw [← atEach_samples]
    apply atEach_congr
    intro before c
    exact imp_congr_right fun _ => saturates_iff hsum before c.2
  rw [hone]
  apply atEach_iff
  intro before v _ hfits
  exact eq_min_iff_fitsInt hsum hfits v

/-- The bound is reached and kept. -/
theorem saturates_exactly_iff_bound :
    SaturatesExactly 2 (PidState.boot fun _ => TPID.zero) [(2, 4000), (3, 1), (2, 1500)] := by
  apply (saturates_exactly_iff 2 _ rfl _).mpr
  exact (atEach_append_singleton [4000] 1500).mpr
    ⟨(atEach_append_singleton [] 4000).mpr ⟨atEach_nil, by decide⟩, by decide⟩

/-- The first value that does not fit an `int` takes the accumulator to the lower bound. -/
theorem large_value_saturates_below :
    ¬ SaturatesExactly 0 (PidState.boot fun _ => TPID.zero) [(0, 2147483648)] := by
  intro h
  have hsum := (h [] (0, 2147483648) [] rfl rfl).sum
  revert hsum
  decide

end MentorRevival
