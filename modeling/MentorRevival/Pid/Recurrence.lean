import MentorRevival.Pid.Pid

/-!
# The discrete PID recurrence

The previous sample is never stored and the accumulator is fed with samples instead of errors,
so `PID_addValue` follows the recurrence on few histories only.
-/

namespace MentorRevival

open History Saturation

/-- What the recurrence says of a call with `value`, behind `before`. -/
structure Recurrence (n : Fin NUM_PID) (s : PidState) (before : List PidCall) (value : UInt32) :
    Prop where
  kp : ((((addValues before s).pid n).error value).toNat : Int) =
    (s.pid n).target.toNat - value.toNat
  kd : ((((addValues before s).pid n).delta value).toNat : Int) =
    value.toNat - ((samples n before).getLast?.getD 0).toNat
  sumError : ((pidAddValue n value (addValues before s)).pid n).sumError.toInt =
    clamp 5000 (((addValues before s).pid n).sumError.toInt +
      ((s.pid n).target.toNat - value.toNat))
  others : ∀ m : Nat, m ≠ n →
    (pidAddValue n value (addValues before s)).pid m = (addValues before s).pid m

def FollowsRecurrence (n : Fin NUM_PID) (s : PidState) (calls : List PidCall) : Prop :=
  AtEach (fun before c => c.1 = n → Recurrence n s before c.2) calls

/-- One sample at most, as far from zero as from the target or both by more than `MAX_ERROR`,
or a controller with target zero that is given nothing but zeros. -/
def FollowedOn (target : UInt32) (values : List UInt32) : Prop :=
  values = [] ∨
  (∃ v, values = [v] ∧ v ≤ target ∧ v.toNat < 2 ^ 31 ∧
    (target.toNat = 2 * v.toNat ∨ 5000 ≤ v.toNat ∧ 5000 ≤ target.toNat - v.toNat)) ∨
  (target = 0 ∧ ∀ v ∈ values, v = 0)

section Record

variable {r : TPID}

/-- The recurrence for one record. -/
structure TPID.Follows (r : TPID) (before : List UInt32) (value : UInt32) : Prop where
  kp : (((before.foldl TPID.addValue r).error value).toNat : Int) =
    r.target.toNat - value.toNat
  kd : (((before.foldl TPID.addValue r).delta value).toNat : Int) =
    value.toNat - (before.getLast?.getD 0).toNat
  sumError : ((before.foldl TPID.addValue r).addValue value).sumError.toInt =
    clamp 5000 ((before.foldl TPID.addValue r).sumError.toInt +
      (r.target.toNat - value.toNat))

theorem foldl_addValue_target (values : List UInt32) :
    (values.foldl TPID.addValue r).target = r.target := by
  induction values generalizing r with
  | nil => rfl
  | cons v values ih => exact ih

theorem foldl_addValue_lastValue (values : List UInt32) :
    (values.foldl TPID.addValue r).lastValue = r.lastValue := by
  induction values generalizing r with
  | nil => rfl
  | cons v values ih => exact ih

theorem toNat_error_iff (before : List UInt32) (value : UInt32) :
    (((before.foldl TPID.addValue r).error value).toNat : Int) =
      r.target.toNat - value.toNat ↔ value ≤ r.target := by
  have ht := r.target.toNat_lt
  have hv := value.toNat_lt
  rw [TPID.error, foldl_addValue_target, UInt32.toNat_sub, UInt32.le_iff_toNat_le]
  omega

theorem delta_eq (hlast : r.lastValue = 0) (before : List UInt32) (value : UInt32) :
    (before.foldl TPID.addValue r).delta value = value := by
  rw [TPID.delta, foldl_addValue_lastValue, hlast, UInt32.sub_zero]

private theorem sumError_first_iff (hsum : r.sumError = 0) {v : UInt32} (hv : v ≤ r.target) :
    (r.addValue v).sumError.toInt =
        clamp 5000 (r.sumError.toInt + (r.target.toNat - v.toNat)) ↔
      v.toNat < 2 ^ 31 ∧
        (r.target.toNat = 2 * v.toNat ∨ 5000 ≤ v.toNat ∧ 5000 ≤ r.target.toNat - v.toNat) := by
  have hzero : r.sumError.toInt = 0 := by rw [hsum]; rfl
  have hle := UInt32.le_iff_toNat_le.mp hv
  have ht := r.target.toNat_lt
  rw [sumError_addValue_cases r v (by rw [hzero]; decide), hzero, clamp, clamp, clamp]
  split_ifs <;> omega

theorem follows_first_iff (hlast : r.lastValue = 0) (hsum : r.sumError = 0) (v : UInt32) :
    r.Follows [] v ↔ v ≤ r.target ∧ v.toNat < 2 ^ 31 ∧
      (r.target.toNat = 2 * v.toNat ∨ 5000 ≤ v.toNat ∧ 5000 ≤ r.target.toNat - v.toNat) := by
  constructor
  · intro h
    have hv := (toNat_error_iff [] v).mp h.kp
    exact ⟨hv, (sumError_first_iff hsum hv).mp h.sumError⟩
  · rintro ⟨hv, hsplit⟩
    constructor
    · exact (toNat_error_iff [] v).mpr hv
    · rw [delta_eq hlast]
      exact (Int.sub_zero _).symm
    · exact (sumError_first_iff hsum hv).mpr hsplit

theorem sumError_of_zeros (hsum : r.sumError = 0) {values : List UInt32}
    (hzero : ∀ v ∈ values, v = 0) : (values.foldl TPID.addValue r).sumError.toInt = 0 := by
  induction values generalizing r with
  | nil =>
    rw [List.foldl_nil, hsum]
    rfl
  | cons v values ih =>
    obtain rfl := hzero v List.mem_cons_self
    have hkeep : (r.addValue 0).sumError.toInt = 0 := by
      rw [sumError_addValue, hsum]
      decide
    apply ih
    · exact Int32.toInt_inj.mp hkeep
    · exact fun w hw => hzero w (List.mem_cons_of_mem _ hw)

private theorem getLast_of_zeros {values : List UInt32} (hzero : ∀ v ∈ values, v = 0) :
    values.getLast?.getD 0 = 0 := by
  cases hlast : values.getLast? with
  | none => rfl
  | some v => exact hzero v (List.mem_of_getLast? hlast)

theorem follows_of_zeros (hlast : r.lastValue = 0) (hsum : r.sumError = 0)
    (htarget : r.target = 0) {before : List UInt32} (hzero : ∀ v ∈ before, v = 0) :
    r.Follows before 0 := by
  have hacc := sumError_of_zeros hsum hzero
  constructor
  · exact (toNat_error_iff before 0).mpr UInt32.zero_le
  · rw [delta_eq hlast, getLast_of_zeros hzero]
    rfl
  · rw [sumError_addValue, hacc, htarget]
    decide

theorem atEach_follows_iff (hlast : r.lastValue = 0) (hsum : r.sumError = 0)
    (values : List UInt32) : AtEach r.Follows values ↔ FollowedOn r.target values := by
  constructor
  · intro h
    cases values with
    | nil => exact Or.inl rfl
    | cons v values =>
      have hfirst := (follows_first_iff hlast hsum v).mp (h [] v values rfl)
      cases values with
      | nil => exact Or.inr (Or.inl ⟨v, rfl, hfirst⟩)
      | cons w values =>
        have hdelta := (h [v] w values rfl).kd
        rw [delta_eq hlast] at hdelta
        have hv : v.toNat = 0 := by
          change (w.toNat : Int) = w.toNat - v.toNat at hdelta
          omega
        have htarget : r.target = 0 := by
          apply UInt32.toNat_inj.mp
          change r.target.toNat = 0
          omega
        refine Or.inr (Or.inr ⟨htarget, fun x hx => ?_⟩)
        rcases List.append_of_mem hx with ⟨before, after, hsplit⟩
        have hle := (toNat_error_iff before x).mp (h before x after hsplit).kp
        rw [htarget] at hle
        exact UInt32.le_zero_iff.mp hle
  · rintro (rfl | ⟨v, rfl, hfirst⟩ | ⟨htarget, hzero⟩)
    · exact atEach_nil
    · have hone := (follows_first_iff hlast hsum v).mpr hfirst
      exact (atEach_append_singleton [] v).mpr ⟨atEach_nil, hone⟩
    · intro before x after hsplit
      subst hsplit
      obtain rfl : x = 0 := hzero x (by simp)
      exact follows_of_zeros hlast hsum htarget fun v hv =>
        hzero v (List.mem_append_left _ hv)

end Record

theorem recurrence_iff (n : Fin NUM_PID) (s : PidState) (before : List PidCall) (v : UInt32) :
    Recurrence n s before v ↔ (s.pid n).Follows (samples n before) v := by
  have hpid := pid_addValues n s before
  have hnext := pid_next n s before v
  constructor
  · intro h
    constructor
    · rw [← hpid]
      exact h.kp
    · rw [← hpid]
      exact h.kd
    · rw [← hnext, ← hpid]
      exact h.sumError
  · intro h
    constructor
    · rw [hpid]
      exact h.kp
    · rw [hpid]
      exact h.kd
    · rw [hnext, hpid]
      exact h.sumError
    · intro m hm
      rw [pid_pidAddValue, if_neg hm]

/-- A controller that starts with no sample and nothing accumulated follows the recurrence
exactly on these histories, however the calls on the others lie in between. -/
theorem follows_recurrence_iff (n : Fin NUM_PID) (s : PidState)
    (hlast : (s.pid n).lastValue = 0) (hsum : (s.pid n).sumError = 0) (calls : List PidCall) :
    FollowsRecurrence n s calls ↔ FollowedOn (s.pid n).target (samples n calls) := by
  rw [← atEach_follows_iff hlast hsum, ← atEach_samples]
  apply atEach_congr
  intro before c
  exact imp_congr_right fun _ => recurrence_iff n s before c.2

/-- The samples of another controller do not count. -/
theorem follows_recurrence_iff_halfway :
    FollowsRecurrence 0 ((PidState.boot fun _ => TPID.zero).write 0 fun r =>
      { r with target := 10000 }) [(1, 7), (0, 5000), (1, 9)] :=
  (follows_recurrence_iff 0 _ rfl rfl _).mpr
    (Or.inr (Or.inl ⟨5000, rfl, by decide, by decide, by decide⟩))

/-- After boot a sample above the target makes `kp` multiply `2 ^ 32 - 1`. -/
theorem negative_error_wraps :
    ¬ FollowsRecurrence 0 (PidState.boot fun _ => TPID.zero) [(0, 1)] := by
  intro h
  have hkp := (h [] (0, 1) [] rfl rfl).kp
  revert hkp
  decide

end MentorRevival
