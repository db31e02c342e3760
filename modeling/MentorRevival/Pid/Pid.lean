import MentorRevival.Lib.History
import MentorRevival.Lib.Saturation
import Mathlib.Algebra.GroupWithZero.Nat
import Mathlib.Algebra.Order.Group.Int
import Mathlib.Algebra.Order.Group.Unbundled.Int
import Mathlib.Logic.Function.Basic

/-!
# The PID controllers

The records of `pid.c` and what its functions write to them. The fields that the code computes
in integers do not depend on the gains.
-/

namespace MentorRevival

open History

abbrev NUM_PID : Nat := 6

abbrev MAX_ERROR : Int32 := 5000

structure TPID where
  kp : Float32
  ki : Float32
  kd : Float32
  sum : Float32
  target : UInt32
  lastValue : UInt32
  sumError : Int32
  result : Float32

/-- Static storage is zero. -/
def TPID.zero : TPID :=
  { kp := 0, ki := 0, kd := 0, sum := 0, target := 0, lastValue := 0, sumError := 0, result := 0 }

structure PidState where
  /-- The records at and behind the address of `pid`. -/
  pid : Nat → TPID
  written : List Nat

namespace PidState

def boot (behind : Nat → TPID) : PidState :=
  { pid := fun n => if n < NUM_PID then TPID.zero else behind n, written := [] }

def write (n : Nat) (f : TPID → TPID) (s : PidState) : PidState :=
  { pid := Function.update s.pid n (f (s.pid n)), written := s.written ++ [n] }

theorem write_pid (s : PidState) (f : TPID → TPID) (k m : Nat) :
    (s.write k f).pid m = if m = k then f (s.pid m) else s.pid m := by
  by_cases hm : m = k
  · subst hm
    rw [if_pos rfl]
    exact Function.update_self ..
  · rw [if_neg hm]
    exact Function.update_of_ne hm ..

end PidState

def pidSetGains (n : Nat) (kp ki kd : Float32) (s : PidState) : PidState :=
  s.write n fun r => { r with kp := kp, ki := ki, kd := kd }

/-- The loop names `pid[NUM_PID]`, which lies behind the table. -/
def pidInit (s : PidState) : PidState :=
  (List.range NUM_PID).foldl
    (fun s i =>
      pidSetGains i 0 0 0
        (s.write NUM_PID fun r => { r with lastValue := 0, sum := 0, target := 0 }))
    s

/-- The integer that `kp` is multiplied with. -/
def TPID.error (r : TPID) (value : UInt32) : UInt32 := r.target - value

/-- The integer that `kd` is multiplied with. -/
def TPID.delta (r : TPID) (value : UInt32) : UInt32 := value - r.lastValue

def TPID.addValue (r : TPID) (value : UInt32) : TPID :=
  let e := r.error value
  let d := r.delta value
  let sumError := (r.sumError.toUInt32 + value).toInt32
  let sumError := if MAX_ERROR < sumError then MAX_ERROR else sumError
  let sumError := if sumError < -MAX_ERROR then -MAX_ERROR else sumError
  { r with
    sumError := sumError
    result := r.kp * e.toFloat32 + r.ki * r.sum + r.kd * d.toFloat32 }

def pidAddValue (n : Nat) (value : UInt32) (s : PidState) : PidState :=
  s.write n fun r => r.addValue value

def pidGetResult (n : Nat) (s : PidState) : Float32 := (s.pid n).result

/-- `PID_addValue(n, value)` as the pair of its arguments. -/
abbrev PidCall : Type := Fin NUM_PID × UInt32

def addValues (calls : List PidCall) (s : PidState) : PidState :=
  calls.foldl (fun s c => pidAddValue c.1 c.2 s) s

/-- The values that a controller is given. -/
def samples (n : Fin NUM_PID) (calls : List PidCall) : List UInt32 :=
  calls.filterMap fun c => if c.1 = n then some c.2 else none

section Record

variable (r : TPID) (value : UInt32)

private theorem toInt_tests (x : Int32) :
    (if (if MAX_ERROR < x then MAX_ERROR else x) < -MAX_ERROR then -MAX_ERROR
      else if MAX_ERROR < x then MAX_ERROR else x).toInt = Saturation.clamp 5000 x.toInt := by
  have hmax : MAX_ERROR.toInt = 5000 := rfl
  have hmin : (-MAX_ERROR).toInt = -5000 := rfl
  have htests := Saturation.clamp_of_tests (m := (5000 : Int)) (by decide) x.toInt
  simp only [apply_ite Int32.toInt, Int32.lt_iff_toInt_lt, hmax, hmin]
  exact htests

theorem sumError_addValue : (r.addValue value).sumError.toInt =
    Saturation.clamp 5000 ((r.sumError.toInt + value.toNat).bmod (2 ^ 32)) := by
  have hvalue : value.toInt32.toInt = (value.toNat : Int).bmod (2 ^ 32) :=
    BitVec.toInt_eq_toNat_bmod value.toBitVec
  have hsum : (r.sumError.toUInt32 + value).toInt32.toInt =
      (r.sumError.toInt + value.toNat).bmod (2 ^ 32) := by
    rw [UInt32.toInt32_add, Int32.toInt32_toUInt32, Int32.toInt_add, hvalue, Int.add_bmod_bmod]
  rw [← hsum]
  exact toInt_tests _

theorem sumError_addValue_bounds : |(r.addValue value).sumError.toInt| ≤ 5000 := by
  rw [sumError_addValue]
  exact Saturation.abs_clamp_le (by decide) _

/-- From `2 ^ 31` on the sum wraps to a negative `int`. -/
theorem sumError_addValue_cases (h : |r.sumError.toInt| ≤ 5000) :
    (r.addValue value).sumError.toInt =
      if r.sumError.toInt + value.toNat < 2 ^ 31 then
        Saturation.clamp 5000 (r.sumError.toInt + value.toNat)
      else Saturation.clamp 5000 (r.sumError.toInt + value.toNat - 2 ^ 32) := by
  have hvalue := value.toNat_lt
  rcases abs_le.mp h with ⟨hlow, hhigh⟩
  have hbmod : (r.sumError.toInt + value.toNat).bmod (2 ^ 32) =
      if r.sumError.toInt + value.toNat < 2 ^ 31 then r.sumError.toInt + value.toNat
      else r.sumError.toInt + value.toNat - 2 ^ 32 := by
    rw [Int.bmod_def]
    split_ifs <;> omega
  rw [sumError_addValue, hbmod, apply_ite (Saturation.clamp (5000 : Int))]

end Record

section Calls

variable (n : Fin NUM_PID) (s : PidState)

theorem pid_pidAddValue (k m : Nat) (value : UInt32) :
    (pidAddValue k value s).pid m = if m = k then (s.pid m).addValue value else s.pid m :=
  s.write_pid _ k m

/-- The record of a controller depends on the values that this controller was given. -/
theorem pid_addValues (calls : List PidCall) :
    (addValues calls s).pid n = (samples n calls).foldl TPID.addValue (s.pid n) := by
  induction calls generalizing s with
  | nil => rfl
  | cons c calls ih =>
    rw [addValues, List.foldl_cons]
    refine (ih _).trans ?_
    rw [pid_pidAddValue, samples, samples, List.filterMap_cons]
    by_cases hc : c.1 = n
    · subst hc
      simp
    · have hne : (n : Nat) ≠ c.1 := fun he => hc (Fin.ext he.symm)
      simp [hc, hne]

theorem pid_next (before : List PidCall) (value : UInt32) :
    (pidAddValue n value (addValues before s)).pid n =
      ((samples n before).foldl TPID.addValue (s.pid n)).addValue value := by
  rw [pid_pidAddValue, if_pos rfl, pid_addValues]

theorem atEach_samples {P : List UInt32 → UInt32 → Prop} (calls : List PidCall) :
    AtEach (fun before c => c.1 = n → P (samples n before) c.2) calls ↔
      AtEach P (samples n calls) := by
  refine Iff.trans ?_ (atEach_filterMap calls)
  apply atEach_congr
  intro before c
  by_cases hc : c.1 = n
  · simp [hc, samples]
  · simp [hc]

end Calls

end MentorRevival
