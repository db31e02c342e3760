import MentorRevival.Pid.Init

/-!
# What a controller remembers

The record of a controller in closed form, after any history of calls to the module. The gains
are those set last, the accumulator has seen every sample, and the result is a function of the
last sample and of the gains in force at that time: neither the target nor the sum nor the
previous sample is ever anything but zero.
-/

namespace MentorRevival

open History

structure Gains where
  kp : Float32
  ki : Float32
  kd : Float32

def TPID.gains (r : TPID) : Gains := { kp := r.kp, ki := r.ki, kd := r.kd }

namespace PidOp

/-- The gains that an operation sets for controller `n`. -/
def gains? (n : Fin NUM_PID) : PidOp → Option Gains
  | init => some { kp := 0, ki := 0, kd := 0 }
  | setGains k kp ki kd => if n = k then some { kp := kp, ki := ki, kd := kd } else none
  | addValue _ _ => none

def value? (n : Fin NUM_PID) : PidOp → Option UInt32
  | addValue k value => if n = k then some value else none
  | init | setGains _ _ _ _ => none

variable {n : Fin NUM_PID} {op : PidOp} {r : TPID}

theorem gains_onRecord : (op.onRecord n r).gains = (op.gains? n).getD r.gains := by
  cases op with
  | init => rfl
  | setGains k kp ki kd =>
    rw [onRecord, gains?]
    split
    · rfl
    · rfl
  | addValue k value =>
    rw [onRecord]
    split
    · rfl
    · rfl

theorem sumError_onRecord {r' : TPID} (h : r.sumError = r'.sumError) :
    (op.onRecord n r).sumError =
      (match op.value? n with
        | some value => r'.addValue value
        | none => r').sumError := by
  cases op with
  | init => exact h
  | setGains k kp ki kd =>
    rw [onRecord, value?]
    split
    · exact h
    · exact h
  | addValue k value =>
    rw [onRecord, value?]
    split
    · simp only [TPID.addValue, h]
    · exact h

theorem result_onRecord (h : op.value? n = none) : (op.onRecord n r).result = r.result := by
  cases op with
  | init => rfl
  | setGains k kp ki kd =>
    rw [onRecord]
    split
    · rfl
    · rfl
  | addValue k value =>
    rw [value?, ite_eq_right_iff] at h
    rw [onRecord, if_neg]
    intro hn
    cases h hn

end PidOp

/-- The gains in force behind a history. -/
def gainsAfter (n : Fin NUM_PID) (ops : List PidOp) : Gains :=
  (ops.filterMap (PidOp.gains? n)).getLast?.getD { kp := 0, ki := 0, kd := 0 }

def valuesOf (n : Fin NUM_PID) (ops : List PidOp) : List UInt32 := ops.filterMap (PidOp.value? n)

/-- The result of a call with `value` while nothing else is set but the gains. -/
def Gains.respond (g : Gains) (value : UInt32) : Float32 :=
  g.kp * (0 - value).toFloat32 + g.ki * 0 + g.kd * value.toFloat32

section Histories

variable (n : Fin NUM_PID) (ops : List PidOp) (s : PidState)

theorem pid_runOps : (runOps ops s).pid n = ops.foldl (fun r op => op.onRecord n r) (s.pid n) := by
  induction ops generalizing s with
  | nil => rfl
  | cons op ops ih =>
    rw [List.foldl_cons, ← pid_run]
    exact ih (op.run s)

theorem runOps_append (ops' : List PidOp) :
    runOps (ops ++ ops') s = runOps ops' (runOps ops s) := List.foldl_append

theorem gains_runOps : ((runOps ops s).pid n).gains =
    (ops.filterMap (PidOp.gains? n)).getLast?.getD (s.pid n).gains := by
  rw [pid_runOps]
  apply foldl_lastWrite
  intro r op
  exact PidOp.gains_onRecord

theorem sumError_runOps {r : TPID} (hr : (s.pid n).sumError = r.sumError) :
    ((runOps ops s).pid n).sumError = ((valuesOf n ops).foldl TPID.addValue r).sumError := by
  rw [pid_runOps]
  generalize s.pid n = r' at hr
  induction ops generalizing r r' with
  | nil => exact hr
  | cons op ops ih =>
    have hone := @PidOp.sumError_onRecord n op _ _ hr
    rw [List.foldl_cons, valuesOf, List.filterMap_cons]
    cases hvalue : op.value? n with
    | none =>
      rw [hvalue] at hone
      exact ih _ hone
    | some value =>
      rw [hvalue] at hone
      exact ih _ hone

/-- Calls that give a controller no sample leave its result alone. -/
theorem result_runOps (h : valuesOf n ops = []) :
    ((runOps ops s).pid n).result = (s.pid n).result := by
  rw [pid_runOps]
  rw [valuesOf, List.filterMap_eq_nil_iff] at h
  refine List.foldlRecOn (motive := fun r : TPID => r.result = (s.pid n).result) _ _ rfl ?_
  intro r hr op hop
  rw [PidOp.result_onRecord (h op hop), hr]

end Histories

/-- The record of every controller after every history of calls to the module. -/
theorem record_of_history (behind : Nat → TPID) (ops : List PidOp) (n : Fin NUM_PID) :
    ((runOps ops (PidState.boot behind)).pid n).gains = gainsAfter n ops ∧
      ((runOps ops (PidState.boot behind)).pid n).Unset ∧
      ((runOps ops (PidState.boot behind)).pid n).sumError =
        ((valuesOf n ops).foldl TPID.addValue TPID.zero).sumError ∧
      (valuesOf n ops = [] → pidGetResult n (runOps ops (PidState.boot behind)) = 0) ∧
      ∀ past value later, ops = past ++ .addValue n value :: later → valuesOf n later = [] →
        pidGetResult n (runOps ops (PidState.boot behind)) =
          (gainsAfter n past).respond value := by
  have hboot : (PidState.boot behind).pid n = TPID.zero := if_pos n.isLt
  have hgains (ops : List PidOp) :
      ((runOps ops (PidState.boot behind)).pid n).gains = gainsAfter n ops := by
    rw [gains_runOps, hboot]
    rfl
  refine ⟨hgains ops, unset_runOps (unset_boot behind) ops n,
    sumError_runOps n ops _ (congrArg TPID.sumError hboot), ?_, ?_⟩
  · intro hnone
    rw [pidGetResult, result_runOps n ops _ hnone, hboot]
    rfl
  · intro past value later hops hlater
    have hunset := unset_runOps (unset_boot behind) past n
    have hset := hgains past
    rw [hops, runOps_append, pidGetResult, runOps, List.foldl_cons]
    refine (result_runOps n later _ hlater).trans ?_
    rw [pid_run, PidOp.onRecord, if_pos rfl, ← hset]
    generalize (runOps past (PidState.boot behind)).pid n = r at hunset ⊢
    simp only [TPID.addValue, TPID.error, TPID.delta, hunset.target, hunset.lastValue, hunset.sum,
      UInt32.sub_zero]
    rfl

/-- Between two samples the gains change and another controller is used. -/
theorem record_of_history_gains :
    pidGetResult 1 (runOps [.setGains 1 2 0 0, .addValue 1 7, .init, .setGains 1 3 0 1,
        .addValue 4 9, .addValue 1 5, .setGains 1 0 0 0] (PidState.boot fun _ => TPID.zero)) =
      Gains.respond { kp := 3, ki := 0, kd := 1 } 5 :=
  (record_of_history (fun _ => TPID.zero) _ 1).2.2.2.2 [.setGains 1 2 0 0, .addValue 1 7, .init,
    .setGains 1 3 0 1, .addValue 4 9] 5 [.setGains 1 0 0 0] rfl rfl

end MentorRevival
