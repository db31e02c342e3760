import MentorRevival.Events.Handlers
import MentorRevival.Lib.Transition

/-!
# Runs of packets

The outputs of the motors over any sequence of packets dispatched after `motor_init`. The
handlers neither look at the other outputs of a motor nor clamp the duty, so the interlock
between brake and enable and the bound on the width hold exactly as long as the host keeps
to them. No motor feels the packets of another.
-/

namespace MentorRevival

open Transition

def packetStep (p : Packet) (b : Board) : Option Board := some (evtDispatch p b).2

def Configured (b : Board) : Prop := ∀ m, (b.motorOut m).period = PWM_PERIOD

theorem configured_motorInit (b : Board) : Configured (motorInit b) := by
  intro m
  rw [motorOut_motorInit]

theorem Configured.step {p : Packet} {b b' : Board} (h : Configured b)
    (hs : packetStep p b = some b') : Configured b' := by
  obtain rfl := Option.some.inj hs
  intro m
  rw [motorOut_evtDispatch, MotorOut.after_period]
  exact h m

theorem dutySpeed_toInt (d : UInt16) : (dutySpeed d).toInt =
    if d.toNat ≤ 42767 then (d.toNat : Int) - 10000 else (d.toNat : Int) - 75536 := by
  have hd := d.toNat_lt
  have hconv : d.toInt16.toInt = (d.toNat : Int).bmod 65536 :=
    BitVec.toInt_eq_toNat_bmod d.toBitVec
  rw [dutySpeed, Int16.toInt_sub, hconv]
  change ((d.toNat : Int).bmod 65536 - 10000).bmod 65536 = _
  rw [Int.bmod_def, Int.bmod_def]
  split_ifs <;> omega

/-- Data for which `motor_setSpeed` programs no pulse at all. -/
def Standstill (d : UInt16) : Prop := 9900 < d.toNat ∧ d.toNat < 10100

/-- Data for which `motor_setSpeed` programs at most a full period. -/
def WithinDuty (d : UInt16) : Prop := d.toNat ≤ 20099 ∨ 65437 ≤ d.toNat

instance (d : UInt16) : Decidable (Standstill d) :=
  inferInstanceAs (Decidable (9900 < d.toNat ∧ d.toNat < 10100))

instance (d : UInt16) : Decidable (WithinDuty d) :=
  inferInstanceAs (Decidable (d.toNat ≤ 20099 ∨ 65437 ≤ d.toNat))

private theorem width_setSpeed {o : MotorOut} (h : o.period = PWM_PERIOD) (d : UInt16) :
    (o.setSpeed (dutySpeed d)).width = 100 * (dutySpeed d).toInt.natAbs / 10000 := by
  rw [MotorOut.setSpeed, h]
  rfl

theorem width_eq_zero_iff {o : MotorOut} (h : o.period = PWM_PERIOD) (d : UInt16) :
    (o.setSpeed (dutySpeed d)).width = 0 ↔ Standstill d := by
  have hd := d.toNat_lt
  have hspeed := dutySpeed_toInt d
  rw [width_setSpeed h, Standstill]
  split_ifs at hspeed <;> omega

theorem width_le_iff {o : MotorOut} (h : o.period = PWM_PERIOD) (d : UInt16) :
    (o.setSpeed (dutySpeed d)).width ≤ PWM_PERIOD ↔ WithinDuty d := by
  have hd := d.toNat_lt
  have hspeed := dutySpeed_toInt d
  have hperiod : PWM_PERIOD = 100 := rfl
  rw [width_setSpeed h, hperiod, WithinDuty]
  split_ifs at hspeed <;> omega

section Duty

def DutyBounded (b : Board) : Prop :=
  ∀ m, b.width (motors m).pwmDriver (motors m).pwmChannel ≤ PWM_PERIOD

/-- The packet is no `CMD_SET_DUTY` for a motor with a duty beyond 100%. -/
def KeepsDuty (p : Packet) : Prop := ∀ m, p.isSetDuty m → WithinDuty p.data

theorem dutyBounded_motorInit (b : Board) : DutyBounded (motorInit b) := by
  intro m
  have hout := congrArg MotorOut.width (motorOut_motorInit b m)
  exact hout.trans_le (Nat.zero_le _)

private theorem width_after_le_iff {o : MotorOut} (hperiod : o.period = PWM_PERIOD)
    (hwidth : o.width ≤ PWM_PERIOD) (m : Fin NUM_MOTOR) (p : Packet) :
    (o.after m p).width ≤ PWM_PERIOD ↔ (p.isSetDuty m → WithinDuty p.data) := by
  by_cases hduty : p.isSetDuty m
  · rw [MotorOut.after_of_isSetDuty hduty, width_le_iff hperiod]
    exact ⟨fun h _ => h, fun h => h hduty⟩
  · refine ⟨fun _ h => absurd h hduty, fun _ => ?_⟩
    by_cases hhalt : p.isHalt
    · rw [(MotorOut.halted_after_halt hhalt).width]
      exact Nat.zero_le _
    · rw [MotorOut.after, if_neg hhalt, if_neg hduty]
      split_ifs <;> exact hwidth

theorem dutyBounded_step_iff {p : Packet} {b b' : Board} (hc : Configured b)
    (h : DutyBounded b) (hs : packetStep p b = some b') : DutyBounded b' ↔ KeepsDuty p := by
  obtain rfl := Option.some.inj hs
  have hone (m : Fin NUM_MOTOR) : ((evtDispatch p b).2.motorOut m).width ≤ PWM_PERIOD ↔
      (p.isSetDuty m → WithinDuty p.data) := by
    rw [motorOut_evtDispatch]
    exact width_after_le_iff (hc m) (h m) m p
  exact forall_congr' hone

theorem packetStep_enabled (p : Packet) (b : Board) : ∃ b', packetStep p b = some b' := ⟨_, rfl⟩

/-- Over any packets after `motor_init` the widths stay within the period exactly when every
`CMD_SET_DUTY` for a motor asks for at most 100%. -/
theorem duty_bounded_iff (b : Board) (ps : List Packet) :
    Always packetStep DutyBounded ps (motorInit b) ↔ ∀ p ∈ ps, KeepsDuty p := by
  rcases run_total packetStep_enabled ps (motorInit b) with ⟨b', hrun⟩
  rw [← along_iff_forall packetStep_enabled]
  apply always_iff_along _ _ ps hrun
  · exact configured_motorInit b
  · exact dutyBounded_motorInit b
  · intro p b b' hc hs
    exact Configured.step hc hs
  · intro p b b' hc h hs
    exact dutyBounded_step_iff hc h hs

/-- The data field 32767 asks for 227% of the period. -/
theorem duty_exceeds_period :
    ¬ Always packetStep DutyBounded [Frame.decode ⟨0x30, 0x7F, 0xFF, 0⟩]
      (motorInit (Board.reset fun _ => 0)) := by
  intro h
  have hwidth := h.2 _ rfl 0
  revert hwidth
  decide

end Duty

section Interlock

def Interlock (b : Board) : Prop :=
  ∀ m, b.latch (motors m).mode1 = true →
    b.width (motors m).pwmDriver (motors m).pwmChannel = 0

/-- The packet neither drives a braked motor nor brakes a driven one. -/
def KeepsInterlock (p : Packet) (b : Board) : Prop :=
  ∀ m, (p.isSetDuty m → b.latch (motors m).mode1 = true → Standstill p.data) ∧
    (p.isSetMode m → p.data ≠ 0 → b.width (motors m).pwmDriver (motors m).pwmChannel = 0)

theorem interlock_motorInit (b : Board) : Interlock (motorInit b) := by
  intro m _
  exact congrArg MotorOut.width (motorOut_motorInit b m)

private theorem interlock_after_iff {o : MotorOut} (hperiod : o.period = PWM_PERIOD)
    (h : o.mode1 = true → o.width = 0) (m : Fin NUM_MOTOR) (p : Packet) :
    ((o.after m p).mode1 = true → (o.after m p).width = 0) ↔
      (p.isSetDuty m → o.mode1 = true → Standstill p.data) ∧
        (p.isSetMode m → p.data ≠ 0 → o.width = 0) := by
  by_cases hduty : p.isSetDuty m
  · have hmode : ¬ p.isSetMode m := fun hmode => hmode.not_isSetDuty hduty
    rw [MotorOut.after_of_isSetDuty hduty, width_eq_zero_iff hperiod]
    simp [hduty, hmode, MotorOut.setSpeed]
  · by_cases hmode : p.isSetMode m
    · rw [MotorOut.after_of_isSetMode hmode]
      simp [hduty, hmode, MotorOut.setBrakes]
    · simp only [hduty, hmode, false_imp_iff, true_and, iff_true]
      by_cases hhalt : p.isHalt
      · exact fun _ => (MotorOut.halted_after_halt hhalt).width
      · rwa [MotorOut.after_of_not_sets hhalt (not_or_intro hduty hmode)]

theorem interlock_step_iff {p : Packet} {b b' : Board} (hc : Configured b)
    (h : Interlock b) (hs : packetStep p b = some b') : Interlock b' ↔ KeepsInterlock p b := by
  obtain rfl := Option.some.inj hs
  refine forall_congr' fun m => ?_
  have hone := interlock_after_iff (hc m) (h m) m p
  rw [← motorOut_evtDispatch] at hone
  exact hone

/-- Over any packets after `motor_init` no braked motor is driven exactly when every packet
leaves the interlock alone in the state in which it is dispatched. -/
theorem interlock_iff (b : Board) (ps : List Packet) :
    Always packetStep Interlock ps (motorInit b) ↔
      Along packetStep KeepsInterlock ps (motorInit b) := by
  rcases run_total packetStep_enabled ps (motorInit b) with ⟨b', hrun⟩
  apply always_iff_along _ _ ps hrun
  · exact configured_motorInit b
  · exact interlock_motorInit b
  · intro p b b' hc hs
    exact Configured.step hc hs
  · intro p b b' hc h hs
    exact interlock_step_iff hc h hs

theorem duty_drives_braked_motor :
    ¬ Always packetStep Interlock [Frame.decode ⟨0x30, 0x4E, 0x20, 0⟩]
      (motorInit (Board.reset fun _ => 0)) := by
  intro h
  have hwidth := h.2 _ rfl 0
  revert hwidth
  decide

end Interlock

section Isolation

def execute (b : Board) (ps : List Packet) : Board := ps.foldl (fun b p => (evtDispatch p b).2) b

theorem run_packetStep (b : Board) (ps : List Packet) :
    run packetStep ps b = some (execute b ps) := by
  induction ps generalizing b with
  | nil => rfl
  | cons p ps ih => exact ih (evtDispatch p b).2

theorem motorOut_execute (b : Board) (ps : List Packet) (m : Fin NUM_MOTOR) :
    (execute b ps).motorOut m = ps.foldl (MotorOut.after m) (b.motorOut m) := by
  induction ps generalizing b with
  | nil => rfl
  | cons p ps ih =>
    have hone := motorOut_evtDispatch p b m
    rw [execute, List.foldl_cons, List.foldl_cons, ← hone]
    exact ih (evtDispatch p b).2

theorem foldl_after_filter (ps : List Packet) (m : Fin NUM_MOTOR) (o : MotorOut) :
    (ps.filter fun p => p.isHalt ∨ p.Sets m).foldl (MotorOut.after m) o =
      ps.foldl (MotorOut.after m) o := by
  induction ps generalizing o with
  | nil => rfl
  | cons p ps ih =>
    by_cases hp : p.isHalt ∨ p.Sets m
    · rw [List.filter_cons_of_pos (by simpa using hp), List.foldl_cons, List.foldl_cons, ih]
    · rcases not_or.mp hp with ⟨hhalt, hsets⟩
      rw [List.filter_cons_of_neg (by simpa using hp), List.foldl_cons,
        MotorOut.after_of_not_sets hhalt hsets, ih]

theorem Packet.Sets.targetAxis_eq {p : Packet} {m : Fin NUM_MOTOR} (h : p.Sets m) :
    p.targetAxis.toNat = m := by
  rcases h with hduty | hmode
  · exact hduty.2
  · exact hmode.2

/-- In every state the outputs of a motor after any packets are those after the halts and its
own packets alone, so no packet beyond the last motor has an effect unless it is a halt. -/
theorem motor_isolation (b : Board) (ps : List Packet) (m : Fin NUM_MOTOR) :
    (execute b ps).motorOut m =
        (execute b (ps.filter fun p => p.isHalt ∨ p.Sets m)).motorOut m ∧
      ∀ p : Packet, ¬ p.isHalt → NUM_MOTOR ≤ p.targetAxis.toNat →
        (evtDispatch p b).2.motorOut m = b.motorOut m := by
  constructor
  · rw [motorOut_execute, motorOut_execute, foldl_after_filter]
  · intro p hhalt haxis
    have hsets : ¬ p.Sets m := by
      intro hsets
      have heq := hsets.targetAxis_eq
      have hm := m.isLt
      omega
    rw [motorOut_evtDispatch, MotorOut.after_of_not_sets hhalt hsets]

/-- A `CMD_SET_DUTY` for axis 6 leaves the first motor alone. -/
theorem motor_isolation_axis_six :
    (evtDispatch (Frame.decode ⟨0x36, 0x4E, 0x20, 0⟩)
        (motorInit (Board.reset fun _ => 0))).2.motorOut 0 =
      (motorInit (Board.reset fun _ => 0)).motorOut 0 :=
  (motor_isolation _ [] 0).2 _ (by decide) (by decide)

end Isolation

end MentorRevival
