import MentorRevival.Events.Outputs
import MentorRevival.Lib.SignMagnitude

/-!
# The duty command

`CMD_SET_DUTY` sets the signed output of a motor, its width in the direction of its phase, to
the speed scaled to the period. The 16-bit arithmetic of the handler maps data from 42768 on to
speeds below -10000, so the map keeps the order on either side of that step only.
-/

namespace MentorRevival

open SignMagnitude

def Board.signedOutput (b : Board) (m : Fin NUM_MOTOR) : Int :=
  signed (b.latch (motors m).phase) (b.width (motors m).pwmDriver (motors m).pwmChannel)

/-- The order of two data values, `d1` up to `d2`, survives the wrap of the speed. -/
def KeepsOrder (d1 d2 : UInt16) : Prop :=
  d2.toNat ≤ 42767 ∨ 42767 < d1.toNat ∨ d1.toNat = 0 ∧ 65437 ≤ d2.toNat

instance (d1 d2 : UInt16) : Decidable (KeepsOrder d1 d2) :=
  inferInstanceAs (Decidable (_ ∨ _ ∨ _))

private theorem scale_percent (x : Int) :
    scale 100 10000 x =
      if 0 ≤ x then ((x.natAbs / 100 : Nat) : Int) else -(x.natAbs / 100 : Nat) := by
  have hdiv : 100 * x.natAbs / 10000 = x.natAbs / 100 := by omega
  split
  · next h =>
    have hscale : signed true (100 * x.natAbs / 10000) = scale 100 10000 x :=
      signed_scale (fun _ => rfl) (fun hneg => by omega)
    rw [← hscale, hdiv]
    rfl
  · next h =>
    have hscale : signed false (100 * x.natAbs / 10000) = scale 100 10000 x :=
      signed_scale (fun hpos => by omega) (fun _ => rfl)
    rw [← hscale, hdiv]
    rfl

theorem scale_dutySpeed_le_iff {d1 d2 : UInt16} (h : d1 ≤ d2) :
    scale 100 10000 (dutySpeed d1).toInt ≤ scale 100 10000 (dutySpeed d2).toInt ↔
      KeepsOrder d1 d2 := by
  have hle : d1.toNat ≤ d2.toNat := h
  have hlt := d2.toNat_lt
  have hmono {x y : Int} (hxy : x ≤ y) : scale 100 10000 x ≤ scale 100 10000 y :=
    scale_mono (by decide) hxy
  rw [dutySpeed_toInt, dutySpeed_toInt, KeepsOrder]
  by_cases h2 : d2.toNat ≤ 42767
  · have h1 : d1.toNat ≤ 42767 := by omega
    rw [if_pos h1, if_pos h2]
    exact ⟨fun _ => Or.inl h2, fun _ => hmono (by omega)⟩
  · by_cases h1 : d1.toNat ≤ 42767
    · -- the speed of `d2` has wrapped, that of `d1` has not
      rw [if_pos h1, if_neg h2, scale_percent, scale_percent]
      split_ifs <;> omega
    · rw [if_neg h1, if_neg h2]
      exact ⟨fun _ => Or.inr (Or.inl (by omega)), fun _ => hmono (by omega)⟩

section Handler

variable {b : Board} (hwidth : ∀ driver p, b.pwmPercentageToWidth driver p = 100 * p / 10000)
  {m : Fin NUM_MOTOR} {p : Packet} (hp : p.targetAxis.toNat = m)

include hp in
private theorem motorOut_evtSetDuty (d : UInt16) :
    (evtSetDuty { p with data := d } b).2.motorOut m = (b.motorOut m).setSpeed (dutySpeed d) := by
  rw [evtSetDuty, motorOut_motorSetSpeed, if_pos (by exact_mod_cast hp)]

include hwidth hp in
theorem width_evtSetDuty (d : UInt16) :
    ((evtSetDuty { p with data := d } b).2.motorOut m).width =
      100 * (dutySpeed d).toInt.natAbs / 10000 := by
  rw [motorOut_evtSetDuty hp]
  exact hwidth (motors m).pwmDriver (dutySpeed d).toInt.natAbs

include hp in
theorem phase_evtSetDuty (d : UInt16) :
    ((evtSetDuty { p with data := d } b).2.motorOut m).phase =
      decide (0 ≤ (dutySpeed d).toInt) := by
  have hsign : (0 : Int16) ≤ dutySpeed d ↔ 0 ≤ (dutySpeed d).toInt := Int16.le_iff_toInt_le
  rw [motorOut_evtSetDuty hp]
  exact decide_eq_decide.mpr hsign

include hwidth hp in
theorem signedOutput_evtSetDuty (d : UInt16) :
    (evtSetDuty { p with data := d } b).2.signedOutput m =
      scale 100 10000 (dutySpeed d).toInt := by
  change signed ((evtSetDuty { p with data := d } b).2.motorOut m).phase
    ((evtSetDuty { p with data := d } b).2.motorOut m).width = _
  rw [width_evtSetDuty hwidth hp, phase_evtSetDuty hp]
  apply signed_scale
  · intro h
    exact decide_eq_true h.le
  · intro h
    exact decide_eq_false (by omega)

end Handler

section Reachable

private theorem foldl_after_period (ps : List Packet) (m : Fin NUM_MOTOR) (o : MotorOut) :
    (ps.foldl (MotorOut.after m) o).period = o.period := by
  induction ps generalizing o with
  | nil => rfl
  | cons p ps ih => exact (ih (o.after m p)).trans MotorOut.after_period

/-- No handler changes the period, so the scaling is 1:100 in every state after `motor_init`. -/
theorem pwmPercentageToWidth_execute (b : Board) (ps : List Packet) (driver : PwmDriver) (p : Nat) :
    (execute (motorInit b) ps).pwmPercentageToWidth driver p = 100 * p / 10000 := by
  have hmotor (m : Fin NUM_MOTOR) :
      (execute (motorInit b) ps).period (motors m).pwmDriver = PWM_PERIOD := by
    change ((execute (motorInit b) ps).motorOut m).period = PWM_PERIOD
    rw [motorOut_execute, foldl_after_period, motorOut_motorInit]
  have hperiod : (execute (motorInit b) ps).period driver = 100 := by
    cases driver with
    | PWMD3 => exact hmotor 0
    | PWMD19 => exact hmotor 2
  rw [Board.pwmPercentageToWidth, hperiod]

end Reachable

/-- In any state a larger duty command yields no more reversed a motor exactly when the wrap of
the speed keeps the two commands in order; up to 20000 the width and the phase are those of the
distance from 10000. -/
theorem duty_order_iff (b : Board)
    (hwidth : ∀ driver p, b.pwmPercentageToWidth driver p = 100 * p / 10000) (m : Fin NUM_MOTOR)
    (p : Packet) (hp : p.targetAxis.toNat = m) :
    (∀ d1 d2 : UInt16, d1 ≤ d2 →
      ((evtSetDuty { p with data := d1 } b).2.signedOutput m ≤
        (evtSetDuty { p with data := d2 } b).2.signedOutput m ↔ KeepsOrder d1 d2)) ∧
    ∀ d : UInt16, d.toNat ≤ 20000 →
      (evtSetDuty { p with data := d } b).2.width (motors m).pwmDriver (motors m).pwmChannel =
        ((d.toNat : Int) - 10000).natAbs / 100 ∧
      ((evtSetDuty { p with data := d } b).2.latch (motors m).phase = true ↔
        10000 ≤ d.toNat) := by
  constructor
  · intro d1 d2 h
    rw [signedOutput_evtSetDuty hwidth hp, signedOutput_evtSetDuty hwidth hp]
    exact scale_dutySpeed_le_iff h
  · intro d hd
    have hspeed := dutySpeed_toInt d
    rw [if_pos (by omega)] at hspeed
    constructor
    · refine (width_evtSetDuty hwidth hp d).trans ?_
      omega
    · have hphase := phase_evtSetDuty (b := b) hp d
      change (evtSetDuty { p with data := d } b).2.latch (motors m).phase = _ at hphase
      rw [hphase, decide_eq_true_iff]
      omega

theorem duty_order_iff_full_range :
    (evtSetDuty { pktCreate .CMD_SET_DUTY 2 0 with data := 0 }
        (motorInit (Board.reset fun _ => 0))).2.signedOutput 2 ≤
      (evtSetDuty { pktCreate .CMD_SET_DUTY 2 0 with data := 20000 }
        (motorInit (Board.reset fun _ => 0))).2.signedOutput 2 := by
  have horder := duty_order_iff (motorInit (Board.reset fun _ => 0))
    (pwmPercentageToWidth_execute (Board.reset fun _ => 0) []) 2 (pktCreate .CMD_SET_DUTY 2 0) rfl
  exact (horder.1 0 20000 (by decide)).mpr (by decide)

/-- Full speed ahead is 20000, and 65535 is full speed in reverse. -/
theorem larger_duty_reverses :
    ¬ (evtSetDuty ⟨3, 0, 20000, 4⟩ (motorInit (Board.reset fun _ => 0))).2.signedOutput 0 ≤
      (evtSetDuty ⟨3, 0, 65535, 4⟩ (motorInit (Board.reset fun _ => 0))).2.signedOutput 0 := by
  decide

end MentorRevival
