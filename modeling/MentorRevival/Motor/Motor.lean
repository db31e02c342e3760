import MentorRevival.Motor.Board
import Mathlib.Data.Fin.Basic

/-!
# The motors

`motor.c`. No two motors share a pad or a channel, so each of them sees the calls that name
it and nothing else: `MotorOut` is what the board drives one motor with, and every function
of the module acts on it alone.
-/

namespace MentorRevival

/-- `Motor_struct`. The pad that carries the enable signal is set up by the PWM driver. -/
structure Motor where
  phase : Pin
  mode1 : Pin
  pwmDriver : PwmDriver
  pwmChannel : Nat
  deriving DecidableEq

def motors : Fin NUM_MOTOR → Motor
  | 0 => { phase := ⟨.GPIOB, 7⟩, mode1 := ⟨.GPIOD, 2⟩, pwmDriver := .PWMD3, pwmChannel := 2 }
  | 1 => { phase := ⟨.GPIOB, 6⟩, mode1 := ⟨.GPIOD, 8⟩, pwmDriver := .PWMD3, pwmChannel := 3 }
  | 2 => { phase := ⟨.GPIOB, 2⟩, mode1 := ⟨.GPIOE, 8⟩, pwmDriver := .PWMD19, pwmChannel := 1 }
  | 3 => { phase := ⟨.GPIOB, 5⟩, mode1 := ⟨.GPIOE, 9⟩, pwmDriver := .PWMD19, pwmChannel := 0 }
  | 4 => { phase := ⟨.GPIOB, 1⟩, mode1 := ⟨.GPIOC, 4⟩, pwmDriver := .PWMD3, pwmChannel := 0 }
  | 5 => { phase := ⟨.GPIOB, 0⟩, mode1 := ⟨.GPIOC, 5⟩, pwmDriver := .PWMD3, pwmChannel := 1 }

def PWM_CLOCK_FREQUENCY : Nat := 10000

def PWM_FREQUENCY : Nat := 100

def PWM_PERIOD : Nat := PWM_CLOCK_FREQUENCY / PWM_FREQUENCY

def pwmcfg3 : PWMConfig := { period := PWM_PERIOD }

def pwmcfg19 : PWMConfig := { period := PWM_PERIOD }

def motorInitOne (b : Board) (i : Fin NUM_MOTOR) : Board :=
  let b := b.configPinOpenDrain (motors i).mode1
  let count := b.pwmPercentageToWidth (motors i).pwmDriver 0
  let b := b.pwmEnableChannel (motors i).pwmDriver (motors i).pwmChannel count
  b.setPin (motors i).phase true

def motorInit (b : Board) : Board :=
  let b := b.pwmStart .PWMD3 pwmcfg3
  let b := b.pwmStart .PWMD19 pwmcfg19
  let b := b.palSetPadMode ⟨.GPIOC, 8⟩ .alternate
  let b := b.palSetPadMode ⟨.GPIOC, 9⟩ .alternate
  let b := b.palSetPadMode ⟨.GPIOC, 10⟩ .alternate
  let b := b.palSetPadMode ⟨.GPIOC, 11⟩ .alternate
  let b := b.palSetPadMode ⟨.GPIOC, 6⟩ .alternate
  let b := b.palSetPadMode ⟨.GPIOC, 7⟩ .alternate
  let b := b.palSetPadMode ⟨.GPIOB, 7⟩ .pushPull
  let b := b.palSetPadMode ⟨.GPIOD, 2⟩ .pushPull
  let b := b.palSetPadMode ⟨.GPIOB, 1⟩ .openDrain
  let b := b.palSetPadMode ⟨.GPIOB, 2⟩ .openDrain
  let b := b.palSetPadMode ⟨.GPIOB, 4⟩ .openDrain
  let b := b.palSetPadMode ⟨.GPIOB, 5⟩ .openDrain
  let b := b.palSetPadMode ⟨.GPIOB, 6⟩ .openDrain
  (List.finRange NUM_MOTOR).foldl motorInitOne b

/-- The guard shared by the functions below, with the access to `motors[motorNum]` behind it. -/
def withMotor (motorNum : Int) (f : Motor → Board → Board) (b : Board) : Board :=
  if h : motorNum < NUM_MOTOR ∧ 0 ≤ motorNum then
    f (motors ⟨motorNum.toNat, by omega⟩) (b.access (.motors motorNum))
  else b

def motorSetDir (motorNum : Int) (dir : Bool) : Board → Board :=
  withMotor motorNum fun m b => b.setPin m.phase dir

def motorSetSpeed (motorNum : Int) (speed : Int16) : Board → Board :=
  withMotor motorNum fun m b =>
    let count := b.pwmPercentageToWidth m.pwmDriver speed.toInt.natAbs
    motorSetDir motorNum (0 ≤ speed) (b.pwmEnableChannel m.pwmDriver m.pwmChannel count)

def motorSetBrakes (motorNum : Int) (brake : Bool) : Board → Board :=
  withMotor motorNum fun m b => b.setPin m.mode1 brake

@[ext] structure MotorOut where
  period : Nat
  width : Nat
  phase : Bool
  mode1 : Bool
  deriving DecidableEq

namespace MotorOut

def setDir (o : MotorOut) (dir : Bool) : MotorOut := { o with phase := dir }

def setSpeed (o : MotorOut) (speed : Int16) : MotorOut :=
  { o with width := o.period * speed.toInt.natAbs / 10000, phase := 0 ≤ speed }

def setBrakes (o : MotorOut) (brake : Bool) : MotorOut := { o with mode1 := brake }

structure Halted (o : MotorOut) : Prop where
  width : o.width = 0
  mode1 : o.mode1 = true

theorem setSpeed_zero (o : MotorOut) : o.setSpeed 0 = { o with width := 0, phase := true } := by
  simp [setSpeed]

theorem halted_of_halt (o : MotorOut) : ((o.setSpeed 0).setBrakes true).Halted := by
  rw [setSpeed_zero]
  exact ⟨rfl, rfl⟩

end MotorOut

namespace Board

def motorOut (b : Board) (m : Fin NUM_MOTOR) : MotorOut :=
  { period := b.period (motors m).pwmDriver
    width := b.width (motors m).pwmDriver (motors m).pwmChannel
    phase := b.latch (motors m).phase
    mode1 := b.latch (motors m).mode1 }

end Board

section Wiring

theorem channel_eq_iff (m n : Fin NUM_MOTOR) :
    (motors m).pwmDriver = (motors n).pwmDriver ∧
      (motors m).pwmChannel = (motors n).pwmChannel ↔ m = n := by
  revert m n
  decide

theorem phase_eq_iff (m n : Fin NUM_MOTOR) : (motors m).phase = (motors n).phase ↔ m = n := by
  revert m n
  decide

theorem mode1_eq_iff (m n : Fin NUM_MOTOR) : (motors m).mode1 = (motors n).mode1 ↔ m = n := by
  revert m n
  decide

theorem mode1_ne_phase (m n : Fin NUM_MOTOR) : (motors m).mode1 ≠ (motors n).phase := by
  revert m n
  decide

end Wiring

section Outputs

variable (b : Board)

theorem withMotor_fin (n : Fin NUM_MOTOR) (f : Motor → Board → Board) :
    withMotor n f b = f (motors n) (b.access (.motors n)) := by
  have hguard : ((n : Nat) : Int) < (NUM_MOTOR : Nat) ∧ (0 : Int) ≤ (n : Nat) := by
    have := n.isLt
    omega
  rw [withMotor, dif_pos hguard]
  rfl

theorem withMotor_out {motorNum : Int} (h : ¬ (motorNum < NUM_MOTOR ∧ 0 ≤ motorNum))
    (f : Motor → Board → Board) : withMotor motorNum f b = b := dif_neg h

private theorem exists_fin_of_guard {motorNum : Int} (h : motorNum < NUM_MOTOR ∧ 0 ≤ motorNum) :
    ∃ n : Fin NUM_MOTOR, motorNum = (n : Nat) :=
  ⟨⟨motorNum.toNat, by omega⟩, by simp only; omega⟩

private theorem ne_of_not_guard {motorNum : Int} (h : ¬ (motorNum < NUM_MOTOR ∧ 0 ≤ motorNum))
    (m : Fin NUM_MOTOR) : motorNum ≠ (m : Nat) := by
  rintro rfl
  have := m.isLt
  exact h (by omega)

theorem motorOut_withMotor (f : Motor → Board → Board) (g : MotorOut → MotorOut)
    (hf : ∀ n m b, (f (motors n) b).motorOut m = if n = m then g (b.motorOut m) else b.motorOut m)
    (motorNum : Int) (m : Fin NUM_MOTOR) :
    (withMotor motorNum f b).motorOut m =
      if motorNum = (m : Nat) then g (b.motorOut m) else b.motorOut m := by
  by_cases h : motorNum < NUM_MOTOR ∧ 0 ≤ motorNum
  · obtain ⟨n, rfl⟩ := exists_fin_of_guard h
    rw [withMotor_fin, hf]
    simp only [Int.natCast_inj, Fin.val_inj]
    rfl
  · rw [withMotor_out b h, if_neg (ne_of_not_guard h m)]

theorem motorOut_setPin_phase (n m : Fin NUM_MOTOR) (dir : Bool) :
    (b.setPin (motors n).phase dir).motorOut m =
      if n = m then (b.motorOut m).setDir dir else b.motorOut m := by
  have hphase := phase_eq_iff m n
  have hmode := mode1_ne_phase m n
  by_cases h : n = m
  · simp [Board.motorOut, MotorOut.setDir, h, mode1_ne_phase]
  · simp [Board.motorOut, hphase, hmode, h, Ne.symm h]

theorem motorOut_setPin_mode1 (n m : Fin NUM_MOTOR) (brake : Bool) :
    (b.setPin (motors n).mode1 brake).motorOut m =
      if n = m then (b.motorOut m).setBrakes brake else b.motorOut m := by
  have hmode := mode1_eq_iff m n
  have hphase := (mode1_ne_phase n m).symm
  by_cases h : n = m
  · subst h
    simp [Board.motorOut, MotorOut.setBrakes, hphase]
  · simp [Board.motorOut, hphase, hmode, h, Ne.symm h]

theorem motorOut_motorSetDir (motorNum : Int) (dir : Bool) (m : Fin NUM_MOTOR) :
    (motorSetDir motorNum dir b).motorOut m =
      if motorNum = (m : Nat) then (b.motorOut m).setDir dir else b.motorOut m :=
  motorOut_withMotor b (fun m b => b.setPin m.phase dir) (MotorOut.setDir · dir)
    (fun n m b => motorOut_setPin_phase b n m dir) motorNum m

theorem motorOut_motorSetBrakes (motorNum : Int) (brake : Bool) (m : Fin NUM_MOTOR) :
    (motorSetBrakes motorNum brake b).motorOut m =
      if motorNum = (m : Nat) then (b.motorOut m).setBrakes brake else b.motorOut m :=
  motorOut_withMotor b (fun m b => b.setPin m.mode1 brake) (MotorOut.setBrakes · brake)
    (fun n m b => motorOut_setPin_mode1 b n m brake) motorNum m

theorem motorOut_pwmEnableChannel (n m : Fin NUM_MOTOR) (count : Nat) :
    (b.pwmEnableChannel (motors n).pwmDriver (motors n).pwmChannel count).motorOut m =
      if n = m then { b.motorOut m with width := count } else b.motorOut m := by
  have hchannel := channel_eq_iff m n
  by_cases h : n = m
  · subst h
    simp [Board.motorOut]
  · simp [Board.motorOut, hchannel, h, Ne.symm h]

@[simp] theorem motorOut_palSetPadMode (p : Pin) (mode : PadMode) (m : Fin NUM_MOTOR) :
    (b.palSetPadMode p mode).motorOut m = b.motorOut m := rfl

@[simp] theorem motorOut_access (a : Access) (m : Fin NUM_MOTOR) :
    (b.access a).motorOut m = b.motorOut m := rfl

theorem motorOut_motorSetSpeed (motorNum : Int) (speed : Int16) (m : Fin NUM_MOTOR) :
    (motorSetSpeed motorNum speed b).motorOut m =
      if motorNum = (m : Nat) then (b.motorOut m).setSpeed speed else b.motorOut m := by
  by_cases h : motorNum < NUM_MOTOR ∧ 0 ≤ motorNum
  · obtain ⟨n, rfl⟩ := exists_fin_of_guard h
    rw [motorSetSpeed, withMotor_fin, motorOut_motorSetDir, motorOut_pwmEnableChannel]
    by_cases hnm : n = m
    · subst hnm
      simp [MotorOut.setDir, MotorOut.setSpeed, Board.pwmPercentageToWidth, Board.motorOut]
    · have hne : ((n : Nat) : Int) ≠ (m : Nat) := by
        rwa [Ne, Int.natCast_inj, Fin.val_inj]
      simp [hnm, hne]
  · rw [motorSetSpeed, withMotor_out b h, if_neg (ne_of_not_guard h m)]

/-- A loop whose body acts on the motor it names does so once for every motor named. -/
theorem motorOut_foldl {ι : Type*} (name : ι → Int) (f : Board → ι → Board)
    (g : MotorOut → MotorOut)
    (hf : ∀ b i m, (f b i).motorOut m =
      if name i = (m : Nat) then g (b.motorOut m) else b.motorOut m)
    (hg : ∀ o, g (g o) = g o) (l : List ι) (m : Fin NUM_MOTOR) :
    (l.foldl f b).motorOut m =
      if (m : Int) ∈ l.map name then g (b.motorOut m) else b.motorOut m := by
  induction l generalizing b with
  | nil => simp
  | cons i l ih =>
    rw [List.foldl_cons, ih, hf]
    by_cases hi : name i = (m : Nat)
    · simp [hi, hg]
    · simp [hi, Ne.symm hi]

theorem motorOut_motorInitOne (i m : Fin NUM_MOTOR) :
    (motorInitOne b i).motorOut m =
      if i = m then (b.motorOut m).setSpeed 0 else b.motorOut m := by
  rw [motorInitOne, motorOut_setPin_phase, motorOut_pwmEnableChannel]
  by_cases h : i = m
  · subst h
    simp [Board.pwmPercentageToWidth, Board.configPinOpenDrain, Board.palSetPadMode,
      Board.motorOut, MotorOut.setDir, MotorOut.setSpeed]
  · simp [h]
    rfl

/-- `motor_init` stops every motor in the forward direction and leaves its brake alone. -/
theorem motorOut_motorInit (m : Fin NUM_MOTOR) :
    (motorInit b).motorOut m =
      { period := PWM_PERIOD, width := 0, phase := true, mode1 := b.latch (motors m).mode1 } := by
  rw [motorInit, motorOut_foldl _ (fun i : Fin NUM_MOTOR => ((i : Nat) : Int)) motorInitOne
    (MotorOut.setSpeed · 0)]
  · have hmem : ((m : Nat) : Int) ∈
        (List.finRange NUM_MOTOR).map fun i : Fin NUM_MOTOR => ((i : Nat) : Int) :=
      List.mem_map.mpr ⟨m, List.mem_finRange m, rfl⟩
    have hperiod : ((b.pwmStart .PWMD3 pwmcfg3).pwmStart .PWMD19 pwmcfg19).period
        (motors m).pwmDriver = PWM_PERIOD := by
      cases (motors m).pwmDriver <;> rfl
    rw [if_pos hmem, MotorOut.setSpeed_zero]
    simp only [motorOut_palSetPadMode]
    simpa [Board.motorOut, Board.pwmStart] using hperiod
  · intro b i m
    rw [motorOut_motorInitOne]
    simp only [Int.natCast_inj, Fin.val_inj]
  · intro o
    rfl

end Outputs

end MentorRevival
