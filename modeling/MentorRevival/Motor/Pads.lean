import MentorRevival.Lib.History
import MentorRevival.Motor.Motor
import Mathlib.Data.Fintype.Basic
import Mathlib.Tactic.FinCases

/-!
# The levels at the pads

A latch reaches its pad only when the pad is an output. The pads that `motors[]` names, the
modes that `motor_init` sets and the reset modes of `board.h` agree on all of them but the
phase pad of the last motor, which stays the pulled-up input it is at reset.
-/

namespace MentorRevival

namespace Board

/-- The pads that `VAL_GPIOx_PUPDR` pulls up. -/
def resetPullUp (p : Pin) : Bool :=
  match p.port with
  | .GPIOA => p.pin ∉ [0, 5, 7, 11, 12, 14]
  | .GPIOB => p.pin ∉ [3, 6, 7]
  | .GPIOC => p.pin ∉ [14, 15]
  | .GPIOD => true
  | .GPIOE => p.pin ∉ [3, 11, 13, 14, 15]
  | .GPIOF => p.pin ∉ [0, 1]

/-- The level of a pad, where the port or its pull-up decides it. -/
def level (b : Board) (p : Pin) : Option Bool :=
  match b.mode p with
  | .pushPull | .openDrain => some (b.latch p)
  | .input => if resetPullUp p then some true else none
  | .alternate => none

end Board

inductive MotorCall
  | setSpeed (motorNum : Int) (speed : Int16)
  | setDir (motorNum : Int) (dir : Bool)
  | setBrakes (motorNum : Int) (brake : Bool)

namespace MotorCall

def run : MotorCall → Board → Board
  | setSpeed motorNum speed => motorSetSpeed motorNum speed
  | setDir motorNum dir => motorSetDir motorNum dir
  | setBrakes motorNum brake => motorSetBrakes motorNum brake

def runAll (cs : List MotorCall) (b : Board) : Board := cs.foldl (fun b c => c.run b) b

/-- The direction that a call commands motor `m` to turn in; forward is `true`. -/
def dir? (m : Fin NUM_MOTOR) : MotorCall → Option Bool
  | setSpeed motorNum speed => if motorNum = (m : Nat) then some (0 ≤ speed) else none
  | setDir motorNum dir => if motorNum = (m : Nat) then some dir else none
  | setBrakes _ _ => none

def brake? (m : Fin NUM_MOTOR) : MotorCall → Option Bool
  | setBrakes motorNum brake => if motorNum = (m : Nat) then some brake else none
  | setSpeed _ _ | setDir _ _ => none

def lastDir (m : Fin NUM_MOTOR) (cs : List MotorCall) : Option Bool :=
  (cs.filterMap (dir? m)).getLast?

def lastBrake (m : Fin NUM_MOTOR) (cs : List MotorCall) : Option Bool :=
  (cs.filterMap (brake? m)).getLast?

end MotorCall

section Modes

variable (b : Board)

theorem mode_withMotor {f : Motor → Board → Board} (hf : ∀ m b, (f m b).mode = b.mode)
    (motorNum : Int) : (withMotor motorNum f b).mode = b.mode := by
  unfold withMotor
  split
  · exact hf _ _
  · rfl

theorem mode_motorSetDir (motorNum : Int) (dir : Bool) :
    (motorSetDir motorNum dir b).mode = b.mode := by
  apply mode_withMotor
  intro m b
  rfl

theorem mode_run (c : MotorCall) : (c.run b).mode = b.mode := by
  cases c with
  | setSpeed motorNum speed =>
    apply mode_withMotor
    intro m b
    exact mode_motorSetDir _ motorNum _
  | setDir motorNum dir => exact mode_motorSetDir b motorNum dir
  | setBrakes motorNum brake =>
    apply mode_withMotor
    intro m b
    rfl

theorem mode_runAll (cs : List MotorCall) : (MotorCall.runAll cs b).mode = b.mode := by
  induction cs generalizing b with
  | nil => rfl
  | cons c cs ih => exact (ih (c.run b)).trans (mode_run b c)

/-- Every motor drives its pads but the last one, whose phase pad is still an input. -/
theorem mode_motorInit (samples : Nat → UInt16) (m : Fin NUM_MOTOR) :
    (motorInit (Board.reset samples)).mode (motors m).mode1 = .openDrain ∧
      (motorInit (Board.reset samples)).mode (motors m).phase =
        if m = 0 then .pushPull else if m = 5 then .input else .openDrain := by
  fin_cases m <;> exact ⟨rfl, rfl⟩

end Modes

section Latches

variable (b : Board) (m : Fin NUM_MOTOR)

theorem phase_run (c : MotorCall) :
    ((c.run b).motorOut m).phase = (c.dir? m).getD (b.motorOut m).phase := by
  cases c with
  | setSpeed motorNum speed =>
    rw [MotorCall.run, motorOut_motorSetSpeed, MotorCall.dir?]
    split <;> rfl
  | setDir motorNum dir =>
    rw [MotorCall.run, motorOut_motorSetDir, MotorCall.dir?]
    split <;> rfl
  | setBrakes motorNum brake =>
    rw [MotorCall.run, motorOut_motorSetBrakes, MotorCall.dir?]
    split <;> rfl

theorem mode1_run (c : MotorCall) :
    ((c.run b).motorOut m).mode1 = (c.brake? m).getD (b.motorOut m).mode1 := by
  cases c with
  | setSpeed motorNum speed =>
    rw [MotorCall.run, motorOut_motorSetSpeed, MotorCall.brake?]
    split <;> rfl
  | setDir motorNum dir =>
    rw [MotorCall.run, motorOut_motorSetDir, MotorCall.brake?]
    split <;> rfl
  | setBrakes motorNum brake =>
    rw [MotorCall.run, motorOut_motorSetBrakes, MotorCall.brake?]
    split <;> rfl

theorem phase_runAll (cs : List MotorCall) :
    ((MotorCall.runAll cs b).motorOut m).phase =
      (MotorCall.lastDir m cs).getD (b.motorOut m).phase :=
  History.foldl_lastWrite (g := fun b => (b.motorOut m).phase) (fun b c => phase_run b m c) cs b

theorem mode1_runAll (cs : List MotorCall) :
    ((MotorCall.runAll cs b).motorOut m).mode1 =
      (MotorCall.lastBrake m cs).getD (b.motorOut m).mode1 :=
  History.foldl_lastWrite (g := fun b => (b.motorOut m).mode1) (fun b c => mode1_run b m c) cs b

end Latches

/-- What was commanded last for a motor stands at its pads. -/
def CommandsReach (cs : List MotorCall) (b : Board) : Prop :=
  ∀ m, (∀ dir, MotorCall.lastDir m cs = some dir → b.level (motors m).phase = some dir) ∧
    ∀ brake, MotorCall.lastBrake m cs = some brake → b.level (motors m).mode1 = some brake

section Levels

variable (samples : Nat → UInt16) (cs : List MotorCall) (m : Fin NUM_MOTOR)

/-- The level of the last motor's phase pad is that of its pull-up, whatever the latch holds. -/
theorem level_phase : (MotorCall.runAll cs (motorInit (Board.reset samples))).level
    (motors m).phase = some (if m = 5 then true else (MotorCall.lastDir m cs).getD true) := by
  have hmode := (mode_motorInit samples m).2
  have hphase := phase_runAll (motorInit (Board.reset samples)) m cs
  rw [motorOut_motorInit] at hphase
  rw [← mode_runAll _ cs] at hmode
  rw [Board.level, hmode]
  by_cases h5 : m = 5
  · subst h5
    rfl
  · rw [if_neg h5, if_neg h5]
    by_cases h0 : m = 0
    · rw [if_pos h0]
      exact congrArg some hphase
    · rw [if_neg h0]
      exact congrArg some hphase

theorem level_mode1 : (MotorCall.runAll cs (motorInit (Board.reset samples))).level
    (motors m).mode1 =
      some ((MotorCall.lastBrake m cs).getD (Board.resetLatch (motors m).mode1)) := by
  have hmode := (mode_motorInit samples m).1
  have hmode1 := mode1_runAll (motorInit (Board.reset samples)) m cs
  rw [motorOut_motorInit] at hmode1
  rw [← mode_runAll _ cs] at hmode
  rw [Board.level, hmode]
  exact congrArg some hmode1

end Levels

/-- After any calls behind `motor_init` the last commands stand at the pads of all motors
exactly when the last motor was not told to reverse last. -/
theorem commands_reach_iff (samples : Nat → UInt16) (cs : List MotorCall) :
    CommandsReach cs (MotorCall.runAll cs (motorInit (Board.reset samples))) ↔
      MotorCall.lastDir 5 cs ≠ some false := by
  constructor
  · intro h hlast
    have hlevel := (h 5).1 false hlast
    rw [level_phase, if_pos rfl] at hlevel
    cases hlevel
  · intro h m
    constructor
    · intro dir hdir
      rw [level_phase, hdir]
      by_cases h5 : m = 5
      · subst h5
        cases dir with
        | false => exact absurd hdir h
        | true => rfl
      · rw [if_neg h5]
        rfl
    · intro brake hbrake
      rw [level_mode1, hbrake]
      rfl

/-- The last motor is told to reverse, and its phase pad stays high. -/
theorem reverse_does_not_reach :
    ¬ CommandsReach [.setDir 5 false]
      (MotorCall.runAll [.setDir 5 false] (motorInit (Board.reset fun _ => 0))) := by
  intro h
  exact absurd ((h 5).1 false rfl) (by decide)

end MentorRevival
