import Mathlib.Logic.Function.Basic

/-!
# The board

The outputs of the firmware: a latch and a mode for every pad, as `pin.h` writes them, and a
period and widths for every PWM driver. `setPin` and `palSetPadMode` touch the named pad
only, `pwmEnableChannel` the named channel only. The board also carries the samples in
`currentPos` and a record of the array accesses of the handlers.
-/

namespace MentorRevival

inductive Port
  | GPIOA | GPIOB | GPIOC | GPIOD | GPIOE | GPIOF
  deriving DecidableEq

structure Pin where
  port : Port
  pin : Nat
  deriving DecidableEq

inductive PadMode
  | input | alternate | pushPull | openDrain
  deriving DecidableEq

inductive PwmDriver
  | PWMD3 | PWMD19
  deriving DecidableEq

structure PWMConfig where
  period : Nat

abbrev NUM_MOTOR : Nat := 6

abbrev ADC_NUM_CHANNELS : Nat := 6

/-- An access to `motors[]` or to `currentPos[]` at an index. -/
inductive Access
  | motors (i : Int)
  | currentPos (i : Int)
  deriving DecidableEq

def Access.InRange : Access → Prop
  | motors i => 0 ≤ i ∧ i < NUM_MOTOR
  | currentPos i => 0 ≤ i ∧ i < ADC_NUM_CHANNELS

instance (a : Access) : Decidable a.InRange :=
  match a with
  | .motors i => inferInstanceAs (Decidable (0 ≤ i ∧ i < (NUM_MOTOR : Int)))
  | .currentPos i => inferInstanceAs (Decidable (0 ≤ i ∧ i < (ADC_NUM_CHANNELS : Int)))

structure Board where
  period : PwmDriver → Nat
  width : PwmDriver → Nat → Nat
  latch : Pin → Bool
  mode : Pin → PadMode
  /-- The samples at and behind the address of `currentPos`. -/
  currentPos : Nat → UInt16
  accesses : List Access

namespace Board

/-- The pads that `VAL_GPIOx_MODER` makes outputs or hands to a peripheral. -/
def resetMode (p : Pin) : PadMode :=
  match p.port with
  | .GPIOA => if p.pin ∈ [5, 6, 7, 11, 12, 13, 14] then .alternate else .input
  | .GPIOB => if p.pin ∈ [3, 6, 7] then .alternate else .input
  | .GPIOE => if p.pin = 3 ∨ 8 ≤ p.pin then .pushPull else .input
  | _ => .input

/-- `VAL_GPIOx_ODR`: every latch is high but those of the LEDs on port E. -/
def resetLatch (p : Pin) : Bool := ¬ (p.port = .GPIOE ∧ 8 ≤ p.pin)

/-- The board that `halInit` leaves, with some content of the sample memory. -/
def reset (currentPos : Nat → UInt16) : Board :=
  { period := fun _ => 0, width := fun _ _ => 0, latch := resetLatch, mode := resetMode,
    currentPos := currentPos, accesses := [] }

def setPin (p : Pin) (val : Bool) (b : Board) : Board :=
  { b with latch := Function.update b.latch p val }

def palSetPadMode (p : Pin) (mode : PadMode) (b : Board) : Board :=
  { b with mode := Function.update b.mode p mode }

def configPinOpenDrain (p : Pin) (b : Board) : Board := b.palSetPadMode p .openDrain

/-- Starting a driver sets its period and disables its channels. -/
def pwmStart (driver : PwmDriver) (config : PWMConfig) (b : Board) : Board :=
  { b with
    period := Function.update b.period driver config.period
    width := Function.update b.width driver fun _ => 0 }

def pwmEnableChannel (driver : PwmDriver) (channel count : Nat) (b : Board) : Board :=
  { b with
    width := Function.update b.width driver (Function.update (b.width driver) channel count) }

/-- `PWM_PERCENTAGE_TO_WIDTH`, in hundredths of a percent of the period. -/
def pwmPercentageToWidth (b : Board) (driver : PwmDriver) (percentage : Nat) : Nat :=
  b.period driver * percentage / 10000

def access (a : Access) (b : Board) : Board := { b with accesses := b.accesses ++ [a] }

section Frame

variable (b : Board)

@[simp] theorem setPin_latch (p q : Pin) (val : Bool) :
    (b.setPin p val).latch q = if q = p then val else b.latch q := by
  simp [setPin, Function.update_apply]

@[simp] theorem setPin_width (p : Pin) (val : Bool) : (b.setPin p val).width = b.width := rfl

@[simp] theorem setPin_period (p : Pin) (val : Bool) : (b.setPin p val).period = b.period := rfl

@[simp] theorem pwmEnableChannel_width (d e : PwmDriver) (c k count : Nat) :
    (b.pwmEnableChannel d c count).width e k =
      if e = d ∧ k = c then count else b.width e k := by
  by_cases he : e = d
  · subst he
    simp [pwmEnableChannel, Function.update_apply]
  · simp [pwmEnableChannel, he]

@[simp] theorem pwmEnableChannel_latch (d : PwmDriver) (c count : Nat) :
    (b.pwmEnableChannel d c count).latch = b.latch := rfl

@[simp] theorem pwmEnableChannel_period (d : PwmDriver) (c count : Nat) :
    (b.pwmEnableChannel d c count).period = b.period := rfl

@[simp] theorem access_width (a : Access) : (b.access a).width = b.width := rfl

@[simp] theorem access_latch (a : Access) : (b.access a).latch = b.latch := rfl

@[simp] theorem access_period (a : Access) : (b.access a).period = b.period := rfl

@[simp] theorem access_accesses (a : Access) : (b.access a).accesses = b.accesses ++ [a] := rfl

end Frame

end Board

end MentorRevival
