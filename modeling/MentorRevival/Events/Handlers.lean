import MentorRevival.Events.Packet
import MentorRevival.Motor.Motor

/-!
# The handlers

The `evt_*` functions of `events.c` and the `switch` that selects one of them. To a single
motor a handler is a function of its outputs, `MotorOut.after`, which reads the packet and
nothing else on the board.
-/

namespace MentorRevival

def evtHalt (packet : Packet) (b : Board) : Packet × Board :=
  (packet, (List.range 6).foldl (fun b (i : Nat) => motorSetBrakes i true (motorSetSpeed i 0 b)) b)

def evtReadCurrent (packet : Packet) (b : Board) : Packet × Board := (packet, b)

def evtReadPos (packet : Packet) (b : Board) : Packet × Board :=
  ({ packet with data := b.currentPos packet.targetAxis.toNat },
    b.access (.currentPos packet.targetAxis.toNat))

def evtSetMode (packet : Packet) (b : Board) : Packet × Board :=
  (packet, motorSetBrakes packet.targetAxis.toNat (packet.data ≠ 0) b)

/-- The local `speed` of `evt_setDuty`: both the conversion and the subtraction wrap. -/
def dutySpeed (data : UInt16) : Int16 := data.toInt16 - 10000

def evtSetDuty (packet : Packet) (b : Board) : Packet × Board :=
  (packet, motorSetSpeed packet.targetAxis.toNat (dutySpeed packet.data) b)

def evtBadCommand (packet : Packet) (b : Board) : Packet × Board := (packet, b)

/-- What `evt_sendPacket` adds to the output of the host link. -/
def evtSendPacket (packet : Packet) : List UInt8 := pktEncode packet

def evtDispatch (currentPacket : Packet) (b : Board) : Packet × Board :=
  match Command.ofUInt8? currentPacket.command with
  | some .CMD_HALT => evtHalt currentPacket b
  | some .CMD_READ_CURRENT => evtReadCurrent currentPacket b
  | some .CMD_READ_POS => evtReadPos currentPacket b
  | some .CMD_SET_DUTY => evtSetDuty currentPacket b
  | some .CMD_SET_MODE => evtSetMode currentPacket b
  | none => evtBadCommand currentPacket b

namespace Packet

def isHalt (p : Packet) : Prop := Command.ofUInt8? p.command = some .CMD_HALT

def isSetDuty (p : Packet) (m : Fin NUM_MOTOR) : Prop :=
  Command.ofUInt8? p.command = some .CMD_SET_DUTY ∧ p.targetAxis.toNat = m

def isSetMode (p : Packet) (m : Fin NUM_MOTOR) : Prop :=
  Command.ofUInt8? p.command = some .CMD_SET_MODE ∧ p.targetAxis.toNat = m

/-- The packet may move motor `m` or release its brake. -/
def Sets (p : Packet) (m : Fin NUM_MOTOR) : Prop := p.isSetDuty m ∨ p.isSetMode m

def ReadsBehind (p : Packet) : Prop :=
  Command.ofUInt8? p.command = some .CMD_READ_POS ∧ ADC_NUM_CHANNELS ≤ p.targetAxis.toNat

instance (p : Packet) : Decidable p.isHalt :=
  inferInstanceAs (Decidable (Command.ofUInt8? p.command = some .CMD_HALT))

instance (p : Packet) (m : Fin NUM_MOTOR) : Decidable (p.isSetDuty m) :=
  inferInstanceAs (Decidable (Command.ofUInt8? p.command = _ ∧ p.targetAxis.toNat = m))

instance (p : Packet) (m : Fin NUM_MOTOR) : Decidable (p.isSetMode m) :=
  inferInstanceAs (Decidable (Command.ofUInt8? p.command = _ ∧ p.targetAxis.toNat = m))

instance (p : Packet) (m : Fin NUM_MOTOR) : Decidable (p.Sets m) :=
  inferInstanceAs (Decidable (p.isSetDuty m ∨ p.isSetMode m))

instance (p : Packet) : Decidable p.ReadsBehind :=
  inferInstanceAs (Decidable (Command.ofUInt8? p.command = _ ∧ ADC_NUM_CHANNELS ≤ _))

theorem isSetDuty.not_isHalt {p : Packet} {m : Fin NUM_MOTOR} (h : p.isSetDuty m) : ¬ p.isHalt := by
  simp [isHalt, h.1]

theorem isSetMode.not_isHalt {p : Packet} {m : Fin NUM_MOTOR} (h : p.isSetMode m) : ¬ p.isHalt := by
  simp [isHalt, h.1]

theorem isSetMode.not_isSetDuty {p : Packet} {m : Fin NUM_MOTOR} (h : p.isSetMode m) :
    ¬ p.isSetDuty m := by
  simp [isSetDuty, h.1]

end Packet

namespace MotorOut

def after (m : Fin NUM_MOTOR) (o : MotorOut) (p : Packet) : MotorOut :=
  if p.isHalt then (o.setSpeed 0).setBrakes true
  else if p.isSetDuty m then o.setSpeed (dutySpeed p.data)
  else if p.isSetMode m then o.setBrakes (p.data ≠ 0)
  else o

variable {p : Packet} {m : Fin NUM_MOTOR} {o : MotorOut}

theorem after_of_isHalt (h : p.isHalt) : o.after m p = (o.setSpeed 0).setBrakes true := if_pos h

theorem after_of_isSetDuty (h : p.isSetDuty m) : o.after m p = o.setSpeed (dutySpeed p.data) := by
  rw [after, if_neg h.not_isHalt, if_pos h]

theorem after_of_isSetMode (h : p.isSetMode m) : o.after m p = o.setBrakes (p.data ≠ 0) := by
  rw [after, if_neg h.not_isHalt, if_neg h.not_isSetDuty, if_pos h]

theorem after_of_not_sets (hhalt : ¬ p.isHalt) (h : ¬ p.Sets m) : o.after m p = o := by
  have hduty : ¬ p.isSetDuty m := fun hset => h (Or.inl hset)
  have hmode : ¬ p.isSetMode m := fun hset => h (Or.inr hset)
  rw [after, if_neg hhalt, if_neg hduty, if_neg hmode]

theorem after_period : (o.after m p).period = o.period := by
  unfold after
  split_ifs <;> rfl

theorem halted_after_halt (h : p.isHalt) : (o.after m p).Halted := by
  rw [after_of_isHalt h]
  exact halted_of_halt o

/-- Only `CMD_SET_DUTY` and `CMD_SET_MODE` for the motor itself end a halt. -/
theorem Halted.after (ho : o.Halted) (h : ¬ p.Sets m) : (o.after m p).Halted := by
  by_cases hhalt : p.isHalt
  · exact halted_after_halt hhalt
  · rw [after_of_not_sets hhalt h]
    exact ho

end MotorOut

section Outputs

variable (packet : Packet) (b : Board) (m : Fin NUM_MOTOR)

theorem motorOut_evtHalt :
    (evtHalt packet b).2.motorOut m = ((b.motorOut m).setSpeed 0).setBrakes true := by
  have hbody (b : Board) (i : Nat) (m : Fin NUM_MOTOR) :
      (motorSetBrakes i true (motorSetSpeed i 0 b)).motorOut m =
        if (i : Int) = (m : Nat) then ((b.motorOut m).setSpeed 0).setBrakes true
        else b.motorOut m := by
    rw [motorOut_motorSetBrakes, motorOut_motorSetSpeed]
    split <;> rfl
  have hmem : ((m : Nat) : Int) ∈ (List.range 6).map fun i : Nat => (i : Int) :=
    List.mem_map.mpr ⟨m, List.mem_range.mpr m.isLt, rfl⟩
  rw [evtHalt, motorOut_foldl b (fun i : Nat => (i : Int)) _
    (fun o => (o.setSpeed 0).setBrakes true) hbody fun _ => rfl, if_pos hmem]

theorem motorOut_evtDispatch :
    (evtDispatch packet b).2.motorOut m = (b.motorOut m).after m packet := by
  unfold evtDispatch
  split
  case h_1 h => rw [motorOut_evtHalt, MotorOut.after_of_isHalt h]
  case h_4 h =>
    rw [evtSetDuty, motorOut_motorSetSpeed]
    simp only [Int.natCast_inj]
    split
    · next haxis => rw [MotorOut.after_of_isSetDuty ⟨h, haxis⟩]
    · next haxis =>
      rw [MotorOut.after_of_not_sets]
      · simp [Packet.isHalt, h]
      · simp [Packet.Sets, Packet.isSetDuty, Packet.isSetMode, h, haxis]
  case h_5 h =>
    rw [evtSetMode, motorOut_motorSetBrakes]
    simp only [Int.natCast_inj]
    split
    · next haxis => rw [MotorOut.after_of_isSetMode ⟨h, haxis⟩]
    · next haxis =>
      rw [MotorOut.after_of_not_sets]
      · simp [Packet.isHalt, h]
      · simp [Packet.Sets, Packet.isSetDuty, Packet.isSetMode, h, haxis]
  all_goals
    next h =>
      rw [MotorOut.after_of_not_sets]
      · rfl
      · simp [Packet.isHalt, h]
      · simp [Packet.Sets, Packet.isSetDuty, Packet.isSetMode, h]

theorem evtDispatch_request :
    (evtDispatch packet b).1.command = packet.command ∧
      (evtDispatch packet b).1.targetAxis = packet.targetAxis := by
  unfold evtDispatch
  split <;> exact ⟨rfl, rfl⟩

end Outputs

section Accesses

def AccessesSafely (b b' : Board) : Prop :=
  ∃ added, b'.accesses = b.accesses ++ added ∧ ∀ a ∈ added, a.InRange

theorem AccessesSafely.refl (b : Board) : AccessesSafely b b := ⟨[], by simp, by simp⟩

theorem AccessesSafely.trans {a b c : Board} (hab : AccessesSafely a b)
    (hbc : AccessesSafely b c) : AccessesSafely a c := by
  obtain ⟨xs, hxs, hx⟩ := hab
  obtain ⟨ys, hys, hy⟩ := hbc
  refine ⟨xs ++ ys, by rw [hys, hxs, List.append_assoc], ?_⟩
  intro i hi
  exact (List.mem_append.mp hi).elim (hx i) (hy i)

theorem AccessesSafely.inRange_iff {b b' : Board} (h : AccessesSafely b b') :
    (∀ a ∈ b'.accesses, a.InRange) ↔ ∀ a ∈ b.accesses, a.InRange := by
  obtain ⟨added, hadded, hsafe⟩ := h
  rw [hadded]
  constructor
  · intro hall a ha
    exact hall a (List.mem_append_left _ ha)
  · intro hall a ha
    exact (List.mem_append.mp ha).elim (hall a) (hsafe a)

theorem accessesSafely_withMotor {f : Motor → Board → Board}
    (hf : ∀ m b, AccessesSafely b (f m b)) (motorNum : Int) (b : Board) :
    AccessesSafely b (withMotor motorNum f b) := by
  unfold withMotor
  split
  · next h =>
    have haccess : AccessesSafely b (b.access (.motors motorNum)) :=
      ⟨[.motors motorNum], rfl, by simpa using ⟨h.2, h.1⟩⟩
    exact haccess.trans (hf _ _)
  · exact .refl b

theorem accessesSafely_motorSetDir (motorNum : Int) (dir : Bool) (b : Board) :
    AccessesSafely b (motorSetDir motorNum dir b) := by
  apply accessesSafely_withMotor
  intro m b
  exact .refl b

theorem accessesSafely_motorSetSpeed (motorNum : Int) (speed : Int16) (b : Board) :
    AccessesSafely b (motorSetSpeed motorNum speed b) := by
  apply accessesSafely_withMotor
  intro m b
  exact accessesSafely_motorSetDir motorNum _ (b.pwmEnableChannel m.pwmDriver m.pwmChannel _)

theorem accessesSafely_motorSetBrakes (motorNum : Int) (brake : Bool) (b : Board) :
    AccessesSafely b (motorSetBrakes motorNum brake b) := by
  apply accessesSafely_withMotor
  intro m b
  exact .refl b

theorem accessesSafely_evtHalt (packet : Packet) (b : Board) :
    AccessesSafely b (evtHalt packet b).2 := by
  rw [evtHalt]
  induction List.range 6 generalizing b with
  | nil => exact .refl b
  | cons i is ih =>
    have hbody := (accessesSafely_motorSetSpeed i 0 b).trans
      (accessesSafely_motorSetBrakes i true _)
    exact hbody.trans (ih _)

/-- `evt_readPos` is the only handler that can index a table out of range. -/
theorem inRange_evtDispatch_iff (packet : Packet) (b : Board) :
    (∀ a ∈ (evtDispatch packet b).2.accesses, a.InRange) ↔
      (∀ a ∈ b.accesses, a.InRange) ∧ ¬ packet.ReadsBehind := by
  unfold evtDispatch
  split
  case h_1 h =>
    rw [(accessesSafely_evtHalt packet b).inRange_iff]
    simp [Packet.ReadsBehind, h]
  case h_2 h => simp [Packet.ReadsBehind, h, evtReadCurrent]
  case h_3 h =>
    simp only [evtReadPos, Board.access_accesses, List.forall_mem_append, List.forall_mem_singleton,
      Packet.ReadsBehind, h, true_and, Access.InRange]
    constructor
    · rintro ⟨hall, haxis⟩
      exact ⟨hall, by omega⟩
    · rintro ⟨hall, haxis⟩
      exact ⟨hall, by omega⟩
  case h_4 h =>
    rw [evtSetDuty, (accessesSafely_motorSetSpeed _ _ b).inRange_iff]
    simp [Packet.ReadsBehind, h]
  case h_5 h =>
    rw [evtSetMode, (accessesSafely_motorSetBrakes _ _ b).inRange_iff]
    simp [Packet.ReadsBehind, h]
  case h_6 h => simp [Packet.ReadsBehind, h, evtBadCommand]

end Accesses

end MentorRevival
