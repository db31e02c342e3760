import MentorRevival.Events.Overload
import MentorRevival.Motor.Pads

/-!
# What packets can do to the outputs

Whatever is received and however the threads are scheduled, of the pads and PWM channels only
those that `motors[]` names ever change, and a motor does what packets for it have told it to,
even when others are overwritten. The interlock between brake and enable is another matter:
packets that keep it one after the other break it when one of them is lost.
-/

namespace MentorRevival

open Transition Register

section Confinement

/-- Of the pads and the PWM drivers only latches and channels of the motors differ. `currentPos`
and the accesses are no outputs. -/
structure Board.Confined (b b' : Board) : Prop where
  period : b'.period = b.period
  mode : b'.mode = b.mode
  latch : ∀ p, (∀ m, p ≠ (motors m).phase ∧ p ≠ (motors m).mode1) → b'.latch p = b.latch p
  width : ∀ d c, (∀ m, ¬ ((motors m).pwmDriver = d ∧ (motors m).pwmChannel = c)) →
    b'.width d c = b.width d c

namespace Board.Confined

variable {a b c : Board}

theorem refl (b : Board) : Confined b b := ⟨rfl, rfl, fun _ _ => rfl, fun _ _ _ => rfl⟩

theorem trans (hab : Confined a b) (hbc : Confined b c) : Confined a c where
  period := hbc.period.trans hab.period
  mode := hbc.mode.trans hab.mode
  latch := fun p hp => (hbc.latch p hp).trans (hab.latch p hp)
  width := fun d k hk => (hbc.width d k hk).trans (hab.width d k hk)

theorem setPin_phase (b : Board) (n : Fin NUM_MOTOR) (dir : Bool) :
    Confined b (b.setPin (motors n).phase dir) := by
  refine ⟨rfl, rfl, fun p hp => ?_, fun _ _ _ => rfl⟩
  rw [setPin_latch, if_neg (hp n).1]

theorem setPin_mode1 (b : Board) (n : Fin NUM_MOTOR) (brake : Bool) :
    Confined b (b.setPin (motors n).mode1 brake) := by
  refine ⟨rfl, rfl, fun p hp => ?_, fun _ _ _ => rfl⟩
  rw [setPin_latch, if_neg (hp n).2]

theorem pwmEnableChannel (b : Board) (n : Fin NUM_MOTOR) (count : Nat) :
    Confined b (b.pwmEnableChannel (motors n).pwmDriver (motors n).pwmChannel count) := by
  refine ⟨rfl, rfl, fun _ _ => rfl, fun d k hk => ?_⟩
  rw [pwmEnableChannel_width, if_neg]
  rintro ⟨rfl, rfl⟩
  exact hk n ⟨rfl, rfl⟩

theorem withMotor {f : Motor → Board → Board} (hf : ∀ n b, Confined b (f (motors n) b))
    (motorNum : Int) (b : Board) : Confined b (withMotor motorNum f b) := by
  unfold MentorRevival.withMotor
  split
  · have haccess : Confined b (b.access (.motors motorNum)) :=
      ⟨rfl, rfl, fun _ _ => rfl, fun _ _ _ => rfl⟩
    exact haccess.trans (hf _ _)
  · exact refl b

theorem motorSetDir (motorNum : Int) (dir : Bool) (b : Board) :
    Confined b (motorSetDir motorNum dir b) :=
  withMotor (fun n b => setPin_phase b n dir) motorNum b

theorem motorSetSpeed (motorNum : Int) (speed : Int16) (b : Board) :
    Confined b (motorSetSpeed motorNum speed b) :=
  withMotor (fun n b => (pwmEnableChannel b n _).trans (motorSetDir motorNum _ _)) motorNum b

theorem motorSetBrakes (motorNum : Int) (brake : Bool) (b : Board) :
    Confined b (motorSetBrakes motorNum brake b) :=
  withMotor (fun n b => setPin_mode1 b n brake) motorNum b

theorem evtDispatch (p : Packet) (b : Board) : Confined b (evtDispatch p b).2 := by
  unfold MentorRevival.evtDispatch
  split
  case h_1 =>
    refine List.foldlRecOn (motive := fun b' => Confined b b') _ _ (refl b) ?_
    intro b' hb' i _
    exact (hb'.trans (motorSetSpeed i 0 b')).trans (motorSetBrakes i true _)
  case h_3 => exact ⟨rfl, rfl, fun _ _ => rfl, fun _ _ _ => rfl⟩
  case h_4 => exact motorSetSpeed _ _ b
  case h_5 => exact motorSetBrakes _ _ b
  all_goals exact refl b

end Board.Confined

/-- In every run the pads and the PWM drivers stay as `motor_init` left them, but for the latches
and channels of the motors; every latch stands at its pad, but for the phase of the last motor,
which is high throughout. -/
theorem outputs_confined (uninitialised : Packet) (samples : Nat → UInt16) (s : State)
    (h : Reachable step (init uninitialised samples) s) :
    (motorInit (Board.reset samples)).Confined s.board ∧
      ∀ m, s.board.level (motors m).mode1 = some (s.board.motorOut m).mode1 ∧
        s.board.level (motors m).phase =
          some (if m = 5 then true else (s.board.motorOut m).phase) := by
  have hconfined : (motorInit (Board.reset samples)).Confined s.board := by
    apply h.invariant (I := fun s => (motorInit (Board.reset samples)).Confined s.board)
    · exact .refl _
    · intro l s s' hs hstep
      by_cases hl : l = .dispatch
      · subst hl
        obtain rfl := eq_afterDispatch hstep
        exact hs.trans (.evtDispatch _ _)
      · rw [(step_quiet hstep hl).2]
        exact ⟨hs.period, hs.mode, hs.latch, hs.width⟩
  refine ⟨hconfined, fun m => ?_⟩
  have hmode := mode_motorInit samples m
  rw [← hconfined.mode] at hmode
  refine ⟨by rw [Board.level, hmode.1]; rfl, ?_⟩
  rw [Board.level, hmode.2]
  by_cases h5 : m = 5
  · subst h5
    rfl
  · rw [if_neg h5, if_neg h5]
    by_cases h0 : m = 0
    · rw [if_pos h0]
      rfl
    · rw [if_neg h0]
      rfl

/-- The last motor is told to reverse at full speed: its phase pad stays high. -/
theorem outputs_confined_reverse :
    ∃ s, run step (.semInit :: Frame.receive ⟨0x35, 0, 0, 0⟩ ++ turn)
        (init pktInit fun _ => 0) = some s ∧ s.board.latch (motors 5).phase = false ∧
      s.board.level (motors 5).phase = some true := by
  refine ⟨_, rfl, rfl, ?_⟩
  have hreach : Reachable step (init pktInit fun _ => 0) _ :=
    ⟨.semInit :: Frame.receive ⟨0x35, 0, 0, 0⟩ ++ turn, rfl⟩
  exact ((outputs_confined pktInit (fun _ => 0) _ hreach).2 5).2

end Confinement

section Packets

/-- What holds of a motor at boot and is kept by every packet received holds of it in every
reachable state. -/
theorem Occurs.motorOut_invariant {P : MotorOut → Prop} {s : State} (h : Occurs s)
    (m : Fin NUM_MOTOR) (h0 : P (MotorOut.boot m))
    (hkeep : ∀ r ∈ s.received, ∀ o, P o → P (o.after m r.packet)) : P (s.board.motorOut m) := by
  rw [h.motorOut_eq, List.foldl_map]
  refine List.foldlRecOn _ _ h0 ?_
  intro o ho u hu
  obtain ⟨r, hr, _, heffective⟩ := h.effective_dispatched hu
  rw [← MotorOut.after_effective, ← heffective, MotorOut.after_effective]
  exact hkeep r hr o ho

section MotorOut

variable {o : MotorOut} {m : Fin NUM_MOTOR} {p : Packet}

theorem MotorOut.after_withinPeriod (ho : o.period = PWM_PERIOD ∧ o.width ≤ PWM_PERIOD)
    (hp : p.isSetDuty m → WithinDuty p.data) :
    (o.after m p).period = PWM_PERIOD ∧ (o.after m p).width ≤ PWM_PERIOD := by
  refine ⟨by rw [MotorOut.after_period, ho.1], ?_⟩
  by_cases hset : p.isSetDuty m
  · rw [MotorOut.after_of_isSetDuty hset]
    exact (width_le_iff ho.1 _).mpr (hp hset)
  · by_cases hhalt : p.isHalt
    · rw [(MotorOut.halted_after_halt hhalt).width]
      exact Nat.zero_le _
    · rw [MotorOut.after, if_neg hhalt, if_neg hset]
      split_ifs
      · exact ho.2
      · exact ho.2

theorem MotorOut.after_standsStill (ho : o.width = 0 ∧ o.phase = true) (hp : ¬ p.isSetDuty m) :
    (o.after m p).width = 0 ∧ (o.after m p).phase = true := by
  rw [MotorOut.after, if_neg hp]
  split_ifs
  · rw [MotorOut.setSpeed_zero]
    exact ⟨rfl, rfl⟩
  · exact ho
  · exact ho

theorem MotorOut.after_mode1 (hmode : ¬ p.isSetMode m) (hhalt : ¬ p.isHalt) :
    (o.after m p).mode1 = o.mode1 := by
  rw [MotorOut.after, if_neg hhalt, if_neg hmode]
  split_ifs
  · rfl
  · rfl

end MotorOut

/-- In every reachable state a motor is driven within its period when every `CMD_SET_DUTY`
received for it asked for that much, stands still when there was none, and has the brake it was
booted with when no packet received concerns it. -/
theorem outputs_follow_packets (s : State) (h : Occurs s) (m : Fin NUM_MOTOR) :
    ((∀ r ∈ s.received, r.packet.isSetDuty m → WithinDuty r.packet.data) →
        s.board.width (motors m).pwmDriver (motors m).pwmChannel ≤ PWM_PERIOD) ∧
      ((∀ r ∈ s.received, ¬ r.packet.isSetDuty m) →
        s.board.width (motors m).pwmDriver (motors m).pwmChannel = 0 ∧
          s.board.latch (motors m).phase = true) ∧
      ((∀ r ∈ s.received, ¬ r.packet.isSetMode m ∧ ¬ r.packet.isHalt) →
        s.board.latch (motors m).mode1 = Board.resetLatch (motors m).mode1) := by
  refine ⟨fun hduty => ?_, fun hduty => ?_, fun hmode => ?_⟩
  · have hout := h.motorOut_invariant (P := fun o => o.period = PWM_PERIOD ∧ o.width ≤ PWM_PERIOD)
      m ⟨rfl, Nat.zero_le _⟩ (fun r hr o ho => MotorOut.after_withinPeriod ho (hduty r hr))
    exact hout.2
  · refine h.motorOut_invariant (P := fun o => o.width = 0 ∧ o.phase = true) m ⟨rfl, rfl⟩ ?_
    intro r hr o ho
    exact MotorOut.after_standsStill ho (hduty r hr)
  · refine h.motorOut_invariant (P := fun o => o.mode1 = Board.resetLatch (motors m).mode1) m
      rfl ?_
    intro r hr o ho
    rw [MotorOut.after_mode1 (hmode r hr).1 (hmode r hr).2, ho]

/-- Five `CMD_SET_DUTY` at 100% for motor 2 and none for motor 3, faster than they are handled. -/
theorem outputs_follow_packets_burst :
    ∃ s, run step (.semInit :: (List.replicate 5 (Frame.receive ⟨0x32, 0x4E, 0x20, 0⟩)).flatten ++
        (List.replicate 5 turn).flatten) (init pktInit fun _ => 0) = some s ∧
      s.overwritten.length = 1 ∧ s.board.width .PWMD19 1 ≤ PWM_PERIOD ∧
      s.board.width .PWMD19 0 = 0 := by
  refine ⟨_, rfl, rfl, ?_⟩
  have hocc : Occurs _ := ⟨pktInit, fun _ => 0,
    .semInit :: (List.replicate 5 (Frame.receive ⟨0x32, 0x4E, 0x20, 0⟩)).flatten ++
      (List.replicate 5 turn).flatten, rfl⟩
  exact ⟨(outputs_follow_packets _ hocc 2).1 (by decide),
    ((outputs_follow_packets _ hocc 3).2.1 (by decide)).1⟩

end Packets

section Interlocks

instance (p : Packet) (b : Board) : Decidable (KeepsInterlock p b) :=
  inferInstanceAs (Decidable (∀ m, (p.isSetDuty m → b.latch (motors m).mode1 = true →
    Standstill p.data) ∧ (p.isSetMode m → p.data ≠ 0 →
      b.width (motors m).pwmDriver (motors m).pwmChannel = 0)))

instance (b : Board) : Decidable (Interlock b) :=
  inferInstanceAs (Decidable (∀ m, b.latch (motors m).mode1 = true →
    b.width (motors m).pwmDriver (motors m).pwmChannel = 0))

theorem interlock_of_motorOut {b b' : Board} (h : ∀ m, b'.motorOut m = b.motorOut m)
    (hb : Interlock b) : Interlock b' := by
  intro m hmode
  have hmode1 : b'.latch (motors m).mode1 = b.latch (motors m).mode1 :=
    congrArg MotorOut.mode1 (h m)
  have hwidth : b'.width (motors m).pwmDriver (motors m).pwmChannel =
      b.width (motors m).pwmDriver (motors m).pwmChannel := congrArg MotorOut.width (h m)
  rw [hwidth]
  exact hb m (hmode1.symm.trans hmode)

theorem Occurs.dispatched_packets {s : State} (h : Occurs s) (hnone : s.overwritten = []) :
    s.dispatched.map (fun u => u.item.packet) =
      (s.received.take s.dispatched.length).map Stamped.packet := by
  have htake := List.prefix_iff_eq_take.mp (h.dispatched_prefix hnone)
  rw [List.length_map] at htake
  rw [← htake, List.map_map]
  rfl

theorem configured_interlock {b : Board} {ps : List Packet}
    (h : Along packetStep KeepsInterlock ps (motorInit b)) :
    Always packetStep (fun b => Configured b ∧ Interlock b) ps (motorInit b) := by
  refine always_of_along ?_ ps ⟨configured_motorInit b, interlock_motorInit b⟩ h
  rintro p b b' ⟨hc, hb⟩ hG hs
  exact ⟨hc.step hs, (interlock_step_iff hc hb hs).mpr hG⟩

/-- As long as no packet is overwritten, packets that keep the interlock when they are executed
one after the other keep it in every reachable state of the threads. -/
theorem interlock_without_loss (uninitialised : Packet) (samples : Nat → UInt16) (s : State)
    (h : Reachable step (init uninitialised samples) s) (hnone : s.overwritten = [])
    (hkeeps : Along packetStep KeepsInterlock (s.received.map Stamped.packet)
      (motorInit (Board.reset samples))) : Interlock s.board := by
  have hocc : Occurs s := ⟨uninitialised, samples, h⟩
  have hpackets := hocc.dispatched_packets hnone
  rw [← List.take_append_drop s.dispatched.length s.received, List.map_append, ← hpackets]
    at hkeeps
  have hinterlock :=
    (configured_interlock hkeeps.append_left).last (run_packetStep _ _)
  refine interlock_of_motorOut (fun m => ?_) hinterlock.2
  rw [hocc.motorOut_eq, motorOut_execute, motorOut_motorInit]
  rfl

theorem interlock_without_loss_stop :
    ∃ s, run step (.semInit :: Frame.receive ⟨0x32, 0x4E, 0x20, 0⟩ ++
        Frame.receive ⟨0x32, 0x27, 0x10, 0⟩ ++ Frame.receive ⟨0x42, 0, 1, 0⟩ ++
        (List.replicate 3 turn).flatten) (init pktInit fun _ => 0) = some s ∧
      s.board.latch (motors 2).mode1 = true ∧ Interlock s.board := by
  refine ⟨_, rfl, rfl, ?_⟩
  exact interlock_without_loss pktInit (fun _ => 0) _
    ⟨.semInit :: Frame.receive ⟨0x32, 0x4E, 0x20, 0⟩ ++
      Frame.receive ⟨0x32, 0x27, 0x10, 0⟩ ++ Frame.receive ⟨0x42, 0, 1, 0⟩ ++
      (List.replicate 3 turn).flatten, rfl⟩ rfl (by decide)

/-- The packet that stops motor 2 before its brake is applied is overwritten. -/
theorem interlock_broken_by_loss :
    ∃ s, run step (.semInit :: Frame.receive ⟨0x32, 0x4E, 0x20, 0⟩ ++ turn ++
        Frame.receive ⟨0x32, 0x27, 0x10, 0⟩ ++ Frame.receive ⟨0x42, 0, 1, 0⟩ ++
        (List.replicate 3 (Frame.receive ⟨0x10, 0, 0, 0⟩)).flatten ++ turn)
        (init pktInit fun _ => 0) = some s ∧
      Along packetStep KeepsInterlock (s.received.map Stamped.packet)
        (motorInit (Board.reset fun _ => 0)) ∧ ¬ Interlock s.board := by
  exact ⟨_, rfl, by decide, by decide⟩

end Interlocks

end MentorRevival
