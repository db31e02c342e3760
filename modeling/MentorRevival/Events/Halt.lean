import MentorRevival.Events.Dispatch

/-!
# Emergency stop

`CMD_HALT` stops and brakes every motor. Whatever `eventThread` dispatches behind it, a packet
of an earlier position never reaches the handlers again, so only a later packet for a motor
sets that motor going. A stop that is overwritten in the ring is lost, though.
-/

namespace MentorRevival

open Transition Register

def HaltedMotor (m : Fin NUM_MOTOR) (s : State) : Prop :=
  s.board.width (motors m).pwmDriver (motors m).pwmChannel = 0 ∧
    s.board.latch (motors m).mode1 = true

theorem haltedMotor_iff {m : Fin NUM_MOTOR} {s : State} :
    HaltedMotor m s ↔ (s.board.motorOut m).Halted :=
  ⟨fun h => ⟨h.1, h.2⟩, fun h => ⟨h.width, h.mode1⟩⟩

theorem isHalt_of_request {x y : Stamped} (h : x.request = y.request) (hx : x.packet.isHalt) :
    y.packet.isHalt := by
  have hcommand := congrArg Request.command h
  change x.packet.command = y.packet.command at hcommand
  rwa [Packet.isHalt, ← hcommand]

theorem sets_of_request {x y : Stamped} (h : x.request = y.request) {m : Fin NUM_MOTOR}
    (hx : x.packet.Sets m) : y.packet.Sets m := by
  have hcommand := congrArg Request.command h
  have haxis := congrArg Request.targetAxis h
  change x.packet.command = y.packet.command at hcommand
  change x.packet.targetAxis = y.packet.targetAxis at haxis
  rwa [Packet.Sets, Packet.isSetDuty, Packet.isSetMode, ← hcommand, ← haxis]

/-- What is dispatched behind a halt was received behind it, or is a halt itself. -/
theorem Occurs.beyond_halt {s : State} (h : Occurs s) (us : List (Use Stamped))
    {u v : Use Stamped} (hus : s.dispatched = us ++ [v]) (hu : u ∈ us)
    (hhalt : u.item.packet.isHalt) : u.item.pos < v.item.pos ∨ v.item.packet.isHalt := by
  have hle : u.item.pos ≤ v.item.pos := h.pos_le_of_dispatched hus hu (by simp)
  rcases Nat.lt_or_eq_of_le hle with hlt | heq
  · exact Or.inl hlt
  · -- one position stands for one request
    obtain ⟨r, hr, hru⟩ := h.received_of_dispatched (u := u) (by simp [hus, hu])
    obtain ⟨r', hr', hrv⟩ := h.received_of_dispatched (u := v) (by simp [hus])
    have hpos : r.pos = r'.pos := by
      have hu' := congrArg Request.pos hru
      have hv' := congrArg Request.pos hrv
      exact (hu'.trans heq).trans hv'.symm
    obtain rfl := h.request_eq hr hr' hpos
    exact Or.inr (isHalt_of_request (hru.symm.trans hrv) hhalt)

theorem HaltedMotor.afterDispatch {m : Fin NUM_MOTOR} {s : State} (h : HaltedMotor m s)
    (hpass : s.currentPacket.packet.isHalt ∨ ¬ s.currentPacket.packet.Sets m) :
    HaltedMotor m s.afterDispatch := by
  rw [haltedMotor_iff] at h ⊢
  change ((evtDispatch s.currentPacket.packet s.board).2.motorOut m).Halted
  rw [motorOut_evtDispatch]
  rcases hpass with hhalt | hsets
  · exact MotorOut.halted_after_halt hhalt
  · exact h.after hsets

theorem haltedMotor_afterDispatch_halt {s : State} (hhalt : s.currentPacket.packet.isHalt)
    (m : Fin NUM_MOTOR) : HaltedMotor m s.afterDispatch := by
  rw [haltedMotor_iff]
  change ((evtDispatch s.currentPacket.packet s.board).2.motorOut m).Halted
  rw [motorOut_evtDispatch]
  exact MotorOut.halted_after_halt hhalt

/-- No packet for motor `m` received behind position `p` enters the `switch`. -/
def LeavesAlone (m : Fin NUM_MOTOR) (p : Nat) (l : Action) (s : State) : Prop :=
  match l with
  | .dispatch => p < s.currentPacket.pos → ¬ s.currentPacket.packet.Sets m
  | _ => True

instance (m : Fin NUM_MOTOR) (p : Nat) (l : Action) (s : State) :
    Decidable (LeavesAlone m p l s) :=
  match l with
  | .dispatch => inferInstanceAs (Decidable (_ → ¬ s.currentPacket.packet.Sets m))
  | .get _ | .write | .signal | .semInit | .wait | .read | .send | .adc _ => isTrue trivial

theorem Occurs.always_haltedMotor {t : State} (ht : Occurs t) (hpc : t.eventPc = .dispatch)
    (hhalt : t.currentPacket.packet.isHalt) (m : Fin NUM_MOTOR) (ls : List Action)
    (hls : Along step (LeavesAlone m t.currentPacket.pos) ls t.afterDispatch) :
    Always step (HaltedMotor m) ls t.afterDispatch := by
  have hfirst : Occurs t.afterDispatch := ht.next (l := .dispatch) (if_pos hpc)
  have hkeep : Always step (fun s => Occurs s ∧ t.use ∈ s.dispatched ∧ HaltedMotor m s) ls
      t.afterDispatch := by
    refine always_of_along ?_ ls
      ⟨hfirst, by simp [State.afterDispatch], haltedMotor_afterDispatch_halt hhalt m⟩ hls
    rintro l s s' ⟨hocc, hmem, hhalted⟩ hG hs
    have hocc' := hocc.next hs
    cases l with
    | dispatch =>
      obtain rfl := eq_afterDispatch hs
      refine ⟨hocc', List.mem_append_left _ hmem, hhalted.afterDispatch ?_⟩
      rcases hocc'.beyond_halt s.dispatched rfl hmem hhalt with hlt | hhalt'
      · exact Or.inr (hG hlt)
      · exact Or.inl hhalt'
    | _ =>
      obtain ⟨hlog, hboard⟩ := step_quiet hs (by simp)
      refine ⟨hocc', by rwa [hlog], ?_⟩
      rw [HaltedMotor, hboard]
      exact hhalted
  exact hkeep.mono fun s hs => hs.2.2

/-- Once a `CMD_HALT` has been executed every motor stays halted, in any schedule, until a
packet that sets it and was received behind the halt is executed; and whatever is executed
later, no packet received before the halt is. -/
theorem halt_barrier (t : State) (ht : Occurs t) (hpc : t.eventPc = .dispatch)
    (hhalt : t.currentPacket.packet.isHalt) (ls : List Action) :
    (∀ m : Fin NUM_MOTOR, Along step (LeavesAlone m t.currentPacket.pos) ls t.afterDispatch →
        Always step (HaltedMotor m) ls t.afterDispatch) ∧
      Always step (fun s => ∃ us, s.dispatched = t.afterDispatch.dispatched ++ us ∧
        ∀ u ∈ us, t.currentPacket.pos ≤ u.item.pos) ls t.afterDispatch :=
  ⟨fun m hls => ht.always_haltedMotor hpc hhalt m ls hls, ht.always_dispatches_from hpc ls⟩

/-- A `CMD_SET_DUTY` and a `CMD_HALT` for motor 2 received together: the motor is halted, stays
so when a `CMD_READ_CURRENT` comes in, and runs once a second `CMD_SET_DUTY` is executed. -/
theorem halt_barrier_set_again :
    ∃ t, run step (.semInit :: Frame.receive ⟨0x32, 0x4E, 0x20, 0⟩ ++ Frame.receive ⟨0, 0, 0, 0⟩ ++
        turn ++ [.wait, .read]) (init pktInit fun _ => 0) = some t ∧
      Always step (HaltedMotor 2) (.send :: Frame.receive ⟨0x10, 0, 0, 0⟩ ++ turn)
        t.afterDispatch ∧
      (run step (.send :: Frame.receive ⟨0x10, 0, 0, 0⟩ ++ turn ++
        Frame.receive ⟨0x32, 0x4E, 0x20, 0⟩ ++ turn) t.afterDispatch).map
          (fun s => (s.dispatched.length, s.board.width .PWMD19 1)) = some (4, 100) ∧
      Always step (fun s => ∃ us, s.dispatched = t.afterDispatch.dispatched ++ us ∧
          ∀ u ∈ us, t.currentPacket.pos ≤ u.item.pos)
        (.send :: Frame.receive ⟨0x10, 0, 0, 0⟩ ++ turn ++
          Frame.receive ⟨0x32, 0x4E, 0x20, 0⟩ ++ turn) t.afterDispatch := by
  have hrun : run step (.semInit :: Frame.receive ⟨0x32, 0x4E, 0x20, 0⟩ ++
      Frame.receive ⟨0, 0, 0, 0⟩ ++ turn ++ [.wait, .read]) (init pktInit fun _ => 0) = some _ := rfl
  have hbarrier := halt_barrier _ ⟨pktInit, fun _ => 0, _, hrun⟩ rfl rfl
  exact ⟨_, hrun, (hbarrier _).1 2 (by decide), rfl, (hbarrier _).2⟩

def HaltHolds (m : Fin NUM_MOTOR) (s : State) : Prop :=
  ∀ u ∈ s.dispatched, u.item.packet.isHalt →
    (∀ r ∈ s.received, u.item.pos < r.pos → ¬ r.packet.Sets m) → HaltedMotor m s

theorem Occurs.haltHolds {s : State} (h : Occurs s) (m : Fin NUM_MOTOR) : HaltHolds m s := by
  apply h.invariant
  · intro uninitialised samples u hu
    simp [init] at hu
  · intro s s' hocc hholds hs
    cases hs with
    | dispatch hpc =>
      have hocc' : Occurs s.afterDispatch := hocc.next (l := .dispatch) (if_pos hpc)
      intro u hu hhalt hlater
      rcases List.mem_append.mp hu with hu | hu
      · apply (hholds u hu hhalt hlater).afterDispatch
        rcases hocc'.beyond_halt s.dispatched rfl hu hhalt with hlt | hhalt'
        · right
          intro hsets
          obtain ⟨r, hr, hrequest⟩ := hocc'.received_of_dispatched
            (u := s.use) (by simp [State.afterDispatch])
          have hpos : r.pos = s.currentPacket.pos := congrArg Request.pos hrequest
          exact hlater r hr (hpos ▸ hlt) (sets_of_request hrequest.symm hsets)
        · exact Or.inl hhalt'
      · obtain rfl := List.mem_singleton.mp hu
        exact haltedMotor_afterDispatch_halt hhalt m
    | write hpc =>
      intro u hu hhalt hlater
      exact hholds u hu hhalt fun r hr => hlater r (List.mem_append_left _ hr)
    | _ => exact hholds

/-- At rest a `CMD_HALT` that was not overwritten in the ring holds every motor for which no
`CMD_SET_DUTY` or `CMD_SET_MODE` was received behind it. -/
theorem halt_kept (s : State) (h : Occurs s) (hq : Quiescent s) (r : Stamped)
    (hr : r ∈ s.received) (hhalt : r.packet.isHalt) (hkept : r ∉ s.overwritten)
    (m : Fin NUM_MOTOR) (hlater : ∀ x ∈ s.received, r.pos < x.pos → ¬ x.packet.Sets m) :
    HaltedMotor m s := by
  have hdelivered : r ∈ s.delivered := by
    apply h.accounted.delivered_of_received hr _ hkept
    simp [State.mailbox, hq.ring]
  have huses : s.uses = s.dispatched := by simp [State.uses, hq.event]
  rw [← h.traced.fresh, huses] at hdelivered
  obtain ⟨u, hu, rfl⟩ := List.mem_map.mp hdelivered
  exact h.haltHolds m u (List.mem_of_mem_filter hu) hhalt hlater

theorem halt_kept_three :
    ∃ s, run step (.semInit :: Frame.receive ⟨0, 0, 0, 0⟩ ++
        (List.replicate 3 (Frame.receive ⟨0x10, 0, 0, 0⟩)).flatten ++
        (List.replicate 4 turn).flatten) (init pktInit fun _ => 0) = some s ∧
      s.board.width .PWMD19 1 = 0 ∧ s.board.latch ⟨.GPIOE, 8⟩ = true := by
  refine ⟨_, rfl, ?_⟩
  have hocc : Occurs _ := ⟨pktInit, fun _ => 0, .semInit :: Frame.receive ⟨0, 0, 0, 0⟩ ++
    (List.replicate 3 (Frame.receive ⟨0x10, 0, 0, 0⟩)).flatten ++
    (List.replicate 4 turn).flatten, rfl⟩
  exact halt_kept _ hocc ⟨rfl, rfl, rfl, rfl⟩ ⟨0, pktCreate .CMD_HALT 0 0⟩ (by decide) (by decide)
    (by decide) 2 (by decide)

/-- A `CMD_HALT` and four more packets do not: the halt is overwritten, and at rest the brake
of motor 2 has never been applied. -/
theorem halt_overwritten :
    ∃ s, run step (.semInit :: Frame.receive ⟨0, 0, 0, 0⟩ ++
        (List.replicate 4 (Frame.receive ⟨0x10, 0, 0, 0⟩)).flatten ++
        (List.replicate 5 turn).flatten) (init pktInit fun _ => 0) = some s ∧
      Quiescent s ∧ (∃ r ∈ s.received, r.packet.isHalt) ∧
      (∀ x ∈ s.received, ¬ x.packet.Sets 2) ∧ s.board.latch (motors 2).mode1 = false := by
  exact ⟨_, rfl, ⟨rfl, rfl, rfl, rfl⟩, by decide, by decide, by decide⟩

end MentorRevival
