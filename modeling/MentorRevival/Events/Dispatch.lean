import MentorRevival.Events.System

/-!
# The history of dispatch

What `eventThread` dispatches in terms of what `serialThread` received. A read that finds the
ring empty leaves the packet of the last iteration in `currentPacket`, and `eventThread`
dispatches it again: the dispatched packets are a replay of the delivered ones. No handler
changes the position, the command or the axis of a packet, so the replay is stated for these.
-/

namespace MentorRevival

open Transition Register

structure Request where
  pos : Nat
  command : UInt8
  targetAxis : UInt8

def Stamped.request (x : Stamped) : Request :=
  { pos := x.pos, command := x.packet.command, targetAxis := x.packet.targetAxis }

namespace State

/-- The passes through the `switch`, with the one that `eventThread` is about to make. -/
def uses (s : State) : List (Use Stamped) :=
  s.dispatched ++ if s.eventPc = .dispatch then [s.use] else []

end State

theorem Occurs.stamps {s : State} (h : Occurs s) :
    s.received.map Stamped.pos = List.range s.received.length := by
  apply h.invariant (I := fun s => s.received.map Stamped.pos = List.range s.received.length)
  · intro uninitialised samples
    rfl
  · intro s s' _ hstamps hs
    cases hs with
    | write hpc =>
      simp only [State.afterWrite, List.map_append, List.length_append, List.length_singleton,
        List.range_succ, hstamps]
      rfl
    | _ => exact hstamps

structure Traced (s : State) : Prop where
  replay : Replay (s.delivered.map Stamped.request) (s.uses.map (Use.map Stamped.request))
  current : ∀ r, (s.delivered.map Stamped.request).getLast? = some r →
    r = s.currentPacket.request
  fresh : (s.uses.filter Use.fresh).map Use.item = s.delivered
  stale : (s.uses.filter fun u => !u.fresh).length = s.emptyReads

section Uses

def State.handled (s : State) : Stamped :=
  { s.currentPacket with packet := (evtDispatch s.currentPacket.packet s.board).1 }

/-- Only `circ_read` adds a use; no other step changes the packet but for the handlers. -/
theorem reads_or_keeps {s s' : State} (hs : Moves s s') :
    (s.eventPc = .read ∧ s' = s.afterRead) ∨
      (s'.uses = s.uses ∧ s'.delivered = s.delivered ∧ s'.emptyReads = s.emptyReads ∧
        (s'.currentPacket = s.currentPacket ∨ s'.currentPacket = s.handled)) := by
  cases hs with
  | read hpc => exact Or.inl ⟨hpc, rfl⟩
  | dispatch hpc =>
    right
    refine ⟨?_, rfl, rfl, Or.inr rfl⟩
    simp [State.uses, State.afterDispatch, hpc]
  | semInit hpc =>
    exact Or.inr ⟨by simp [State.uses, State.afterSemInit, hpc], rfl, rfl, Or.inl rfl⟩
  | wait hpc htoken =>
    exact Or.inr ⟨by simp [State.uses, State.afterWait, hpc], rfl, rfl, Or.inl rfl⟩
  | send hpc =>
    exact Or.inr ⟨by simp [State.uses, State.afterSend, hpc], rfl, rfl, Or.inl rfl⟩
  | _ => exact Or.inr ⟨rfl, rfl, rfl, Or.inl rfl⟩

theorem uses_of_read {s : State} (hpc : s.eventPc = .read) : s.uses = s.dispatched := by
  simp [State.uses, hpc]

theorem uses_afterRead_of_nil {s : State} (h : Sound s) (hpc : s.eventPc = .read)
    (hq : s.packetBuf.toList = []) :
    s.afterRead.uses = s.uses ++ [{ item := s.currentPacket, fresh := false }] := by
  rw [State.afterRead_of_nil h hq, uses_of_read hpc]
  rfl

theorem uses_afterRead_of_cons {s : State} (h : Sound s) (hpc : s.eventPc = .read) {a : Stamped}
    {q : List Stamped} (hq : s.packetBuf.toList = a :: q) :
    s.afterRead.uses = s.uses ++ [{ item := a, fresh := true }] := by
  obtain ⟨c, _, hread⟩ := State.afterRead_of_cons h hq
  rw [hread, uses_of_read hpc]
  rfl

end Uses

section Replayed

variable {β : Type*} {proj : Stamped → β}

/-- As far as `proj` looks at the packets, the uses replay the deliveries, and `currentPacket`
is what was delivered last. -/
structure Replayed (proj : Stamped → β) (s : State) : Prop where
  replay : Replay (s.delivered.map proj) (s.uses.map (Use.map proj))
  current : ∀ r, (s.delivered.map proj).getLast? = some r → r = proj s.currentPacket

private theorem Replayed.afterRead {s : State} (h : Replayed proj s) (hocc : Occurs s)
    (hpc : s.eventPc = .read) : Replayed proj s.afterRead := by
  have hsound := hocc.sound
  cases hq : s.packetBuf.toList with
  | nil =>
    have hne : s.delivered ≠ [] :=
      hocc.accounted.delivered_ne_nil (by simp [State.mailbox, hpc]) hq
    -- the packet left in `currentPacket` is the one delivered last
    have hlast : (s.delivered.map proj).getLast? = some (proj s.currentPacket) := by
      obtain ⟨r, hr⟩ : ∃ r, (s.delivered.map proj).getLast? = some r :=
        ⟨_, List.getLast?_eq_some_getLast (by simpa using hne)⟩
      rw [hr, h.current r hr]
    have huses := uses_afterRead_of_nil hsound hpc hq
    have hread := State.afterRead_of_nil hsound hq
    have hdelivered : s.afterRead.delivered = s.delivered := by rw [hread]
    have hcurrent : s.afterRead.currentPacket = s.currentPacket := by rw [hread]
    constructor
    · rw [huses, hdelivered, List.map_append]
      exact h.replay.stale hlast
    · rw [hdelivered, hcurrent]
      exact h.current
  | cons a q =>
    have huses := uses_afterRead_of_cons hsound hpc hq
    obtain ⟨c, _, hread⟩ := State.afterRead_of_cons hsound hq
    have hdelivered : s.afterRead.delivered = s.delivered ++ [a] := by rw [hread]
    have hcurrent : s.afterRead.currentPacket = a := by rw [hread]
    constructor
    · rw [huses, hdelivered, List.map_append, List.map_append]
      exact h.replay.fresh (proj a)
    · rw [hdelivered, hcurrent]
      simp

/-- What no handler changes of a packet is replayed. -/
theorem Occurs.replayed (hproj : ∀ s : State, proj s.handled = proj s.currentPacket) {s : State}
    (h : Occurs s) : Replayed proj s := by
  apply h.invariant
  · intro uninitialised samples
    exact ⟨.nil, by simp [init]⟩
  · intro s s' hocc hreplayed hs
    rcases reads_or_keeps hs with ⟨hpc, rfl⟩ | ⟨huses, hdelivered, _, hcurrent⟩
    · exact hreplayed.afterRead hocc hpc
    · have hkept : proj s'.currentPacket = proj s.currentPacket := by
        rcases hcurrent with hsame | hhandled
        · rw [hsame]
        · rw [hhandled, hproj]
      exact ⟨by rw [huses, hdelivered]; exact hreplayed.replay,
        by rw [hdelivered, hkept]; exact hreplayed.current⟩

end Replayed

private theorem Occurs.logged {s : State} (h : Occurs s) :
    (s.uses.filter Use.fresh).map Use.item = s.delivered ∧
      (s.uses.filter fun u => !u.fresh).length = s.emptyReads := by
  apply h.invariant (I := fun s => (s.uses.filter Use.fresh).map Use.item = s.delivered ∧
    (s.uses.filter fun u => !u.fresh).length = s.emptyReads)
  · intro uninitialised samples
    exact ⟨rfl, rfl⟩
  · intro s s' hocc hlogged hs
    rcases reads_or_keeps hs with ⟨hpc, rfl⟩ | ⟨huses, hdelivered, hempty, _⟩
    · cases hq : s.packetBuf.toList with
      | nil =>
        rw [uses_afterRead_of_nil hocc.sound hpc hq, State.afterRead_of_nil hocc.sound hq]
        simpa using hlogged
      | cons a q =>
        obtain ⟨c, _, hread⟩ := State.afterRead_of_cons hocc.sound hq
        rw [uses_afterRead_of_cons hocc.sound hpc hq, hread]
        simpa using hlogged
    · rwa [huses, hdelivered, hempty]

theorem request_handled (s : State) : s.handled.request = s.currentPacket.request := by
  have hrequest := evtDispatch_request s.currentPacket.packet s.board
  simp [Stamped.request, State.handled, hrequest.1, hrequest.2]

theorem Occurs.traced {s : State} (h : Occurs s) : Traced s := by
  have hreplayed := h.replayed request_handled
  exact ⟨hreplayed.replay, hreplayed.current, h.logged.1, h.logged.2⟩

/-- Every pass through the `switch` is answered, the last one once its reply is sent. -/
theorem Occurs.answered_eq {s : State} (h : Occurs s) :
    s.dispatched.map (fun u => u.item.request) =
      s.answered.map Stamped.request ++
        if s.eventPc = .send then [s.currentPacket.request] else [] := by
  apply h.invariant (I := fun s => s.dispatched.map (fun u => u.item.request) =
    s.answered.map Stamped.request ++ if s.eventPc = .send then [s.currentPacket.request] else [])
  · intro uninitialised samples
    rfl
  · intro s s' _ hanswered hs
    cases hs with
    | semInit hpc => simpa [State.afterSemInit, hpc] using hanswered
    | wait hpc htoken => simpa [State.afterWait, hpc] using hanswered
    | read hpc => simpa [State.afterRead, hpc] using hanswered
    | dispatch hpc =>
      have hrequest := evtDispatch_request s.currentPacket.packet s.board
      simpa [State.afterDispatch, State.use, Stamped.request, hpc, hrequest.1, hrequest.2]
        using hanswered
    | send hpc => simpa [State.afterSend, hpc] using hanswered
    | _ => exact hanswered

def MotorOut.boot (m : Fin NUM_MOTOR) : MotorOut :=
  { period := PWM_PERIOD, width := 0, phase := true, mode1 := Board.resetLatch (motors m).mode1 }

theorem Occurs.motorOut_eq {s : State} (h : Occurs s) (m : Fin NUM_MOTOR) :
    s.board.motorOut m =
      (s.dispatched.map fun u => u.item.packet).foldl (MotorOut.after m) (MotorOut.boot m) := by
  apply h.invariant (I := fun s => s.board.motorOut m =
    (s.dispatched.map fun u => u.item.packet).foldl (MotorOut.after m) (MotorOut.boot m))
  · intro uninitialised samples
    exact motorOut_motorInit (Board.reset samples) m
  · intro s s' _ hout hs
    cases hs with
    | dispatch hpc =>
      simp only [State.afterDispatch, State.use, motorOut_evtDispatch, hout, List.map_append,
        List.foldl_append]
      rfl
    | _ => exact hout

/-- The passes through the `switch` replay a part of the received requests. -/
theorem Occurs.replay_dispatched {s : State} (h : Occurs s) :
    ∃ rs, rs.Sublist (s.received.map Stamped.request) ∧
      Replay rs (s.dispatched.map (Use.map Stamped.request)) := by
  have hreplay := h.traced.replay
  have hsub : (s.delivered.map Stamped.request).Sublist (s.received.map Stamped.request) :=
    ((List.sublist_append_left _ _).trans h.accounted.delivered_append_queue).map _
  by_cases hpc : s.eventPc = .dispatch
  · rw [State.uses, if_pos hpc, List.map_append] at hreplay
    obtain ⟨rs, hprefix, hreplay⟩ := hreplay.dropLast
    exact ⟨rs, hprefix.sublist.trans hsub, hreplay⟩
  · rw [State.uses, if_neg hpc, List.append_nil] at hreplay
    exact ⟨_, hsub, hreplay⟩

theorem Occurs.pairwise_stamps {s : State} (h : Occurs s) :
    (s.received.map Stamped.pos).Pairwise (· < ·) := by
  rw [h.stamps]
  exact List.pairwise_lt_range

/-- A dispatched packet is one that was received, as far as position, command and axis go. -/
theorem Occurs.received_of_dispatched {s : State} (h : Occurs s) {u : Use Stamped}
    (hu : u ∈ s.dispatched) : ∃ r ∈ s.received, r.request = u.item.request := by
  obtain ⟨rs, hsub, hreplay⟩ := h.replay_dispatched
  have hmem : u.item.request ∈ (s.dispatched.map (Use.map Stamped.request)).map Use.item := by
    rw [List.map_map]
    exact List.mem_map.mpr ⟨u, hu, rfl⟩
  exact List.mem_map.mp (hsub.subset (hreplay.mem_iff.mp hmem))

theorem Occurs.dispatched_pairwise {s : State} (h : Occurs s) :
    (s.dispatched.map fun u => u.item.pos).Pairwise (· ≤ ·) := by
  obtain ⟨rs, hsub, hreplay⟩ := h.replay_dispatched
  have hlt : (rs.map Request.pos).Pairwise (· < ·) := by
    have hsub' := hsub.map Request.pos
    rw [List.map_map] at hsub'
    exact h.pairwise_stamps.sublist hsub'
  have hle := (hreplay.map Request.pos).pairwise_le hlt
  rw [List.map_map, List.map_map] at hle
  exact hle

theorem Occurs.pos_le_of_dispatched {s : State} (h : Occurs s) {us vs : List (Use Stamped)}
    (huses : s.dispatched = us ++ vs) {u v : Use Stamped} (hu : u ∈ us) (hv : v ∈ vs) :
    u.item.pos ≤ v.item.pos := by
  have hpairwise := h.dispatched_pairwise
  rw [huses, List.map_append, List.pairwise_append] at hpairwise
  exact hpairwise.2.2 _ (List.mem_map.mpr ⟨u, hu, rfl⟩) _ (List.mem_map.mpr ⟨v, hv, rfl⟩)

theorem dispatched_prefix_step {l : Action} {s s' : State} (hs : step l s = some s') :
    s.dispatched <+: s'.dispatched := by
  by_cases hl : l = .dispatch
  · subst hl
    rw [eq_afterDispatch hs]
    exact List.prefix_append _ _
  · refine ⟨[], ?_⟩
    rw [List.append_nil, (step_quiet hs hl).1]

/-- However a run goes on behind a pass through the `switch`, the passes it adds are for packets
received no earlier than the one that was handled. -/
theorem Occurs.always_dispatches_from {t : State} (ht : Occurs t) (hpc : t.eventPc = .dispatch)
    (ls : List Action) :
    Always step (fun s => ∃ us, s.dispatched = t.afterDispatch.dispatched ++ us ∧
      ∀ u ∈ us, t.currentPacket.pos ≤ u.item.pos) ls t.afterDispatch := by
  have hkeep : Always step (fun s => Occurs s ∧ t.afterDispatch.dispatched <+: s.dispatched) ls
      t.afterDispatch := by
    refine always_of_step ?_ ls ⟨ht.next (l := .dispatch) (if_pos hpc), List.prefix_refl _⟩
    rintro l s s' ⟨hocc, hprefix⟩ hs
    exact ⟨hocc.next hs, hprefix.trans (dispatched_prefix_step hs)⟩
  refine hkeep.mono ?_
  rintro s ⟨hocc, us, hus⟩
  have huse : t.use ∈ t.afterDispatch.dispatched := by simp [State.afterDispatch]
  exact ⟨us, hus.symm, fun u hu => hocc.pos_le_of_dispatched hus.symm huse hu⟩

theorem Occurs.request_eq {s : State} (h : Occurs s) {r r' : Stamped} (hr : r ∈ s.received)
    (hr' : r' ∈ s.received) (hpos : r.pos = r'.pos) : r = r' := by
  have hnodup : (s.received.map Stamped.pos).Nodup :=
    h.pairwise_stamps.imp fun hlt => Nat.ne_of_lt hlt
  exact List.inj_on_of_nodup_map hnodup hr hr' hpos

/-- Every received packet is dispatched and answered at most once, in order of reception. -/
structure DispatchedOnce (s : State) : Prop where
  dispatched : (s.dispatched.map Use.item).Sublist s.received
  answered : (s.answered.map Stamped.pos).Sublist (s.received.map Stamped.pos)

/-- Nothing is under way: the ring is empty, `eventThread` waits for the semaphore and
`serialThread` for the next byte. -/
structure Quiescent (s : State) : Prop where
  ring : s.packetBuf.toList = []
  sem : s.packetSem = 0
  event : s.eventPc = .wait
  serial : s.serialPc = .get

def FindsRoom (l : Action) (s : State) : Prop :=
  match l with
  | .write => s.packetBuf.isFull = false
  | _ => True

instance (l : Action) (s : State) : Decidable (FindsRoom l s) :=
  match l with
  | .write => inferInstanceAs (Decidable (s.packetBuf.isFull = false))
  | .get _ | .signal | .semInit | .wait | .read | .dispatch | .send | .adc _ => isTrue trivial

theorem Occurs.answered_prefix {s : State} (h : Occurs s) :
    s.answered.map Stamped.pos <+: s.dispatched.map fun u => u.item.pos := by
  have hanswered := congrArg (List.map Request.pos) h.answered_eq
  rw [List.map_append, List.map_map, List.map_map] at hanswered
  exact ⟨_, hanswered.symm⟩

theorem Occurs.dispatchedOnce_iff {s : State} (h : Occurs s) :
    DispatchedOnce s ↔ ∀ u ∈ s.dispatched, u.fresh = true := by
  constructor
  · intro honce
    obtain ⟨rs, hsub, hreplay⟩ := h.replay_dispatched
    have hnodup : (s.received.map Stamped.pos).Nodup :=
      h.pairwise_stamps.imp fun hlt => Nat.ne_of_lt hlt
    have hpos := hreplay.map Request.pos
    have hrs : (rs.map Request.pos).Sublist (s.received.map Stamped.pos) := by
      have hsub' := hsub.map Request.pos
      rwa [List.map_map] at hsub'
    have hfresh := (hpos.sublist_iff hnodup hrs).mp (by
      rw [List.map_map, List.map_map]
      have hitems := honce.dispatched.map Stamped.pos
      rwa [List.map_map] at hitems)
    intro u hu
    exact hfresh _ (List.mem_map_of_mem (List.mem_map_of_mem hu))
  · intro hfresh
    have hitems : s.dispatched.map Use.item <+: s.delivered := by
      rw [← h.traced.fresh, State.uses, List.filter_append, List.map_append,
        List.filter_eq_self.mpr hfresh]
      exact List.prefix_append _ _
    have hsub : (s.dispatched.map Use.item).Sublist s.received :=
      hitems.sublist.trans
        ((List.sublist_append_left _ _).trans h.accounted.delivered_append_queue)
    refine ⟨hsub, h.answered_prefix.sublist.trans ?_⟩
    have hsub' := hsub.map Stamped.pos
    rwa [List.map_map] at hsub'

theorem Occurs.dispatchedOnce_iff_of_quiescent {s : State} (h : Occurs s) (hq : Quiescent s) :
    DispatchedOnce s ↔ s.overwritten = [] := by
  have hbalance := (h.accounted.at_rest hq.sem (by simp [State.mailbox, hq.serial])
    (by simp [State.mailbox, hq.event])).2
  have hstale := h.traced.stale
  have huses : s.uses = s.dispatched := by simp [State.uses, hq.event]
  change s.emptyReads = s.overwritten.length at hbalance
  rw [huses, hbalance] at hstale
  rw [h.dispatchedOnce_iff, ← List.length_eq_zero_iff, ← hstale, List.length_eq_zero_iff,
    List.filter_eq_nil_iff]
  simp

theorem Occurs.fresh_of_not_overwritten {s : State} (h : Occurs s) (hnone : s.overwritten = []) :
    ∀ u ∈ s.uses, u.fresh = true := by
  have hempty := h.accounted.no_emptyTakes hnone
  have hstale := h.traced.stale
  change s.emptyReads = 0 at hempty
  rw [hempty, List.length_eq_zero_iff, List.filter_eq_nil_iff] at hstale
  intro u hu
  simpa using hstale u hu

theorem Occurs.dispatchedOnce_of_not_overwritten {s : State} (h : Occurs s)
    (hnone : s.overwritten = []) : DispatchedOnce s := by
  rw [h.dispatchedOnce_iff]
  intro u hu
  exact h.fresh_of_not_overwritten hnone u (List.mem_append_left _ hu)

theorem Occurs.uses_append_queue {s : State} (h : Occurs s) (hnone : s.overwritten = []) :
    s.uses.map Use.item ++ s.packetBuf.toList = s.received := by
  have hfresh := h.traced.fresh
  have hreceived := h.accounted.received_eq hnone
  rw [List.filter_eq_self.mpr (h.fresh_of_not_overwritten hnone)] at hfresh
  rw [hfresh]
  exact hreceived.symm

theorem overwritten_step {l : Action} {s s' : State} (hs : step l s = some s') :
    s'.overwritten = [] ↔ s.overwritten = [] ∧ FindsRoom l s := by
  cases l with
  | write =>
    obtain ⟨_, rfl⟩ := enabled_of_some hs
    cases hfull : s.packetBuf.isFull <;> simp [State.afterWrite, State.lost, FindsRoom, hfull]
  | adc samples =>
    obtain rfl := Option.some.inj hs
    exact (and_iff_left trivial).symm
  | _ =>
    obtain ⟨_, rfl⟩ := enabled_of_some hs
    exact (and_iff_left trivial).symm

/-- In every run whose writes all find room every received packet is dispatched and answered
at most once and in order, and a run that comes to rest did so only then. -/
theorem dispatched_once_iff_room (uninitialised : Packet) (samples : Nat → UInt16)
    (ls : List Action) (s : State) (hrun : run step ls (init uninitialised samples) = some s) :
    (Along step FindsRoom ls (init uninitialised samples) →
        Always step DispatchedOnce ls (init uninitialised samples)) ∧
      (Quiescent s →
        (DispatchedOnce s ↔ Along step FindsRoom ls (init uninitialised samples))) := by
  have hrecord := along_iff_last (P := fun s => s.overwritten = [])
    (fun _ _ _ hs => overwritten_step hs) ls hrun
  refine ⟨fun hroom => ?_, fun hq => ?_⟩
  · have hkeep : Always step (fun s => Occurs s ∧ s.overwritten = []) ls
        (init uninitialised samples) := by
      refine always_of_along ?_ ls ⟨⟨_, _, .refl _⟩, rfl⟩ hroom
      rintro l t t' ⟨⟨u, v, hreach⟩, hnone⟩ hG hs
      exact ⟨⟨u, v, hreach.next hs⟩, (overwritten_step hs).mpr ⟨hnone, hG⟩⟩
    exact hkeep.mono fun t ht => ht.1.dispatchedOnce_of_not_overwritten ht.2
  · have hocc : Occurs s := ⟨uninitialised, samples, ls, hrun⟩
    rw [hocc.dispatchedOnce_iff_of_quiescent hq, hrecord]
    exact and_iff_right rfl

/-- Three frames. The second one comes in before the first is read, and the third one while the
first is executed and answered. -/
theorem dispatched_once_iff_room_three :
    ∃ s, run step (.semInit :: Frame.receive ⟨0x10, 0, 0, 0⟩ ++ .wait ::
        Frame.receive ⟨0x32, 0x4E, 0x20, 0⟩ ++ [.read, .get 0x25, .get 0, .dispatch, .get 0, .get 0,
          .write, .send, .signal] ++ turn ++ turn) (init pktInit fun _ => 0) = some s ∧
      s.dispatched.length = 3 ∧
      Always step DispatchedOnce (.semInit :: Frame.receive ⟨0x10, 0, 0, 0⟩ ++ .wait ::
        Frame.receive ⟨0x32, 0x4E, 0x20, 0⟩ ++ [.read, .get 0x25, .get 0, .dispatch, .get 0, .get 0,
          .write, .send, .signal] ++ turn ++ turn) (init pktInit fun _ => 0) ∧
      DispatchedOnce s := by
  have hrun : run step (.semInit :: Frame.receive ⟨0x10, 0, 0, 0⟩ ++ .wait ::
      Frame.receive ⟨0x32, 0x4E, 0x20, 0⟩ ++ [.read, .get 0x25, .get 0, .dispatch, .get 0, .get 0,
        .write, .send, .signal] ++ turn ++ turn) (init pktInit fun _ => 0) = some _ := rfl
  have hboth := dispatched_once_iff_room pktInit (fun _ => 0) _ _ hrun
  exact ⟨_, hrun, rfl, hboth.1 (by decide), (hboth.2 ⟨rfl, rfl, rfl, rfl⟩).mpr (by decide)⟩

/-- Five frames received before `eventThread` runs overwrite the first packet, and the fifth
iteration dispatches the last packet again. -/
theorem burst_repeats_last :
    ∃ s, run step (.semInit :: (List.replicate 5 (Frame.receive ⟨0x10, 0, 0, 0⟩)).flatten ++
      (List.replicate 5 turn).flatten) (init pktInit fun _ => 0) = some s ∧
        ¬ DispatchedOnce s := by
  refine ⟨_, rfl, fun h => ?_⟩
  exact absurd h.dispatched (by decide)

def AccessesInRange (s : State) : Prop := ∀ a ∈ s.board.accesses, a.InRange

/-- The `switch` is not entered with a `CMD_READ_POS` for an axis that has no sample. -/
def ReadsSample (l : Action) (s : State) : Prop :=
  match l with
  | .dispatch => ¬ s.currentPacket.packet.ReadsBehind
  | _ => True

instance (l : Action) (s : State) : Decidable (ReadsSample l s) :=
  match l with
  | .dispatch => inferInstanceAs (Decidable (¬ s.currentPacket.packet.ReadsBehind))
  | .get _ | .write | .signal | .semInit | .wait | .read | .send | .adc _ => isTrue trivial

theorem accessesInRange_step_iff {l : Action} {s s' : State} (h : AccessesInRange s)
    (hs : step l s = some s') : AccessesInRange s' ↔ ReadsSample l s := by
  cases l with
  | dispatch =>
    obtain rfl := eq_afterDispatch hs
    have hdispatch := inRange_evtDispatch_iff s.currentPacket.packet s.board
    exact hdispatch.trans (and_iff_right h)
  | _ =>
    obtain ⟨_, hboard⟩ := step_quiet hs (by simp)
    rw [AccessesInRange, hboard]
    exact ⟨fun _ => trivial, fun _ => h⟩

/-- The handlers stay within `motors[]` and `currentPos[]` throughout a run exactly when no
`CMD_READ_POS` for an axis without a sample is dispatched in it. -/
theorem accesses_in_range_iff (uninitialised : Packet) (samples : Nat → UInt16)
    (ls : List Action) (s : State) (hrun : run step ls (init uninitialised samples) = some s) :
    Always step AccessesInRange ls (init uninitialised samples) ↔
      Along step ReadsSample ls (init uninitialised samples) := by
  apply always_iff_along (J := fun _ => True) _ _ ls hrun trivial
  · intro a ha
    simp [init, show (motorInit (Board.reset samples)).accesses = [] from rfl] at ha
  · intro l s s' _ _
    trivial
  · intro l s s' _ h hs
    exact accessesInRange_step_iff h hs

theorem accesses_in_range_iff_five :
    Always step AccessesInRange (.semInit :: Frame.receive ⟨0x25, 0, 0, 0⟩ ++ turn)
      (init pktInit fun _ => 0) :=
  (accesses_in_range_iff pktInit (fun _ => 0) _ _ rfl).mpr (by decide)

/-- A `CMD_READ_POS` for axis 6 reads behind `currentPos`. -/
theorem read_pos_behind_table :
    ¬ Always step AccessesInRange (.semInit :: Frame.receive ⟨0x26, 0, 0, 0⟩ ++ turn)
      (init pktInit fun _ => 0) := by
  intro h
  exact absurd (h.last rfl (.currentPos 6) (by decide)) (by decide)

end MentorRevival
