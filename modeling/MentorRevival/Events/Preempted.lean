import MentorRevival.Events.Overload
import MentorRevival.Ring.Preempted

/-!
# The event threads under preemption

Both threads with `circ_write` and `circ_read` taken apart into their statements, so that one
thread may run between any two statements of the other. A run in which the calls keep apart does
what a run of `Events.System` does, in which they are atomic: each call takes effect at one of
its statements.
-/

namespace MentorRevival.Preempted

open Transition

/-- `eventThread` in front of `chSemInit`, of `chSemWait` or a statement of `circ_read`, of the
`switch` and of `evt_sendPacket`. -/
inductive EventPc
  | semInit | circRead | dispatch | send
  deriving DecidableEq

structure State where
  /-- The ring and the semaphore, with the place of either thread in its calls. -/
  shared : Race.DataState Stamped
  serial : SerialLocal
  /-- `serialThread` is in front of a statement of `circ_write` or of `chSemSignal`. -/
  queuing : Bool
  eventPc : EventPc
  board : Board
  sduOut : List UInt8

inductive Action
  | get (m : Int)
  | serial
  | semInit
  | event
  | dispatch
  | send
  | adc (samples : Nat → UInt16)

def init (uninitialised : Packet) (samples : Nat → UInt16) : State :=
  { shared := Race.dataBoot (fun _ => ⟨0, pktInit⟩) ⟨0, uninitialised⟩, serial := .init,
    queuing := false, eventPc := .semInit, board := motorInit (Board.reset samples), sduOut := [] }

namespace State

def incoming (s : State) : Stamped := { pos := s.shared.signalled, packet := s.serial.sPacket }

def afterGet (m : Int) (s : State) : State :=
  let r := serialGet s.serial m
  { s with serial := r.1, queuing := r.2 }

/-- `pkt_init` follows `chSemSignal`. -/
def afterSerial (s : State) : State :=
  let s' := { s with shared := Race.dataSerialStep (fun _ => s.incoming) s.shared }
  if s.shared.serialPc = .signal then { s' with serial := s.serial.clear, queuing := false } else s'

def afterSemInit (s : State) : State :=
  { s with shared := { s.shared with packetSem := 0 }, eventPc := .circRead }

/-- The `switch` follows the last statement of `circ_read`. -/
def afterEvent (s : State) (shared : Race.DataState Stamped) : State :=
  { s with shared := shared, eventPc := if shared.eventPc = .wait then .dispatch else .circRead }

def afterDispatch (s : State) : State :=
  let currentPacket := s.shared.currentPacket
  let r := evtDispatch currentPacket.packet s.board
  { s with
    shared := { s.shared with currentPacket := { currentPacket with packet := r.1 } }
    board := r.2
    eventPc := .send }

def afterSend (s : State) : State :=
  { s with
    sduOut := s.sduOut ++ evtSendPacket s.shared.currentPacket.packet
    eventPc := .circRead }

def afterAdc (samples : Nat → UInt16) (s : State) : State :=
  { s with board := { s.board with currentPos := samples } }

end State

def step : Action → State → Option State
  | .get m, s => if s.queuing = false then some (s.afterGet m) else none
  | .serial, s =>
    if s.queuing = true ∧ (s.shared.serialPc = .signal → s.eventPc ≠ .semInit) then
      some s.afterSerial
    else none
  | .semInit, s => if s.eventPc = .semInit then some s.afterSemInit else none
  | .event, s =>
    if s.eventPc = .circRead then (Race.dataEventStep s.shared).map s.afterEvent else none
  | .dispatch, s => if s.eventPc = .dispatch then some s.afterDispatch else none
  | .send, s => if s.eventPc = .send then some s.afterSend else none
  | .adc samples, s => some (s.afterAdc samples)

/-- A frame is received, and some of the statements that queue it are made. -/
def receive (f : Frame) (statements : Nat) : List Action :=
  f.msgs.map .get ++ .replicate statements .serial

/-- A turn of `eventThread` that finds a packet. -/
def turn : List Action := .replicate 5 .event ++ [.dispatch, .send]

def messages (ls : List Action) : List Int :=
  ls.filterMap fun
    | .get m => some m
    | _ => none

/-- The calls of the two threads do not get into each other's way, as in `Race.Apart`. -/
def Apart (l : Action) (s : State) : Prop :=
  match l with
  | .serial => Race.Apart .serial s.shared
  | .event => Race.Apart .event s.shared
  | _ => True

instance (l : Action) (s : State) : Decidable (Apart l s) :=
  match l with
  | .serial => inferInstanceAs (Decidable (Race.Apart .serial s.shared))
  | .event => inferInstanceAs (Decidable (Race.Apart .event s.shared))
  | .get _ | .semInit | .dispatch | .send | .adc _ => isTrue trivial

def action : Mailbox.Op Stamped → MentorRevival.Action
  | .put _ => .write
  | .post => .signal
  | .acquire => .wait
  | .take => .read

/-- The steps of the atomic threads that a step stands for. -/
def effects : Action → State → List MentorRevival.Action
  | .get m, _ => [.get m]
  | .serial, s => (Race.effects (fun _ => s.incoming) .serial s.shared).map action
  | .semInit, _ => [.semInit]
  | .event, s => (Race.effects (fun _ => s.incoming) .event s.shared).map action
  | .dispatch, _ => [.dispatch]
  | .send, _ => [.send]
  | .adc samples, _ => [.adc samples]

section Refinement

/-- Where `eventThread` is among the atomic calls. -/
def State.atomicPc (s : State) : MentorRevival.EventPc :=
  match s.eventPc with
  | .semInit => .semInit
  | .circRead =>
    match s.shared.eventPc with
    | .wait => .wait
    | .emptyTest | .copy | .incTail => .read
    | .wrapTail => .dispatch
  | .dispatch => .dispatch
  | .send => .send

def State.mailbox (s : State) : Mailbox.State Stamped := s.shared.mailbox fun _ => s.incoming

/-- The state `a` of the atomic threads is what `s` amounts to. The packet that a `circ_read` has
copied is in `a` only when `tail` has moved. -/
structure Refines (s : State) (a : MentorRevival.State) : Prop where
  occurs : Occurs a
  linear : Race.Linear (fun _ => s.incoming) s.shared
  mailbox : a.mailbox = { s.mailbox with received := a.received }
  received : a.received.length = s.shared.signalled + s.shared.posting.toNat
  serial : a.serial = s.serial
  idle : s.queuing = false → s.shared.serialPc = .fullTest
  serialPc : a.serialPc = .get ↔ s.queuing = false
  eventPc : a.eventPc = s.atomicPc
  outside : s.eventPc ≠ .circRead → s.shared.eventPc = .wait
  currentPacket : s.shared.eventPc ≠ .incTail → a.currentPacket = s.shared.currentPacket
  board : a.board = s.board
  sduOut : a.sduOut = s.sduOut

theorem refines_init (uninitialised : Packet) (samples : Nat → UInt16) :
    Refines (init uninitialised samples) (MentorRevival.init uninitialised samples) where
  occurs := ⟨uninitialised, samples, .refl _⟩
  linear := Race.Linear.boot _ _ _
  mailbox := by
    rw [mailbox_init, State.mailbox, init, Race.mailbox_boot]
    rfl
  received := rfl
  serial := rfl
  idle := fun _ => rfl
  serialPc := ⟨fun _ => rfl, fun _ => rfl⟩
  eventPc := rfl
  outside := fun _ => rfl
  currentPacket := fun _ => rfl
  board := rfl
  sduOut := rfl

namespace Refines

variable {s : State} {a : MentorRevival.State}

theorem tokens (h : Refines s a) : a.packetSem = s.shared.packetSem :=
  congrArg Mailbox.State.tokens h.mailbox

theorem posting (h : Refines s a) : (a.serialPc == .signal) = s.shared.posting :=
  congrArg Mailbox.State.posting h.mailbox

theorem incoming (h : Refines s a) (hposting : s.shared.posting = false) :
    a.incoming = s.incoming := by
  have hlen := h.received
  rw [hposting, Bool.toNat_false, Nat.add_zero] at hlen
  rw [MentorRevival.State.incoming, State.incoming, hlen, h.serial]

/-- An operation that both take leaves both with the same mailbox. -/
theorem mailbox_next (h : Refines s a) {op : Mailbox.Op Stamped} {m : Mailbox.State Stamped}
    {a' : MentorRevival.State} (hop : Mailbox.step capacity op s.mailbox = some m)
    (ha : Mailbox.step capacity op a.mailbox = some a'.mailbox) :
    a'.mailbox = { m with received := a'.received } := by
  obtain ⟨received, hreceived⟩ := Mailbox.step_received hop a.received
  rw [← h.mailbox, ha] at hreceived
  have heq := Option.some.inj hreceived
  have hr : a'.received = received := congrArg Mailbox.State.received heq
  rw [heq, hr]

/-- While `serialThread` does not overwrite, its next packet is nowhere to be seen. -/
theorem mailbox_of_incoming {d : Race.DataState Stamped} (ho : d.overwriting = false)
    (x y : Stamped) (received : List Stamped) :
    { d.mailbox (fun _ => x) with received := received } =
      { d.mailbox (fun _ => y) with received := received } := by
  simp [Race.DataState.mailbox, ho]

theorem overwriting_of_idle (h : Refines s a) (hidle : s.queuing = false) :
    s.shared.overwriting = false := by
  have hserial := h.linear.serialAt
  rw [Race.SerialAt, h.idle hidle] at hserial
  exact hserial

private theorem get (h : Refines s a) (hidle : s.queuing = false) (m : Int) :
    ∃ a', run MentorRevival.step [.get m] a = some a' ∧ Refines (s.afterGet m) a' := by
  have hpc : a.serialPc = .get := h.serialPc.mpr hidle
  have hstep : MentorRevival.step (.get m) a = some (a.afterGet m) := if_pos hpc
  refine ⟨a.afterGet m, (run_singleton _ _).trans hstep, ?_⟩
  have hserial := h.idle hidle
  have hmailbox : (a.afterGet m).mailbox = a.mailbox := by
    simp only [MentorRevival.State.mailbox, MentorRevival.State.afterGet, hpc]
    split <;> rfl
  refine ⟨h.occurs.next hstep, h.linear.of_stream (by simp [hserial]) _, ?_, h.received, ?_, ?_,
    ?_, h.eventPc, h.outside, h.currentPacket, h.board, h.sduOut⟩
  · rw [hmailbox, h.mailbox]
    exact mailbox_of_incoming (h.overwriting_of_idle hidle) _ _ _
  · rw [MentorRevival.State.afterGet, State.afterGet, h.serial]
  · exact fun _ => hserial
  · rw [MentorRevival.State.afterGet, State.afterGet, h.serial]
    cases (serialGet s.serial m).2 <;> simp

theorem incoming_of_signalled {d : Race.DataState Stamped}
    (hsignalled : d.signalled = s.shared.signalled) (pc : EventPc) :
    State.incoming { s with shared := d, eventPc := pc } = s.incoming := by
  rw [State.incoming, State.incoming, hsignalled]

theorem atomicPc_of_eventPc {d : Race.DataState Stamped}
    (heventPc : d.eventPc = s.shared.eventPc) :
    State.atomicPc { s with shared := d } = s.atomicPc := by
  rw [State.atomicPc, State.atomicPc, heventPc]

/-- A statement of `circ_write`. -/
private theorem circWrite (h : Refines s a) (hqueuing : s.queuing = true)
    (hpc : s.shared.serialPc ≠ .signal) (hG : Race.Apart .serial s.shared) :
    ∃ a', run MentorRevival.step (effects .serial s) a = some a' ∧ Refines s.afterSerial a' := by
  obtain ⟨hlinear, hsim⟩ := h.linear.step hG rfl
  obtain ⟨heventPc, hcurrent⟩ := Race.dataSerialStep_event (fun _ => s.incoming) s.shared
  have hsignalled := Race.dataSerialStep_signalled (fun _ => s.incoming) hpc
  have hafter : s.afterSerial =
      { s with shared := Race.dataSerialStep (fun _ => s.incoming) s.shared } := if_neg hpc
  have hbusy : s.queuing ≠ false := by simp [hqueuing]
  rw [hafter]
  generalize Race.dataSerialStep (fun _ => s.incoming) s.shared = d at *
  have hincoming := incoming_of_signalled hsignalled s.eventPc
  rcases Race.effects_serial (fun _ => s.incoming) hpc with hnil | hput
  · have hmailbox := (Race.simulates_iff_of_nil hnil).mp hsim
    have hposting : d.posting = s.shared.posting := congrArg Mailbox.State.posting hmailbox
    refine ⟨a, by rw [effects, hnil]; rfl, ?_⟩
    exact {
      occurs := h.occurs
      linear := by rwa [hincoming]
      mailbox := by rw [State.mailbox, hincoming, hmailbox]; exact h.mailbox
      received := by rw [hsignalled, hposting]; exact h.received
      serial := h.serial
      idle := fun hidle => absurd hidle hbusy
      serialPc := h.serialPc
      eventPc := by rw [atomicPc_of_eventPc heventPc, h.eventPc]
      outside := fun hpc => by rw [heventPc, h.outside hpc]
      currentPacket := fun hpc => by rw [hcurrent, h.currentPacket (by rwa [heventPc] at hpc)]
      board := h.board
      sduOut := h.sduOut }
  · have hm := (Race.simulates_iff_of_single _ hput).mp hsim
    obtain ⟨hfree, hposting⟩ : s.shared.posting = false ∧ d.posting = true :=
      Mailbox.posting_of_put hm
    have hwrite : a.serialPc = .write := by
      have hsignal := h.posting.trans hfree
      have hget := mt h.serialPc.mp hbusy
      cases hserial : a.serialPc with
      | write => rfl
      | get => exact absurd hserial hget
      | signal => simp [hserial] at hsignal
    have hstep : MentorRevival.step .write a = some a.afterWrite := if_pos hwrite
    have hitem := h.incoming hfree
    have hmailbox := h.mailbox_next hm (hitem ▸ mailbox_afterWrite h.occurs.sound hwrite)
    refine ⟨a.afterWrite, by rw [effects, hput]; exact (run_singleton _ _).trans hstep, ?_⟩
    exact {
      occurs := h.occurs.next hstep
      linear := by rwa [hincoming]
      mailbox := by rw [State.mailbox, hincoming]; exact hmailbox
      received := by
        have hlen := h.received
        rw [hfree] at hlen
        rw [hsignalled, hposting]
        simpa [MentorRevival.State.afterWrite] using hlen
      serial := h.serial
      idle := fun hidle => absurd hidle hbusy
      serialPc := ⟨(fun hget => by cases hget), fun hidle => absurd hidle hbusy⟩
      eventPc := by rw [atomicPc_of_eventPc heventPc]; exact h.eventPc
      outside := fun hpc => by rw [heventPc, h.outside hpc]
      currentPacket := fun hpc => by
        rw [hcurrent]
        exact h.currentPacket (by rwa [heventPc] at hpc)
      board := h.board
      sduOut := h.sduOut }

private theorem signal (h : Refines s a) (hpc : s.shared.serialPc = .signal)
    (hready : s.eventPc ≠ .semInit) (hG : Race.Apart .serial s.shared) :
    ∃ a', run MentorRevival.step (effects .serial s) a = some a' ∧ Refines s.afterSerial a' := by
  obtain ⟨hlinear, hsim⟩ := h.linear.step hG rfl
  have ho := h.linear.serialAt
  simp only [Race.SerialAt, hpc] at ho
  have hd : Race.dataSerialStep (fun _ => s.incoming) s.shared =
      { s.shared with
        packetSem := s.shared.packetSem + 1
        serialPc := .fullTest
        signalled := s.shared.signalled + 1 } := by
    simp [Race.dataSerialStep, Race.serialStep, hpc]
  have hafter : s.afterSerial =
      { s with
        shared := Race.dataSerialStep (fun _ => s.incoming) s.shared
        serial := s.serial.clear
        queuing := false } := if_pos hpc
  have hpost : Race.effects (fun _ => s.incoming) .serial s.shared = [.post] := by
    simp [Race.effects, hpc]
  have hposting : s.shared.posting = true := by simp [Race.DataState.posting, hpc]
  have hsignal : a.serialPc = .signal := by simpa using h.posting.trans hposting
  have hsemInit : a.eventPc ≠ .semInit := by
    rw [h.eventPc, State.atomicPc]
    cases heq : s.eventPc with
    | semInit => exact absurd heq hready
    | circRead => cases s.shared.eventPc <;> simp
    | dispatch => simp
    | send => simp
  have hstep : MentorRevival.step .signal a = some a.afterSignal := if_pos ⟨hsignal, hsemInit⟩
  rw [hafter]
  have hm := (Race.simulates_iff_of_single _ hpost).mp hsim
  have hmailbox : a.afterSignal.mailbox = { (Race.dataSerialStep (fun _ => s.incoming)
      s.shared).mailbox (fun _ => s.incoming) with received := a.afterSignal.received } := by
    refine h.mailbox_next hm ?_
    simp [Mailbox.step, MentorRevival.State.mailbox, MentorRevival.State.afterSignal, hsignal]
  rw [hd] at hlinear hmailbox ⊢
  refine ⟨a.afterSignal, by rw [effects, hpost]; exact (run_singleton _ _).trans hstep, ?_⟩
  exact {
    occurs := h.occurs.next hstep
    linear := hlinear.of_stream (by simp) _
    mailbox := hmailbox.trans (mailbox_of_incoming (by exact ho) _ _ _)
    received := by
      have hlen := h.received
      rw [hposting] at hlen
      simpa [MentorRevival.State.afterSignal, Race.DataState.posting, ho] using hlen
    serial := congrArg SerialLocal.clear h.serial
    idle := fun _ => rfl
    serialPc := ⟨fun _ => rfl, fun _ => rfl⟩
    eventPc := h.eventPc
    outside := h.outside
    currentPacket := h.currentPacket
    board := h.board
    sduOut := h.sduOut }

theorem serial_step (h : Refines s a) {s' : State} (hG : Apart .serial s)
    (hs : step .serial s = some s') :
    ∃ a', run MentorRevival.step (effects .serial s) a = some a' ∧ Refines s' a' := by
  obtain ⟨⟨hqueuing, hready⟩, hafter⟩ := Option.ite_none_right_eq_some.mp hs
  obtain rfl := Option.some.inj hafter
  by_cases hpc : s.shared.serialPc = .signal
  · exact h.signal hpc (hready hpc) hG
  · exact h.circWrite hqueuing hpc hG

/-- What a step of `eventThread` in its calls has to show. -/
private theorem of_event (h : Refines s a) {d : Race.DataState Stamped}
    {a' : MentorRevival.State} (hocc : Occurs a') (hs : Race.dataEventStep s.shared = some d)
    (hlinear : Race.Linear (fun _ => s.incoming) d)
    (hmailbox : a'.mailbox = { d.mailbox (fun _ => s.incoming) with received := a'.received })
    (hframe : a'.serial = a.serial ∧ a'.serialPc = a.serialPc ∧ a'.received = a.received ∧
      a'.board = a.board ∧ a'.sduOut = a.sduOut)
    (heventPc : a'.eventPc = (s.afterEvent d).atomicPc)
    (hcurrent : d.eventPc ≠ .incTail → a'.currentPacket = d.currentPacket) :
    Refines (s.afterEvent d) a' := by
  obtain ⟨hserialPc, hsignalled⟩ := Race.dataEventStep_serial hs
  obtain ⟨hserial, hpc, hreceived, hboard, hsduOut⟩ := hframe
  have hposting : d.posting = s.shared.posting := by
    rw [← h.posting, ← hpc]
    exact (congrArg Mailbox.State.posting hmailbox).symm
  have hincoming : (s.afterEvent d).incoming = s.incoming := incoming_of_signalled hsignalled _
  exact {
    occurs := hocc
    linear := by rwa [hincoming]
    mailbox := by rw [State.mailbox, hincoming]; exact hmailbox
    received := by
      rw [hreceived, h.received, ← hposting, ← hsignalled]
      rfl
    serial := hserial.trans h.serial
    idle := fun hidle => hserialPc.trans (h.idle hidle)
    serialPc := by rw [hpc]; exact h.serialPc
    eventPc := heventPc
    outside := by
      intro hout
      by_contra hne
      exact hout (if_neg hne)
    currentPacket := hcurrent
    board := hboard.trans h.board
    sduOut := hsduOut.trans h.sduOut }

private theorem wait (h : Refines s a) (hcall : s.eventPc = .circRead)
    (hpc : s.shared.eventPc = .wait) {d : Race.DataState Stamped}
    (hs : Race.dataEventStep s.shared = some d) (hlinear : Race.Linear (fun _ => s.incoming) d)
    (hsim : Race.Simulates (fun _ => s.incoming) .event s.shared d) :
    ∃ a', run MentorRevival.step (effects .event s) a = some a' ∧
      Refines (s.afterEvent d) a' := by
  have hacquire : Race.effects (fun _ => s.incoming) .event s.shared = [.acquire] := by
    simp [Race.effects, hpc]
  have hm := (Race.simulates_iff_of_single _ hacquire).mp hsim
  have hd := hs
  simp only [Race.dataEventStep, Race.eventStep, hpc] at hd
  obtain ⟨next, hnext, rfl⟩ := Option.map_eq_some_iff.mp hd
  obtain ⟨htoken, hnext⟩ := Option.ite_none_right_eq_some.mp hnext
  obtain rfl := Option.some.inj hnext
  have hwait : a.eventPc = .wait := by rw [h.eventPc, State.atomicPc, hcall, hpc]
  have hsem : 0 < a.packetSem := by rwa [h.tokens]
  have hstep : MentorRevival.step .wait a = some a.afterWait := if_pos ⟨hwait, hsem⟩
  refine ⟨a.afterWait, by rw [effects, hacquire]; exact (run_singleton _ _).trans hstep, ?_⟩
  refine h.of_event (h.occurs.next hstep) hs hlinear (h.mailbox_next hm ?_)
    ⟨rfl, rfl, rfl, rfl, rfl⟩ ?_ fun _ => h.currentPacket (by simp [hpc])
  · simp [Mailbox.step, MentorRevival.State.mailbox, MentorRevival.State.afterWait, hwait, hsem]
  · simp [MentorRevival.State.afterWait, State.afterEvent, State.atomicPc]

/-- The statements of `circ_read` behind which the atomic call is still to come or already past. -/
private theorem circRead_within (h : Refines s a) {d : Race.DataState Stamped}
    (hs : Race.dataEventStep s.shared = some d) (hlinear : Race.Linear (fun _ => s.incoming) d)
    (hsim : Race.Simulates (fun _ => s.incoming) .event s.shared d)
    (hnil : Race.effects (fun _ => s.incoming) .event s.shared = [])
    (hpc : (s.afterEvent d).atomicPc = s.atomicPc)
    (hcurrent : d.eventPc ≠ .incTail → a.currentPacket = d.currentPacket) :
    ∃ a', run MentorRevival.step (effects .event s) a = some a' ∧
      Refines (s.afterEvent d) a' := by
  refine ⟨a, by rw [effects, hnil]; rfl, ?_⟩
  refine h.of_event h.occurs hs hlinear ?_ ⟨rfl, rfl, rfl, rfl, rfl⟩ ?_ hcurrent
  · rw [(Race.simulates_iff_of_nil hnil).mp hsim]
    exact h.mailbox
  · rw [hpc, h.eventPc]

/-- The statement at which a `circ_read` takes effect. -/
private theorem circRead (h : Refines s a) {d : Race.DataState Stamped}
    (hs : Race.dataEventStep s.shared = some d) (hlinear : Race.Linear (fun _ => s.incoming) d)
    (hsim : Race.Simulates (fun _ => s.incoming) .event s.shared d)
    (htake : Race.effects (fun _ => s.incoming) .event s.shared = [.take])
    (hread : s.atomicPc = .read) (hpc : (s.afterEvent d).atomicPc = .dispatch)
    (hcurrent : a.afterRead.delivered = d.delivered → a.afterRead.emptyReads = d.emptyReads →
      a.afterRead.currentPacket = d.currentPacket) :
    ∃ a', run MentorRevival.step (effects .event s) a = some a' ∧
      Refines (s.afterEvent d) a' := by
  have hm := (Race.simulates_iff_of_single _ htake).mp hsim
  have hatomic : a.eventPc = .read := h.eventPc.trans hread
  have hstep : MentorRevival.step .read a = some a.afterRead := if_pos hatomic
  have hmailbox := h.mailbox_next hm (mailbox_afterRead h.occurs.sound hatomic)
  refine ⟨a.afterRead, by rw [effects, htake]; exact (run_singleton _ _).trans hstep, ?_⟩
  refine h.of_event (h.occurs.next hstep) hs hlinear hmailbox ⟨rfl, rfl, rfl, rfl, rfl⟩
    hpc.symm fun _ => hcurrent ?_ ?_
  · exact congrArg Mailbox.State.delivered hmailbox
  · exact congrArg Mailbox.State.emptyTakes hmailbox

/-- An empty read leaves the packet alone. -/
private theorem current_of_empty (h : Refines s a) (hpc : s.shared.eventPc ≠ .incTail)
    (hempty : a.afterRead.emptyReads = s.shared.emptyReads + 1) :
    a.afterRead.currentPacket = s.shared.currentPacket := by
  have hbefore : a.emptyReads = s.shared.emptyReads := congrArg Mailbox.State.emptyTakes h.mailbox
  cases hq : a.packetBuf.toList with
  | nil =>
    rw [MentorRevival.State.afterRead_of_nil h.occurs.sound hq]
    exact h.currentPacket hpc
  | cons x q =>
    obtain ⟨c, _, hread⟩ := MentorRevival.State.afterRead_of_cons h.occurs.sound hq
    rw [hread] at hempty
    change a.emptyReads = s.shared.emptyReads + 1 at hempty
    omega

/-- Any other read leaves the packet that it delivers. -/
private theorem current_of_delivered (h : Refines s a) {x : Stamped}
    (hdelivered : a.afterRead.delivered = s.shared.delivered ++ [x]) :
    a.afterRead.currentPacket = x := by
  have hbefore : a.delivered = s.shared.delivered := congrArg Mailbox.State.delivered h.mailbox
  cases hq : a.packetBuf.toList with
  | nil =>
    rw [MentorRevival.State.afterRead_of_nil h.occurs.sound hq] at hdelivered
    change a.delivered = s.shared.delivered ++ [x] at hdelivered
    simp [hbefore] at hdelivered
  | cons y q =>
    obtain ⟨c, _, hread⟩ := MentorRevival.State.afterRead_of_cons h.occurs.sound hq
    rw [hread] at hdelivered ⊢
    change a.delivered ++ [y] = s.shared.delivered ++ [x] at hdelivered
    rw [hbefore] at hdelivered
    simpa using hdelivered

theorem event_step (h : Refines s a) {s' : State} (hG : Apart .event s)
    (hs : step .event s = some s') :
    ∃ a', run MentorRevival.step (effects .event s) a = some a' ∧ Refines s' a' := by
  obtain ⟨hcall, hmap⟩ := Option.ite_none_right_eq_some.mp hs
  obtain ⟨d, hd, rfl⟩ := Option.map_eq_some_iff.mp hmap
  obtain ⟨hlinear, hsim⟩ := h.linear.step (t := .event) hG hd
  have hstate := hd
  cases hpc : s.shared.eventPc with
  | wait => exact h.wait hcall hpc hd hlinear hsim
  | emptyTest =>
    by_cases hne : s.shared.tail = s.shared.head
    · obtain rfl : { s.shared with
          eventPc := .wait, emptyReads := s.shared.emptyReads + 1 } = d := by
        simpa [Race.dataEventStep, Race.eventStep, hpc, hne] using hstate
      refine h.circRead hd hlinear hsim ?_ ?_ ?_ fun _ hempty => ?_
      · simp [Race.effects, hpc, hne]
      · simp [State.atomicPc, hcall, hpc]
      · simp [State.atomicPc, State.afterEvent]
      · exact h.current_of_empty (by simp [hpc]) hempty
    · obtain rfl : { s.shared with eventPc := .copy } = d := by
        simpa [Race.dataEventStep, Race.eventStep, hpc, hne] using hstate
      refine h.circRead_within hd hlinear hsim ?_ ?_ fun _ => ?_
      · simp [Race.effects, hpc, hne]
      · simp [State.atomicPc, State.afterEvent, hcall, hpc]
      · exact h.currentPacket (by simp [hpc])
  | copy =>
    obtain rfl : { s.shared with
        eventPc := .incTail
        touched := s.shared.touched ++ [s.shared.tail]
        currentPacket := s.shared.buf s.shared.tail } = d := by
      simpa [Race.dataEventStep, Race.eventStep, hpc] using hstate
    refine h.circRead_within hd hlinear hsim ?_ ?_ fun hne => absurd rfl hne
    · simp [Race.effects, hpc]
    · simp [State.atomicPc, State.afterEvent, hcall, hpc]
  | incTail =>
    obtain rfl : { s.shared with
        toState := { s.shared.toState with toCircIdx := s.shared.incTail, eventPc := .wrapTail }
        delivered := s.shared.delivered ++ [s.shared.currentPacket] } = d := by
      simpa [Race.dataEventStep, Race.eventStep, hpc] using hstate
    refine h.circRead hd hlinear hsim ?_ ?_ ?_ fun hdelivered _ => ?_
    · simp [Race.effects, hpc]
    · simp [State.atomicPc, hcall, hpc]
    · simp [State.atomicPc, State.afterEvent]
    · exact h.current_of_delivered hdelivered
  | wrapTail =>
    obtain rfl : { s.shared with
        toState := { s.shared.toState with
          toCircIdx := s.shared.wrapTail, eventPc := .wait } } = d := by
      simpa [Race.dataEventStep, Race.eventStep, hpc] using hstate
    refine h.circRead_within hd hlinear hsim ?_ ?_ fun _ => ?_
    · simp [Race.effects, hpc]
    · simp [State.atomicPc, State.afterEvent, hcall, hpc]
    · exact h.currentPacket (by simp [hpc])

private theorem semInit (h : Refines s a) (hpc : s.eventPc = .semInit) :
    ∃ a', run MentorRevival.step [.semInit] a = some a' ∧ Refines s.afterSemInit a' := by
  have hinit : a.eventPc = .semInit := by rw [h.eventPc, State.atomicPc, hpc]
  have hwait : s.shared.eventPc = .wait := h.outside (by simp [hpc])
  have hzero : a.packetSem = 0 := h.occurs.sound.semInit hinit
  have hshared : { s.shared with packetSem := 0 } = s.shared := by
    rw [← hzero, h.tokens]
  have hstep : MentorRevival.step .semInit a = some a.afterSemInit := if_pos hinit
  have hmailbox : a.afterSemInit.mailbox = a.mailbox := by
    simp [MentorRevival.State.mailbox, MentorRevival.State.afterSemInit, hinit, hzero]
  refine ⟨a.afterSemInit, (run_singleton _ _).trans hstep, ?_⟩
  rw [State.afterSemInit, hshared]
  exact {
    occurs := h.occurs.next hstep
    linear := h.linear
    mailbox := hmailbox.trans h.mailbox
    received := h.received
    serial := h.serial
    idle := h.idle
    serialPc := h.serialPc
    eventPc := by simp [MentorRevival.State.afterSemInit, State.atomicPc, hwait]
    outside := fun hout => absurd rfl hout
    currentPacket := h.currentPacket
    board := h.board
    sduOut := h.sduOut }

private theorem dispatch (h : Refines s a) (hpc : s.eventPc = .dispatch) :
    ∃ a', run MentorRevival.step [.dispatch] a = some a' ∧ Refines s.afterDispatch a' := by
  have hatomic : a.eventPc = .dispatch := by rw [h.eventPc, State.atomicPc, hpc]
  have hwait : s.shared.eventPc = .wait := h.outside (by simp [hpc])
  have hcurrent := h.currentPacket (by simp [hwait])
  have hstep : MentorRevival.step .dispatch a = some a.afterDispatch := if_pos hatomic
  have hmailbox : a.afterDispatch.mailbox = a.mailbox := by
    simp [MentorRevival.State.mailbox, MentorRevival.State.afterDispatch, hatomic]
  refine ⟨a.afterDispatch, (run_singleton _ _).trans hstep, ?_⟩
  exact {
    occurs := h.occurs.next hstep
    linear := h.linear.of_currentPacket hwait _
    mailbox := hmailbox.trans h.mailbox
    received := h.received
    serial := h.serial
    idle := h.idle
    serialPc := h.serialPc
    eventPc := rfl
    outside := fun _ => hwait
    currentPacket := fun _ => by
      rw [MentorRevival.State.afterDispatch, State.afterDispatch, hcurrent, h.board]
    board := by rw [MentorRevival.State.afterDispatch, State.afterDispatch, hcurrent, h.board]
    sduOut := h.sduOut }

private theorem send (h : Refines s a) (hpc : s.eventPc = .send) :
    ∃ a', run MentorRevival.step [.send] a = some a' ∧ Refines s.afterSend a' := by
  have hatomic : a.eventPc = .send := by rw [h.eventPc, State.atomicPc, hpc]
  have hwait : s.shared.eventPc = .wait := h.outside (by simp [hpc])
  have hcurrent := h.currentPacket (by simp [hwait])
  have hstep : MentorRevival.step .send a = some a.afterSend := if_pos hatomic
  have hmailbox : a.afterSend.mailbox = a.mailbox := by
    simp [MentorRevival.State.mailbox, MentorRevival.State.afterSend, hatomic]
  refine ⟨a.afterSend, (run_singleton _ _).trans hstep, ?_⟩
  exact {
    occurs := h.occurs.next hstep
    linear := h.linear
    mailbox := hmailbox.trans h.mailbox
    received := h.received
    serial := h.serial
    idle := h.idle
    serialPc := h.serialPc
    eventPc := by simp [MentorRevival.State.afterSend, State.afterSend, State.atomicPc, hwait]
    outside := fun _ => hwait
    currentPacket := h.currentPacket
    board := h.board
    sduOut := by rw [MentorRevival.State.afterSend, State.afterSend, hcurrent, h.sduOut] }

private theorem adc (h : Refines s a) (samples : Nat → UInt16) :
    ∃ a', run MentorRevival.step [.adc samples] a = some a' ∧ Refines (s.afterAdc samples) a' := by
  have hstep : MentorRevival.step (.adc samples) a = some (a.afterAdc samples) := rfl
  refine ⟨a.afterAdc samples, rfl, ?_⟩
  exact {
    occurs := h.occurs.next hstep
    linear := h.linear
    mailbox := h.mailbox
    received := h.received
    serial := h.serial
    idle := h.idle
    serialPc := h.serialPc
    eventPc := h.eventPc
    outside := h.outside
    currentPacket := h.currentPacket
    board := by rw [MentorRevival.State.afterAdc, State.afterAdc, h.board]
    sduOut := h.sduOut }

/-- Every step of a run that keeps the calls apart is matched by the atomic steps it stands for. -/
theorem step {l : Action} {s' : State} (h : Refines s a) (hG : Apart l s)
    (hs : Preempted.step l s = some s') :
    ∃ a', run MentorRevival.step (effects l s) a = some a' ∧ Refines s' a' := by
  cases l with
  | serial => exact h.serial_step hG hs
  | event => exact h.event_step hG hs
  | get m =>
    obtain ⟨hidle, hafter⟩ := Option.ite_none_right_eq_some.mp hs
    obtain rfl := Option.some.inj hafter
    exact h.get hidle m
  | semInit =>
    obtain ⟨hpc, hafter⟩ := Option.ite_none_right_eq_some.mp hs
    obtain rfl := Option.some.inj hafter
    exact h.semInit hpc
  | dispatch =>
    obtain ⟨hpc, hafter⟩ := Option.ite_none_right_eq_some.mp hs
    obtain rfl := Option.some.inj hafter
    exact h.dispatch hpc
  | send =>
    obtain ⟨hpc, hafter⟩ := Option.ite_none_right_eq_some.mp hs
    obtain rfl := Option.some.inj hafter
    exact h.send hpc
  | adc samples =>
    obtain rfl := Option.some.inj hs
    exact h.adc samples

end Refines

end Refinement

section Runs

variable (uninitialised : Packet) (samples : Nat → UInt16)

theorem messages_effects (l : Action) (s : State) :
    MentorRevival.messages (effects l s) = messages [l] := by
  have hcall (ops : List (Mailbox.Op Stamped)) : MentorRevival.messages (ops.map action) = [] := by
    rw [MentorRevival.messages, List.filterMap_map, List.filterMap_eq_nil_iff]
    intro op _
    cases op <;> rfl
  cases l with
  | serial => exact hcall _
  | event => exact hcall _
  | _ => rfl

/-- The atomic threads are handed what `serialThread` is handed. -/
theorem messages_observe {ls : List Action} {s s' : State} (hrun : run step ls s = some s') :
    MentorRevival.messages (observe step effects ls s) = messages ls := by
  induction ls generalizing s with
  | nil => rfl
  | cons l ls ih =>
    obtain ⟨t, ht, hrun⟩ := Option.bind_eq_some_iff.mp hrun
    have hone := messages_effects l s
    have hrest := ih hrun
    rw [observe, ht, MentorRevival.messages, List.filterMap_append]
    rw [MentorRevival.messages] at hone hrest
    rw [hone, Option.elim_some, hrest, messages, messages, messages, ← List.filterMap_append,
      List.singleton_append]

/-- In every run that keeps the calls apart, however its statements are interleaved, the threads
do what the atomic threads do when each call is taken at the statement at which it takes effect:
the outputs, the replies, the packet in assembly, the semaphore and the fate of every packet are
the same. -/
theorem preempted_threads (ls : List Action) (s : State)
    (hrun : run step ls (init uninitialised samples) = some s)
    (hapart : Along step Apart ls (init uninitialised samples)) :
    ∃ a, run MentorRevival.step (observe step effects ls (init uninitialised samples))
        (MentorRevival.init uninitialised samples) = some a ∧
      MentorRevival.messages (observe step effects ls (init uninitialised samples)) =
        messages ls ∧
      a.board = s.board ∧ a.sduOut = s.sduOut ∧ a.serial = s.serial ∧
      a.packetSem = s.shared.packetSem ∧ a.overwritten = s.shared.overwritten ∧
      a.delivered = s.shared.delivered ∧ a.emptyReads = s.shared.emptyReads := by
  obtain ⟨a, ha, h⟩ := simulate_along (fun _ _ _ _ h hG hs => h.step hG hs) ls
    (refines_init uninitialised samples) hapart hrun
  exact ⟨a, ha, messages_observe hrun, h.board, h.sduOut, h.serial, h.tokens,
    congrArg Mailbox.State.dropped h.mailbox, congrArg Mailbox.State.delivered h.mailbox,
    congrArg Mailbox.State.emptyTakes h.mailbox⟩

/-- Five frames overwrite the first packet; the third one is read while a sixth one is written. -/
theorem preempted_threads_burst :
    ∃ s, run step (.semInit ::
        ([0x11, 0x12, 0x13, 0x14].map fun b => receive ⟨b, 0, 0, 0⟩ 5).flatten ++
        receive ⟨0x15, 0, 0, 0⟩ 7 ++ turn ++ receive ⟨0x16, 0, 0, 0⟩ 0 ++
        (List.replicate 5 [.event, .serial]).flatten ++ [.dispatch, .send])
        (init pktInit fun _ => 0) = some s ∧
      s.shared.overwritten.length = 1 ∧ s.sduOut = [0x12, 0, 0, 0xAE, 0x13, 0, 0, 0xAE] ∧
      ∃ a, Reachable MentorRevival.step (MentorRevival.init pktInit fun _ => 0) a ∧
        a.sduOut = s.sduOut := by
  have hseen : (run step (.semInit ::
      ([0x11, 0x12, 0x13, 0x14].map fun b => receive ⟨b, 0, 0, 0⟩ 5).flatten ++
      receive ⟨0x15, 0, 0, 0⟩ 7 ++ turn ++ receive ⟨0x16, 0, 0, 0⟩ 0 ++
      (List.replicate 5 [.event, .serial]).flatten ++ [.dispatch, .send])
      (init pktInit fun _ => 0)).map (fun s => (s.shared.overwritten.length, s.sduOut)) =
        some (1, [0x12, 0, 0, 0xAE, 0x13, 0, 0, 0xAE]) := by decide
  obtain ⟨s, hrun, hs⟩ := Option.map_eq_some_iff.mp hseen
  obtain ⟨a, ha, _, _, hout, _⟩ :=
    preempted_threads pktInit (fun _ => 0) _ s hrun (by decide +kernel)
  exact ⟨s, hrun, congrArg Prod.fst hs, congrArg Prod.snd hs, a, ⟨_, ha⟩, hout⟩

section Room

variable {uninitialised samples}

def TestsRoom (l : Action) (s : State) : Prop :=
  match l with
  | .serial => Race.TestsRoom .serial s.shared
  | _ => True

instance (l : Action) (s : State) : Decidable (TestsRoom l s) :=
  match l with
  | .serial => inferInstanceAs (Decidable (Race.TestsRoom .serial s.shared))
  | .get _ | .semInit | .event | .dispatch | .send | .adc _ => isTrue trivial

/-- Nothing is under way, as in `Quiescent`. -/
structure AtRest (s : State) : Prop where
  serial : s.queuing = false
  sem : s.shared.packetSem = 0
  event : s.eventPc = .circRead
  wait : s.shared.eventPc = .wait

structure Roomy (s : State) (a : MentorRevival.State) : Prop where
  refines : Refines s a
  overwriting : s.shared.overwriting = false
  overwritten : s.shared.overwritten = []

namespace Roomy

variable {s : State} {a : MentorRevival.State}

/-- With nothing overwritten every token stands for a packet, so no empty ring is tested. -/
theorem apart (h : Roomy s a) {l : Action} (hG : TestsRoom l s) : Apart l s := by
  have hqueue (hpc : s.shared.eventPc = .emptyTest) : s.shared.ring.toList ≠ [] := by
    intro hempty
    have haccounted := h.refines.occurs.accounted
    rw [h.refines.mailbox] at haccounted
    have htokens := haccounted.tokens_eq
    simp [State.mailbox, Race.DataState.mailbox, Race.DataState.claimed, hempty, hpc,
      h.overwriting, h.overwritten] at htokens
  cases l with
  | serial => exact h.refines.linear.apart (t := .serial) hG h.overwriting hqueue
  | event => exact h.refines.linear.apart (t := .event) trivial h.overwriting hqueue
  | _ => trivial

private theorem room_step (h : Roomy s a) {l : Action} (hG : TestsRoom l s) {s' : State}
    (hs : Preempted.step l s = some s') :
    s'.shared.overwriting = false ∧ s'.shared.overwritten = [] := by
  cases l with
  | serial =>
    obtain ⟨_, hafter⟩ := Option.ite_none_right_eq_some.mp hs
    obtain rfl := Option.some.inj hafter
    have hroom := h.refines.linear.room (t := .serial) hG h.overwriting h.overwritten rfl
    rw [State.afterSerial]
    split
    · exact hroom
    · exact hroom
  | event =>
    obtain ⟨_, hmap⟩ := Option.ite_none_right_eq_some.mp hs
    obtain ⟨d, hd, rfl⟩ := Option.map_eq_some_iff.mp hmap
    exact h.refines.linear.room (t := .event) trivial h.overwriting h.overwritten hd
  | adc samples =>
    obtain rfl := Option.some.inj hs
    exact ⟨h.overwriting, h.overwritten⟩
  | _ =>
    obtain ⟨_, hafter⟩ := Option.ite_none_right_eq_some.mp hs
    obtain rfl := Option.some.inj hafter
    exact ⟨h.overwriting, h.overwritten⟩

theorem step (h : Roomy s a) {l : Action} (hG : TestsRoom l s) {s' : State}
    (hs : Preempted.step l s = some s') :
    ∃ a', run MentorRevival.step (effects l s) a = some a' ∧ Roomy s' a' := by
  obtain ⟨a', ha, h'⟩ := h.refines.step (h.apart hG) hs
  obtain ⟨hover, hlost⟩ := h.room_step hG hs
  exact ⟨a', ha, h', hover, hlost⟩

theorem not_overwritten (h : Roomy s a) : a.overwritten = [] :=
  (congrArg Mailbox.State.dropped h.refines.mailbox).trans h.overwritten

/-- When the threads are at rest so are the atomic ones. -/
theorem quiescent (h : Roomy s a) (hrest : AtRest s) : Quiescent a := by
  have hserial : a.serialPc = .get := h.refines.serialPc.mpr hrest.serial
  have hevent : a.eventPc = .wait := by
    rw [h.refines.eventPc, State.atomicPc, hrest.event, hrest.wait]
  have hsem : a.packetSem = 0 := h.refines.tokens.trans hrest.sem
  have hring := h.refines.occurs.accounted.at_rest hsem
    (by simp [MentorRevival.State.mailbox, hserial]) (by simp [MentorRevival.State.mailbox, hevent])
  exact ⟨hring.1, hsem, hevent, hserial⟩

end Roomy

/-- What `currentPos` holds at each pass through the `switch`. -/
def samplesSeen : Action → State → List (Nat → UInt16)
  | .dispatch, s => [s.board.currentPos]
  | _, _ => []

theorem observe_effects {s : State} {a : MentorRevival.State} (h : Refines s a) (l : Action) :
    observe MentorRevival.step MentorRevival.samplesSeen (effects l s) a = samplesSeen l s := by
  have hcall (ops : List (Mailbox.Op Stamped)) :
      observe MentorRevival.step MentorRevival.samplesSeen (ops.map action) a = [] := by
    apply observe_eq_nil
    intro k hk t
    obtain ⟨op, _, rfl⟩ := List.mem_map.mp hk
    cases op <;> rfl
  cases l with
  | serial => exact hcall _
  | event => exact hcall _
  | dispatch =>
    have hnone : (MentorRevival.step .dispatch a).elim []
        (observe MentorRevival.step MentorRevival.samplesSeen []) = [] := by
      cases MentorRevival.step .dispatch a <;> rfl
    rw [effects, observe, hnone, samplesSeen, ← h.board]
    rfl
  | _ =>
    apply observe_eq_nil
    intro k hk t
    rw [List.mem_singleton.mp hk]
    rfl

/-- In every run whose fullness tests find room, wherever the threads preempt each other, what is
sent is the beginning of one reply for each frame dispatched, in their order; at rest every frame
has been answered and executed. -/
theorem preempted_replies (bs : List UInt8) (ls : List Action) (s : State)
    (hrun : run step ls (init uninitialised samples) = some s)
    (hfed : messages ls = hostBytes bs)
    (hroom : Along step TestsRoom ls (init uninitialised samples)) :
    ∃ seen : List (Nat → UInt16),
      seen = observe step samplesSeen ls (init uninitialised samples) ∧
      s.sduOut <+: (List.zipWith reply (framesOf (afterIdle bs)) seen).flatten ∧
      (AtRest s → seen.length = (framesOf (afterIdle bs)).length ∧
        s.sduOut = (List.zipWith reply (framesOf (afterIdle bs)) seen).flatten ∧
        ∀ m, s.board.motorOut m =
          (execute (motorInit (Board.reset samples))
            ((framesOf (afterIdle bs)).map Frame.decode)).motorOut m) := by
  have hboot : Roomy (init uninitialised samples) (MentorRevival.init uninitialised samples) :=
    ⟨refines_init uninitialised samples, rfl, rfl⟩
  have hsim (l : Action) (s s' : State) (a : MentorRevival.State) (h : Roomy s a)
      (hG : TestsRoom l s) (hs : step l s = some s') :
      ∃ a', run MentorRevival.step (effects l s) a = some a' ∧ Roomy s' a' := h.step hG hs
  obtain ⟨a, ha, h⟩ := simulate_along hsim ls hboot hroom hrun
  have hseen := observe_along MentorRevival.samplesSeen hsim
    (fun l s a h => observe_effects h.refines l) ls hboot hroom hrun
  have hocc := h.refines.occurs
  have hcompleted := completed_host ha ((messages_observe hrun).trans hfed)
  have hdispatched := hocc.dispatched_frames h.not_overwritten
    ⟨[], by rw [List.append_nil, hcompleted]⟩
  obtain ⟨hlen, done, hreplies, _, hout⟩ := answers_of_run ha
  rw [hseen] at hlen hreplies
  rw [State.replies_eq hlen hdispatched] at hreplies
  refine ⟨_, rfl, ?_, fun hrest => ?_⟩
  · rw [← h.refines.sduOut, hout, hreplies, List.flatten_append]
    exact List.prefix_append _ _
  · have hq := h.quiescent hrest
    have hall := hocc.length_dispatched_of_quiescent h.not_overwritten hq
    rw [hcompleted, List.length_map] at hall
    have hpending : a.pending = [] := by simp [MentorRevival.State.pending, hq.event]
    rw [hpending, List.append_nil] at hreplies
    refine ⟨hlen.trans hall, ?_, fun m => ?_⟩
    · rw [← h.refines.sduOut, hout, hreplies]
    · rw [← h.refines.board, hocc.motorOut_eq, hdispatched, hall, List.take_length,
        motorOut_execute, motorOut_motorInit]
      rfl

/-- A `CMD_SET_DUTY` is read while a `CMD_READ_POS` is written. -/
theorem preempted_replies_two :
    ∃ s, run step (.semInit :: .get 254 :: receive ⟨0x32, 0x4E, 0x20, 0⟩ 5 ++
        receive ⟨0x25, 0, 0, 0⟩ 0 ++ .adc (fun _ => 1234) ::
        (List.replicate 5 [.event, .serial]).flatten ++ [.dispatch, .send] ++ turn)
        (init pktInit fun _ => 0) = some s ∧
      s.sduOut = [0x32, 0x4E, 0x20, 0xAE, 0x25, 0x04, 0xD2, 0xAE] ∧
      s.board.motorOut 2 = (execute (motorInit (Board.reset fun _ => 0))
        [Frame.decode ⟨0x32, 0x4E, 0x20, 0⟩, Frame.decode ⟨0x25, 0, 0, 0⟩]).motorOut 2 := by
  have hplace : (run step (.semInit :: .get 254 :: receive ⟨0x32, 0x4E, 0x20, 0⟩ 5 ++
      receive ⟨0x25, 0, 0, 0⟩ 0 ++ .adc (fun _ => 1234) ::
      (List.replicate 5 [.event, .serial]).flatten ++ [.dispatch, .send] ++ turn)
      (init pktInit fun _ => 0)).map
        (fun s => (s.sduOut, s.queuing, s.shared.packetSem, s.eventPc, s.shared.eventPc)) =
      some ([0x32, 0x4E, 0x20, 0xAE, 0x25, 0x04, 0xD2, 0xAE], false, 0, .circRead, .wait) := by
    decide +kernel
  obtain ⟨s, hrun, hs⟩ := Option.map_eq_some_iff.mp hplace
  simp only [Prod.mk.injEq] at hs
  obtain ⟨hout, hserial, hsem, hevent, hwait⟩ := hs
  obtain ⟨_, _, _, hrest⟩ := preempted_replies [254, 0x32, 0x4E, 0x20, 0, 0x25, 0, 0, 0] _ s hrun
    rfl (by decide +kernel)
  exact ⟨s, hrun, hout, (hrest ⟨hserial, hsem, hevent, hwait⟩).2.2 2⟩

end Room

end Runs

end MentorRevival.Preempted
