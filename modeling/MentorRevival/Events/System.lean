import MentorRevival.Events.Handlers
import MentorRevival.Events.Serial
import MentorRevival.Lib.Mailbox
import MentorRevival.Lib.Replay
import MentorRevival.Ring.Circ

/-!
# The event threads

`serialThread` and `eventThread` with the ring and the semaphore between them. Every call of
`circ_write`, `chSemSignal`, `chSemWait` and `circ_read` is one step, and so are a result of
the stream, a pass through the `switch` and a reply; a schedule picks any enabled one. The
state also keeps the history of the run: the packets received, with their positions, those
overwritten in the ring, those delivered by `circ_read`, and those dispatched and answered.

Towards the packets the system is a lossy mailbox, and the rules of that library account for
the semaphore.
-/

namespace MentorRevival

open Transition DropQueue Register

structure Stamped where
  pos : Nat
  packet : Packet
  deriving DecidableEq

/-- `serialThread` in front of the stream, of `circ_write` and of `chSemSignal`. -/
inductive SerialPc
  | get | write | signal
  deriving DecidableEq

/-- `eventThread` in front of `chSemInit`, of `chSemWait`, of `circ_read`, of the `switch` and
of `evt_sendPacket`. -/
inductive EventPc
  | semInit | wait | read | dispatch | send
  deriving DecidableEq

structure State where
  packetBuf : Circ Stamped
  packetSem : Nat
  serial : SerialLocal
  serialPc : SerialPc
  currentPacket : Stamped
  /-- What the last `circ_read` returned; `eventThread` does not look at it. -/
  readCount : Nat
  eventPc : EventPc
  board : Board
  sduOut : List UInt8
  received : List Stamped
  overwritten : List Stamped
  delivered : List Stamped
  emptyReads : Nat
  /-- One entry for each pass through the `switch`. -/
  dispatched : List (Use Stamped)
  answered : List Stamped

inductive Action
  | get (m : Int)
  | write
  | signal
  | semInit
  | wait
  | read
  | dispatch
  | send
  | adc (samples : Nat → UInt16)

/-- The state in which `evt_init` creates the threads, after `motor_init`. The local
`currentPacket` is not initialised. -/
def init (uninitialised : Packet) (samples : Nat → UInt16) : State :=
  { packetBuf := circInit (fun _ => ⟨0, pktInit⟩) PACKET_BUFFER_LEN, packetSem := 0,
    serial := .init, serialPc := .get, currentPacket := ⟨0, uninitialised⟩, readCount := 0,
    eventPc := .semInit, board := motorInit (Board.reset samples), sduOut := [], received := [],
    overwritten := [], delivered := [], emptyReads := 0, dispatched := [], answered := [] }

namespace State

def incoming (s : State) : Stamped := { pos := s.received.length, packet := s.serial.sPacket }

/-- The packets that the next `circ_write` overwrites. -/
def lost (s : State) : List Stamped :=
  if s.packetBuf.isFull then [s.packetBuf.buf s.packetBuf.tail] else []

def afterGet (m : Int) (s : State) : State :=
  let r := serialGet s.serial m
  { s with serial := r.1, serialPc := if r.2 then .write else .get }

def afterWrite (s : State) : State :=
  { s with
    packetBuf := (circWrite s.packetBuf s.incoming).2
    serialPc := .signal
    received := s.received ++ [s.incoming]
    overwritten := s.overwritten ++ s.lost }

def afterSignal (s : State) : State :=
  { s with packetSem := s.packetSem + 1, serial := s.serial.clear, serialPc := .get }

def afterSemInit (s : State) : State := { s with packetSem := 0, eventPc := .wait }

def afterWait (s : State) : State := { s with packetSem := s.packetSem - 1, eventPc := .read }

def afterRead (s : State) : State :=
  let r := circRead s.packetBuf s.currentPacket
  { s with
    packetBuf := r.2.1
    currentPacket := r.2.2
    readCount := r.1
    eventPc := .dispatch
    delivered := s.delivered ++ if r.1 = 0 then [] else [r.2.2]
    emptyReads := s.emptyReads + if r.1 = 0 then 1 else 0 }

def use (s : State) : Use Stamped := { item := s.currentPacket, fresh := s.readCount ≠ 0 }

def afterDispatch (s : State) : State :=
  let r := evtDispatch s.currentPacket.packet s.board
  { s with
    currentPacket := { s.currentPacket with packet := r.1 }
    board := r.2
    eventPc := .send
    dispatched := s.dispatched ++ [s.use] }

def afterSend (s : State) : State :=
  { s with
    sduOut := s.sduOut ++ evtSendPacket s.currentPacket.packet
    eventPc := .wait
    answered := s.answered ++ [s.currentPacket] }

def afterAdc (samples : Nat → UInt16) (s : State) : State :=
  { s with board := { s.board with currentPos := samples } }

end State

/-- `chSemSignal` waits for `chSemInit`: `eventThread` is created first and runs at the
priority of `serialThread`. -/
def step : Action → State → Option State
  | .get m, s => if s.serialPc = .get then some (s.afterGet m) else none
  | .write, s => if s.serialPc = .write then some s.afterWrite else none
  | .signal, s => if s.serialPc = .signal ∧ s.eventPc ≠ .semInit then some s.afterSignal else none
  | .semInit, s => if s.eventPc = .semInit then some s.afterSemInit else none
  | .wait, s => if s.eventPc = .wait ∧ 0 < s.packetSem then some s.afterWait else none
  | .read, s => if s.eventPc = .read then some s.afterRead else none
  | .dispatch, s => if s.eventPc = .dispatch then some s.afterDispatch else none
  | .send, s => if s.eventPc = .send then some s.afterSend else none
  | .adc samples, s => some (s.afterAdc samples)

def Frame.receive (f : Frame) : List Action := f.msgs.map .get ++ [.write, .signal]

def turn : List Action := [.wait, .read, .dispatch, .send]

/-- The states of all runs, whatever the uninitialised packet and the samples are. -/
def Occurs (s : State) : Prop :=
  ∃ uninitialised samples, Reachable step (init uninitialised samples) s

inductive Moves (s : State) : State → Prop
  | get (m : Int) (hpc : s.serialPc = .get) : Moves s (s.afterGet m)
  | write (hpc : s.serialPc = .write) : Moves s s.afterWrite
  | signal (hpc : s.serialPc = .signal) (hready : s.eventPc ≠ .semInit) : Moves s s.afterSignal
  | semInit (hpc : s.eventPc = .semInit) : Moves s s.afterSemInit
  | wait (hpc : s.eventPc = .wait) (htoken : 0 < s.packetSem) : Moves s s.afterWait
  | read (hpc : s.eventPc = .read) : Moves s s.afterRead
  | dispatch (hpc : s.eventPc = .dispatch) : Moves s s.afterDispatch
  | send (hpc : s.eventPc = .send) : Moves s s.afterSend
  | adc (samples : Nat → UInt16) : Moves s (s.afterAdc samples)

theorem enabled_of_some {c : Prop} [Decidable c] {t t' : State}
    (h : (if c then some t else none) = some t') : c ∧ t' = t := by
  obtain ⟨hc, ht⟩ := Option.ite_none_right_eq_some.mp h
  exact ⟨hc, (Option.some.inj ht).symm⟩

theorem moves_of_step {l : Action} {s s' : State} (h : step l s = some s') : Moves s s' := by
  cases l with
  | adc samples =>
    obtain rfl := Option.some.inj h
    exact .adc samples
  | get m =>
    obtain ⟨hpc, rfl⟩ := enabled_of_some h
    exact .get m hpc
  | write =>
    obtain ⟨hpc, rfl⟩ := enabled_of_some h
    exact .write hpc
  | signal =>
    obtain ⟨hpc, rfl⟩ := enabled_of_some h
    exact .signal hpc.1 hpc.2
  | semInit =>
    obtain ⟨hpc, rfl⟩ := enabled_of_some h
    exact .semInit hpc
  | wait =>
    obtain ⟨hpc, rfl⟩ := enabled_of_some h
    exact .wait hpc.1 hpc.2
  | read =>
    obtain ⟨hpc, rfl⟩ := enabled_of_some h
    exact .read hpc
  | dispatch =>
    obtain ⟨hpc, rfl⟩ := enabled_of_some h
    exact .dispatch hpc
  | send =>
    obtain ⟨hpc, rfl⟩ := enabled_of_some h
    exact .send hpc

theorem Occurs.next {l : Action} {s s' : State} (h : Occurs s) (hs : step l s = some s') :
    Occurs s' := by
  obtain ⟨uninitialised, samples, hreach⟩ := h
  exact ⟨uninitialised, samples, hreach.next hs⟩

theorem eq_afterDispatch {s s' : State} (hs : step .dispatch s = some s') :
    s' = s.afterDispatch := (enabled_of_some hs).2

/-- Apart from the samples only a pass through the `switch` acts on the board. -/
theorem step_quiet {l : Action} {s s' : State} (hs : step l s = some s') (hl : l ≠ .dispatch) :
    s'.dispatched = s.dispatched ∧
      s'.board = { s.board with currentPos := s'.board.currentPos } := by
  cases l with
  | dispatch => exact absurd rfl hl
  | adc samples =>
    obtain rfl := Option.some.inj hs
    exact ⟨rfl, rfl⟩
  | _ =>
    obtain ⟨_, rfl⟩ := enabled_of_some hs
    exact ⟨rfl, rfl⟩

theorem Occurs.invariant {I : State → Prop} {s : State} (h : Occurs s)
    (h0 : ∀ uninitialised samples, I (init uninitialised samples))
    (hmoves : ∀ s s', Occurs s → I s → Moves s s' → I s') : I s := by
  obtain ⟨uninitialised, samples, h⟩ := h
  have hoccurs (t : State) (ht : Reachable step (init uninitialised samples) t) : Occurs t :=
    ⟨uninitialised, samples, ht⟩
  apply h.invariant_with hoccurs (h0 uninitialised samples)
  intro l t t' ht hI hl
  exact hmoves t t' ht hI (moves_of_step hl)

section Reception

/-- The results of the stream that a schedule hands to `serialThread`. -/
def messages (ls : List Action) : List Int :=
  ls.filterMap fun
    | .get m => some m
    | _ => none

/-- Where `serialThread` is in its loop once the packet it is queuing is off its hands. -/
def State.serialLocal (s : State) : SerialLocal :=
  if s.serialPc = .get then s.serial else s.serial.clear

/-- The packets completed so far, with the one on its way to the ring. -/
def State.completed (s : State) : List Packet :=
  s.received.map Stamped.packet ++ if s.serialPc = .write then [s.serial.sPacket] else []

private theorem reception_step {l : Action} {s s' : State} (hs : step l s = some s') :
    s'.serialLocal = (serialRun s.serialLocal (messages [l])).1 ∧
      s'.completed = s.completed ++ (serialRun s.serialLocal (messages [l])).2 := by
  cases l with
  | get m =>
    obtain ⟨hpc, rfl⟩ := enabled_of_some hs
    cases hfull : (serialGet s.serial m).2 <;>
      simp [State.serialLocal, State.completed, State.afterGet, messages, serialRun_cons,
        serialStep_eq, hpc, hfull]
  | write =>
    obtain ⟨hpc, rfl⟩ := enabled_of_some hs
    simp [State.serialLocal, State.completed, State.afterWrite, State.incoming, messages, hpc]
  | signal =>
    obtain ⟨hpc, rfl⟩ := enabled_of_some hs
    simp [State.serialLocal, State.completed, State.afterSignal, messages, hpc.1]
  | adc samples =>
    obtain rfl := Option.some.inj hs
    exact ⟨rfl, (List.append_nil _).symm⟩
  | _ =>
    obtain ⟨_, rfl⟩ := enabled_of_some hs
    exact ⟨rfl, (List.append_nil _).symm⟩

/-- In any schedule `serialThread` completes the packets that its loop makes of the results it
was handed, and has queued all of them but one that is on its way. -/
theorem completed_eq (uninitialised : Packet) (samples : Nat → UInt16) (ls : List Action)
    (s : State) (hrun : run step ls (init uninitialised samples) = some s) :
    serialRun .init (messages ls) = (s.serialLocal, s.completed) := by
  have hgeneral : ∀ (ls : List Action) (t : State), run step ls t = some s →
      s.serialLocal = (serialRun t.serialLocal (messages ls)).1 ∧
        s.completed = t.completed ++ (serialRun t.serialLocal (messages ls)).2 := by
    intro ls
    induction ls with
    | nil =>
      intro t ht
      obtain rfl : t = s := by simpa using ht
      exact ⟨rfl, (List.append_nil _).symm⟩
    | cons l ls ih =>
      intro t ht
      obtain ⟨t', ht', hrun⟩ := Option.bind_eq_some_iff.mp ht
      have hstep := reception_step ht'
      have hrest := ih t' hrun
      have hsplit : messages (l :: ls) = messages [l] ++ messages ls := by
        rw [messages, messages, messages, ← List.filterMap_append, List.singleton_append]
      rw [hsplit, serialRun_append]
      rw [hstep.1] at hrest
      exact ⟨hrest.1, by rw [hrest.2, hstep.2, List.append_assoc]⟩
  have hboth := hgeneral ls (init uninitialised samples) hrun
  exact Prod.ext hboth.1.symm hboth.2.symm

/-- The positions are carried along and never looked at: without them the ring holds the packets. -/
theorem packetBuf_erase (s : State) :
    circWrite (s.packetBuf.map Stamped.packet) s.serial.sPacket =
        (1, s.afterWrite.packetBuf.map Stamped.packet) ∧
      circRead (s.packetBuf.map Stamped.packet) s.currentPacket.packet =
        (s.afterRead.readCount, s.afterRead.packetBuf.map Stamped.packet,
          s.afterRead.currentPacket.packet) :=
  ⟨Circ.circWrite_map Stamped.packet s.packetBuf s.incoming,
    Circ.circRead_map Stamped.packet s.packetBuf s.currentPacket⟩

end Reception

structure Sound (s : State) : Prop where
  valid : s.packetBuf.Valid
  size_eq : s.packetBuf.size = PACKET_BUFFER_LEN
  /-- Nothing is signalled before `chSemInit`. -/
  semInit : s.eventPc = .semInit → s.packetSem = 0

theorem sound_init (uninitialised : Packet) (samples : Nat → UInt16) :
    Sound (init uninitialised samples) where
  valid := Circ.valid_circInit _ (by decide)
  size_eq := rfl
  semInit := fun _ => rfl

theorem Sound.step {s s' : State} (h : Sound s) (hs : Moves s s') : Sound s' := by
  cases hs with
  | get m hpc => exact ⟨h.valid, h.size_eq, h.semInit⟩
  | write hpc =>
    refine ⟨Circ.valid_circWrite h.valid _, ?_, h.semInit⟩
    exact (Circ.size_circWrite s.packetBuf s.incoming).trans h.size_eq
  | signal hpc hready => exact ⟨h.valid, h.size_eq, fun hinit => absurd hinit hready⟩
  | semInit hpc => exact ⟨h.valid, h.size_eq, fun _ => rfl⟩
  | wait hpc htoken => exact ⟨h.valid, h.size_eq, fun hinit => by cases hinit⟩
  | read hpc =>
    have hread := Circ.valid_circRead h.valid s.currentPacket
    exact ⟨hread.1, hread.2.trans h.size_eq, fun hinit => by cases hinit⟩
  | dispatch hpc => exact ⟨h.valid, h.size_eq, fun hinit => by cases hinit⟩
  | send hpc => exact ⟨h.valid, h.size_eq, fun hinit => by cases hinit⟩
  | adc samples => exact ⟨h.valid, h.size_eq, h.semInit⟩

theorem Occurs.sound {s : State} (h : Occurs s) : Sound s :=
  h.invariant sound_init fun _ _ _ hI hs => hI.step hs

/-- The mailbox that the two threads use the ring and the semaphore as. -/
def State.mailbox (s : State) : Mailbox.State Stamped :=
  { queue := s.packetBuf.toList
    tokens := s.packetSem
    posting := s.serialPc == .signal
    claimed := s.eventPc == .read
    received := s.received
    dropped := s.overwritten
    delivered := s.delivered
    emptyTakes := s.emptyReads }

abbrev capacity : Nat := PACKET_BUFFER_LEN - 1

theorem Sound.lost_eq {s : State} (h : Sound s) :
    s.lost = overflow capacity s.packetBuf.toList s.incoming := by
  have hsize : 1 < s.packetBuf.size := by
    rw [h.size_eq]
    decide
  have hover := Circ.overflow_circWrite h.valid hsize s.incoming
  rw [h.size_eq] at hover
  exact hover.symm

theorem mailbox_afterWrite {s : State} (h : Sound s) (hpc : s.serialPc = .write) :
    Mailbox.step capacity (.put s.incoming) s.mailbox = some s.afterWrite.mailbox := by
  have hqueue := Circ.toList_circWrite h.valid s.incoming
  rw [h.size_eq] at hqueue
  simp [Mailbox.step, State.mailbox, State.afterWrite, hpc, hqueue, h.lost_eq]

theorem State.afterRead_of_nil {s : State} (h : Sound s) (hq : s.packetBuf.toList = []) :
    s.afterRead =
      { s with readCount := 0, eventPc := .dispatch, emptyReads := s.emptyReads + 1 } := by
  have hread := Circ.circRead_of_nil h.valid hq s.currentPacket
  simp [State.afterRead, hread]

theorem State.afterRead_of_cons {s : State} (h : Sound s) {a : Stamped} {q : List Stamped}
    (hq : s.packetBuf.toList = a :: q) :
    ∃ c, c.toList = q ∧ s.afterRead =
      { s with
        packetBuf := c
        currentPacket := a
        readCount := 1
        eventPc := .dispatch
        delivered := s.delivered ++ [a] } := by
  obtain ⟨c, hread, hrest⟩ := Circ.circRead_of_cons h.valid hq s.currentPacket
  refine ⟨c, hrest, ?_⟩
  simp [State.afterRead, hread]

theorem mailbox_afterRead {s : State} (h : Sound s) (hpc : s.eventPc = .read) :
    Mailbox.step capacity .take s.mailbox = some s.afterRead.mailbox := by
  cases hq : s.packetBuf.toList with
  | nil =>
    rw [State.afterRead_of_nil h hq]
    simp [Mailbox.step, Mailbox.State.takeFirst, State.mailbox, hpc, hq]
  | cons a q =>
    obtain ⟨c, hrest, hread⟩ := State.afterRead_of_cons h hq
    rw [hread]
    simp [Mailbox.step, Mailbox.State.takeFirst, State.mailbox, hpc, hq, hrest]

/-- Every move is an operation of the mailbox or invisible to it. -/
theorem mailbox_moves {s s' : State} (h : Sound s) (hs : Moves s s') :
    s'.mailbox = s.mailbox ∨ ∃ op, Mailbox.step capacity op s.mailbox = some s'.mailbox := by
  cases hs with
  | get m hpc =>
    left
    simp only [State.mailbox, State.afterGet, hpc]
    split <;> rfl
  | write hpc => exact Or.inr ⟨_, mailbox_afterWrite h hpc⟩
  | signal hpc hready =>
    right
    refine ⟨.post, ?_⟩
    simp [Mailbox.step, State.mailbox, State.afterSignal, hpc]
  | semInit hpc =>
    left
    simp [State.mailbox, State.afterSemInit, hpc, h.semInit hpc]
  | wait hpc htoken =>
    right
    refine ⟨.acquire, ?_⟩
    simp [Mailbox.step, State.mailbox, State.afterWait, hpc, htoken]
  | read hpc => exact Or.inr ⟨_, mailbox_afterRead h hpc⟩
  | dispatch hpc =>
    left
    simp [State.mailbox, State.afterDispatch, hpc]
  | send hpc =>
    left
    simp [State.mailbox, State.afterSend, hpc]
  | adc samples => exact Or.inl rfl

theorem mailbox_init (uninitialised : Packet) (samples : Nat → UInt16) :
    (init uninitialised samples).mailbox = Mailbox.State.empty := by
  have hempty : (circInit (fun _ => (⟨0, pktInit⟩ : Stamped)) PACKET_BUFFER_LEN).toList = [] :=
    Circ.toList_circInit _ _
  simp [State.mailbox, init, hempty, Mailbox.State.empty]

theorem Occurs.mailbox_reachable {s : State} (h : Occurs s) :
    Reachable (Mailbox.step capacity) Mailbox.State.empty s.mailbox := by
  obtain ⟨uninitialised, samples, hreach⟩ := h
  rw [← mailbox_init uninitialised samples]
  apply hreach.simulate State.mailbox
  · exact fun t ht => Occurs.sound ⟨uninitialised, samples, ht⟩
  · exact fun l t t' ht hl => mailbox_moves ht (moves_of_step hl)

theorem Occurs.accounted {s : State} (h : Occurs s) : Mailbox.Accounted capacity s.mailbox :=
  Mailbox.accounted_of_reachable (by decide) h.mailbox_reachable

theorem Occurs.recent {s : State} (h : Occurs s) : Mailbox.Recent capacity s.mailbox :=
  Mailbox.recent_of_reachable (by decide) h.mailbox_reachable

private theorem toNat_beq {α : Type*} [DecidableEq α] (a b : α) :
    (a == b).toNat = if a = b then 1 else 0 := by
  by_cases h : a = b <;> simp [h]

/-- The semaphore counts the queued packets and the overwritten ones, less the reads that came
back empty and less what is under way in the threads. When it is 0 and both threads are
between their calls the ring is empty, and there were as many empty reads as overwritten
packets. -/
theorem semaphore_accounting (s : State) (h : Occurs s) :
    (s.packetSem : Int) = s.packetBuf.toList.length + s.overwritten.length - s.emptyReads -
        (if s.serialPc = .signal then 1 else 0) - (if s.eventPc = .read then 1 else 0) ∧
      s.emptyReads ≤ s.overwritten.length ∧
      (s.packetSem = 0 → s.eventPc = .wait → s.serialPc ≠ .signal →
        s.packetBuf.toList = [] ∧ s.emptyReads = s.overwritten.length) := by
  have haccounted := h.accounted
  refine ⟨?_, haccounted.emptyTakes_le, ?_⟩
  · have htokens := haccounted.tokens_eq
    simp only [State.mailbox, toNat_beq] at htokens
    split_ifs at htokens ⊢ <;> omega
  · intro hsem hwait hsignal
    apply haccounted.at_rest
    · exact hsem
    · simp [State.mailbox, hsignal]
    · simp [State.mailbox, hwait]

/-- Five frames received before `eventThread` runs: one packet is overwritten, and its token
is still there. -/
theorem semaphore_accounting_burst :
    ∃ s, run step (.semInit :: (List.replicate 5 (Frame.receive ⟨0x10, 0, 0, 0⟩)).flatten)
        (init pktInit fun _ => 0) = some s ∧
      s.packetBuf.toList.length = 4 ∧ s.overwritten.length = 1 ∧
      (s.packetSem : Int) = s.packetBuf.toList.length + s.overwritten.length - s.emptyReads -
        (if s.serialPc = .signal then 1 else 0) - (if s.eventPc = .read then 1 else 0) := by
  refine ⟨_, rfl, rfl, rfl, ?_⟩
  have hocc : Occurs _ := ⟨pktInit, fun _ => 0,
    .semInit :: (List.replicate 5 (Frame.receive ⟨0x10, 0, 0, 0⟩)).flatten, rfl⟩
  exact (semaphore_accounting _ hocc).1

end MentorRevival
