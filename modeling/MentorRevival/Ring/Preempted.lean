import MentorRevival.Lib.Mailbox
import MentorRevival.Ring.Race

/-!
# The circular buffer as a mailbox under preemption

The threads of `Ring.Race` together with the packets they copy. Statement by statement the ring
and the semaphore are the mailbox that atomic calls make of them, provided that no `circ_read`
overlaps with a `circ_write` that found the ring full, and that none tests an empty ring while
`head` waits to be wrapped. Both are met in every run in which the ring never fills up.
-/

namespace MentorRevival

namespace CircIdx

/-- The indices once the wrap tests that are due have been made. -/
def settled (i : CircIdx) : CircIdx := i.wrapTail.wrapHead

variable {i : CircIdx}

@[simp] theorem wrapTail_size : i.wrapTail.size = i.size := by
  unfold wrapTail
  split <;> rfl

@[simp] theorem wrapTail_head : i.wrapTail.head = i.head := by
  unfold wrapTail
  split <;> rfl

@[simp] theorem wrapHead_size : i.wrapHead.size = i.size := by
  unfold wrapHead
  split <;> rfl

@[simp] theorem wrapHead_tail : i.wrapHead.tail = i.tail := by
  unfold wrapHead
  split <;> rfl

theorem wrapTail_of_lt (h : i.tail < i.size) : i.wrapTail = i :=
  if_neg (by simpa using Nat.ne_of_lt h)

theorem wrapHead_of_lt (h : i.head < i.size) : i.wrapHead = i :=
  if_neg (by simpa using Nat.ne_of_lt h)

@[simp] theorem settled_size : i.settled.size = i.size := by simp [settled]

theorem settled_head (hhead : i.head < i.size) : i.settled.head = i.head := by
  rw [settled, wrapHead_of_lt (by simpa using hhead), wrapTail_head]

theorem settled_tail (htail : i.tail < i.size) : i.settled.tail = i.tail := by
  rw [settled, wrapHead_tail, wrapTail_of_lt htail]

theorem settled_valid (hpos : 0 < i.size) (hhead : i.head ≤ i.size) (htail : i.tail ≤ i.size) :
    i.settled.Valid := by
  constructor
  · rcases Nat.lt_or_eq_of_le hhead with hlt | heq
    · rwa [settled_size, settled_head hlt]
    · simpa [settled, wrapHead, heq] using hpos
  · rcases Nat.lt_or_eq_of_le htail with hlt | heq
    · rwa [settled_size, settled_tail hlt]
    · simpa [settled, wrapTail, heq] using hpos

theorem settled_wrapTail : i.wrapTail.settled = i.settled := by
  unfold settled wrapTail
  split_ifs <;> simp_all

theorem settled_wrapHead : i.wrapHead.settled = i.settled := by
  unfold settled wrapTail wrapHead
  split_ifs <;> simp_all

theorem settled_incHead (hhead : i.head < i.size) :
    i.incHead.settled = i.settled.incHead.wrapHead := by
  unfold settled incHead wrapTail wrapHead
  split_ifs <;> simp_all

theorem settled_incTail (htail : i.tail < i.size) :
    i.incTail.settled = i.settled.incTail.wrapTail := by
  unfold settled incTail wrapTail wrapHead
  split_ifs <;> simp_all

/-- The fullness test cannot tell whether `tail` has been wrapped already. -/
theorem isFull_settled (hhead : i.head < i.size) (htail : i.tail ≤ i.size) :
    i.settled.isFull = i.isFull := by
  rcases Nat.lt_or_eq_of_le htail with hlt | heq
  · rw [settled, wrapTail_of_lt hlt, wrapHead_of_lt hhead]
  · have hwrap : i.wrapTail = { i with tail := 0 } := if_pos (by simpa using heq)
    have hne : i.size ≠ 0 := by omega
    rw [settled, wrapHead_of_lt (by simpa using hhead), hwrap]
    simp [isFull, heq, hne]

end CircIdx

namespace Race

open Transition DropQueue

variable {α : Type*}

/-- The threads of `State` with the packets they move. -/
structure DataState (α : Type*) extends State where
  buf : Nat → α
  /-- The packets that `serialThread` is done with. -/
  signalled : Nat
  /-- What the fullness test of the call of `circ_write` under way found. -/
  overwriting : Bool
  currentPacket : α
  overwritten : List α
  delivered : List α
  emptyReads : Nat

def dataBoot (buf : Nat → α) (uninitialised : α) : DataState α :=
  { toState := boot, buf := buf, signalled := 0, overwriting := false,
    currentPacket := uninitialised, overwritten := [], delivered := [], emptyReads := 0 }

section Steps

variable (stream : Nat → α)

/-- `serialThread` queues the packets of a stream one after the other. -/
def dataSerialStep (s : DataState α) : DataState α :=
  let s' := { s with toState := serialStep s.toState }
  match s.serialPc with
  | .fullTest => { s' with overwriting := s.isFull }
  | .incTail => { s' with overwritten := s.overwritten ++ [s.buf s.tail] }
  | .copy => { s' with buf := Function.update s.buf s.head (stream s.signalled) }
  | .incHead => { s' with overwriting := false }
  | .signal => { s' with signalled := s.signalled + 1 }
  | .wrapTail | .wrapHead => s'

def dataEventStep (s : DataState α) : Option (DataState α) :=
  (eventStep s.toState).map fun next =>
    let s' := { s with toState := next }
    match s.eventPc with
    | .emptyTest => { s' with emptyReads := s.emptyReads + if s.tail = s.head then 1 else 0 }
    | .copy => { s' with currentPacket := s.buf s.tail }
    | .incTail => { s' with delivered := s.delivered ++ [s.currentPacket] }
    | .wait | .wrapTail => s'

def dataStep : Thread → DataState α → Option (DataState α)
  | .serial, s => some (dataSerialStep stream s)
  | .event, s => dataEventStep s

/-- No `circ_read` overlaps with a `circ_write` that found the ring full, and none tests an
empty ring between `head++` and its wrap test. -/
def Apart (t : Thread) (s : DataState α) : Prop :=
  match t with
  | .serial =>
    s.serialPc = .fullTest → s.isFull = true → s.eventPc = .wait ∨ s.eventPc = .emptyTest
  | .event =>
    s.eventPc = .emptyTest → s.overwriting = false ∧ ¬ (s.head = s.size ∧ s.tail = 0)

def TestsRoom (t : Thread) (s : DataState α) : Prop :=
  match t with
  | .serial => s.serialPc = .fullTest → s.isFull = false
  | .event => True

instance (t : Thread) (s : DataState α) : Decidable (Apart t s) :=
  match t with
  | .serial => inferInstanceAs (Decidable (_ → _ → _ ∨ _))
  | .event => inferInstanceAs (Decidable (_ → _ ∧ ¬ _))

instance (t : Thread) (s : DataState α) : Decidable (TestsRoom t s) :=
  match t with
  | .serial => inferInstanceAs (Decidable (_ → _))
  | .event => isTrue trivial

namespace DataState

def ring (s : DataState α) : Circ α := { toCircIdx := s.settled, buf := s.buf }

/-- A `circ_write` that overwrites counts as done when it has given up the oldest slot, any
other one when it has moved `head`. -/
def posting (s : DataState α) : Bool :=
  s.serialPc = .wrapHead ∨ s.serialPc = .signal ∨ s.overwriting ∧ s.serialPc ≠ .incTail

def claimed (s : DataState α) : Bool :=
  s.eventPc = .emptyTest ∨ s.eventPc = .copy ∨ s.eventPc = .incTail

def mailbox (s : DataState α) : Mailbox.State α :=
  { queue := s.ring.toList ++
      if s.overwriting ∧ s.serialPc ≠ .incTail then [stream s.signalled] else []
    tokens := s.packetSem
    posting := s.posting
    claimed := s.claimed
    received := (List.range (s.signalled + s.posting.toNat)).map stream
    dropped := s.overwritten
    delivered := s.delivered
    emptyTakes := s.emptyReads }

end DataState

/-- Without the packets the steps are those of `Ring.Race`. -/
theorem step_of_dataStep {t : Thread} {s s' : DataState α} (h : dataStep stream t s = some s') :
    step t s.toState = some s'.toState := by
  cases t with
  | serial =>
    obtain rfl := Option.some.inj h
    simp only [step, dataSerialStep]
    split <;> rfl
  | event =>
    obtain ⟨next, hnext, rfl⟩ := Option.map_eq_some_iff.mp h
    simp only [step, hnext]
    split <;> rfl

end Steps

section Assertions

variable {stream : Nat → α}

/-- What `serialThread` relies on in front of each statement. -/
def SerialAt (stream : Nat → α) (s : DataState α) : Prop :=
  match s.serialPc with
  | .fullTest | .wrapHead | .signal => s.overwriting = false
  | .incTail => s.overwriting = true ∧ s.ring.count + 1 = s.size
  | .wrapTail => s.overwriting = true ∧ s.ring.count + 1 < s.size
  | .copy => s.ring.count + 1 < s.size
  | .incHead => s.ring.count + 1 < s.size ∧ s.buf s.head = stream s.signalled

/-- What `eventThread` relies on in front of each statement. -/
def EventAt (s : DataState α) : Prop :=
  match s.eventPc with
  | .wait | .emptyTest => True
  | .copy => s.overwriting = false ∧ s.ring.toList ≠ []
  | .incTail => s.overwriting = false ∧ s.ring.toList ≠ [] ∧ s.currentPacket = s.buf s.tail
  | .wrapTail => s.overwriting = false

structure Linear (stream : Nat → α) (s : DataState α) : Prop where
  inv : Inv s.toState
  size_eq : s.size = PACKET_BUFFER_LEN
  serialAt : SerialAt stream s
  eventAt : EventAt s

theorem Linear.boot (stream buf : Nat → α) (uninitialised : α) :
    Linear stream (dataBoot buf uninitialised) :=
  ⟨Inv.boot, rfl, rfl, trivial⟩

theorem eventAt_outside {s : DataState α} (h : s.eventPc = .wait ∨ s.eventPc = .emptyTest) :
    EventAt s := by
  rcases h with hpc | hpc <;> simp [EventAt, hpc]

/-- `serialThread` does not interfere as long as it leaves a packet in the ring, in its slot. -/
theorem EventAt.keep {s s' : DataState α} (h : EventAt s) (hpc : s'.eventPc = s.eventPc)
    (ho : s'.overwriting = s.overwriting) (hcurrent : s'.currentPacket = s.currentPacket)
    (hqueue : s.ring.toList ≠ [] → s'.ring.toList ≠ [])
    (hslot : s.ring.toList ≠ [] → s.eventPc = .incTail → s'.buf s'.tail = s.buf s.tail) :
    EventAt s' := by
  unfold EventAt at h ⊢
  rw [hpc, ho, hcurrent]
  cases hevent : s.eventPc with
  | wait => trivial
  | emptyTest => trivial
  | copy =>
    rw [hevent] at h
    exact ⟨h.1, hqueue h.2⟩
  | incTail =>
    rw [hevent] at h
    exact ⟨h.1, hqueue h.2.1, h.2.2.trans (hslot h.2.1 hevent).symm⟩
  | wrapTail =>
    rw [hevent] at h
    exact h

/-- `eventThread` does not interfere: it takes packets from the ring only, and none while the
ring is being overwritten. -/
theorem SerialAt.keep {s s' : DataState α} (h : SerialAt stream s)
    (hpc : s'.serialPc = s.serialPc) (ho : s'.overwriting = s.overwriting)
    (hsize : s'.size = s.size) (hhead : s'.head = s.head) (hbuf : s'.buf = s.buf)
    (hsignalled : s'.signalled = s.signalled) (hle : s'.ring.count ≤ s.ring.count)
    (heq : s.overwriting = true → s'.ring.count = s.ring.count) : SerialAt stream s' := by
  unfold SerialAt at h ⊢
  rw [hpc, ho, hsize, hhead, hbuf, hsignalled]
  cases hserial : s.serialPc with
  | incTail =>
    rw [hserial] at h
    exact ⟨h.1, by rw [heq h.1]; exact h.2⟩
  | wrapTail =>
    rw [hserial] at h
    exact ⟨h.1, by rw [heq h.1]; exact h.2⟩
  | copy =>
    rw [hserial] at h
    exact Nat.lt_of_le_of_lt (Nat.succ_le_succ hle) h
  | incHead =>
    rw [hserial] at h
    exact ⟨Nat.lt_of_le_of_lt (Nat.succ_le_succ hle) h.1, h.2⟩
  | _ =>
    rw [hserial] at h
    exact h

namespace Linear

variable {s : DataState α}

/-- The packet to be written matters only between its copy and `head++`. -/
theorem of_stream (h : Linear stream s) (hpc : s.serialPc ≠ .incHead) (stream' : Nat → α) :
    Linear stream' s := by
  have hserial := h.serialAt
  refine ⟨h.inv, h.size_eq, ?_, h.eventAt⟩
  unfold SerialAt at hserial ⊢
  cases heq : s.serialPc with
  | incHead => exact absurd heq hpc
  | _ =>
    rw [heq] at hserial
    exact hserial

/-- Between two reads `eventThread` may do what it likes with its packet. -/
theorem of_currentPacket (h : Linear stream s) (hpc : s.eventPc = .wait) (a : α) :
    Linear stream { s with currentPacket := a } :=
  ⟨h.inv, h.size_eq, h.serialAt, eventAt_outside (Or.inl hpc)⟩

theorem valid (h : Linear stream s) : s.ring.Valid :=
  CircIdx.settled_valid h.inv.size_pos h.inv.head_le h.inv.tail_le

/-- `serialThread` is alone in the ring while it overwrites. -/
theorem alone (h : Linear stream s) (ho : s.overwriting = true) :
    s.eventPc = .wait ∨ s.eventPc = .emptyTest := by
  have hevent := h.eventAt
  unfold EventAt at hevent
  cases hpc : s.eventPc with
  | wait => exact Or.inl rfl
  | emptyTest => exact Or.inr rfl
  | _ => simp [hpc, ho] at hevent

theorem overwriting (h : Linear stream s)
    (hpc : s.serialPc = .incTail ∨ s.serialPc = .wrapTail) : s.overwriting = true := by
  have hserial := h.serialAt
  unfold SerialAt at hserial
  rcases hpc with hpc | hpc <;> rw [hpc] at hserial <;> exact hserial.1

theorem tail_lt (h : Linear stream s) (hserial : s.serialPc ≠ .wrapTail)
    (hevent : s.eventPc ≠ .wrapTail) : s.tail < s.size := by
  refine Nat.lt_of_le_of_ne h.inv.tail_le fun heq => ?_
  exact (h.inv.tail_wrap heq).elim hserial hevent

theorem tail_lt_of_reading (h : Linear stream s) (ho : s.overwriting = false)
    (hevent : s.eventPc ≠ .wrapTail) : s.tail < s.size := by
  refine h.tail_lt (fun hpc => ?_) hevent
  simp [h.overwriting (Or.inr hpc)] at ho

theorem unhurried (h : Linear stream s) (t : Thread) : Unhurried t s.toState := by
  rintro huse ⟨hpc, -⟩
  cases t with
  | serial =>
    simp only [UsesTail] at huse
    have hwait := h.alone (h.overwriting (Or.inl huse))
    rcases hpc with hpc | hpc
    · simp [huse] at hpc
    · simp [hpc] at hwait
  | event =>
    rcases hpc with hpc | hpc
    · have hwait := h.alone (h.overwriting (Or.inr hpc))
      rcases huse with huse | huse <;> simp [huse] at hwait
    · rcases huse with huse | huse <;> simp [huse] at hpc

theorem inv_step (h : Linear stream s) {t : Thread} {s' : DataState α}
    (hs : dataStep stream t s = some s') : Inv s'.toState :=
  h.inv.step (h.unhurried t) (step_of_dataStep stream hs)

end Linear

section Rings

variable {s d : DataState α}

theorem ring_wrapTail (hidx : d.toCircIdx = s.wrapTail) (hbuf : d.buf = s.buf) :
    d.ring = s.ring := by
  simp only [DataState.ring, hidx, hbuf, CircIdx.settled_wrapTail]

theorem ring_wrapHead (hidx : d.toCircIdx = s.wrapHead) (hbuf : d.buf = s.buf) :
    d.ring = s.ring := by
  simp only [DataState.ring, hidx, hbuf, CircIdx.settled_wrapHead]

theorem ring_incTail (htail : s.tail < s.size) (hidx : d.toCircIdx = s.incTail)
    (hbuf : d.buf = s.buf) :
    d.ring = { s.ring with toCircIdx := s.ring.incTail.wrapTail } := by
  simp only [DataState.ring, hidx, hbuf, CircIdx.settled_incTail htail]

theorem ring_incHead (hhead : s.head < s.size) (hidx : d.toCircIdx = s.incHead)
    (hbuf : d.buf = s.buf) :
    d.ring = { s.ring with toCircIdx := s.ring.incHead.wrapHead } := by
  simp only [DataState.ring, hidx, hbuf, CircIdx.settled_incHead hhead]

/-- Moving `tail` takes the first packet from the ring. -/
theorem toList_incTail (h : Linear stream s) (htail : s.tail < s.size)
    (hqueue : s.ring.toList ≠ []) (hidx : d.toCircIdx = s.incTail) (hbuf : d.buf = s.buf) :
    s.ring.toList = s.buf s.tail :: d.ring.toList ∧ s.ring.count = d.ring.count + 1 := by
  have hne := mt (Circ.toList_eq_nil_iff h.valid).mpr hqueue
  have hslot : s.ring.buf s.ring.tail = s.buf s.tail :=
    congrArg s.buf (CircIdx.settled_tail htail)
  rw [ring_incTail htail hidx hbuf, ← hslot]
  exact ⟨Circ.toList_cons h.valid hne, h.valid.count_advanceTail hne⟩

theorem isFull_iff (h : Linear stream s) (hhead : s.head < s.size) :
    s.isFull = true ↔ s.ring.count + 1 = s.size := by
  have hfull : s.ring.isFull = s.isFull := CircIdx.isFull_settled hhead h.inv.tail_le
  have hsize : s.ring.size = s.size := CircIdx.settled_size
  rw [← hfull, ← hsize]
  exact h.valid.isFull_iff

theorem emptyTest_iff (h : Linear stream s) (htail : s.tail < s.size)
    (hwrap : ¬ (s.head = s.size ∧ s.tail = 0)) : s.ring.toList = [] ↔ s.tail = s.head := by
  have hring : s.ring.tail = s.tail := CircIdx.settled_tail htail
  rw [Circ.toList_eq_nil_iff h.valid, hring]
  rcases Nat.lt_or_eq_of_le h.inv.head_le with hlt | heq
  · have hhead : s.ring.head = s.head := CircIdx.settled_head hlt
    rw [hhead]
  · have hzero : s.ring.head = 0 := by
      change s.wrapTail.wrapHead.head = 0
      rw [CircIdx.wrapTail_of_lt htail]
      simp [CircIdx.wrapHead, heq]
    have hne : s.tail ≠ 0 := fun h0 => hwrap ⟨heq, h0⟩
    rw [hzero]
    omega

end Rings

/-- The operation of the mailbox that takes effect at a statement. A `circ_write` does so where
it gives up the oldest slot, or else moves `head`; a `circ_read` where it moves `tail`, or else
finds the ring empty. -/
def effects (stream : Nat → α) (t : Thread) (s : DataState α) : List (Mailbox.Op α) :=
  match t with
  | .serial =>
    match s.serialPc with
    | .incTail => [.put (stream s.signalled)]
    | .incHead => if s.overwriting then [] else [.put (stream s.signalled)]
    | .signal => [.post]
    | .fullTest | .wrapTail | .copy | .wrapHead => []
  | .event =>
    match s.eventPc with
    | .wait => [.acquire]
    | .emptyTest => if s.tail = s.head then [.take] else []
    | .incTail => [.take]
    | .copy | .wrapTail => []

def Simulates (stream : Nat → α) (t : Thread) (s s' : DataState α) : Prop :=
  run (Mailbox.step (PACKET_BUFFER_LEN - 1)) (effects stream t s) (s.mailbox stream) =
    some (s'.mailbox stream)

theorem effects_serial (stream : Nat → α) {s : DataState α} (hpc : s.serialPc ≠ .signal) :
    effects stream .serial s = [] ∨ effects stream .serial s = [.put (stream s.signalled)] := by
  unfold effects
  cases heq : s.serialPc with
  | signal => exact absurd heq hpc
  | incTail => exact Or.inr rfl
  | incHead =>
    cases ho : s.overwriting
    · exact Or.inr (by simp)
    · exact Or.inl (by simp)
  | _ => exact Or.inl rfl

/-- What `serialThread` leaves alone. -/
theorem dataSerialStep_event (stream : Nat → α) (s : DataState α) :
    (dataSerialStep stream s).eventPc = s.eventPc ∧
      (dataSerialStep stream s).currentPacket = s.currentPacket := by
  unfold dataSerialStep serialStep
  cases s.serialPc <;> exact ⟨rfl, rfl⟩

theorem dataSerialStep_signalled (stream : Nat → α) {s : DataState α}
    (hpc : s.serialPc ≠ .signal) :
    (dataSerialStep stream s).signalled = s.signalled := by
  unfold dataSerialStep
  cases heq : s.serialPc with
  | signal => exact absurd heq hpc
  | _ => rfl

/-- What `eventThread` leaves alone. -/
theorem dataEventStep_serial {s s' : DataState α} (hs : dataEventStep s = some s') :
    s'.serialPc = s.serialPc ∧ s'.signalled = s.signalled := by
  obtain ⟨next, hnext, rfl⟩ := Option.map_eq_some_iff.mp hs
  have hserial : next.serialPc = s.serialPc := by
    unfold eventStep at hnext
    cases hpc : s.eventPc with
    | wait =>
      simp only [hpc] at hnext
      obtain ⟨_, hnext⟩ := Option.ite_none_right_eq_some.mp hnext
      rw [← Option.some.inj hnext]
    | _ =>
      simp only [hpc] at hnext
      rw [← Option.some.inj hnext]
  cases s.eventPc <;> exact ⟨hserial, rfl⟩

theorem simulates_iff_of_nil {t : Thread} {s s' : DataState α}
    (heffects : effects stream t s = []) :
    Simulates stream t s s' ↔ s'.mailbox stream = s.mailbox stream := by
  rw [Simulates, heffects, run_nil, Option.some_inj, eq_comm]

theorem simulates_iff_of_single {t : Thread} {s s' : DataState α} (op : Mailbox.Op α)
    (heffects : effects stream t s = [op]) :
    Simulates stream t s s' ↔
      Mailbox.step (PACKET_BUFFER_LEN - 1) op (s.mailbox stream) = some (s'.mailbox stream) := by
  rw [Simulates, heffects, run_singleton]

section Serial

variable {s : DataState α}

private theorem linear_fullTest (h : Linear stream s) (hG : Apart .serial s)
    (hpc : s.serialPc = .fullTest) :
    Linear stream (dataSerialStep stream s) ∧
      Simulates stream .serial s (dataSerialStep stream s) := by
  have hinv := h.inv_step (t := .serial) rfl
  have ho := h.serialAt
  simp only [SerialAt, hpc] at ho
  have hfull := isFull_iff h (h.inv.head_lt (by simp [hpc]))
  have hlt := h.valid.count_lt
  have hsize : s.ring.size = s.size := CircIdx.settled_size
  cases hf : s.isFull with
  | true =>
    have hstep : dataSerialStep stream s =
        { s with serialPc := .incTail, overwriting := true } := by
      simp [dataSerialStep, serialStep, hpc, hf]
    rw [hstep] at hinv ⊢
    refine ⟨⟨hinv, h.size_eq, ⟨rfl, hfull.mp hf⟩, eventAt_outside (hG hpc hf)⟩,
      (simulates_iff_of_nil (by simp [effects, hpc])).mpr ?_⟩
    simp [DataState.mailbox, DataState.posting, DataState.claimed, DataState.ring, hpc, ho]
  | false =>
    have hstep : dataSerialStep stream s = { s with serialPc := .copy, overwriting := false } := by
      simp [dataSerialStep, serialStep, hpc, hf]
    have hroom : s.ring.count + 1 ≠ s.size := fun heq => by simp [hfull.mpr heq] at hf
    rw [hstep] at hinv ⊢
    refine ⟨⟨hinv, h.size_eq, ?_, h.eventAt.keep rfl ho.symm rfl id fun _ _ => rfl⟩,
      (simulates_iff_of_nil (by simp [effects, hpc])).mpr ?_⟩
    · change s.ring.count + 1 < s.size
      omega
    · simp [DataState.mailbox, DataState.posting, DataState.claimed, DataState.ring, hpc, ho]

/-- Giving up the oldest slot is what puts the new packet into the mailbox. -/
private theorem linear_serial_incTail (h : Linear stream s) (hpc : s.serialPc = .incTail) :
    Linear stream (dataSerialStep stream s) ∧
      Simulates stream .serial s (dataSerialStep stream s) := by
  have hinv := h.inv_step (t := .serial) rfl
  have hserial := h.serialAt
  simp only [SerialAt, hpc] at hserial
  rcases hserial with ⟨ho, hcount⟩
  have hwait := h.alone ho
  have hstep : dataSerialStep stream s = { s with
      toState := { s.toState with toCircIdx := s.incTail, serialPc := .wrapTail }
      overwriting := true
      overwritten := s.overwritten ++ [s.buf s.tail] } := by
    simp [dataSerialStep, serialStep, hpc, ho]
  have hcap : s.ring.toList.length = PACKET_BUFFER_LEN - 1 := by
    rw [Circ.length_toList]
    have := h.size_eq
    omega
  have htail := h.tail_lt (by simp [hpc]) (by rcases hwait with hw | hw <;> simp [hw])
  obtain ⟨hcons, hless⟩ := toList_incTail (d := { s with
      toState := { s.toState with toCircIdx := s.incTail, serialPc := .wrapTail }
      overwriting := true
      overwritten := s.overwritten ++ [s.buf s.tail] }) h htail
    (fun hnil => by rw [hnil] at hcap; cases hcap) rfl rfl
  rw [hstep] at hinv ⊢
  refine ⟨⟨hinv, h.size_eq, ⟨rfl, ?_⟩, eventAt_outside hwait⟩,
    (simulates_iff_of_single (.put (stream s.signalled)) (by simp [effects, hpc])).mpr ?_⟩
  · rw [← hless]
    exact Nat.lt_of_succ_le hcount.le
  · have hpush := push_of_full hcap (stream s.signalled)
    have hover := overflow_of_full hcap (stream s.signalled)
    rw [hcons] at hpush hover
    simp only [Mailbox.step, DataState.mailbox, DataState.posting, DataState.claimed, hcons]
    simp [hpc, ho, hpush, hover, List.range_succ]

private theorem linear_serial_wrapTail (h : Linear stream s) (hpc : s.serialPc = .wrapTail) :
    Linear stream (dataSerialStep stream s) ∧
      Simulates stream .serial s (dataSerialStep stream s) := by
  have hinv := h.inv_step (t := .serial) rfl
  have hserial := h.serialAt
  simp only [SerialAt, hpc] at hserial
  rcases hserial with ⟨ho, hroom⟩
  have hstep : dataSerialStep stream s =
      { s with toState := { s.toState with toCircIdx := s.wrapTail, serialPc := .copy } } := by
    simp [dataSerialStep, serialStep, hpc]
  have hring := ring_wrapTail (s := s) (d := { s with
    toState := { s.toState with toCircIdx := s.wrapTail, serialPc := .copy } }) rfl rfl
  rw [hstep] at hinv ⊢
  refine ⟨⟨hinv, CircIdx.wrapTail_size.trans h.size_eq, ?_, eventAt_outside (h.alone ho)⟩,
    (simulates_iff_of_nil (by simp [effects, hpc])).mpr ?_⟩
  · simp only [SerialAt, hring, CircIdx.wrapTail_size]
    exact hroom
  · simp only [DataState.mailbox, DataState.posting, DataState.claimed, hring]
    simp [hpc, ho]

private theorem linear_serial_copy (h : Linear stream s) (hpc : s.serialPc = .copy) :
    Linear stream (dataSerialStep stream s) ∧
      Simulates stream .serial s (dataSerialStep stream s) := by
  have hinv := h.inv_step (t := .serial) rfl
  have hroom := h.serialAt
  simp only [SerialAt, hpc] at hroom
  have hhead := h.inv.head_lt (by simp [hpc])
  have hslot : s.ring.head = s.head := CircIdx.settled_head hhead
  have hstep : dataSerialStep stream s = { s with
      serialPc := .incHead
      touched := s.touched ++ [s.head]
      buf := Function.update s.buf s.head (stream s.signalled) } := by
    simp [dataSerialStep, serialStep, hpc]
  have hlist : (DataState.ring { s with
      serialPc := .incHead
      touched := s.touched ++ [s.head]
      buf := Function.update s.buf s.head (stream s.signalled) }).toList = s.ring.toList := by
    have hkeep := Circ.toList_update_head h.valid (stream s.signalled)
    rwa [hslot] at hkeep
  rw [hstep] at hinv ⊢
  refine ⟨⟨hinv, h.size_eq, ⟨hroom, Function.update_self ..⟩, ?_⟩,
    (simulates_iff_of_nil (by simp [effects, hpc])).mpr ?_⟩
  · refine h.eventAt.keep rfl rfl rfl (fun hne => by rwa [hlist]) fun hne hevent => ?_
    -- the slot that is filled is not the one that has been read
    have htail := h.tail_lt (by simp [hpc]) (by simp [hevent])
    have hdistinct := mt (Circ.toList_eq_nil_iff h.valid).mpr hne
    have hread : s.ring.tail = s.tail := CircIdx.settled_tail htail
    rw [hslot, hread] at hdistinct
    exact Function.update_of_ne hdistinct ..
  · simp [DataState.mailbox, DataState.posting, DataState.claimed, hlist, hpc]

private theorem linear_incHead (h : Linear stream s) (hpc : s.serialPc = .incHead) :
    Linear stream (dataSerialStep stream s) ∧
      Simulates stream .serial s (dataSerialStep stream s) := by
  have hinv := h.inv_step (t := .serial) rfl
  have hserial := h.serialAt
  simp only [SerialAt, hpc] at hserial
  rcases hserial with ⟨hroom, hwritten⟩
  have hhead := h.inv.head_lt (by simp [hpc])
  have hsize : s.ring.size = s.size := CircIdx.settled_size
  have hslot : s.ring.buf s.ring.head = s.buf s.head :=
    congrArg s.buf (CircIdx.settled_head hhead)
  have hstep : dataSerialStep stream s = { s with
      toState := { s.toState with toCircIdx := s.incHead, serialPc := .wrapHead }
      overwriting := false } := by
    simp [dataSerialStep, serialStep, hpc]
  have hring := ring_incHead (d := { s with
      toState := { s.toState with toCircIdx := s.incHead, serialPc := .wrapHead }
      overwriting := false }) hhead rfl rfl
  have hlist := Circ.toList_advanceHead h.valid (by rwa [hsize])
  rw [← hring, hslot, hwritten] at hlist
  have hcap : s.ring.toList.length < PACKET_BUFFER_LEN - 1 := by
    rw [Circ.length_toList]
    have := h.size_eq
    omega
  rw [hstep] at hinv ⊢
  cases ho : s.overwriting with
  | true =>
    refine ⟨⟨hinv, h.size_eq, rfl, eventAt_outside (h.alone ho)⟩,
      (simulates_iff_of_nil (by simp [effects, hpc, ho])).mpr ?_⟩
    simp [DataState.mailbox, DataState.posting, DataState.claimed, hlist, hpc, ho]
  | false =>
    refine ⟨⟨hinv, h.size_eq, rfl, ?_⟩,
      (simulates_iff_of_single (.put (stream s.signalled)) (by simp [effects, hpc, ho])).mpr ?_⟩
    · exact h.eventAt.keep rfl ho.symm rfl (fun _ => by simp [hlist]) fun _ _ => rfl
    · simp [Mailbox.step, DataState.mailbox, DataState.posting, DataState.claimed, hlist, hpc, ho,
        push_of_lt hcap, overflow_of_lt hcap, List.range_succ]

private theorem linear_wrapHead (h : Linear stream s) (hpc : s.serialPc = .wrapHead) :
    Linear stream (dataSerialStep stream s) ∧
      Simulates stream .serial s (dataSerialStep stream s) := by
  have hinv := h.inv_step (t := .serial) rfl
  have ho := h.serialAt
  simp only [SerialAt, hpc] at ho
  have hstep : dataSerialStep stream s =
      { s with toState := { s.toState with toCircIdx := s.wrapHead, serialPc := .signal } } := by
    simp [dataSerialStep, serialStep, hpc]
  have hring := ring_wrapHead (s := s) (d := { s with
    toState := { s.toState with toCircIdx := s.wrapHead, serialPc := .signal } }) rfl rfl
  rw [hstep] at hinv ⊢
  refine ⟨⟨hinv, CircIdx.wrapHead_size.trans h.size_eq, ho, ?_⟩,
    (simulates_iff_of_nil (by simp [effects, hpc])).mpr ?_⟩
  · exact h.eventAt.keep rfl rfl rfl (fun hne => by rwa [hring]) fun _ _ =>
      congrArg s.buf CircIdx.wrapHead_tail
  · simp only [DataState.mailbox, DataState.posting, DataState.claimed, hring]
    simp [hpc, ho]

private theorem linear_signal (h : Linear stream s) (hpc : s.serialPc = .signal) :
    Linear stream (dataSerialStep stream s) ∧
      Simulates stream .serial s (dataSerialStep stream s) := by
  have hinv := h.inv_step (t := .serial) rfl
  have ho := h.serialAt
  simp only [SerialAt, hpc] at ho
  have hstep : dataSerialStep stream s = { s with
      packetSem := s.packetSem + 1
      serialPc := .fullTest
      signalled := s.signalled + 1 } := by
    simp [dataSerialStep, serialStep, hpc]
  rw [hstep] at hinv ⊢
  refine ⟨⟨hinv, h.size_eq, ho, h.eventAt.keep rfl rfl rfl id fun _ _ => rfl⟩,
    (simulates_iff_of_single .post (by simp [effects, hpc])).mpr ?_⟩
  simp [Mailbox.step, DataState.mailbox, DataState.posting, DataState.claimed, DataState.ring, hpc,
    ho]

end Serial

section Event

variable {s s' : DataState α}

private theorem linear_wait (h : Linear stream s) (hpc : s.eventPc = .wait)
    (hs : dataEventStep s = some s') : Linear stream s' ∧ Simulates stream .event s s' := by
  have hinv := h.inv_step (t := .event) hs
  obtain ⟨next, hnext, rfl⟩ := Option.map_eq_some_iff.mp hs
  simp only [eventStep, hpc] at hnext hinv ⊢
  obtain ⟨htoken, hnext⟩ := Option.ite_none_right_eq_some.mp hnext
  obtain rfl := Option.some.inj hnext
  refine ⟨⟨hinv, h.size_eq, ?_, trivial⟩,
    (simulates_iff_of_single .acquire (by simp [effects, hpc])).mpr ?_⟩
  · exact h.serialAt.keep rfl rfl rfl rfl rfl rfl le_rfl fun _ => rfl
  · simp [Mailbox.step, DataState.mailbox, DataState.posting, DataState.claimed, DataState.ring,
      hpc, htoken]

private theorem linear_emptyTest (h : Linear stream s) (hG : Apart .event s)
    (hpc : s.eventPc = .emptyTest) (hs : dataEventStep s = some s') :
    Linear stream s' ∧ Simulates stream .event s s' := by
  have hinv := h.inv_step (t := .event) hs
  obtain ⟨ho, hwrap⟩ := hG hpc
  have hempty := emptyTest_iff h (h.tail_lt_of_reading ho (by simp [hpc])) hwrap
  by_cases hne : s.tail = s.head
  · have hnil := hempty.mpr hne
    obtain rfl : { s with eventPc := .wait, emptyReads := s.emptyReads + 1 } = s' := by
      simpa [dataEventStep, eventStep, hpc, hne] using hs
    refine ⟨⟨hinv, h.size_eq, ?_, trivial⟩,
      (simulates_iff_of_single .take (by simp [effects, hpc, hne])).mpr ?_⟩
    · exact h.serialAt.keep rfl rfl rfl rfl rfl rfl le_rfl fun _ => rfl
    · have hnil' : (DataState.ring { s with
          eventPc := .wait, emptyReads := s.emptyReads + 1 }).toList = [] := hnil
      simp only [Mailbox.step, Mailbox.State.takeFirst, DataState.mailbox, DataState.posting,
        DataState.claimed, hnil, hnil']
      simp [hpc, ho]
  · obtain rfl : { s with eventPc := .copy } = s' := by
      simpa [dataEventStep, eventStep, hpc, hne] using hs
    refine ⟨⟨hinv, h.size_eq, ?_, ho, fun hnil => hne (hempty.mp hnil)⟩,
      (simulates_iff_of_nil (by simp [effects, hpc, hne])).mpr ?_⟩
    · exact h.serialAt.keep rfl rfl rfl rfl rfl rfl le_rfl fun _ => rfl
    · simp [DataState.mailbox, DataState.posting, DataState.claimed, DataState.ring, hpc]

private theorem linear_event_copy (h : Linear stream s) (hpc : s.eventPc = .copy)
    (hs : dataEventStep s = some s') : Linear stream s' ∧ Simulates stream .event s s' := by
  have hinv := h.inv_step (t := .event) hs
  have hevent := h.eventAt
  simp only [EventAt, hpc] at hevent
  rcases hevent with ⟨ho, hqueue⟩
  obtain rfl : { s with
      eventPc := .incTail
      touched := s.touched ++ [s.tail]
      currentPacket := s.buf s.tail } = s' := by
    simpa [dataEventStep, eventStep, hpc] using hs
  refine ⟨⟨hinv, h.size_eq, ?_, ho, hqueue, rfl⟩,
    (simulates_iff_of_nil (by simp [effects, hpc])).mpr ?_⟩
  · exact h.serialAt.keep rfl rfl rfl rfl rfl rfl le_rfl fun _ => rfl
  · simp [DataState.mailbox, DataState.posting, DataState.claimed, DataState.ring, hpc]

private theorem linear_event_incTail (h : Linear stream s) (hpc : s.eventPc = .incTail)
    (hs : dataEventStep s = some s') : Linear stream s' ∧ Simulates stream .event s s' := by
  have hinv := h.inv_step (t := .event) hs
  have hevent := h.eventAt
  simp only [EventAt, hpc] at hevent
  rcases hevent with ⟨ho, hqueue, hcopied⟩
  obtain rfl : { s with
      toState := { s.toState with toCircIdx := s.incTail, eventPc := .wrapTail }
      delivered := s.delivered ++ [s.currentPacket] } = s' := by
    simpa [dataEventStep, eventStep, hpc] using hs
  have htail := h.tail_lt_of_reading ho (by simp [hpc])
  obtain ⟨hcons, hless⟩ := toList_incTail (d := { s with
      toState := { s.toState with toCircIdx := s.incTail, eventPc := .wrapTail }
      delivered := s.delivered ++ [s.currentPacket] }) h htail hqueue rfl rfl
  refine ⟨⟨hinv, h.size_eq, ?_, ho⟩,
    (simulates_iff_of_single .take (by simp [effects, hpc])).mpr ?_⟩
  · refine h.serialAt.keep rfl rfl rfl rfl rfl rfl ?_ fun ho' => by simp [ho] at ho'
    exact Nat.le_of_succ_le hless.ge
  · simp only [Mailbox.step, Mailbox.State.takeFirst, DataState.mailbox, DataState.posting,
      DataState.claimed, hcons]
    simp [hpc, ho, hcopied]

private theorem linear_event_wrapTail (h : Linear stream s) (hpc : s.eventPc = .wrapTail)
    (hs : dataEventStep s = some s') : Linear stream s' ∧ Simulates stream .event s s' := by
  have hinv := h.inv_step (t := .event) hs
  obtain rfl : { s with
      toState := { s.toState with toCircIdx := s.wrapTail, eventPc := .wait } } = s' := by
    simpa [dataEventStep, eventStep, hpc] using hs
  have hring := ring_wrapTail (s := s) (d := { s with
    toState := { s.toState with toCircIdx := s.wrapTail, eventPc := .wait } }) rfl rfl
  refine ⟨⟨hinv, CircIdx.wrapTail_size.trans h.size_eq, ?_, trivial⟩,
    (simulates_iff_of_nil (by simp [effects, hpc])).mpr ?_⟩
  · exact h.serialAt.keep rfl rfl CircIdx.wrapTail_size CircIdx.wrapTail_head rfl rfl
      (by rw [hring]) fun _ => by rw [hring]
  · simp only [DataState.mailbox, DataState.posting, DataState.claimed, hring]
    simp [hpc]

end Event

theorem Linear.step {t : Thread} {s s' : DataState α} (h : Linear stream s) (hG : Apart t s)
    (hs : dataStep stream t s = some s') : Linear stream s' ∧ Simulates stream t s s' := by
  cases t with
  | serial =>
    obtain rfl := Option.some.inj hs
    cases hpc : s.serialPc with
    | fullTest => exact linear_fullTest h hG hpc
    | incTail => exact linear_serial_incTail h hpc
    | wrapTail => exact linear_serial_wrapTail h hpc
    | copy => exact linear_serial_copy h hpc
    | incHead => exact linear_incHead h hpc
    | wrapHead => exact linear_wrapHead h hpc
    | signal => exact linear_signal h hpc
  | event =>
    cases hpc : s.eventPc with
    | wait => exact linear_wait h hpc hs
    | emptyTest => exact linear_emptyTest h hG hpc hs
    | copy => exact linear_event_copy h hpc hs
    | incTail => exact linear_event_incTail h hpc hs
    | wrapTail => exact linear_event_wrapTail h hpc hs

end Assertions

section Runs

variable (stream buf : Nat → α) (uninitialised : α)

theorem mailbox_boot : (dataBoot buf uninitialised).mailbox stream = Mailbox.State.empty := by
  simp [DataState.mailbox, DataState.posting, DataState.claimed, dataBoot, boot, DataState.ring,
    CircIdx.settled, CircIdx.wrapTail, CircIdx.wrapHead, PACKET_BUFFER_LEN, Circ.toList,
    CircIdx.count, Mailbox.State.empty]

/-- The assertions hold, and the mailbox is in a state that atomic calls lead to. -/
structure Atomic (stream : Nat → α) (s : DataState α) : Prop where
  linear : Linear stream s
  reachable : Reachable (Mailbox.step (PACKET_BUFFER_LEN - 1)) Mailbox.State.empty
    (s.mailbox stream)

variable {stream}

theorem Atomic.step {t : Thread} {s s' : DataState α} (h : Atomic stream s) (hG : Apart t s)
    (hs : dataStep stream t s = some s') : Atomic stream s' := by
  obtain ⟨hlinear, hsim⟩ := h.linear.step hG hs
  exact ⟨hlinear, h.reachable.trans ⟨_, hsim⟩⟩

theorem Atomic.boot : Atomic stream (dataBoot buf uninitialised) := by
  refine ⟨Linear.boot stream buf uninitialised, ?_⟩
  rw [mailbox_boot]
  exact .refl _

theorem Atomic.accounted {s : DataState α} (h : Atomic stream s) :
    Mailbox.Accounted (PACKET_BUFFER_LEN - 1) (s.mailbox stream) :=
  Mailbox.accounted_of_reachable (by decide) h.reachable

/-- No slot is copied from and to at the same time. -/
theorem Atomic.distinct_slots {s : DataState α} (h : Atomic stream s) (hserial : s.serialPc = .copy)
    (hevent : s.eventPc = .copy) : s.head ≠ s.tail := by
  have hqueue := h.linear.eventAt
  simp only [EventAt, hevent] at hqueue
  have htail := h.linear.tail_lt (by simp [hserial]) (by simp [hevent])
  have hhead := h.linear.inv.head_lt (by simp [hserial])
  have hne := mt (Circ.toList_eq_nil_iff h.linear.valid).mpr hqueue.2
  have hsettled : s.ring.tail = s.tail ∧ s.ring.head = s.head :=
    ⟨CircIdx.settled_tail htail, CircIdx.settled_head hhead⟩
  rw [hsettled.1, hsettled.2] at hne
  exact fun heq => hne heq.symm

variable (stream)

/-- In every run that keeps the calls apart, however its statements are interleaved, the calls
take effect as atomic calls do, each at one of its statements; all copies lie in the ring, and
none meets another one in a slot. -/
theorem preempted_ring_atomic (ls : List Thread) (s : DataState α)
    (hrun : run (dataStep stream) ls (dataBoot buf uninitialised) = some s)
    (hapart : Along (dataStep stream) Apart ls (dataBoot buf uninitialised)) :
    run (Mailbox.step (PACKET_BUFFER_LEN - 1))
        (observe (dataStep stream) (effects stream) ls (dataBoot buf uninitialised))
        Mailbox.State.empty = some (s.mailbox stream) ∧
      (∀ i ∈ s.touched, i < PACKET_BUFFER_LEN) ∧
      (s.serialPc = .copy → s.eventPc = .copy → s.head ≠ s.tail) := by
  have hboot : Atomic stream (dataBoot buf uninitialised) := Atomic.boot buf uninitialised
  have hsim : ∃ m, run (Mailbox.step (PACKET_BUFFER_LEN - 1))
      (observe (dataStep stream) (effects stream) ls (dataBoot buf uninitialised))
      Mailbox.State.empty = some m ∧ Atomic stream s ∧ m = s.mailbox stream := by
    refine simulate_along (R := fun t m => Atomic stream t ∧ m = t.mailbox stream) ?_ ls
      ⟨hboot, (mailbox_boot stream buf uninitialised).symm⟩ hapart hrun
    rintro t u u' m ⟨hatomic, rfl⟩ hG hs
    exact ⟨_, (hatomic.linear.step hG hs).2, hatomic.step hG hs, rfl⟩
  obtain ⟨_, hrun, hatomic, rfl⟩ := hsim
  refine ⟨hrun, ?_, hatomic.distinct_slots⟩
  rw [← hatomic.linear.size_eq]
  exact hatomic.linear.inv.touched

/-- Five packets overwrite the first one and the second one is read; then the third one is read
while a sixth one is written. -/
theorem preempted_ring_atomic_overwrite :
    ∃ s, run (dataStep fun k => k) (.replicate 27 .serial ++ .replicate 5 .event ++
        [.event, .event, .serial, .event, .serial]) (dataBoot (fun _ => 0) 0) = some s ∧
      s.overwritten = [0] ∧ s.delivered = [1] ∧ s.currentPacket = 2 ∧
      run (Mailbox.step (PACKET_BUFFER_LEN - 1))
          (observe (dataStep fun k => k) (effects fun k => k) (.replicate 27 .serial ++
            .replicate 5 .event ++ [.event, .event, .serial, .event, .serial])
            (dataBoot (fun _ => 0) 0)) Mailbox.State.empty = some (s.mailbox fun k => k) := by
  refine ⟨_, rfl, rfl, rfl, rfl, ?_⟩
  exact (preempted_ring_atomic (fun k => k) (fun _ => 0) 0
    (.replicate 27 .serial ++ .replicate 5 .event ++ [.event, .event, .serial, .event, .serial])
    _ rfl (by decide)).1

section Room

variable {stream}

/-- Calls that find room, and no empty ring, keep apart. -/
theorem Linear.apart {t : Thread} {s : DataState α} (h : Linear stream s) (hG : TestsRoom t s)
    (hover : s.overwriting = false) (hqueue : s.eventPc = .emptyTest → s.ring.toList ≠ []) :
    Apart t s := by
  cases t with
  | serial =>
    intro hpc hfull
    rw [hG hpc] at hfull
    cases hfull
  | event =>
    intro hpc
    refine ⟨hover, fun ⟨hsize, htail⟩ => hqueue hpc ?_⟩
    have hpos := h.inv.size_pos
    rw [Circ.toList_eq_nil_iff h.valid]
    have hread : s.ring.tail = s.tail := CircIdx.settled_tail (by omega)
    have hwritten : s.ring.head = 0 := by
      change s.wrapTail.wrapHead.head = 0
      simp [CircIdx.wrapHead, hsize]
    rw [hread, hwritten, htail]

theorem Linear.room {t : Thread} {s s' : DataState α} (h : Linear stream s) (hG : TestsRoom t s)
    (hover : s.overwriting = false) (hlost : s.overwritten = [])
    (hs : dataStep stream t s = some s') : s'.overwriting = false ∧ s'.overwritten = [] := by
  cases t with
  | serial =>
    obtain rfl := Option.some.inj hs
    unfold dataSerialStep
    cases hpc : s.serialPc with
    | fullTest => exact ⟨hG hpc, hlost⟩
    | incTail =>
      have htrue := h.overwriting (Or.inl hpc)
      rw [hover] at htrue
      cases htrue
    | incHead => exact ⟨rfl, hlost⟩
    | _ => exact ⟨hover, hlost⟩
  | event =>
    obtain ⟨next, -, rfl⟩ := Option.map_eq_some_iff.mp hs
    cases s.eventPc <;> exact ⟨hover, hlost⟩

/-- As long as every fullness test finds room nothing else keeps the calls from being atomic. -/
structure Roomy (stream : Nat → α) (s : DataState α) : Prop where
  atomic : Atomic stream s
  overwriting : s.overwriting = false
  overwritten : s.overwritten = []

/-- With nothing overwritten every token stands for a packet, so no empty ring is tested. -/
theorem Roomy.apart {t : Thread} {s : DataState α} (h : Roomy stream s) (hG : TestsRoom t s) :
    Apart t s := by
  refine h.atomic.linear.apart hG h.overwriting fun hpc hempty => ?_
  have htokens := h.atomic.accounted.tokens_eq
  simp [DataState.mailbox, DataState.claimed, hempty, hpc, h.overwriting, h.overwritten]
    at htokens

theorem Roomy.step {t : Thread} {s s' : DataState α} (h : Roomy stream s) (hG : TestsRoom t s)
    (hs : dataStep stream t s = some s') : Roomy stream s' := by
  obtain ⟨hover, hlost⟩ := h.atomic.linear.room hG h.overwriting h.overwritten hs
  exact ⟨h.atomic.step (h.apart hG) hs, hover, hlost⟩

variable (stream)

/-- In every run whose fullness tests find room, however its statements are interleaved, the
packets read so far are the first ones of the stream, one for each token taken; no read finds
the ring empty, no copy leaves the ring and none meets another one in a slot. -/
theorem preempted_ring_fifo (ls : List Thread) (s : DataState α)
    (hrun : run (dataStep stream) ls (dataBoot buf uninitialised) = some s)
    (hroom : Along (dataStep stream) TestsRoom ls (dataBoot buf uninitialised)) :
    s.delivered = (List.range s.delivered.length).map stream ∧
      s.delivered.length + s.packetSem + s.claimed.toNat = s.signalled ∧
      s.emptyReads = 0 ∧ (∀ i ∈ s.touched, i < PACKET_BUFFER_LEN) ∧
      (s.serialPc = .copy → s.eventPc = .copy → s.head ≠ s.tail) := by
  have hkeep := always_of_along (fun _ _ _ hI hG hs => Roomy.step hI hG hs) ls
    (I := Roomy stream) ⟨Atomic.boot buf uninitialised, rfl, rfl⟩ hroom
  have hroomy := hkeep.last hrun
  have haccounted := hroomy.atomic.accounted
  have hempty := haccounted.no_emptyTakes hroomy.overwritten
  have htokens := haccounted.tokens_eq
  have hreceived := haccounted.received_eq hroomy.overwritten
  change (List.range (s.signalled + s.posting.toNat)).map stream =
    s.delivered ++ (s.mailbox stream).queue at hreceived
  refine ⟨?_, ?_, hempty, ?_, hroomy.atomic.distinct_slots⟩
  · have htake := congrArg (List.take s.delivered.length) hreceived
    have hlen := congrArg List.length hreceived
    simp only [List.length_map, List.length_range, List.length_append] at hlen
    rw [List.take_left, ← List.map_take, List.take_range, Nat.min_eq_left (by omega)] at htake
    exact htake.symm
  · have hlen := congrArg List.length hreceived
    simp only [List.length_map, List.length_range, List.length_append] at hlen
    change s.emptyReads = 0 at hempty
    change s.packetSem + s.emptyReads + s.posting.toNat + s.claimed.toNat =
      (s.mailbox stream).queue.length + s.overwritten.length at htokens
    rw [hroomy.overwritten, List.length_nil] at htokens
    omega
  · rw [← hroomy.atomic.linear.size_eq]
    exact hroomy.atomic.linear.inv.touched

/-- Two packets; the first one is read while the second one is written. -/
theorem preempted_ring_fifo_two :
    ∃ s, run (dataStep fun k => k + 7) (.replicate 5 .serial ++ [.event, .serial, .event, .serial,
        .event, .serial, .event, .serial, .event]) (dataBoot (fun _ => 0) 0) = some s ∧
      s.delivered = [7] ∧ s.delivered = (List.range s.delivered.length).map fun k => k + 7 := by
  refine ⟨_, rfl, rfl, ?_⟩
  exact (preempted_ring_fifo (fun k => k + 7) (fun _ => 0) 0
    (.replicate 5 .serial ++ [.event, .serial, .event, .serial, .event, .serial, .event, .serial,
      .event]) _ rfl (by decide)).1

end Room

end Runs

end Race

end MentorRevival
