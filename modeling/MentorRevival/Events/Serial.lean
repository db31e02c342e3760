import MentorRevival.Events.Packet
import Mathlib.Data.List.Flatten

/-!
# The serial thread

`serialThread` turns the results of `chSequentialStreamGet` into packets. Its local state is
the `start` flag and the packet under assembly. The start filter removes the byte 254, which
is also what `Q_RESET` becomes as a `char`, but only in front of the first packet.
-/

namespace MentorRevival

/-- What `chSequentialStreamGet` returns when the input queue is reset. -/
def Q_RESET : Int := -2

def toChar (m : Int) : UInt8 := UInt8.ofNat (m % 256).toNat

theorem toChar_byte (b : UInt8) : toChar b.toNat = b := by
  have h := b.toNat_lt
  have hmod : ((b.toNat : Int) % 256).toNat = b.toNat := by omega
  rw [toChar, hmod, UInt8.ofNat_toNat]

structure SerialLocal where
  start : Bool
  sPacket : Packet
  deriving DecidableEq

def SerialLocal.init : SerialLocal := { start := true, sPacket := pktInit }

/-- The calls of `serialThread` to the ring and the semaphore. -/
inductive SerialCall
  | circWrite (packet : Packet)
  | chSemSignal
  deriving DecidableEq

/-- One result of the stream: the local state, and whether the packet was found complete. -/
def serialGet (l : SerialLocal) (m : Int) : SerialLocal × Bool :=
  let val := toChar m
  if l.start then
    if val ≠ 254 then ({ start := false, sPacket := pktAppendByte l.sPacket val }, false)
    else (l, false)
  else
    let packet := pktAppendByte l.sPacket val
    ({ l with sPacket := packet }, pktIsComplete packet)

def SerialLocal.clear (l : SerialLocal) : SerialLocal := { l with sPacket := pktInit }

/-- The loop body of `serialThread` for one result of the stream, with the calls it makes. -/
def serialBody (l : SerialLocal) (m : Int) : SerialLocal × List SerialCall :=
  let (l, full) := serialGet l m
  if full then (l.clear, [.circWrite l.sPacket, .chSemSignal]) else (l, [])

def serialLoop (l : SerialLocal) : List Int → SerialLocal × List SerialCall
  | [] => (l, [])
  | m :: ms =>
    let (l, cs) := serialBody l m
    let (l, ds) := serialLoop l ms
    (l, cs ++ ds)

/-- The packets among the calls. -/
def written (cs : List SerialCall) : List Packet :=
  cs.filterMap fun
    | .circWrite p => some p
    | .chSemSignal => none

/-- The loop body as far as the packets go that it writes. -/
def serialStep (l : SerialLocal) (m : Int) : SerialLocal × List Packet :=
  let (l, cs) := serialBody l m
  (l, written cs)

def serialRun (l : SerialLocal) (ms : List Int) : SerialLocal × List Packet :=
  let (l, cs) := serialLoop l ms
  (l, written cs)

theorem serialStep_eq (l : SerialLocal) (m : Int) :
    serialStep l m = if (serialGet l m).2
      then ((serialGet l m).1.clear, [(serialGet l m).1.sPacket])
      else ((serialGet l m).1, []) := by
  cases hfull : (serialGet l m).2
  · simp [serialStep, serialBody, written, hfull]
  · simp [serialStep, serialBody, written, hfull]

@[simp] theorem serialRun_nil (l : SerialLocal) : serialRun l [] = (l, []) := rfl

theorem serialRun_cons (l : SerialLocal) (m : Int) (ms : List Int) :
    serialRun l (m :: ms) =
      ((serialRun (serialStep l m).1 ms).1,
        (serialStep l m).2 ++ (serialRun (serialStep l m).1 ms).2) := by
  simp only [serialRun, serialStep, serialLoop, written, List.filterMap_append]

/-- The packets `serialThread` writes to `packetBuf` for the results of a stream. -/
def serialPackets (ms : List Int) : List Packet := (serialRun SerialLocal.init ms).2

def SerialLocal.synced : SerialLocal := { start := false, sPacket := pktInit }

def Frame.ofMsgs (m0 m1 m2 m3 : Int) : Frame := ⟨toChar m0, toChar m1, toChar m2, toChar m3⟩

private theorem serialRun_open {p : Packet} {m : Int}
    (h : pktIsComplete (pktAppendByte p (toChar m)) = false) (ms : List Int) :
    serialRun { start := false, sPacket := p } (m :: ms) =
      serialRun { start := false, sPacket := pktAppendByte p (toChar m) } ms := by
  simp [serialRun_cons, serialStep_eq, serialGet, h]

private theorem serialRun_full {p : Packet} {m : Int}
    (h : pktIsComplete (pktAppendByte p (toChar m)) = true) (ms : List Int) :
    serialRun { start := false, sPacket := p } (m :: ms) =
      ((serialRun .synced ms).1,
        pktAppendByte p (toChar m) :: (serialRun .synced ms).2) := by
  simp [serialRun_cons, serialStep_eq, serialGet, h, SerialLocal.clear, SerialLocal.synced]

theorem serialRun_synced (m0 m1 m2 m3 : Int) (ms : List Int) :
    serialRun .synced (m0 :: m1 :: m2 :: m3 :: ms) =
      ((serialRun .synced ms).1,
        (Frame.ofMsgs m0 m1 m2 m3).decode :: (serialRun .synced ms).2) := by
  have hdecode := append_frame (Frame.ofMsgs m0 m1 m2 m3)
  simp only [Frame.bytes, Frame.ofMsgs, List.foldl_cons, List.foldl_nil] at hdecode
  change serialRun { start := false, sPacket := pktInit } _ = _
  rw [serialRun_open, serialRun_open, serialRun_open, serialRun_full, hdecode, Frame.ofMsgs]
  all_goals simp [pktIsComplete, pktAppendByte, pktInit]

private theorem serialRun_congr {l l' : SerialLocal} {m : Int}
    (h : serialGet l m = serialGet l' m) (ms : List Int) :
    serialRun l (m :: ms) = serialRun l' (m :: ms) := by
  simp only [serialRun_cons, serialStep_eq, h]

theorem serialRun_first {m : Int} (h : toChar m ≠ 254) (ms : List Int) :
    serialRun .init (m :: ms) = serialRun .synced (m :: ms) := by
  apply serialRun_congr
  simp only [serialGet, SerialLocal.init, if_true, if_pos h]
  rfl

theorem serialRun_append (l : SerialLocal) (ms ks : List Int) :
    serialRun l (ms ++ ks) =
      ((serialRun (serialRun l ms).1 ks).1,
        (serialRun l ms).2 ++ (serialRun (serialRun l ms).1 ks).2) := by
  induction ms generalizing l with
  | nil => rfl
  | cons m ms ih => simp only [List.cons_append, serialRun_cons, ih, List.append_assoc]

theorem serialRun_reset (ms : List Int) :
    serialRun .init (Q_RESET :: ms) = serialRun .init ms := rfl

theorem serialRun_resets (n : Nat) (ms : List Int) :
    serialRun .init (List.replicate n Q_RESET ++ ms) = serialRun .init ms := by
  induction n with
  | zero => rfl
  | succ n ih => rw [List.replicate_succ, List.cons_append, serialRun_reset, ih]

namespace Frame

def msgs (f : Frame) : List Int := f.bytes.map fun b => (b.toNat : Int)

def KnownCommand (f : Frame) : Prop := (Command.ofUInt8? (f.b0 >>> 4)).isSome

instance (f : Frame) : Decidable f.KnownCommand :=
  inferInstanceAs (Decidable ((Command.ofUInt8? (f.b0 >>> 4)).isSome = true))

theorem ofMsgs_bytes (f : Frame) :
    ofMsgs f.b0.toNat f.b1.toNat f.b2.toNat f.b3.toNat = f := by
  simp only [ofMsgs, toChar_byte]

theorem KnownCommand.ne_reset {f : Frame} (h : f.KnownCommand) :
    f.decode.command ≠ (254 : UInt8) >>> 4 := by
  intro heq
  change f.b0 >>> 4 = _ at heq
  rw [KnownCommand, heq] at h
  exact absurd h (by decide)

end Frame

theorem serialRun_synced_frame (f : Frame) (ms : List Int) :
    serialRun .synced (f.msgs ++ ms) =
      ((serialRun .synced ms).1, f.decode :: (serialRun .synced ms).2) := by
  have h := serialRun_synced f.b0.toNat f.b1.toNat f.b2.toNat f.b3.toNat ms
  rw [Frame.ofMsgs_bytes] at h
  exact h

theorem serialRun_first_frame {f : Frame} (h : f.KnownCommand) (ms : List Int) :
    serialRun .init (f.msgs ++ ms) =
      ((serialRun .synced ms).1, f.decode :: (serialRun .synced ms).2) := by
  have hne : toChar f.b0.toNat ≠ 254 := by
    intro heq
    rw [toChar_byte] at heq
    exact h.ne_reset (by rw [Frame.decode, heq])
  rw [← serialRun_synced_frame]
  exact serialRun_first hne _

/-- Frames with a number of queue resets in front of each. -/
def resetStream (xs : List (Nat × Frame)) : List Int :=
  xs.flatMap fun x => List.replicate x.1 Q_RESET ++ x.2.msgs

theorem resetStream_cons (n : Nat) (f : Frame) (xs : List (Nat × Frame)) :
    resetStream ((n, f) :: xs) = List.replicate n Q_RESET ++ (f.msgs ++ resetStream xs) := by
  simp [resetStream]

/-- A reset between packets becomes the first byte of the next packet. -/
private theorem packets_of_reset (n : Nat) (f : Frame) (ms : List Int) :
    ∃ p ps, (serialRun .synced (List.replicate (n + 1) Q_RESET ++ (f.msgs ++ ms))).2 = p :: ps ∧
      p.command = (254 : UInt8) >>> 4 := by
  have hlen : 3 ≤ (List.replicate n Q_RESET ++ (f.msgs ++ ms)).length := by
    simp only [List.length_append, Frame.msgs, Frame.bytes, List.length_map, List.length_cons]
    omega
  rw [List.replicate_succ, List.cons_append]
  generalize List.replicate n Q_RESET ++ (f.msgs ++ ms) = rest at hlen ⊢
  rcases rest with _ | ⟨m1, _ | ⟨m2, _ | ⟨m3, rest⟩⟩⟩
  · simp at hlen
  · simp at hlen
  · simp at hlen
  · rw [serialRun_synced]
    exact ⟨_, _, rfl, rfl⟩

private theorem synced_packets_iff (xs : List (Nat × Frame)) (h : ∀ x ∈ xs, x.2.KnownCommand) :
    (serialRun .synced (resetStream xs)).2 = xs.map (fun x => x.2.decode) ↔ ∀ x ∈ xs, x.1 = 0 := by
  induction xs with
  | nil => simp [resetStream]
  | cons x xs ih =>
    rcases x with ⟨n, f⟩
    have ih := ih fun y hy => h y (by simp [hy])
    rw [resetStream_cons]
    cases n with
    | zero =>
      rw [List.replicate_zero, List.nil_append, serialRun_synced_frame]
      simpa using ih
    | succ n =>
      rcases packets_of_reset n f (resetStream xs) with ⟨p, ps, hout, hcommand⟩
      rw [hout]
      constructor
      · intro heq
        have hp : p = f.decode := (List.cons.inj heq).1
        exact absurd (by rw [← hp, hcommand]) (h (n + 1, f) (by simp)).ne_reset
      · intro hzero
        have := hzero (n + 1, f) (by simp)
        simp at this

/-- With known commands only, `serialThread` decodes the frames it is sent if and only if no
queue reset falls behind the first frame. Resets in front of it are always filtered. -/
theorem packets_exact_iff_no_reset (xs : List (Nat × Frame)) (h : ∀ x ∈ xs, x.2.KnownCommand) :
    serialPackets (resetStream xs) = xs.map (fun x => x.2.decode) ↔ ∀ x ∈ xs.tail, x.1 = 0 := by
  cases xs with
  | nil => simp [resetStream, serialPackets]
  | cons x xs =>
    rcases x with ⟨n, f⟩
    have hrest := synced_packets_iff xs fun y hy => h y (by simp [hy])
    rw [serialPackets, resetStream_cons, serialRun_resets,
      serialRun_first_frame (h (n, f) (by simp))]
    simpa using hrest

/-- Two resets, and then a `CMD_HALT` and two other frames. -/
theorem packets_exact_iff_no_reset_three :
    serialPackets (resetStream [(2, ⟨0, 0, 0, 0xAE⟩), (0, ⟨0x32, 0x4E, 0x20, 0xAE⟩),
        (0, ⟨0x25, 0, 0, 0xAE⟩)]) =
      [pktCreate .CMD_HALT 0 0, pktCreate .CMD_SET_DUTY 2 20000, pktCreate .CMD_READ_POS 5 0] :=
  (packets_exact_iff_no_reset [(2, ⟨0, 0, 0, 0xAE⟩), (0, ⟨0x32, 0x4E, 0x20, 0xAE⟩),
    (0, ⟨0x25, 0, 0, 0xAE⟩)] (by decide)).mpr (by simp)

/-- One reset between two HALT frames turns the second one into a packet with command 15. -/
theorem reset_shifts_second_frame :
    serialPackets (resetStream [(0, ⟨0, 0, 0, 0xAE⟩), (1, ⟨0, 0, 0, 0xAE⟩)]) ≠
      [(0, ⟨0, 0, 0, 0xAE⟩), (1, ⟨0, 0, 0, 0xAE⟩)].map
        (fun x : Nat × Frame => x.2.decode) := by
  decide

end MentorRevival
