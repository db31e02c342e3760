import MentorRevival.Events.Serial
import Mathlib.Data.List.TakeDrop

/-!
# Framing

`serialThread` cuts every stream of host bytes into frames of four, behind the idle bytes in
front of the first one. The packets are the frames decoded, each one is signalled once, and
the bytes of an unfinished frame stay in `s_packet`.
-/

namespace MentorRevival

/-- What `serialThread` does with a complete packet. -/
def queueCalls (p : Packet) : List SerialCall := [.circWrite p, .chSemSignal]

/-- `serialThread` calls the ring and the semaphore for its packets only, one after the other. -/
theorem serialBody_eq (l : SerialLocal) (m : Int) :
    serialBody l m = ((serialStep l m).1, (serialStep l m).2.flatMap queueCalls) := by
  rw [serialStep_eq]
  cases hfull : (serialGet l m).2
  · simp [serialBody, hfull]
  · simp [serialBody, hfull, queueCalls]

theorem serialLoop_eq (l : SerialLocal) (ms : List Int) :
    serialLoop l ms = ((serialRun l ms).1, (serialRun l ms).2.flatMap queueCalls) := by
  induction ms generalizing l with
  | nil => rfl
  | cons m ms ih =>
    simp only [serialLoop, serialRun_cons, serialBody_eq, ih, List.flatMap_append]

/-- The results of the stream when the host sends bytes and nothing resets the queue. -/
def hostBytes (bs : List UInt8) : List Int := bs.map fun b => (b.toNat : Int)

/-- The bytes behind the idle bytes that `serialThread` waits through at the start. -/
def afterIdle (bs : List UInt8) : List UInt8 := bs.dropWhile (· == 254)

def framesOf : List UInt8 → List Frame
  | b0 :: b1 :: b2 :: b3 :: bs => ⟨b0, b1, b2, b3⟩ :: framesOf bs
  | _ => []

/-- The bytes of the unfinished frame at the end of a stream. -/
def restOf (bs : List UInt8) : List UInt8 := bs.drop (4 * (bs.length / 4))

section Cutting

private theorem restOf_frame (b0 b1 b2 b3 : UInt8) (bs : List UInt8) :
    restOf (b0 :: b1 :: b2 :: b3 :: bs) = restOf bs := by
  have hlen : 4 * ((b0 :: b1 :: b2 :: b3 :: bs).length / 4) = 4 * (bs.length / 4) + 4 := by
    simp only [List.length_cons]
    omega
  rw [restOf, hlen]
  rfl

theorem length_restOf (bs : List UInt8) : (restOf bs).length = bs.length % 4 := by
  rw [restOf, List.length_drop]
  omega

private theorem length_lt_of_no_frame {bs : List UInt8}
    (h : ∀ b0 b1 b2 b3 cs, bs = b0 :: b1 :: b2 :: b3 :: cs → False) : bs.length < 4 := by
  rcases bs with _ | ⟨b0, _ | ⟨b1, _ | ⟨b2, _ | ⟨b3, cs⟩⟩⟩⟩
  · simp
  · simp
  · simp
  · simp
  · exact (h b0 b1 b2 b3 cs rfl).elim

theorem length_framesOf (bs : List UInt8) : (framesOf bs).length = bs.length / 4 := by
  fun_induction framesOf bs with
  | case1 b0 b1 b2 b3 bs ih =>
    simp only [List.length_cons, ih]
    omega
  | case2 bs h => exact (Nat.div_eq_of_lt (length_lt_of_no_frame h)).symm

theorem getElem?_framesOf (bs : List UInt8) {i : Nat} {f : Frame}
    (h : (framesOf bs)[i]? = some f) :
    bs[4 * i]? = some f.b0 ∧ bs[4 * i + 1]? = some f.b1 ∧ bs[4 * i + 2]? = some f.b2 ∧
      bs[4 * i + 3]? = some f.b3 := by
  fun_induction framesOf bs generalizing i with
  | case1 b0 b1 b2 b3 bs ih =>
    cases i with
    | zero =>
      obtain rfl : (⟨b0, b1, b2, b3⟩ : Frame) = f := by simpa using h
      exact ⟨rfl, rfl, rfl, rfl⟩
    | succ i =>
      have hrest := ih (by simpa using h)
      have hindex : 4 * (i + 1) = 4 * i + 4 := by omega
      rw [hindex]
      exact hrest
  | case2 bs hshort => simp at h

theorem framesOf_bytes (f : Frame) (bs : List UInt8) :
    framesOf (f.bytes ++ bs) = f :: framesOf bs := rfl

theorem framesOf_flatMap (fs : List Frame) : framesOf (fs.flatMap Frame.bytes) = fs := by
  induction fs with
  | nil => rfl
  | cons f fs ih => rw [List.flatMap_cons, framesOf_bytes, ih]

theorem restOf_flatMap (fs : List Frame) : restOf (fs.flatMap Frame.bytes) = [] := by
  induction fs with
  | nil => rfl
  | cons f fs ih => exact (restOf_frame f.b0 f.b1 f.b2 f.b3 _).trans ih

end Cutting

section Stream

private theorem serialRun_short (bs : List UInt8) (h : bs.length < 4) :
    serialRun .synced (hostBytes bs) =
      ({ start := false, sPacket := bs.foldl pktAppendByte pktInit }, []) := by
  rcases bs with _ | ⟨b0, _ | ⟨b1, _ | ⟨b2, _ | ⟨b3, bs⟩⟩⟩⟩
  · rfl
  · simp [hostBytes, serialRun_cons, serialStep_eq, serialGet, SerialLocal.synced, toChar_byte,
      pktAppendByte, pktIsComplete, pktInit]
  · simp [hostBytes, serialRun_cons, serialStep_eq, serialGet, SerialLocal.synced, toChar_byte,
      pktAppendByte, pktIsComplete, pktInit]
  · simp [hostBytes, serialRun_cons, serialStep_eq, serialGet, SerialLocal.synced, toChar_byte,
      pktAppendByte, pktIsComplete, pktInit]
  · simp only [List.length_cons] at h
    omega

theorem serialRun_synced_bytes (bs : List UInt8) :
    serialRun .synced (hostBytes bs) =
      ({ start := false, sPacket := (restOf bs).foldl pktAppendByte pktInit },
        (framesOf bs).map Frame.decode) := by
  fun_induction framesOf bs with
  | case1 b0 b1 b2 b3 bs ih =>
    rw [restOf_frame, List.map_cons]
    have hframe := serialRun_synced_frame ⟨b0, b1, b2, b3⟩ (hostBytes bs)
    rw [ih] at hframe
    exact hframe
  | case2 bs h =>
    have hshort := length_lt_of_no_frame h
    have hrest : restOf bs = bs := by simp [restOf, Nat.div_eq_of_lt hshort]
    rw [serialRun_short bs hshort, hrest]
    rfl

theorem serialRun_idle (bs : List UInt8) :
    serialRun .init (hostBytes bs) = serialRun .init (hostBytes (afterIdle bs)) := by
  induction bs with
  | nil => rfl
  | cons b bs ih =>
    by_cases hb : b = 254
    · subst hb
      exact ih
    · simp [afterIdle, hb]

/-- The loop of `serialThread` over host bytes: frames behind the idle bytes, and a rest. -/
theorem serialRun_bytes (bs : List UInt8) :
    serialRun .init (hostBytes bs) =
      ({ start := (afterIdle bs).isEmpty
         sPacket := (restOf (afterIdle bs)).foldl pktAppendByte pktInit },
        (framesOf (afterIdle bs)).map Frame.decode) := by
  have hhead := List.head?_dropWhile_not (fun b : UInt8 => b == 254) bs
  rw [← afterIdle] at hhead
  rw [serialRun_idle]
  cases hcs : afterIdle bs with
  | nil => rfl
  | cons c cs =>
    have hc : toChar c.toNat ≠ 254 := by simpa [hcs, toChar_byte] using hhead
    have hfirst := serialRun_first hc (hostBytes cs)
    exact hfirst.trans (serialRun_synced_bytes (c :: cs))

/-- For every stream of host bytes the packets queued are the frames behind the idle bytes, in
order, each signalled once, and the bytes left over are those held in `s_packet`. -/
theorem framing (bs : List UInt8) :
    ∃ ps : List Packet,
      (serialLoop .init (hostBytes bs)).2 = ps.flatMap (fun p => [.circWrite p, .chSemSignal]) ∧
      ps.length = (afterIdle bs).length / 4 ∧
      (∀ i p, ps[i]? = some p → ∃ c0 c1 c2 : UInt8,
        (afterIdle bs)[4 * i]? = some c0 ∧ (afterIdle bs)[4 * i + 1]? = some c1 ∧
        (afterIdle bs)[4 * i + 2]? = some c2 ∧ p.command = c0 >>> 4 ∧
        p.targetAxis = c0 &&& 0xF ∧ p.data.toNat = 256 * c1.toNat + c2.toNat) ∧
      (serialLoop .init (hostBytes bs)).1.sPacket =
        ((afterIdle bs).drop (4 * ((afterIdle bs).length / 4))).foldl pktAppendByte pktInit ∧
      (serialLoop .init (hostBytes bs)).1.sPacket.numBytes.toNat = (afterIdle bs).length % 4 := by
  rw [serialLoop_eq, serialRun_bytes]
  refine ⟨(framesOf (afterIdle bs)).map Frame.decode, rfl, ?_, ?_, rfl, ?_⟩
  · rw [List.length_map, length_framesOf]
  · intro i p hp
    rw [List.getElem?_map] at hp
    obtain ⟨f, hf, rfl⟩ := Option.map_eq_some_iff.mp hp
    rcases getElem?_framesOf _ hf with ⟨h0, h1, h2, _⟩
    exact ⟨f.b0, f.b1, f.b2, h0, h1, h2, rfl, UInt8.and_comm _ _, toNat_joinBytes f.b1 f.b2⟩
  · have hlen := length_restOf (afterIdle bs)
    change ((restOf (afterIdle bs)).foldl pktAppendByte pktInit).numBytes.toNat = _
    rw [foldl_pktAppendByte, toNat_numBytes_assembled, hlen]
    omega

end Stream

section Encode

theorem afterIdle_replicate (n : Nat) (bs : List UInt8) :
    afterIdle (List.replicate n 254 ++ bs) = afterIdle bs := by
  induction n with
  | zero => rfl
  | succ n ih => exact ih

/-- What `pkt_encode` can express: a command of the protocol and a nibble of axis. -/
def Packet.Encodable (p : Packet) : Prop :=
  (Command.ofUInt8? p.command).isSome ∧ p.targetAxis ≤ 15

instance (p : Packet) : Decidable p.Encodable :=
  inferInstanceAs (Decidable ((Command.ofUInt8? p.command).isSome = true ∧ p.targetAxis ≤ 15))

namespace Packet.Encodable

variable {p : Packet}

theorem decode_frame (h : p.Encodable) : p.frame.decode = { p with numBytes := 4 } := by
  rcases Option.isSome_iff_exists.mp h.1 with ⟨k, hk⟩
  have hc := Command.toUInt8_of_ofUInt8? hk
  have ha : p.targetAxis.toNat ≤ 15 := h.2
  apply MentorRevival.decode_frame
  · rw [hc]
    cases k <;> decide
  · omega

/-- No encoded packet begins with the byte that the start filter removes. -/
theorem afterIdle_frame (h : p.Encodable) (bs : List UInt8) :
    afterIdle (p.frame.bytes ++ bs) = p.frame.bytes ++ bs := by
  have hb0 : p.frame.b0 ≠ 254 := by
    intro heq
    have hcommand : p.command = (254 : UInt8) >>> 4 := by
      rw [← heq]
      exact congrArg Packet.command h.decode_frame.symm
    have hsome := h.1
    rw [hcommand] at hsome
    exact absurd hsome (by decide)
  simp [afterIdle, Frame.bytes, hb0]

end Packet.Encodable

/-- Whatever can be encoded comes out of `serialThread` as it went in, behind any number of
idle bytes, and a frame decoded and encoded again differs in its last byte at most. -/
theorem decode_encode :
    (∀ (n : Nat) (ps : List Packet), (∀ p ∈ ps, p.Encodable) →
      (serialRun .init (hostBytes (List.replicate n 254 ++ ps.flatMap pktEncode))).2.map
          (fun p => (p.command, p.targetAxis, p.data)) =
        ps.map (fun p => (p.command, p.targetAxis, p.data)) ∧
      (serialRun .init (hostBytes (List.replicate n 254 ++ ps.flatMap pktEncode))).1.sPacket =
        pktInit) ∧
    ∀ f : Frame, pktEncode (f.bytes.foldl pktAppendByte pktInit) = [f.b0, f.b1, f.b2, 0xAE] := by
  constructor
  · intro n ps h
    have hframes : ps.flatMap pktEncode = (ps.map Packet.frame).flatMap Frame.bytes := by
      rw [List.flatMap_map]
      rfl
    have hidle : afterIdle (ps.flatMap pktEncode) = ps.flatMap pktEncode := by
      cases ps with
      | nil => rfl
      | cons p ps => exact (h p (by simp)).afterIdle_frame _
    rw [serialRun_bytes, afterIdle_replicate, hidle, hframes, framesOf_flatMap, restOf_flatMap]
    refine ⟨?_, rfl⟩
    rw [List.map_map, List.map_map]
    apply List.map_congr_left
    intro p hp
    simp only [Function.comp_apply, (h p hp).decode_frame]
  · intro f
    rw [append_frame, encode_decode]

theorem decode_encode_two :
    (serialRun .init (hostBytes (List.replicate 3 254 ++
        [pktCreate .CMD_SET_DUTY 5 20000, pktCreate .CMD_HALT 0 0].flatMap pktEncode))).1.sPacket =
      pktInit :=
  (decode_encode.1 3 [pktCreate .CMD_SET_DUTY 5 20000, pktCreate .CMD_HALT 0 0] (by decide)).2

end Encode

end MentorRevival
