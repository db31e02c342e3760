import MentorRevival.Events.Overload
import MentorRevival.Joystick.Adc

/-!
# The link to the host

Both directions of the link as the host sees them. A queue reset is one more byte to
`serialThread`, and a receiver that has lost its place among the frames never finds it again.
A host that takes the replies apart with `packet.c` finds its own requests in them, with the
samples it asked for.
-/

namespace MentorRevival

open Transition Register

section Phase

/-- The bytes that `serialThread` takes the results of the stream for. -/
def bytesOf (ms : List Int) : List UInt8 := ms.map toChar

theorem serialRun_bytesOf (l : SerialLocal) (ms : List Int) :
    serialRun l ms = serialRun l (hostBytes (bytesOf ms)) := by
  induction ms generalizing l with
  | nil => rfl
  | cons m ms ih =>
    have hget : serialGet l m = serialGet l (toChar m).toNat := by
      simp only [serialGet, toChar_byte]
    have hstep : serialStep l m = serialStep l (toChar m).toNat := by
      simp only [serialStep_eq, hget]
    simp only [bytesOf, hostBytes, List.map_cons, serialRun_cons, hstep]
    rw [ih]
    rfl

private theorem framesOf_short {q : List UInt8} (hq : q.length < 4) : framesOf q = [] := by
  apply List.eq_nil_of_length_eq_zero
  rw [length_framesOf]
  omega

private theorem restOf_short {q : List UInt8} (hq : q.length < 4) : restOf q = q := by
  have hzero : 4 * (q.length / 4) = 0 := by omega
  rw [restOf, hzero, List.drop_zero]

/-- The bytes under assembly are the first ones of the next packet. -/
theorem serialRun_pending {q : List UInt8} (hq : q.length < 4) (bs : List UInt8) :
    serialRun { start := false, sPacket := q.foldl pktAppendByte pktInit } (hostBytes bs) =
      ({ start := false, sPacket := (restOf (q ++ bs)).foldl pktAppendByte pktInit },
        (framesOf (q ++ bs)).map Frame.decode) := by
  have hall := serialRun_synced_bytes (q ++ bs)
  have hfirst := serialRun_synced_bytes q
  rw [framesOf_short hq, restOf_short hq] at hfirst
  have hsplit : hostBytes (q ++ bs) = hostBytes q ++ hostBytes bs := List.map_append
  rw [hsplit, serialRun_append, hfirst] at hall
  exact hall

theorem toNat_numBytes_pending {q : List UInt8} (hq : q.length < 4) :
    (q.foldl pktAppendByte pktInit).numBytes.toNat = q.length := by
  rw [foldl_pktAppendByte, toNat_numBytes_assembled]
  omega

theorem serialRun_started {us : List Int} (h : (serialRun .init us).1.start = false) :
    ∃ q : List UInt8, q.length < 4 ∧
      (serialRun .init us).1 = { start := false, sPacket := q.foldl pktAppendByte pktInit } := by
  rw [serialRun_bytesOf, serialRun_bytes] at h ⊢
  refine ⟨restOf (afterIdle (bytesOf us)), ?_, ?_⟩
  · rw [length_restOf]
    omega
  · simp only at h
    rw [h]

/-- A receiver that has started cuts everything that follows, resets included, into packets
right behind the bytes it holds, and two receivers that are fed the same agree on where they
cut exactly if they did so before. -/
theorem framing_never_resynchronises (us vs ks : List Int)
    (hus : (serialRun .init us).1.start = false) (hvs : (serialRun .init vs).1.start = false) :
    (∃ q : List UInt8, q.length = (serialRun .init us).1.sPacket.numBytes.toNat ∧
        q.foldl pktAppendByte pktInit = (serialRun .init us).1.sPacket ∧
        (serialRun .init (us ++ ks)).2 =
          (serialRun .init us).2 ++ (framesOf (q ++ ks.map toChar)).map Frame.decode) ∧
      ((serialRun .init (us ++ ks)).1.sPacket.numBytes =
          (serialRun .init (vs ++ ks)).1.sPacket.numBytes ↔
        (serialRun .init us).1.sPacket.numBytes = (serialRun .init vs).1.sPacket.numBytes) := by
  obtain ⟨q, hq, hqs⟩ := serialRun_started hus
  obtain ⟨r, hr, hrs⟩ := serialRun_started hvs
  have hrest {q : List UInt8} : (restOf (q ++ bytesOf ks)).length < 4 := by
    rw [length_restOf]
    omega
  constructor
  · refine ⟨q, ?_, ?_, ?_⟩
    · rw [hqs, toNat_numBytes_pending hq]
    · rw [hqs]
    · rw [serialRun_append, hqs, serialRun_bytesOf _ ks, serialRun_pending hq]
      rfl
  · rw [serialRun_append, serialRun_append, hqs, hrs, serialRun_bytesOf _ ks,
      serialRun_bytesOf _ ks, serialRun_pending hq, serialRun_pending hr,
      ← UInt8.toNat_inj, ← UInt8.toNat_inj, toNat_numBytes_pending hrest,
      toNat_numBytes_pending hrest, toNat_numBytes_pending hq, toNat_numBytes_pending hr,
      length_restOf, length_restOf, List.length_append, List.length_append]
    omega

/-- A reset in the middle of a frame against none: the next two frames do not heal it. -/
theorem framing_never_resynchronises_reset :
    (serialRun .init ([0x30, 0x4E, Q_RESET] ++ [0, 0, 0, 0, 0, 0, 0, 0])).1.sPacket.numBytes ≠
      (serialRun .init ([0x30, 0x4E] ++ [0, 0, 0, 0, 0, 0, 0, 0])).1.sPacket.numBytes := by
  have hphase := (framing_never_resynchronises [0x30, 0x4E, Q_RESET] [0x30, 0x4E]
    [0, 0, 0, 0, 0, 0, 0, 0] rfl rfl).2
  exact mt hphase.mp (by decide)

end Phase

section Decoding

theorem reply_frame (f : Frame) (samples : Nat → UInt16) :
    ∃ g : Frame, reply f samples = g.bytes ∧ g.b0 = f.b0 ∧
      g.decode = f.decode.handledWith samples := by
  have hframe := handledWith_decode f samples
  refine ⟨(f.decode.handledWith samples).frame, hframe.symm, ?_, ?_⟩
  · have hfirst : (reply f samples).head? = some f.b0 := by
      unfold reply
      split
      · rfl
      · rfl
    rw [← hframe] at hfirst
    exact Option.some.inj hfirst
  · have hcommand : f.decode.command.toNat < 16 := by
      have hlt := f.b0.toNat_lt
      change (f.b0 >>> 4).toNat < 16
      rw [UInt8.toNat_shiftRight]
      simp only [UInt8.reduceToNat, Nat.reduceMod, Nat.shiftRight_eq_div_pow]
      omega
    have haxis : f.decode.targetAxis.toNat < 16 := by
      change (0xF &&& f.b0).toNat < 16
      rw [UInt8.toNat_and]
      exact Nat.lt_of_le_of_lt Nat.and_le_left (by decide)
    unfold Packet.handledWith
    split
    · exact MentorRevival.decode_frame hcommand haxis
    · exact MentorRevival.decode_frame hcommand haxis

theorem decode_replies (fs : List Frame) (seen : List (Nat → UInt16)) :
    serialRun .synced (hostBytes (List.zipWith reply fs seen).flatten) =
      (.synced, List.zipWith (fun f samples => f.decode.handledWith samples) fs seen) := by
  induction fs generalizing seen with
  | nil => rfl
  | cons f fs ih =>
    cases seen with
    | nil => rfl
    | cons samples seen =>
      obtain ⟨g, hbytes, _, hdecode⟩ := reply_frame f samples
      have hsplit : hostBytes (g.bytes ++ (List.zipWith reply fs seen).flatten) =
          g.msgs ++ hostBytes (List.zipWith reply fs seen).flatten := List.map_append
      rw [List.zipWith_cons_cons, List.flatten_cons, hbytes, hsplit, serialRun_synced_frame, ih,
        List.zipWith_cons_cons, hdecode]

end Decoding

section RoundTrip

theorem Packet.Encodable.knownCommand {p : Packet} (h : p.Encodable) : p.frame.KnownCommand := by
  have hcommand : p.frame.b0 >>> 4 = p.command := congrArg Packet.command h.decode_frame
  rw [Frame.KnownCommand, hcommand]
  exact h.1

theorem Packet.Encodable.handledWith_decode {p : Packet} (h : p.Encodable)
    (samples : Nat → UInt16) :
    p.frame.decode.handledWith samples = { p.handledWith samples with numBytes := 4 } := by
  rw [h.decode_frame]
  unfold Packet.handledWith
  split
  · rfl
  · rfl

theorem zipWith_handledWith_decode (ps : List Packet) (hps : ∀ p ∈ ps, p.Encodable)
    (seen : List (Nat → UInt16)) :
    List.zipWith (fun f samples => f.decode.handledWith samples) (ps.map Packet.frame) seen =
      List.zipWith (fun p samples => { p.handledWith samples with numBytes := 4 }) ps seen := by
  induction ps generalizing seen with
  | nil => rfl
  | cons p ps ih =>
    rw [List.forall_mem_cons] at hps
    cases seen with
    | nil => rfl
    | cons samples seen =>
      rw [List.map_cons, List.zipWith_cons_cons, List.zipWith_cons_cons,
        hps.1.handledWith_decode, ih hps.2]

theorem decode_replies_init (ps : List Packet) (hps : ∀ p ∈ ps, p.Encodable)
    (seen : List (Nat → UInt16)) :
    (serialRun .init (hostBytes (List.zipWith reply (ps.map Packet.frame) seen).flatten)).2 =
      List.zipWith (fun p samples => { p.handledWith samples with numBytes := 4 }) ps seen := by
  have hall : (serialRun .synced
      (hostBytes (List.zipWith reply (ps.map Packet.frame) seen).flatten)).2 =
        List.zipWith (fun f samples => f.decode.handledWith samples)
          (ps.map Packet.frame) seen := by
    rw [decode_replies]
  rw [← zipWith_handledWith_decode ps hps, ← hall]
  cases ps with
  | nil => rfl
  | cons p ps =>
    cases seen with
    | nil => rfl
    | cons samples seen =>
      obtain ⟨g, hbytes, hb0, _⟩ := reply_frame p.frame samples
      have hknown : g.KnownCommand := by
        rw [Frame.KnownCommand, hb0]
        exact (hps p (by simp)).knownCommand
      have hsplit (bs : List UInt8) : hostBytes (g.bytes ++ bs) = g.msgs ++ hostBytes bs :=
        List.map_append
      rw [List.map_cons, List.zipWith_cons_cons, List.flatten_cons, hbytes, hsplit,
        serialRun_first_frame hknown, serialRun_synced_frame]

theorem afterIdle_encoded (n : Nat) (ps : List Packet) (hps : ∀ p ∈ ps, p.Encodable) :
    afterIdle (List.replicate n 254 ++ ps.flatMap pktEncode) =
      (ps.map Packet.frame).flatMap Frame.bytes := by
  have hframes : ps.flatMap pktEncode = (ps.map Packet.frame).flatMap Frame.bytes := by
    rw [List.flatMap_map]
    rfl
  rw [afterIdle_replicate, ← hframes]
  cases ps with
  | nil => rfl
  | cons p ps => exact (hps p (by simp)).afterIdle_frame _

/-- A host that encodes any requests with `packet.c`, behind any number of idle bytes, and takes
the replies apart with it gets its requests back in order, a `CMD_READ_POS` with the sample that
`currentPos` held when it was handled; unless a packet is overwritten in the ring. -/
theorem host_round_trip (uninitialised : Packet) (samples : Nat → UInt16) (n : Nat)
    (ps : List Packet) (hps : ∀ p ∈ ps, p.Encodable) (ls : List Action) (s : State)
    (hrun : run step ls (init uninitialised samples) = some s)
    (hfed : messages ls = hostBytes (List.replicate n 254 ++ ps.flatMap pktEncode))
    (hroom : Along step FindsRoom ls (init uninitialised samples)) (hq : Quiescent s) :
    ∃ seen : List (Nat → UInt16),
      seen = observe step samplesSeen ls (init uninitialised samples) ∧
      seen.length = ps.length ∧
      (serialRun .init (hostBytes s.sduOut)).2 =
        List.zipWith (fun p samples => { p.handledWith samples with numBytes := 4 }) ps seen := by
  have hocc : Occurs s := ⟨uninitialised, samples, ls, hrun⟩
  have hnone : s.overwritten = [] :=
    (along_iff_last (P := fun s => s.overwritten = []) (fun _ _ _ hs => overwritten_step hs) ls
      hrun).mpr ⟨rfl, hroom⟩
  have hcompleted : s.completed = (ps.map Packet.frame).map Frame.decode := by
    rw [completed_host hrun hfed, afterIdle_encoded n ps hps, framesOf_flatMap]
  have hframes : s.completed <+: (ps.map Packet.frame).map Frame.decode :=
    ⟨[], by rw [List.append_nil, hcompleted]⟩
  have hdispatched := hocc.dispatched_frames hnone hframes
  obtain ⟨hlen, done, hreplies, _, hout⟩ := answers_of_run hrun
  refine ⟨_, rfl, ?_, ?_⟩
  · rw [hlen, hocc.length_dispatched_of_quiescent hnone hq, hcompleted, List.length_map,
      List.length_map]
  · have hpending : s.pending = [] := by simp [State.pending, hq.event]
    rw [State.replies_eq hlen hdispatched, hpending, List.append_nil] at hreplies
    rw [hout, ← hreplies, decode_replies_init ps hps]

/-- A `CMD_SET_DUTY` and a `CMD_READ_POS`, behind three idle bytes. -/
theorem host_round_trip_two :
    ∃ s, run step (.semInit :: List.replicate 3 (.get 254) ++
        Frame.receive ⟨0x32, 0x4E, 0x20, 0xAE⟩ ++ Frame.receive ⟨0x25, 0, 0, 0xAE⟩ ++
        .adc (fun _ => 1234) :: turn ++ turn) (init pktInit fun _ => 0) = some s ∧
      (serialRun .init (hostBytes s.sduOut)).2 =
        [pktCreate .CMD_SET_DUTY 2 20000, pktCreate .CMD_READ_POS 5 1234] := by
  refine ⟨_, rfl, ?_⟩
  obtain ⟨seen, hseen, _, hdecoded⟩ := host_round_trip pktInit (fun _ => 0) 3
    [pktCreate .CMD_SET_DUTY 2 20000, pktCreate .CMD_READ_POS 5 0] (by decide)
    (.semInit :: List.replicate 3 (.get 254) ++ Frame.receive ⟨0x32, 0x4E, 0x20, 0xAE⟩ ++
      Frame.receive ⟨0x25, 0, 0, 0xAE⟩ ++ .adc (fun _ => 1234) :: turn ++ turn) _ rfl rfl
    (by decide) ⟨rfl, rfl, rfl, rfl⟩
  rw [hdecoded, hseen]
  rfl

end RoundTrip

section Positions

def TwelveBit (samples : Nat → UInt16) : Prop :=
  ∀ i, i < ADC_NUM_CHANNELS → (samples i).toNat < 4096

/-- The step of the converter, if it is one, is a call of `adccallback` on 12-bit samples. -/
def Converts (l : Action) : Prop :=
  ∀ samples, l = .adc samples → ∃ rawSamples currentPos,
    (∀ k, (rawSamples k).toNat < 4096) ∧ adccallback rawSamples currentPos = ⟨samples, true⟩

theorem twelveBit_of_converts {samples : Nat → UInt16} (h : Converts (.adc samples)) :
    TwelveBit samples := by
  obtain ⟨rawSamples, currentPos, hraw, hcallback⟩ := h samples rfl
  rw [adccallback_eq] at hcallback
  intro i hi
  have hsample := Checked.fill_val (averages rawSamples) currentPos ⟨i, hi⟩
  rw [(Checked.mk.inj hcallback).1] at hsample
  rw [hsample, averages_toNat hraw]
  exact average_lt hraw _

theorem currentPos_withMotor {f : Motor → Board → Board}
    (hf : ∀ m b, (f m b).currentPos = b.currentPos) (motorNum : Int) (b : Board) :
    (withMotor motorNum f b).currentPos = b.currentPos := by
  unfold withMotor
  split
  · exact hf _ _
  · rfl

theorem currentPos_motorSetDir (motorNum : Int) (dir : Bool) (b : Board) :
    (motorSetDir motorNum dir b).currentPos = b.currentPos := by
  apply currentPos_withMotor
  intro m b
  rfl

theorem currentPos_motorSetSpeed (motorNum : Int) (speed : Int16) (b : Board) :
    (motorSetSpeed motorNum speed b).currentPos = b.currentPos := by
  apply currentPos_withMotor
  intro m b
  exact currentPos_motorSetDir motorNum _ (b.pwmEnableChannel m.pwmDriver m.pwmChannel _)

theorem currentPos_motorSetBrakes (motorNum : Int) (brake : Bool) (b : Board) :
    (motorSetBrakes motorNum brake b).currentPos = b.currentPos := by
  apply currentPos_withMotor
  intro m b
  rfl

/-- The samples belong to the converter: no handler writes them. -/
theorem currentPos_evtDispatch (p : Packet) (b : Board) :
    (evtDispatch p b).2.currentPos = b.currentPos := by
  unfold evtDispatch
  split
  case h_1 =>
    refine List.foldlRecOn (motive := fun b' : Board => b'.currentPos = b.currentPos) _ _ rfl ?_
    intro b' hb' i _
    rw [currentPos_motorSetBrakes, currentPos_motorSetSpeed, hb']
  case h_4 => exact currentPos_motorSetSpeed _ _ b
  case h_5 => exact currentPos_motorSetBrakes _ _ b
  all_goals rfl

theorem twelveBit_seen {ls : List Action} (hls : ∀ l ∈ ls, Converts l) {s : State}
    (h0 : TwelveBit s.board.currentPos) : ∀ x ∈ observe step samplesSeen ls s, TwelveBit x := by
  refine forall_observe (I := fun s => TwelveBit s.board.currentPos) ?_ ?_ hls h0
  · intro l s _ hs x hx
    cases l with
    | dispatch =>
      rw [List.mem_singleton.mp hx]
      exact hs
    | _ => simp [samplesSeen] at hx
  · intro l s s' hl hs hstep
    by_cases hdispatch : l = .dispatch
    · subst hdispatch
      obtain rfl := eq_afterDispatch hstep
      change TwelveBit (evtDispatch s.currentPacket.packet s.board).2.currentPos
      rwa [currentPos_evtDispatch]
    · cases l with
      | adc samples =>
        obtain rfl := Option.some.inj hstep
        exact twelveBit_of_converts hl
      | dispatch => exact absurd rfl hdispatch
      | _ =>
        obtain ⟨_, rfl⟩ := enabled_of_some hstep
        exact hs

/-- As long as `currentPos` is written by `adccallback` from 12-bit samples, every reply to a
`CMD_READ_POS` for an existing channel carries a 12-bit value, in every schedule and even when
packets are overwritten. -/
theorem position_replies_twelve_bit (uninitialised : Packet) (samples : Nat → UInt16)
    (hboot : TwelveBit samples) (bs : List UInt8) (ls : List Action) (s : State)
    (hrun : run step ls (init uninitialised samples) = some s)
    (hfed : messages ls = hostBytes bs) (hadc : ∀ l ∈ ls, Converts l) :
    ∀ p ∈ (serialRun .synced (hostBytes s.sduOut)).2,
      Command.ofUInt8? p.command = some .CMD_READ_POS →
      p.targetAxis.toNat < ADC_NUM_CHANNELS → p.data.toNat < 4096 := by
  obtain ⟨gs, _, hreplies⟩ := frames_of_dispatched hrun hfed
  obtain ⟨_, done, hsent, _, hout⟩ := answers_of_run hrun
  have htwelve := twelveBit_seen hadc (s := init uninitialised samples) hboot
  generalize observe step samplesSeen ls (init uninitialised samples) = seen at hsent htwelve
  have hdone : done = List.zipWith reply (gs.take done.length) (seen.take done.length) := by
    rw [← List.take_zipWith, ← hreplies, hsent, List.take_left]
  intro p hp hread haxis
  rw [hout, hdone, decode_replies] at hp
  obtain ⟨i, hi⟩ := List.getElem?_of_mem hp
  obtain ⟨g, x, _, hx, rfl⟩ := List.getElem?_zipWith_eq_some.mp hi
  have hsample : TwelveBit x := htwelve x (List.mem_of_mem_take (List.mem_of_getElem? hx))
  unfold Packet.handledWith at hread haxis ⊢
  split at hread
  · next hcommand =>
    rw [if_pos hcommand] at haxis ⊢
    exact hsample _ haxis
  · next hcommand => exact absurd hread hcommand

/-- Two conversions of channel 5 average to 1234. -/
theorem position_replies_twelve_bit_average :
    ∃ s, run step (.semInit :: Frame.receive ⟨0x25, 0, 0, 0⟩ ++
        .adc (Checked.fill (averages fun k => if (k : Nat) < 6 then 1233 else 1235) fun _ => 0) ::
        turn) (init pktInit fun _ => 0) = some s ∧
      s.sduOut = [0x25, 0x04, 0xD2, 0xAE] ∧
      ∀ p ∈ (serialRun .synced (hostBytes s.sduOut)).2,
        Command.ofUInt8? p.command = some .CMD_READ_POS →
        p.targetAxis.toNat < ADC_NUM_CHANNELS → p.data.toNat < 4096 := by
  refine ⟨_, rfl, rfl, ?_⟩
  apply position_replies_twelve_bit pktInit (fun _ => 0) (by simp [TwelveBit]) [0x25, 0, 0, 0]
    (.semInit :: Frame.receive ⟨0x25, 0, 0, 0⟩ ++
      .adc (Checked.fill (averages fun k => if (k : Nat) < 6 then 1233 else 1235) fun _ => 0) ::
      turn) _ rfl rfl
  rintro l hl samples rfl
  have hsamples : samples =
      Checked.fill (averages fun k => if (k : Nat) < 6 then 1233 else 1235) fun _ => 0 := by
    simpa [Frame.receive, Frame.msgs, Frame.bytes, turn] using hl
  refine ⟨fun k => if (k : Nat) < 6 then 1233 else 1235, fun _ => 0, by decide, ?_⟩
  rw [hsamples]
  exact adccallback_eq _ _

end Positions

end MentorRevival
