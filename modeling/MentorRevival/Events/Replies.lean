import MentorRevival.Events.Dispatch
import MentorRevival.Events.Framing

/-!
# Requests and replies

As long as no packet is overwritten in the ring the replies to the host are those to its
frames, one each and in order. A reply repeats its frame, but for `CMD_READ_POS`, which puts
the sample of the axis into the data.
-/

namespace MentorRevival

open Transition Register

/-- What `currentPos` holds at each pass through the `switch`. -/
def samplesSeen : Action → State → List (Nat → UInt16)
  | .dispatch, s => [s.board.currentPos]
  | _, _ => []

/-- The reply to a frame that is handled while `currentPos` holds `samples`. -/
def reply (f : Frame) (samples : Nat → UInt16) : List UInt8 :=
  if Command.ofUInt8? (f.b0 >>> 4) = some .CMD_READ_POS then
    let v := samples (0xF &&& f.b0).toNat
    [f.b0, (v >>> 8).toUInt8, (v &&& 0xFF).toUInt8, 0xAE]
  else [f.b0, f.b1, f.b2, 0xAE]

section Handling

/-- The packet that the handlers leave, as a function of the samples. -/
def Packet.handledWith (p : Packet) (samples : Nat → UInt16) : Packet :=
  if Command.ofUInt8? p.command = some .CMD_READ_POS then
    { p with data := samples p.targetAxis.toNat }
  else p

theorem evtDispatch_packet (p : Packet) (b : Board) :
    (evtDispatch p b).1 = p.handledWith b.currentPos := by
  unfold evtDispatch Packet.handledWith
  split
  case h_3 h => rw [if_pos h, evtReadPos]
  all_goals
    next h =>
      rw [if_neg (by simp [h])]
      rfl

theorem handledWith_decode (f : Frame) (samples : Nat → UInt16) :
    evtSendPacket (f.decode.handledWith samples) = reply f samples := by
  unfold Packet.handledWith reply
  change evtSendPacket (if Command.ofUInt8? (f.b0 >>> 4) = some .CMD_READ_POS then _ else _) = _
  split
  · exact congrArg (· :: _) (List.cons.inj (encode_decode f)).1
  · exact encode_decode f

end Handling

section Log

/-- The reply that `evt_sendPacket` is about to send. -/
def State.pending (s : State) : List (List UInt8) :=
  if s.eventPc = .send then [evtSendPacket s.currentPacket.packet] else []

/-- The replies to the packets dispatched, when the passes through the `switch` saw `seen`. -/
def State.replies (s : State) (seen : List (Nat → UInt16)) : List (List UInt8) :=
  List.zipWith (fun u samples => evtSendPacket (u.item.packet.handledWith samples))
    s.dispatched seen

/-- The output consists of the replies to all packets dispatched but one that is pending. -/
structure Answers (seen : List (Nat → UInt16)) (s : State) : Prop where
  length_seen : seen.length = s.dispatched.length
  sent : ∃ done, s.replies seen = done ++ s.pending ∧ done.length = s.answered.length ∧
    s.sduOut = done.flatten

private theorem step_silent {l : Action} {s s' : State} (hs : step l s = some s')
    (hdispatch : l ≠ .dispatch) (hsend : l ≠ .send) :
    s'.dispatched = s.dispatched ∧ s'.answered = s.answered ∧ s'.sduOut = s.sduOut ∧
      s'.pending = s.pending := by
  cases l with
  | dispatch => exact absurd rfl hdispatch
  | send => exact absurd rfl hsend
  | semInit =>
    obtain ⟨hpc, rfl⟩ := enabled_of_some hs
    exact ⟨rfl, rfl, rfl, by simp [State.pending, State.afterSemInit, hpc]⟩
  | wait =>
    obtain ⟨hpc, rfl⟩ := enabled_of_some hs
    exact ⟨rfl, rfl, rfl, by simp [State.pending, State.afterWait, hpc.1]⟩
  | read =>
    obtain ⟨hpc, rfl⟩ := enabled_of_some hs
    exact ⟨rfl, rfl, rfl, by simp [State.pending, State.afterRead, hpc]⟩
  | adc samples =>
    obtain rfl := Option.some.inj hs
    exact ⟨rfl, rfl, rfl, rfl⟩
  | _ =>
    obtain ⟨_, rfl⟩ := enabled_of_some hs
    exact ⟨rfl, rfl, rfl, rfl⟩

private theorem samplesSeen_eq_nil {l : Action} (h : l ≠ .dispatch) (s : State) :
    samplesSeen l s = [] := by
  cases l with
  | dispatch => exact absurd rfl h
  | _ => rfl

private theorem Answers.dispatch {seen : List (Nat → UInt16)} {s : State} (h : Answers seen s)
    (hpc : s.eventPc = .dispatch) : Answers (seen ++ [s.board.currentPos]) s.afterDispatch := by
  obtain ⟨hlen, done, hreplies, hdone, hout⟩ := h
  have hpending : s.pending = [] := by simp [State.pending, hpc]
  have hnew := evtDispatch_packet s.currentPacket.packet s.board
  rw [hpending, List.append_nil] at hreplies
  constructor
  · simp [State.afterDispatch, hlen]
  · refine ⟨done, ?_, hdone, hout⟩
    rw [← hreplies]
    simp [State.replies, State.pending, State.afterDispatch, State.use, hnew,
      List.zipWith_append hlen.symm]

private theorem Answers.send {seen : List (Nat → UInt16)} {s : State} (h : Answers seen s)
    (hpc : s.eventPc = .send) : Answers seen s.afterSend := by
  obtain ⟨hlen, done, hreplies, hdone, hout⟩ := h
  have hpending : s.pending = [evtSendPacket s.currentPacket.packet] := by
    simp [State.pending, hpc]
  refine ⟨hlen, done ++ [evtSendPacket s.currentPacket.packet], ?_, ?_, ?_⟩
  · change s.replies seen = _
    rw [hreplies, hpending]
    simp [State.pending, State.afterSend]
  · simp [State.afterSend, hdone]
  · simp [State.afterSend, hout]

private theorem Answers.step {seen : List (Nat → UInt16)} {l : Action} {s s' : State}
    (h : Answers seen s) (hs : step l s = some s') : Answers (seen ++ samplesSeen l s) s' := by
  by_cases hdispatch : l = .dispatch
  · subst hdispatch
    obtain ⟨hpc, rfl⟩ := enabled_of_some hs
    exact h.dispatch hpc
  · rw [samplesSeen_eq_nil hdispatch, List.append_nil]
    by_cases hsend : l = .send
    · subst hsend
      obtain ⟨hpc, rfl⟩ := enabled_of_some hs
      exact h.send hpc
    · obtain ⟨hdispatched, hanswered, hout, hpending⟩ := step_silent hs hdispatch hsend
      obtain ⟨hlen, hsent⟩ := h
      refine ⟨by rw [hdispatched, hlen], ?_⟩
      rwa [State.replies, hdispatched, hanswered, hout, hpending]

theorem answers_of_run {uninitialised : Packet} {samples : Nat → UInt16} {ls : List Action}
    {s : State} (hrun : run step ls (init uninitialised samples) = some s) :
    Answers (observe step samplesSeen ls (init uninitialised samples)) s := by
  have hinit : Answers [] (init uninitialised samples) := ⟨rfl, [], rfl, rfl, rfl⟩
  exact observe_invariant (fun _ _ _ _ h hs => h.step hs) ls hinit hrun

end Log

section Stream

theorem framesOf_prefix (bs cs : List UInt8) : framesOf bs <+: framesOf (bs ++ cs) := by
  fun_induction framesOf bs with
  | case1 b0 b1 b2 b3 bs ih => exact (List.prefix_cons_inj _).mpr ih
  | case2 bs h => exact List.nil_prefix

theorem completed_frames {uninitialised : Packet} {samples : Nat → UInt16} {ls : List Action}
    {s : State} (hrun : run step ls (init uninitialised samples) = some s) {fs : List Frame}
    (hfirst : ∀ f, fs.head? = some f → f.b0 ≠ 254)
    (hfed : messages ls <+: fs.flatMap Frame.msgs) :
    s.completed <+: fs.map Frame.decode ∧ s.completed.length = (messages ls).length / 4 := by
  have hmsgs : fs.flatMap Frame.msgs = hostBytes (fs.flatMap Frame.bytes) := by
    rw [hostBytes, List.map_flatMap]
    rfl
  rw [hmsgs] at hfed
  obtain ⟨bs, hprefix, hbs⟩ := List.prefix_map_iff.mp hfed
  rw [← hostBytes] at hbs
  have hidle : afterIdle bs = bs := by
    apply List.dropWhile_beq_eq_self_of_head?_ne
    intro hhead
    obtain ⟨bs', rfl⟩ := List.head?_eq_some_iff.mp hhead
    obtain ⟨rest, hrest⟩ := hprefix
    cases fs with
    | nil => cases hrest
    | cons f fs => exact hfirst f rfl (List.cons.inj hrest).1.symm
  have hcompleted := congrArg Prod.snd (completed_eq uninitialised samples ls s hrun)
  rw [hbs, serialRun_bytes, hidle] at hcompleted
  change (framesOf bs).map Frame.decode = s.completed at hcompleted
  rw [← hcompleted, hbs, List.length_map, length_framesOf, hostBytes, List.length_map]
  refine ⟨?_, rfl⟩
  obtain ⟨rest, hrest⟩ := hprefix
  have hframes := framesOf_prefix bs rest
  rw [hrest, framesOf_flatMap] at hframes
  exact hframes.map _

end Stream

theorem Occurs.dispatched_prefix {s : State} (h : Occurs s) (hnone : s.overwritten = []) :
    s.dispatched.map Use.item <+: s.received := by
  rw [← h.uses_append_queue hnone, State.uses, List.map_append, List.append_assoc]
  exact List.prefix_append _ _

theorem Occurs.dispatched_frames {s : State} (h : Occurs s) (hnone : s.overwritten = [])
    {fs : List Frame} (hframes : s.completed <+: fs.map Frame.decode) :
    s.dispatched.map (fun u => u.item.packet) =
      (fs.take s.dispatched.length).map Frame.decode := by
  have hpackets : s.dispatched.map (fun u => u.item.packet) <+: s.completed := by
    have hmap := (h.dispatched_prefix hnone).map Stamped.packet
    rw [List.map_map] at hmap
    exact hmap.trans (List.prefix_append _ _)
  rw [List.map_take]
  exact List.prefix_iff_eq_take.mp (hpackets.trans hframes) |>.trans (by rw [List.length_map])

theorem Occurs.length_dispatched_of_quiescent {s : State} (h : Occurs s)
    (hnone : s.overwritten = []) (hq : Quiescent s) : s.dispatched.length = s.completed.length := by
  have hall := congrArg List.length (h.uses_append_queue hnone)
  have huses : s.uses = s.dispatched := by simp [State.uses, hq.event]
  rw [huses, hq.ring, List.append_nil, List.length_map] at hall
  simp [State.completed, hq.serial, hall]

private theorem zipWith_take_left {α β γ : Type*} (f : α → β → γ) (xs : List α) (ys : List β) :
    List.zipWith f (xs.take ys.length) ys = List.zipWith f xs ys := by
  induction ys generalizing xs with
  | nil => simp
  | cons y ys ih =>
    cases xs with
    | nil => rfl
    | cons x xs => exact congrArg (f x y :: ·) (ih xs)

theorem State.replies_eq {s : State} {fs : List Frame} {seen : List (Nat → UInt16)}
    (hlen : seen.length = s.dispatched.length)
    (hframes : s.dispatched.map (fun u => u.item.packet) =
      (fs.take s.dispatched.length).map Frame.decode) :
    s.replies seen = List.zipWith reply fs seen := by
  calc s.replies seen
      = List.zipWith (fun p samples => evtSendPacket (p.handledWith samples))
          (s.dispatched.map fun u => u.item.packet) seen := by rw [List.zipWith_map_left]; rfl
    _ = List.zipWith reply (fs.take s.dispatched.length) seen := by
        rw [hframes, List.zipWith_map_left]
        simp only [handledWith_decode]
    _ = List.zipWith reply fs seen := by rw [← hlen, zipWith_take_left]

theorem State.length_pending (s : State) :
    s.pending.length = if s.eventPc = .send then 1 else 0 := by
  unfold State.pending
  split <;> rfl

/-- As long as no packet is overwritten the output is, in every schedule, the concatenation of
one reply for each frame dispatched so far, but for the last one while it is still to be sent;
at rest every frame has been answered. -/
theorem replies_match (uninitialised : Packet) (samples : Nat → UInt16) (fs : List Frame)
    (hfirst : ∀ f, fs.head? = some f → f.b0 ≠ 254) (ls : List Action) (s : State)
    (hrun : run step ls (init uninitialised samples) = some s)
    (hfed : messages ls <+: fs.flatMap Frame.msgs)
    (hroom : Along step FindsRoom ls (init uninitialised samples)) :
    ∃ seen : List (Nat → UInt16),
      seen = observe step samplesSeen ls (init uninitialised samples) ∧
      s.dispatched.map (fun u => u.item.packet) = (fs.take seen.length).map Frame.decode ∧
      s.answered.length + (if s.eventPc = .send then 1 else 0) = seen.length ∧
      s.sduOut = ((List.zipWith reply fs seen).take s.answered.length).flatten ∧
      (Quiescent s → s.answered.length = (messages ls).length / 4) ∧
      (Quiescent s → messages ls = fs.flatMap Frame.msgs →
        s.answered.length = fs.length ∧ s.sduOut = (List.zipWith reply fs seen).flatten) := by
  have hocc : Occurs s := ⟨uninitialised, samples, ls, hrun⟩
  have hnone : s.overwritten = [] :=
    (along_iff_last (P := fun s => s.overwritten = []) (fun _ _ _ hs => overwritten_step hs) ls
      hrun).mpr ⟨rfl, hroom⟩
  obtain ⟨hframes, hcompleted⟩ := completed_frames hrun hfirst hfed
  have hdispatched := hocc.dispatched_frames hnone hframes
  obtain ⟨hlen, done, hreplies, hdone, hout⟩ := answers_of_run hrun
  generalize observe step samplesSeen ls (init uninitialised samples) = seen at hlen hreplies ⊢
  rw [State.replies_eq hlen hdispatched] at hreplies
  have hle : seen.length ≤ fs.length := by
    have hcount := congrArg List.length hdispatched
    rw [List.length_map, List.length_map, List.length_take, ← hlen] at hcount
    omega
  have hcount := congrArg List.length hreplies
  rw [List.length_zipWith, List.length_append, s.length_pending, Nat.min_eq_right hle, hdone]
    at hcount
  have hrest (hq : Quiescent s) : s.answered.length = (messages ls).length / 4 := by
    have hquiet := hocc.length_dispatched_of_quiescent hnone hq
    simp only [hq.event, reduceCtorEq, if_false, Nat.add_zero] at hcount
    omega
  refine ⟨seen, rfl, by rwa [hlen], hcount.symm, ?_, hrest, ?_⟩
  · rw [hreplies, ← hdone, List.take_left, hout]
  · intro hq hall
    have hempty : s.pending = [] := by simp [State.pending, hq.event]
    constructor
    · have hbytes : (messages ls).length = 4 * fs.length := by
        rw [hall]
        simp [List.length_flatMap, Frame.msgs, Frame.bytes]
        omega
      rw [hrest hq, hbytes]
      omega
    · rw [hreplies, hempty, List.append_nil, hout]

/-- A `CMD_SET_DUTY` and a `CMD_READ_POS`. The second frame comes in while the first one is
handled, and the samples change before it is handled itself. -/
theorem replies_match_two :
    ∃ s, run step (.semInit :: Frame.receive ⟨0x32, 0x4E, 0x20, 0⟩ ++ [.wait, .get 0x25, .read,
        .get 0, .dispatch, .adc fun _ => 1234, .get 0, .get 0, .write, .send, .signal] ++ turn)
        (init pktInit fun _ => 0) = some s ∧
      s.answered.length = 2 ∧ s.sduOut = [0x32, 0x4E, 0x20, 0xAE, 0x25, 0x04, 0xD2, 0xAE] := by
  refine ⟨_, rfl, ?_⟩
  obtain ⟨seen, hseen, _, _, _, _, hall⟩ := replies_match pktInit (fun _ => 0)
    [⟨0x32, 0x4E, 0x20, 0⟩, ⟨0x25, 0, 0, 0⟩] (by simp)
    (.semInit :: Frame.receive ⟨0x32, 0x4E, 0x20, 0⟩ ++ [.wait, .get 0x25, .read, .get 0,
      .dispatch, .adc fun _ => 1234, .get 0, .get 0, .write, .send, .signal] ++ turn) _ rfl
    (List.prefix_refl _) (by decide)
  obtain ⟨hanswered, hout⟩ := hall ⟨rfl, rfl, rfl, rfl⟩ rfl
  refine ⟨hanswered, ?_⟩
  rw [hout, hseen]
  rfl

end MentorRevival
