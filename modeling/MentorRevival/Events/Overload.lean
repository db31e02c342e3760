import MentorRevival.Events.Halt
import MentorRevival.Events.Replies
import MentorRevival.Events.Wakeups

/-!
# Overload

What a host sees that sends faster than `eventThread` works. The packets overwritten in the
ring are never among the last four received, and each of them is made up for by a spurious
wakeup: there are as many replies as frames, though some repeat an earlier one, and the last
four frames are always executed.
-/

namespace MentorRevival

open Transition Register DropQueue

section Positions

theorem Occurs.getElem?_received {s : State} (h : Occurs s) {r : Stamped}
    (hr : r ∈ s.received) : s.received[r.pos]? = some r := by
  obtain ⟨i, hi⟩ := List.getElem?_of_mem hr
  have hlt := (List.getElem?_eq_some_iff.mp hi).1
  have hpos := congrArg (·[i]?) h.stamps
  simp only [List.getElem?_map, hi, Option.map_some, List.getElem?_range hlt] at hpos
  rwa [Option.some.inj hpos]

theorem Occurs.length_received {s : State} (h : Occurs s) :
    s.received.length = s.overwritten.length + s.delivered.length + s.packetBuf.toList.length :=
  h.accounted.length_received

theorem Occurs.pos_queued {s : State} (h : Occurs s) {a : Stamped} {q : List Stamped}
    (hq : s.packetBuf.toList = a :: q) :
    a.pos = s.overwritten.length + s.delivered.length := by
  obtain ⟨gone, hgone⟩ : s.packetBuf.toList <:+ s.received := h.accounted.queue_suffix
  have hlen := h.length_received
  rw [hq] at hgone hlen
  have hget : s.received[gone.length]? = some a := by rw [← hgone]; simp
  have hlt := (List.getElem?_eq_some_iff.mp hget).1
  have hpos := congrArg (·[gone.length]?) h.stamps
  simp only [List.getElem?_map, hget, Option.map_some, List.getElem?_range hlt] at hpos
  have hsum := congrArg List.length hgone
  simp only [List.length_append, List.length_cons] at hsum hlen
  have := Option.some.inj hpos
  omega

/-- When the ring is empty `eventThread` still holds the packet received last. -/
theorem Occurs.pos_current {s : State} (h : Occurs s) (hq : s.packetBuf.toList = [])
    (hne : s.delivered ≠ []) : s.currentPacket.pos + 1 = s.received.length := by
  have hlast : (s.delivered ++ s.packetBuf.toList).getLast? = s.received.getLast? :=
    h.recent.getLast?_eq (by decide)
  rw [hq, List.append_nil] at hlast
  obtain ⟨r, hr⟩ : ∃ r, s.delivered.getLast? = some r :=
    ⟨_, List.getLast?_eq_some_getLast hne⟩
  have hcurrent := h.traced.current r.request (by rw [List.getLast?_map, hr]; rfl)
  have hpos : r.pos = s.currentPacket.pos := congrArg Request.pos hcurrent
  obtain ⟨front, hfront⟩ := List.getLast?_eq_some_iff.mp (hlast.symm.trans hr)
  have hstamp := congrArg List.getLast? h.stamps
  rw [hfront, List.getLast?_map] at hstamp
  simp [List.getLast?_range] at hstamp
  rw [hfront, ← hpos, hstamp]
  simp

theorem Occurs.length_uses {s : State} (h : Occurs s) :
    s.uses.length = s.delivered.length + s.emptyReads := by
  rw [← h.traced.fresh, ← h.traced.stale, List.length_map]
  exact List.length_eq_length_filter_add _

def State.InTurn (s : State) : Prop :=
  ∀ (i : Nat) (u : Use Stamped), s.uses[i]? = some u → i ≤ u.item.pos

theorem State.InTurn.add {s s' : State} (h : s.InTurn) {v : Use Stamped}
    (hv : s.uses.length ≤ v.item.pos) (huses : s'.uses = s.uses ++ [v]) : s'.InTurn := by
  intro i u hu
  rw [huses, List.getElem?_append] at hu
  split at hu
  · exact h i u hu
  · obtain ⟨hi, hu⟩ := List.getElem?_eq_some_iff.mp hu
    have hzero : i - s.uses.length = 0 := by simpa using hi
    simp only [hzero, List.getElem_cons_zero] at hu
    subst hu
    omega

theorem Occurs.inTurn {s : State} (h : Occurs s) : s.InTurn := by
  apply h.invariant
  · intro uninitialised samples i u hu
    simp [State.uses, init] at hu
  · intro s s' hocc hle hs
    rcases reads_or_keeps hs with ⟨hpc, rfl⟩ | ⟨huses, _⟩
    · have hlen := hocc.length_uses
      have hempty : s.emptyReads ≤ s.overwritten.length := hocc.accounted.emptyTakes_le
      cases hq : s.packetBuf.toList with
      | nil =>
        have hclaimed : s.mailbox.claimed = true := by simp [State.mailbox, hpc]
        have hne : s.delivered ≠ [] := hocc.accounted.delivered_ne_nil hclaimed hq
        refine hle.add ?_ (uses_afterRead_of_nil hocc.sound hpc hq)
        have hpos := hocc.pos_current hq hne
        have hall := hocc.length_received
        have htokens : s.packetSem + s.emptyReads + s.mailbox.posting.toNat +
            s.mailbox.claimed.toNat = s.packetBuf.toList.length + s.overwritten.length :=
          hocc.accounted.tokens_eq
        rw [hclaimed, hq] at htokens
        rw [hq] at hall
        simp only [Bool.toNat_true, List.length_nil] at htokens hall
        change s.uses.length ≤ s.currentPacket.pos
        omega
      | cons a q =>
        refine hle.add ?_ (uses_afterRead_of_cons hocc.sound hpc hq)
        have hpos := hocc.pos_queued hq
        change s.uses.length ≤ a.pos
        omega
    · rwa [State.InTurn, huses]

end Positions

section Frames

theorem Occurs.effective_dispatched {s : State} (h : Occurs s) {u : Use Stamped}
    (hu : u ∈ s.dispatched) :
    ∃ r ∈ s.received, r.pos = u.item.pos ∧ r.packet.effective = u.item.packet.effective := by
  have hreplayed : Replayed (fun x => (x.pos, x.packet.effective)) s :=
    h.replayed fun s => Prod.ext rfl (effective_evtDispatch s.currentPacket.packet s.board)
  have hmem : (u.item.pos, u.item.packet.effective) ∈
      (s.uses.map (Use.map fun x => (x.pos, x.packet.effective))).map Use.item := by
    rw [List.map_map]
    exact List.mem_map.mpr ⟨u, List.mem_append_left _ hu, rfl⟩
  obtain ⟨r, hr, heq⟩ := List.mem_map.mp (hreplayed.replay.mem_iff.mp hmem)
  obtain ⟨hpos, heffective⟩ := Prod.mk.inj heq
  have hreceived : r ∈ s.received :=
    h.accounted.delivered_append_queue.subset (List.mem_append_left _ hr)
  exact ⟨r, hreceived, hpos, heffective⟩

variable {uninitialised : Packet} {samples : Nat → UInt16} {ls : List Action} {s : State}
variable {bs : List UInt8}

theorem completed_host (hrun : run step ls (init uninitialised samples) = some s)
    (hfed : messages ls = hostBytes bs) :
    s.completed = (framesOf (afterIdle bs)).map Frame.decode := by
  have hcompleted := congrArg Prod.snd (completed_eq uninitialised samples ls s hrun)
  rw [hfed, serialRun_bytes] at hcompleted
  exact hcompleted.symm

theorem frame_of_received (hrun : run step ls (init uninitialised samples) = some s)
    (hfed : messages ls = hostBytes bs) {r : Stamped} (hr : r ∈ s.received) :
    ∃ f, (framesOf (afterIdle bs))[r.pos]? = some f ∧ f.decode = r.packet := by
  have hocc : Occurs s := ⟨uninitialised, samples, ls, hrun⟩
  have hget := hocc.getElem?_received hr
  have hcompleted : s.completed[r.pos]? = some r.packet := by
    rw [State.completed, List.getElem?_append_left, List.getElem?_map, hget]
    · rfl
    · rw [List.length_map]
      exact (List.getElem?_eq_some_iff.mp hget).1
  rw [completed_host hrun hfed, List.getElem?_map] at hcompleted
  exact Option.map_eq_some_iff.mp hcompleted

theorem handledWith_effective (p : Packet) (samples : Nat → UInt16) :
    p.effective.handledWith samples = p.handledWith samples := by
  unfold Packet.effective
  split
  · next h => simp [Packet.handledWith, h]
  · rfl

theorem handledWith_of_effective {p q : Packet} (h : p.effective = q.effective)
    (samples : Nat → UInt16) : p.handledWith samples = q.handledWith samples := by
  rw [← handledWith_effective, h, handledWith_effective]

/-- A packet dispatched again may hold a sample, but its reply is that to its frame. -/
theorem frame_of_dispatched (hrun : run step ls (init uninitialised samples) = some s)
    (hfed : messages ls = hostBytes bs) {u : Use Stamped} (hu : u ∈ s.dispatched) :
    ∃ f, (framesOf (afterIdle bs))[u.item.pos]? = some f ∧
      ∀ seen, evtSendPacket (u.item.packet.handledWith seen) = reply f seen := by
  have hocc : Occurs s := ⟨uninitialised, samples, ls, hrun⟩
  obtain ⟨r, hr, hpos, heffective⟩ := hocc.effective_dispatched hu
  obtain ⟨f, hf, hdecode⟩ := frame_of_received hrun hfed hr
  refine ⟨f, by rwa [← hpos], fun seen => ?_⟩
  rw [← handledWith_of_effective heffective, ← hdecode, handledWith_decode]

theorem frames_of_dispatched (hrun : run step ls (init uninitialised samples) = some s)
    (hfed : messages ls = hostBytes bs) :
    ∃ gs : List Frame,
      gs.map some = s.dispatched.map (fun u => (framesOf (afterIdle bs))[u.item.pos]?) ∧
      ∀ seen, s.replies seen = List.zipWith reply gs seen := by
  have hframe := fun u hu => frame_of_dispatched (u := u) hrun hfed hu
  unfold State.replies
  generalize s.dispatched = us at hframe ⊢
  induction us with
  | nil => exact ⟨[], rfl, fun seen => by simp⟩
  | cons u us ih =>
    obtain ⟨gs, hgs, hreplies⟩ := ih fun v hv => hframe v (List.mem_cons_of_mem _ hv)
    obtain ⟨g, hg, hreply⟩ := hframe u (List.mem_cons_self ..)
    refine ⟨g :: gs, by rw [List.map_cons, List.map_cons, hg, hgs], fun seen => ?_⟩
    cases seen with
    | nil => rfl
    | cons x seen =>
      rw [List.zipWith_cons_cons, List.zipWith_cons_cons, hreply, hreplies]

end Frames

section Rest

variable {s : State}

theorem Occurs.uses_at_rest (hq : Quiescent s) : s.uses = s.dispatched := by
  simp [State.uses, hq.event]

theorem completed_at_rest (hq : Quiescent s) : s.completed = s.received.map Stamped.packet := by
  simp [State.completed, hq.serial]

theorem Occurs.length_dispatched_at_rest (h : Occurs s) (hq : Quiescent s) :
    s.dispatched.length = s.received.length := by
  have huses := h.length_uses
  have hall := h.length_received
  have hbalance := (h.accounted.at_rest hq.sem (by simp [State.mailbox, hq.serial])
    (by simp [State.mailbox, hq.event])).2
  change s.emptyReads = s.overwritten.length at hbalance
  rw [Occurs.uses_at_rest hq] at huses
  rw [hq.ring, List.length_nil] at hall
  omega

/-- At rest the last packets received have been delivered, behind some of the others. -/
theorem Occurs.delivered_at_rest (h : Occurs s) (hq : Quiescent s) :
    ∃ old, s.delivered = old ++ s.received.rtake capacity ∧
      old.Sublist (s.received.rdrop capacity) := by
  obtain ⟨old, hkept, hold⟩ := h.recent.kept
  refine ⟨old, ?_, hold⟩
  change s.delivered ++ s.packetBuf.toList = _ at hkept
  rwa [hq.ring, List.append_nil] at hkept

theorem Occurs.dispatched_at_rest (h : Occurs s) (hq : Quiescent s) {k : Nat}
    (hk : k < s.received.length) (hrecent : s.received.length ≤ k + capacity) :
    k ∈ s.dispatched.map fun u => u.item.pos := by
  obtain ⟨old, hdelivered, _⟩ := h.delivered_at_rest hq
  have hpos : (s.received[k]).pos = k := by
    have hstamp := congrArg (·[k]?) h.stamps
    simpa [List.getElem?_map, List.getElem?_eq_getElem hk, List.getElem?_range hk] using hstamp
  have hmem : s.received[k] ∈ s.delivered := by
    rw [hdelivered, List.mem_append]
    right
    rw [List.rtake, List.mem_drop_iff_getElem]
    refine ⟨k - (s.received.length - capacity), by omega, ?_⟩
    congr 1
    omega
  rw [← h.traced.fresh, Occurs.uses_at_rest hq] at hmem
  obtain ⟨u, hu, hitem⟩ := List.mem_map.mp hmem
  exact List.mem_map.mpr ⟨u, List.mem_of_mem_filter hu, by rw [hitem, hpos]⟩

theorem delivered_frames {uninitialised : Packet} {samples : Nat → UInt16} {ls : List Action}
    {bs : List UInt8} (hrun : run step ls (init uninitialised samples) = some s)
    (hfed : messages ls = hostBytes bs) (hq : Quiescent s) :
    ∃ old : List Frame, old.Sublist ((framesOf (afterIdle bs)).rdrop capacity) ∧
      s.delivered.map Stamped.packet =
        (old ++ (framesOf (afterIdle bs)).rtake capacity).map Frame.decode := by
  have hocc : Occurs s := ⟨uninitialised, samples, ls, hrun⟩
  obtain ⟨old, hdelivered, hold⟩ := hocc.delivered_at_rest hq
  have hframes : s.received.map Stamped.packet = (framesOf (afterIdle bs)).map Frame.decode := by
    rw [← completed_at_rest hq, completed_host hrun hfed]
  have hsub := hold.map Stamped.packet
  rw [map_rdrop, hframes, ← map_rdrop] at hsub
  obtain ⟨gs, hgs, heq⟩ := List.sublist_map_iff.mp hsub
  refine ⟨gs, hgs, ?_⟩
  rw [hdelivered, List.map_append, List.map_append, map_rtake, hframes, ← map_rtake, heq]

end Rest

/-- In every schedule and for every stream of host bytes the output is the concatenation of
replies to frames, in the order of the frames though with repetitions, none ahead of its
frame; at rest there are as many replies as frames, and the last four frames have theirs. -/
theorem replies_under_overload (uninitialised : Packet) (samples : Nat → UInt16)
    (bs : List UInt8) (ls : List Action) (s : State)
    (hrun : run step ls (init uninitialised samples) = some s)
    (hfed : messages ls = hostBytes bs) :
    ∃ (ps : List Nat) (gs : List Frame) (seen : List (Nat → UInt16)),
      seen = observe step samplesSeen ls (init uninitialised samples) ∧
      gs.map some = ps.map (fun p => (framesOf (afterIdle bs))[p]?) ∧
      ps.Pairwise (· ≤ ·) ∧ (∀ i p : Nat, ps[i]? = some p → i ≤ p) ∧
      s.answered.length + (if s.eventPc = .send then 1 else 0) = ps.length ∧
      s.sduOut = ((List.zipWith reply gs seen).take s.answered.length).flatten ∧
      (Quiescent s → s.answered.length = (framesOf (afterIdle bs)).length ∧
        s.sduOut = (List.zipWith reply gs seen).flatten ∧
        ∀ k, k < (framesOf (afterIdle bs)).length →
          (framesOf (afterIdle bs)).length ≤ k + capacity → k ∈ ps) := by
  have hocc : Occurs s := ⟨uninitialised, samples, ls, hrun⟩
  obtain ⟨gs, hgs, hreplies⟩ := frames_of_dispatched hrun hfed
  obtain ⟨hlen, done, hsent, hdone, hout⟩ := answers_of_run hrun
  generalize observe step samplesSeen ls (init uninitialised samples) = seen at hlen hsent ⊢
  have hcount := congrArg List.length hsent
  rw [State.replies, List.length_zipWith, hlen, Nat.min_self, List.length_append,
    s.length_pending, hdone] at hcount
  rw [hreplies] at hsent
  refine ⟨s.dispatched.map fun u => u.item.pos, gs, seen, rfl, ?_, hocc.dispatched_pairwise,
    ?_, ?_, ?_, ?_⟩
  · rw [hgs, List.map_map]
    rfl
  · intro i p hp
    rw [List.getElem?_map] at hp
    obtain ⟨u, hu, rfl⟩ := Option.map_eq_some_iff.mp hp
    apply hocc.inTurn i u
    rw [State.uses, List.getElem?_append_left (List.getElem?_eq_some_iff.mp hu).1, hu]
  · rw [List.length_map, hcount]
  · rw [hsent, ← hdone, List.take_left, hout]
  · intro hq
    have hall : s.received.length = (framesOf (afterIdle bs)).length := by
      have hframes := congrArg List.length (completed_host hrun hfed)
      rwa [completed_at_rest hq, List.length_map, List.length_map] at hframes
    have hpending : s.pending = [] := by simp [State.pending, hq.event]
    refine ⟨?_, ?_, ?_⟩
    · have hrest := hocc.length_dispatched_at_rest hq
      simp only [hq.event, reduceCtorEq, if_false, Nat.add_zero] at hcount
      omega
    · rw [hsent, hpending, List.append_nil, hout]
    · rw [← hall]
      exact fun k hk hrecent => hocc.dispatched_at_rest hq hk hrecent

/-- Five frames at once: the first one is overwritten, and the last one is answered twice. -/
theorem replies_under_overload_burst :
    ∃ s, run step (.semInit :: ([0x11, 0x12, 0x13, 0x14, 0x15].map fun b =>
          Frame.receive ⟨b, 0, 0, 0⟩).flatten ++ (List.replicate 5 turn).flatten)
        (init pktInit fun _ => 0) = some s ∧
      s.sduOut = [0x12, 0x13, 0x14, 0x15, 0x15].flatMap (fun b => [b, 0, 0, 0xAE]) ∧
      s.answered.length = 5 := by
  refine ⟨_, rfl, rfl, ?_⟩
  obtain ⟨_, _, _, _, _, _, _, _, _, hrest⟩ := replies_under_overload pktInit (fun _ => 0)
    ([0x11, 0x12, 0x13, 0x14, 0x15].flatMap fun b => [b, 0, 0, 0])
    (.semInit :: ([0x11, 0x12, 0x13, 0x14, 0x15].map fun b =>
      Frame.receive ⟨b, 0, 0, 0⟩).flatten ++ (List.replicate 5 turn).flatten) _ rfl rfl
  exact (hrest ⟨rfl, rfl, rfl, rfl⟩).1

/-- At rest the motors are driven as if the last four frames, and some of those in front of
them, had been executed in order. -/
theorem motors_under_overload (uninitialised : Packet) (samples : Nat → UInt16)
    (bs : List UInt8) (ls : List Action) (s : State)
    (hrun : run step ls (init uninitialised samples) = some s)
    (hfed : messages ls = hostBytes bs) (hq : Quiescent s) :
    ∃ old : List Frame, old.Sublist ((framesOf (afterIdle bs)).rdrop capacity) ∧
      ∀ m, s.board.motorOut m =
        (execute (motorInit (Board.reset samples))
          ((old ++ (framesOf (afterIdle bs)).rtake capacity).map Frame.decode)).motorOut m := by
  have hocc : Occurs s := ⟨uninitialised, samples, ls, hrun⟩
  obtain ⟨old, hold, hdelivered⟩ := delivered_frames hrun hfed hq
  refine ⟨old, hold, fun m => ?_⟩
  rw [hocc.motorOut_delivered (by simp [hq.event]), hdelivered, motorOut_execute,
    motorOut_motorInit]
  rfl

theorem motors_under_overload_burst :
    ∃ s, run step (.semInit :: ([0x30, 0x31, 0x32, 0x33, 0x34].map fun b =>
          Frame.receive ⟨b, 0x4E, 0x20, 0⟩).flatten ++ (List.replicate 5 turn).flatten)
        (init pktInit fun _ => 0) = some s ∧ s.overwritten.length = 1 ∧
      ∃ old : List Frame, ∀ m, s.board.motorOut m = (execute (motorInit (Board.reset fun _ => 0))
        ((old ++ (framesOf (afterIdle ([0x30, 0x31, 0x32, 0x33, 0x34].flatMap fun b =>
          [b, 0x4E, 0x20, 0]))).rtake capacity).map Frame.decode)).motorOut m := by
  refine ⟨_, rfl, rfl, ?_⟩
  obtain ⟨old, _, hmotors⟩ := motors_under_overload pktInit (fun _ => 0)
    ([0x30, 0x31, 0x32, 0x33, 0x34].flatMap fun b => [b, 0x4E, 0x20, 0])
    (.semInit :: ([0x30, 0x31, 0x32, 0x33, 0x34].map fun b =>
      Frame.receive ⟨b, 0x4E, 0x20, 0⟩).flatten ++ (List.replicate 5 turn).flatten) _ rfl rfl
    ⟨rfl, rfl, rfl, rfl⟩
  exact ⟨old, hmotors⟩

section Stop

theorem MotorOut.Halted.foldl {m : Fin NUM_MOTOR} {o : MotorOut} (ho : o.Halted)
    {ps : List Packet} (h : ∀ p ∈ ps, ¬ p.Sets m) : (ps.foldl (MotorOut.after m) o).Halted :=
  List.foldlRecOn ps (MotorOut.after m) ho fun _ ho p hp => MotorOut.Halted.after ho (h p hp)

/-- A `CMD_HALT` among the last four frames is never lost: at rest it holds every motor that
no frame behind it sets. -/
theorem last_halt_holds (uninitialised : Packet) (samples : Nat → UInt16) (bs : List UInt8)
    (ls : List Action) (s : State) (hrun : run step ls (init uninitialised samples) = some s)
    (hfed : messages ls = hostBytes bs) (hq : Quiescent s) (k : Nat) (f : Frame)
    (hf : (framesOf (afterIdle bs))[k]? = some f) (hhalt : f.decode.isHalt)
    (hrecent : (framesOf (afterIdle bs)).length ≤ k + capacity) (m : Fin NUM_MOTOR)
    (hlater : ∀ g ∈ (framesOf (afterIdle bs)).drop (k + 1), ¬ g.decode.Sets m) :
    HaltedMotor m s := by
  have hocc : Occurs s := ⟨uninitialised, samples, ls, hrun⟩
  obtain ⟨old, _, hdelivered⟩ := delivered_frames hrun hfed hq
  generalize framesOf (afterIdle bs) = fs at *
  obtain ⟨hk, rfl⟩ := List.getElem?_eq_some_iff.mp hf
  have hlast : fs.rtake capacity =
      (fs.rtake capacity).take (k - (fs.length - capacity)) ++ fs[k] :: fs.drop (k + 1) := by
    rw [← List.drop_eq_getElem_cons hk]
    have hsplit := List.take_append_drop (k - (fs.length - capacity)) (fs.rtake capacity)
    have hplace : fs.length - capacity + (k - (fs.length - capacity)) = k := by omega
    conv_lhs => rw [← hsplit]
    rw [List.rtake, List.drop_drop, hplace]
  rw [haltedMotor_iff, hocc.motorOut_delivered (by simp [hq.event]), hdelivered, hlast]
  simp only [List.map_append, List.map_cons, List.foldl_append, List.foldl_cons]
  apply (MotorOut.halted_after_halt hhalt).foldl
  intro p hp
  obtain ⟨g, hg, rfl⟩ := List.mem_map.mp hp
  exact hlater g hg

/-- Two frames, a `CMD_HALT` and three more frames, all at once: motor 2 is held. -/
theorem last_halt_holds_six :
    ∃ s, run step (.semInit :: ([0x32, 0x32, 0, 0x10, 0x10, 0x30].map fun b =>
          Frame.receive ⟨b, 0x4E, 0x20, 0⟩).flatten ++ (List.replicate 6 turn).flatten)
        (init pktInit fun _ => 0) = some s ∧ HaltedMotor 2 s := by
  refine ⟨_, rfl, ?_⟩
  exact last_halt_holds pktInit (fun _ => 0)
    ([0x32, 0x32, 0, 0x10, 0x10, 0x30].flatMap fun b => [b, 0x4E, 0x20, 0])
    (.semInit :: ([0x32, 0x32, 0, 0x10, 0x10, 0x30].map fun b =>
      Frame.receive ⟨b, 0x4E, 0x20, 0⟩).flatten ++ (List.replicate 6 turn).flatten) _ rfl rfl
    ⟨rfl, rfl, rfl, rfl⟩ 2 ⟨0, 0x4E, 0x20, 0⟩ rfl (by decide) (by decide) 2 (by decide)

end Stop

end MentorRevival
