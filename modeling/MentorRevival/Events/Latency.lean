import MentorRevival.Events.Overload
import MentorRevival.Events.Progress

/-!
# Response time

A packet in the ring only ever moves towards the head. So it is executed within a fixed number
of steps of `eventThread`, unless it is overwritten; the other thread and the converter may do
in the meantime what they like.
-/

namespace MentorRevival

open Transition Register DropQueue

def Action.byEvent : Action → Bool
  | .semInit | .wait | .read | .dispatch | .send => true
  | .get _ | .write | .signal | .adc _ => false

/-- How many steps `eventThread` is away from having executed the first packet of the ring. -/
def EventPc.ahead : EventPc → Nat
  | .semInit => 4
  | .wait => 3
  | .read => 2
  | .dispatch => 5
  | .send => 4

def State.Settled (p : Nat) (s : State) : Prop :=
  p ∈ s.dispatched.map (fun u => u.item.pos) ∨ p ∈ s.overwritten.map Stamped.pos

/-- The packet at position `p` is in hand, or in the ring behind `i` others. -/
inductive State.DueIn (p : Nat) : Nat → State → Prop
  | current {s : State} (hpc : s.eventPc = .dispatch) (hpos : s.currentPacket.pos = p) : DueIn p 1 s
  | queued {s : State} {i : Nat} {r : Stamped} (hr : s.packetBuf.toList[i]? = some r)
    (hpos : r.pos = p) : DueIn p (4 * i + s.eventPc.ahead) s

namespace State

variable {p n : Nat} {s s' : State}

theorem Settled.step {l : Action} (h : s.Settled p) (hs : step l s = some s') :
    s'.Settled p := by
  cases l with
  | dispatch =>
    obtain ⟨_, rfl⟩ := enabled_of_some hs
    refine h.imp (fun hp => ?_) id
    simp only [afterDispatch, List.map_append, List.mem_append]
    exact Or.inl hp
  | write =>
    obtain ⟨_, rfl⟩ := enabled_of_some hs
    refine h.imp id fun hp => ?_
    simp only [afterWrite, List.map_append, List.mem_append]
    exact Or.inl hp
  | adc samples =>
    obtain rfl := Option.some.inj hs
    exact h
  | _ =>
    obtain ⟨_, rfl⟩ := enabled_of_some hs
    exact h

theorem queued_afterWrite (h : Sound s) {i : Nat} {r : Stamped}
    (hr : s.packetBuf.toList[i]? = some r) :
    s.afterWrite.Settled r.pos ∨
      ∃ j, j ≤ i ∧ s.afterWrite.packetBuf.toList[j]? = some r := by
  have hqueue := Circ.toList_circWrite h.valid s.incoming
  have hlt := (List.getElem?_eq_some_iff.mp hr).1
  rw [h.size_eq] at hqueue
  change s.afterWrite.packetBuf.toList = push capacity s.packetBuf.toList s.incoming at hqueue
  have hlen : s.packetBuf.toList.length ≤ capacity := by
    have hcount := h.valid.count_lt
    rw [h.size_eq] at hcount
    rw [Circ.length_toList]
    exact Nat.le_of_lt_succ hcount
  rcases Nat.lt_or_eq_of_le hlen with hroom | hfull
  · refine Or.inr ⟨i, Nat.le_refl _, ?_⟩
    rw [hqueue, push_of_lt hroom, List.getElem?_append_left hlt, hr]
  · cases i with
    | zero =>
      left
      right
      have hlost := h.lost_eq
      rw [overflow_of_full hfull] at hlost
      cases hq : s.packetBuf.toList with
      | nil =>
        rw [hq] at hlt
        cases hlt
      | cons a q =>
        rw [hq] at hr hlost
        obtain rfl : a = r := by simpa using hr
        simp [afterWrite, hlost]
    | succ i =>
      refine Or.inr ⟨i, Nat.le_succ i, ?_⟩
      rw [hqueue, push_of_full hfull, List.getElem?_tail, List.getElem?_append_left hlt, hr]

theorem queued_afterRead (h : Sound s) (hpc : s.eventPc = .read) {i : Nat} {r : Stamped}
    (hr : s.packetBuf.toList[i]? = some r) :
    ∃ m, s.afterRead.DueIn r.pos m ∧ m + 1 ≤ 4 * i + s.eventPc.ahead := by
  cases hq : s.packetBuf.toList with
  | nil => simp [hq] at hr
  | cons a q =>
    obtain ⟨c, hrest, hread⟩ := afterRead_of_cons h hq
    rw [hq] at hr
    cases i with
    | zero =>
      obtain rfl : a = r := by simpa using hr
      refine ⟨1, .current ?_ ?_, ?_⟩
      · rw [hread]
      · rw [hread]
      · simp [hpc, EventPc.ahead]
    | succ i =>
      have hr' : s.afterRead.packetBuf.toList[i]? = some r := by
        rw [hread]
        change c.toList[i]? = some r
        rw [hrest]
        simpa using hr
      refine ⟨_, .queued hr' rfl, ?_⟩
      rw [hread]
      simp only [hpc, EventPc.ahead]
      omega

theorem DueIn.step {l : Action} (h : Sound s) (hdue : s.DueIn p n)
    (hs : MentorRevival.step l s = some s') :
    s'.Settled p ∨ ∃ m, s'.DueIn p m ∧ m + l.byEvent.toNat ≤ n := by
  cases hdue with
  | current hpc hpos =>
    cases l with
    | dispatch =>
      obtain ⟨_, rfl⟩ := enabled_of_some hs
      left
      left
      simp [afterDispatch, use, hpos]
    | semInit => simp [MentorRevival.step, hpc] at hs
    | wait => simp [MentorRevival.step, hpc] at hs
    | read => simp [MentorRevival.step, hpc] at hs
    | send => simp [MentorRevival.step, hpc] at hs
    | adc samples =>
      obtain rfl := Option.some.inj hs
      exact Or.inr ⟨1, .current hpc hpos, Nat.le_refl _⟩
    | _ =>
      obtain ⟨_, rfl⟩ := enabled_of_some hs
      exact Or.inr ⟨1, .current hpc hpos, Nat.le_refl _⟩
  | @queued _ i r hr hpos =>
    subst hpos
    cases l with
    | write =>
      obtain ⟨_, rfl⟩ := enabled_of_some hs
      rcases queued_afterWrite h hr with hlost | ⟨j, hj, hr'⟩
      · exact Or.inl hlost
      · refine Or.inr ⟨_, .queued hr' rfl, ?_⟩
        simp only [afterWrite, Action.byEvent, Bool.toNat_false]
        omega
    | read =>
      obtain ⟨hpc, rfl⟩ := enabled_of_some hs
      exact Or.inr (queued_afterRead h hpc hr)
    | semInit =>
      obtain ⟨hpc, rfl⟩ := enabled_of_some hs
      refine Or.inr ⟨_, .queued (s := s.afterSemInit) hr rfl, ?_⟩
      simp [afterSemInit, hpc, EventPc.ahead, Action.byEvent]
    | wait =>
      obtain ⟨hpc, rfl⟩ := enabled_of_some hs
      refine Or.inr ⟨_, .queued (s := s.afterWait) hr rfl, ?_⟩
      simp [afterWait, hpc.1, EventPc.ahead, Action.byEvent]
    | dispatch =>
      obtain ⟨hpc, rfl⟩ := enabled_of_some hs
      refine Or.inr ⟨_, .queued (s := s.afterDispatch) hr rfl, ?_⟩
      simp [afterDispatch, hpc, EventPc.ahead, Action.byEvent]
    | send =>
      obtain ⟨hpc, rfl⟩ := enabled_of_some hs
      refine Or.inr ⟨_, .queued (s := s.afterSend) hr rfl, ?_⟩
      simp [afterSend, hpc, EventPc.ahead, Action.byEvent]
    | get m =>
      obtain ⟨_, rfl⟩ := enabled_of_some hs
      exact Or.inr ⟨_, .queued (s := s.afterGet m) hr rfl, Nat.le_refl _⟩
    | signal =>
      obtain ⟨_, rfl⟩ := enabled_of_some hs
      exact Or.inr ⟨_, .queued (s := s.afterSignal) hr rfl, Nat.le_refl _⟩
    | adc samples =>
      obtain rfl := Option.some.inj hs
      exact Or.inr ⟨_, .queued (s := s.afterAdc samples) hr rfl, Nat.le_refl _⟩

theorem DueIn.pos (h : s.DueIn p n) : 0 < n := by
  cases h with
  | current hpc hpos => exact Nat.one_pos
  | queued hr hpos =>
    cases s.eventPc <;> simp [EventPc.ahead]

end State

/-- In any schedule a packet that is in the ring has been executed, or overwritten, by the time
`eventThread` has made 17 steps. -/
theorem executed_within (s t : State) (h : Occurs s) (r : Stamped)
    (hr : r ∈ s.packetBuf.toList) (ls : List Action) (hrun : run step ls s = some t)
    (hsteps : 17 ≤ ls.countP Action.byEvent) :
    r.pos ∈ t.dispatched.map (fun u => u.item.pos) ∨ r.pos ∈ t.overwritten.map Stamped.pos := by
  obtain ⟨i, hi⟩ := List.getElem?_of_mem hr
  have hlt : i < 4 := by
    have hcount := h.sound.valid.count_lt
    have hi' := (List.getElem?_eq_some_iff.mp hi).1
    rw [Circ.length_toList] at hi'
    rw [h.sound.size_eq] at hcount
    exact Nat.lt_of_lt_of_le hi' (Nat.le_of_lt_succ hcount)
  have hahead : s.eventPc.ahead ≤ 5 := by
    cases s.eventPc <;> simp [EventPc.ahead]
  have hdue : t.Settled r.pos ∨
      ∃ m, t.DueIn r.pos m ∧ m + ls.countP Action.byEvent ≤ 4 * i + s.eventPc.ahead := by
    refine done_or_due ?_ ?_ ?_ ls h (.queued hi rfl) hrun
    · exact fun _ _ _ hocc hs => hocc.next hs
    · exact fun _ _ _ hsettled hs => hsettled.step hs
    · exact fun _ _ _ _ hocc hdue hs => hdue.step hocc.sound hs
  rcases hdue with hsettled | ⟨m, hm, hle⟩
  · exact hsettled
  · have hpos := hm.pos
    omega

/-- One packet is in the ring, and another one comes in behind it before each turn. -/
theorem executed_within_five :
    ∃ s t, run step (.semInit :: Frame.receive ⟨0x10, 0, 0, 0⟩)
        (init pktInit fun _ => 0) = some s ∧
      run step (List.replicate 5 (turn ++ Frame.receive ⟨0x11, 0, 0, 0⟩)).flatten s = some t ∧
      (0 ∈ t.dispatched.map (fun u => u.item.pos) ∨ 0 ∈ t.overwritten.map Stamped.pos) := by
  refine ⟨_, _, rfl, rfl, ?_⟩
  have hocc : Occurs _ := ⟨pktInit, fun _ => 0,
    .semInit :: Frame.receive ⟨0x10, 0, 0, 0⟩, rfl⟩
  exact executed_within _ _ hocc ⟨0, pktCreate .CMD_READ_CURRENT 0 0⟩ (by decide)
    (List.replicate 5 (turn ++ Frame.receive ⟨0x11, 0, 0, 0⟩)).flatten rfl (by decide)

end MentorRevival
