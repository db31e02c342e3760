import MentorRevival.Events.Dispatch
import MentorRevival.Events.Outputs

/-!
# Spurious wakeups

A read that finds the ring empty makes `eventThread` dispatch `currentPacket` once more. The
handlers may have put a sample into it, but to the motors it is the packet executed last, and
executing a packet twice in a row is executing it once.
-/

namespace MentorRevival

open Transition Register

/-- The packet as far as the motors are concerned: a sample that `evt_readPos` stored is not. -/
def Packet.effective (p : Packet) : Packet :=
  if Command.ofUInt8? p.command = some .CMD_READ_POS then { p with data := 0 } else p

namespace MotorOut

variable {m : Fin NUM_MOTOR} {o : MotorOut} {p : Packet}

theorem after_effective : o.after m p.effective = o.after m p := by
  by_cases h : Command.ofUInt8? p.command = some .CMD_READ_POS
  · have hleft : ∀ q : Packet, Command.ofUInt8? q.command = some .CMD_READ_POS →
        o.after m q = o := by
      intro q hq
      apply after_of_not_sets
      · simp [Packet.isHalt, hq]
      · simp [Packet.Sets, Packet.isSetDuty, Packet.isSetMode, hq]
    rw [Packet.effective, if_pos h, hleft p h]
    exact hleft _ h
  · rw [Packet.effective, if_neg h]

theorem after_after : (o.after m p).after m p = o.after m p := by
  by_cases hhalt : p.isHalt
  · rw [after_of_isHalt hhalt, after_of_isHalt hhalt]
    rfl
  · by_cases hduty : p.isSetDuty m
    · rw [after_of_isSetDuty hduty, after_of_isSetDuty hduty]
      rfl
    · by_cases hmode : p.isSetMode m
      · rw [after_of_isSetMode hmode, after_of_isSetMode hmode]
        rfl
      · have hsets : ¬ p.Sets m := not_or_intro hduty hmode
        rw [after_of_not_sets hhalt hsets, after_of_not_sets hhalt hsets]

end MotorOut

theorem effective_evtDispatch (p : Packet) (b : Board) :
    (evtDispatch p b).1.effective = p.effective := by
  unfold evtDispatch
  split
  case h_3 h => simp [evtReadPos, Packet.effective, h]
  all_goals rfl

theorem Occurs.motorOut_delivered {s : State} (h : Occurs s) (hpc : s.eventPc ≠ .dispatch)
    (m : Fin NUM_MOTOR) :
    s.board.motorOut m =
      (s.delivered.map Stamped.packet).foldl (MotorOut.after m) (MotorOut.boot m) := by
  have hreplayed : Replayed (fun x => x.packet.effective) s := h.replayed fun s =>
    effective_evtDispatch s.currentPacket.packet s.board
  have huses : s.uses = s.dispatched := by simp [State.uses, hpc]
  have hfold := hreplayed.replay.foldl_eq (f := fun (o : MotorOut) p => o.after m p)
    (fun _ _ => MotorOut.after_after) (MotorOut.boot m)
  rw [huses] at hfold
  simp only [List.map_map, List.foldl_map, Function.comp_apply, Use.map,
    MotorOut.after_effective] at hfold
  rw [h.motorOut_eq, List.foldl_map, List.foldl_map]
  exact hfold

/-- The first iteration finds a packet, so what is dispatched has been delivered by the ring;
and in every run the motors are driven as if each delivered packet had been executed once. -/
theorem spurious_wakeups_harmless (uninitialised : Packet) (samples : Nat → UInt16) (s : State)
    (h : Reachable step (init uninitialised samples) s) :
    (s.eventPc = .read → s.dispatched = [] → s.packetBuf.toList ≠ []) ∧
      (∀ u, s.dispatched.head? = some u → u.fresh = true) ∧
      (∀ u ∈ s.dispatched, ∃ r ∈ s.delivered, r.request = u.item.request) ∧
      (s.eventPc ≠ .dispatch → ∀ m,
        s.board.motorOut m =
          (execute (motorInit (Board.reset samples))
            (s.delivered.map Stamped.packet)).motorOut m) := by
  have hocc : Occurs s := ⟨uninitialised, samples, h⟩
  have htraced := hocc.traced
  refine ⟨?_, ?_, ?_, ?_⟩
  · intro hpc hfirst hq
    have hne : s.delivered ≠ [] :=
      hocc.accounted.delivered_ne_nil (by simp [State.mailbox, hpc]) hq
    apply hne
    rw [← htraced.fresh, uses_of_read hpc, hfirst]
    rfl
  · intro u hu
    have hhead : (s.uses.map (Use.map Stamped.request)).head? = some (u.map Stamped.request) := by
      rw [List.head?_map, State.uses, List.head?_append, hu]
      rfl
    exact htraced.replay.head_fresh hhead
  · intro u hu
    have hmem : u.item.request ∈ (s.uses.map (Use.map Stamped.request)).map Use.item := by
      rw [List.map_map]
      exact List.mem_map.mpr ⟨u, List.mem_append_left _ hu, rfl⟩
    exact List.mem_map.mp (htraced.replay.mem_iff.mp hmem)
  · intro hpc m
    rw [hocc.motorOut_delivered hpc m, motorOut_execute, motorOut_motorInit]
    rfl

theorem spurious_wakeups_harmless_burst :
    ∃ s, run step (.semInit :: (List.replicate 5 (Frame.receive ⟨0x32, 0x4E, 0x20, 0⟩)).flatten ++
        (List.replicate 5 turn).flatten) (init pktInit fun _ => 0) = some s ∧ s.emptyReads = 1 ∧
      s.board.motorOut 2 = (execute (motorInit (Board.reset fun _ => 0))
        (s.delivered.map Stamped.packet)).motorOut 2 := by
  refine ⟨_, rfl, rfl, ?_⟩
  have hreach : Reachable step (init pktInit fun _ => 0) _ :=
    ⟨.semInit :: (List.replicate 5 (Frame.receive ⟨0x32, 0x4E, 0x20, 0⟩)).flatten ++
      (List.replicate 5 turn).flatten, rfl⟩
  exact (spurious_wakeups_harmless pktInit (fun _ => 0) _ hreach).2.2.2 (by decide) 2

end MentorRevival
