import MentorRevival.Events.System
import MentorRevival.Ring.Bytes

/-!
# The packet buffer in memory

The threads hold packets, `packetBuf` holds the bytes of packets. Whatever the compiler makes
of `packet_t`, the calls of the threads are defined on the bytes and move the same packets as
the ring over packets.
-/

namespace MentorRevival

open Transition DropQueue

/-- How the compiler lays out a `packet_t`. -/
structure Layout where
  bytes : Packet → List UInt8
  /-- `sizeof(packet_t)`. -/
  size : Nat
  length_bytes : ∀ p, (bytes p).length = size
  size_pos : 0 < size
  fits : PACKET_BUFFER_LEN * size ≤ Bytes.INT_MAX

def ringCalls (layout : Layout) : Action → State → List Bytes.Call
  | .write, s => [.write (layout.bytes s.serial.sPacket)]
  | .read, s => [.read (layout.bytes s.currentPacket.packet)]
  | _, _ => []

namespace Layout

variable {layout : Layout} {c : Bytes.Circ} {s : State}

structure Represents (layout : Layout) (c : Bytes.Circ) (s : State) : Prop where
  wellFormed : c.WellFormed
  size_eq : c.size = PACKET_BUFFER_LEN
  itemSize_eq : c.itemSize = layout.size
  queue_eq : c.queue = s.packetBuf.toList.map fun x => layout.bytes x.packet

theorem Represents.congr {s' : State} (h : layout.Represents c s)
    (hring : s'.packetBuf = s.packetBuf) : layout.Represents c s' :=
  ⟨h.wellFormed, h.size_eq, h.itemSize_eq, by rw [hring]; exact h.queue_eq⟩

theorem Represents.write (h : layout.Represents c s) (hs : Sound s) :
    ∃ c', Bytes.circWrite c (layout.bytes s.serial.sPacket) = some (1, c') ∧
      layout.Represents c' s.afterWrite := by
  have hlen := layout.length_bytes s.serial.sPacket
  have hsrc : c.itemSize ≤ (layout.bytes s.serial.sPacket).length := by
    rw [h.itemSize_eq, hlen]
  obtain ⟨c', hwrite, hwf, hsize, hitem, hitems⟩ := h.wellFormed.circWrite_eq hsrc
  refine ⟨c', hwrite, hwf, hsize.trans h.size_eq, hitem.trans h.itemSize_eq, ?_⟩
  have hbytes : c'.queue = push (c.size - 1) c.queue
      ((layout.bytes s.serial.sPacket).take c.itemSize) := by
    rw [Bytes.Circ.queue, hitems]
    exact Circ.toList_circWrite h.wellFormed.valid _
  have hpackets : s.afterWrite.packetBuf.toList =
      push (s.packetBuf.size - 1) s.packetBuf.toList s.incoming :=
    Circ.toList_circWrite hs.valid s.incoming
  rw [hbytes, hpackets, h.size_eq, hs.size_eq, h.queue_eq, h.itemSize_eq,
    List.take_of_length_le hlen.le, push, push, map_rtake, List.map_append]
  rfl

theorem Represents.read (h : layout.Represents c s) (hs : Sound s) :
    ∃ c', Bytes.circRead c (layout.bytes s.currentPacket.packet) =
        some (s.afterRead.readCount, c', layout.bytes s.afterRead.currentPacket.packet) ∧
      layout.Represents c' s.afterRead := by
  have hdst : c.itemSize ≤ (layout.bytes s.currentPacket.packet).length := by
    rw [h.itemSize_eq, layout.length_bytes]
  cases hq : s.packetBuf.toList with
  | nil =>
    have hempty : c.queue = [] := by rw [h.queue_eq, hq, List.map_nil]
    have hread := State.afterRead_of_nil hs hq
    refine ⟨c, ?_, h.congr (by rw [hread])⟩
    rw [h.wellFormed.circRead_of_nil hempty hdst, hread]
  | cons a q =>
    have hqueue : c.queue = layout.bytes a.packet :: q.map fun x => layout.bytes x.packet := by
      rw [h.queue_eq, hq, List.map_cons]
    obtain ⟨c', hbytes, hwf, hsize, hitem, hrest, _⟩ :=
      h.wellFormed.circRead_of_cons hqueue hdst
    obtain ⟨ring, hring, hread⟩ := State.afterRead_of_cons hs hq
    -- the copy covers `currentPacket` exactly
    have hcover : (layout.bytes s.currentPacket.packet).drop c.itemSize = [] := by
      rw [h.itemSize_eq, ← layout.length_bytes s.currentPacket.packet, List.drop_length]
    refine ⟨c', ?_, hwf, hsize.trans h.size_eq, hitem.trans h.itemSize_eq, ?_⟩
    · rw [hbytes, hread, hcover, List.append_nil]
    · rw [hread, hrest]
      exact (congrArg (List.map fun x : Stamped => layout.bytes x.packet) hring).symm

end Layout

theorem packetBuf_step {l : Action} {s s' : State} (hs : step l s = some s') (hw : l ≠ .write)
    (hr : l ≠ .read) : s'.packetBuf = s.packetBuf := by
  cases l with
  | write => exact absurd rfl hw
  | read => exact absurd rfl hr
  | adc samples =>
    obtain rfl := Option.some.inj hs
    rfl
  | _ =>
    obtain ⟨_, rfl⟩ := enabled_of_some hs
    rfl

def Follows (layout : Layout) (area : List UInt8) (calls : List Bytes.Call) (s : State) : Prop :=
  Sound s ∧ ∃ c, run Bytes.call calls (Bytes.circInit area layout.size PACKET_BUFFER_LEN) = some c ∧
    layout.Represents c s

theorem Follows.step {layout : Layout} {area : List UInt8} {calls : List Bytes.Call} {l : Action}
    {s s' : State} (h : Follows layout area calls s) (hs : step l s = some s') :
    Follows layout area (calls ++ ringCalls layout l s) s' := by
  obtain ⟨hsound, c, hrun, hc⟩ := h
  refine ⟨hsound.step (moves_of_step hs), ?_⟩
  by_cases hw : l = .write
  · subst hw
    obtain ⟨_, rfl⟩ := enabled_of_some hs
    obtain ⟨c', hwrite, hc'⟩ := hc.write hsound
    refine ⟨c', ?_, hc'⟩
    rw [run_append, hrun]
    simp [ringCalls, Bytes.call, hwrite]
  · by_cases hr : l = .read
    · subst hr
      obtain ⟨_, rfl⟩ := enabled_of_some hs
      obtain ⟨c', hread, hc'⟩ := hc.read hsound
      refine ⟨c', ?_, hc'⟩
      rw [run_append, hrun]
      simp [ringCalls, Bytes.call, hread]
    · have hnone : ringCalls layout l s = [] := by
        cases l with
        | write => exact absurd rfl hw
        | read => exact absurd rfl hr
        | _ => rfl
      rw [hnone, List.append_nil]
      exact ⟨c, hrun, hc.congr (packetBuf_step hs hw hr)⟩

/-- In every run, and for every layout of `packet_t`, the calls of the threads to the bytes of
`packetBuf` neither overflow nor leave the data area, the bytes are those of the queued
packets, and the next `circ_read` or `circ_write` moves the bytes of the packet that the ring
over packets moves. -/
theorem packetBuf_in_memory (layout : Layout) (area : List UInt8)
    (harea : area.length = PACKET_BUFFER_LEN * layout.size) (uninitialised : Packet)
    (samples : Nat → UInt16) (ls : List Action) (s : State)
    (hrun : run step ls (init uninitialised samples) = some s) :
    ∃ c, run Bytes.call (observe step (ringCalls layout) ls (init uninitialised samples))
        (Bytes.circInit area layout.size PACKET_BUFFER_LEN) = some c ∧
      layout.Represents c s ∧
      (∃ c', Bytes.circWrite c (layout.bytes s.serial.sPacket) = some (1, c') ∧
        layout.Represents c' s.afterWrite) ∧
      ∃ c', Bytes.circRead c (layout.bytes s.currentPacket.packet) =
          some (s.afterRead.readCount, c', layout.bytes s.afterRead.currentPacket.packet) ∧
        layout.Represents c' s.afterRead := by
  have hwf := Bytes.Circ.WellFormed.circInit (by decide) layout.size_pos layout.fits harea
  have hboot : Follows layout area [] (init uninitialised samples) := by
    refine ⟨sound_init uninitialised samples, _, rfl, hwf, rfl, rfl, ?_⟩
    have hpackets : (init uninitialised samples).packetBuf.toList = [] := Circ.toList_circInit _ _
    rw [hpackets]
    exact Circ.toList_circInit (Blocks.block layout.size area) PACKET_BUFFER_LEN
  have hfollows := observe_invariant (fun _ _ _ _ h hs => Follows.step h hs) ls hboot hrun
  obtain ⟨hsound, c, hcalls, hc⟩ := hfollows
  exact ⟨c, hcalls, hc, hc.write hsound, hc.read hsound⟩

/-- Enumerations of one byte, low bytes first, and one byte of padding. -/
def Layout.six : Layout where
  bytes p := [p.command, p.targetAxis, (p.data &&& 0xFF).toUInt8, (p.data >>> 8).toUInt8,
    p.numBytes, 0]
  size := 6
  length_bytes _ := rfl
  size_pos := by decide
  fits := by decide

/-- Five frames and one read: the first packet is overwritten and the second one delivered. -/
theorem packetBuf_in_memory_six :
    ∃ s c, run step (.semInit :: ([0x31, 0x32, 0x33, 0x34, 0x35].map fun b =>
          Frame.receive ⟨b, 0x4E, 0x20, 0⟩).flatten ++ [.wait, .read])
        (init pktInit fun _ => 0) = some s ∧ s.delivered.length = 1 ∧
      run Bytes.call (observe step (ringCalls .six) (.semInit ::
          ([0x31, 0x32, 0x33, 0x34, 0x35].map fun b => Frame.receive ⟨b, 0x4E, 0x20, 0⟩).flatten ++
          [.wait, .read]) (init pktInit fun _ => 0))
        (Bytes.circInit (.replicate 30 0) 6 5) = some c ∧
      c.queue = [3, 4, 5].map fun axis => [3, axis, 0x20, 0x4E, 4, 0] := by
  obtain ⟨c, hcalls, hc, _⟩ := packetBuf_in_memory .six (.replicate 30 0) rfl pktInit (fun _ => 0)
    (.semInit :: ([0x31, 0x32, 0x33, 0x34, 0x35].map fun b =>
      Frame.receive ⟨b, 0x4E, 0x20, 0⟩).flatten ++ [.wait, .read]) _ rfl
  refine ⟨_, c, rfl, rfl, hcalls, ?_⟩
  rw [hc.queue_eq]
  rfl

end MentorRevival
