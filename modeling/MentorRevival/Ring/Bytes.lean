import MentorRevival.Lib.Blocks
import MentorRevival.Lib.Transition
import MentorRevival.Ring.Circ

/-!
# The circular buffer over bytes

`circularBuffer.h` as it stands: items are runs of `itemSize` bytes in one data area, moved by
`memcpy` at offsets computed in `int`. The results are `none` where C leaves the behaviour
undefined, an `int` overflow or a copy that leaves its area, so a result is a proof that
neither happens. Reading the data area in blocks turns this ring into the ring over slots,
and hence into a drop-oldest queue.
-/

namespace MentorRevival.Bytes

open Blocks DropQueue

def INT_MAX : Nat := 2147483647

/-- The value of an `int` expression that is not negative. -/
def int (n : Nat) : Option Nat := if n ≤ INT_MAX then some n else none

structure Circ extends CircIdx where
  itemSize : Nat
  buf : List UInt8

def circInit (buf : List UInt8) (itemSize numItems : Nat) : Circ :=
  { buf := buf, head := 0, tail := 0, itemSize := itemSize, size := numItems }

/-- `circ_read` with the destination `dst`: the return value, the ring and the destination. -/
def circRead (c : Circ) (dst : List UInt8) : Option (Nat × Circ × List UInt8) :=
  if c.tail ≠ c.head then do
    let offset ← int (c.tail * c.itemSize)
    let dst ← copy dst 0 c.buf offset c.itemSize
    let _ ← int (c.tail + 1)
    return (1, { c with toCircIdx := c.incTail.wrapTail }, dst)
  else return (0, c, dst)

/-- `circ_write` with the source `src`: the return value and the ring. -/
def circWrite (c : Circ) (src : List UInt8) : Option (Nat × Circ) := do
  let _ ← int (c.head + 1)
  let _ ← if c.isFull then int (c.tail + 1) else some c.tail
  let i := c.makeRoom
  let offset ← int (c.itemSize * i.head)
  let buf ← copy c.buf offset src 0 c.itemSize
  return (1, { c with toCircIdx := i.incHead.wrapHead, buf := buf })

namespace Circ

/-- The same ring over slots: slot `i` is the `i`-th run of `itemSize` bytes. -/
def items (c : Circ) : MentorRevival.Circ (List UInt8) :=
  { toCircIdx := c.toCircIdx, buf := block c.itemSize c.buf }

def queue (c : Circ) : List (List UInt8) := c.items.toList

structure WellFormed (c : Circ) : Prop where
  valid : c.Valid
  length_buf : c.buf.length = c.size * c.itemSize
  itemSize_pos : 0 < c.itemSize
  fits : c.size * c.itemSize ≤ INT_MAX

namespace WellFormed

variable {c : Circ}

private theorem int_offset (h : c.WellFormed) {i : Nat} (hi : i < c.size) :
    int (i * c.itemSize) = some (i * c.itemSize) := by
  have hend := block_end_le (w := c.itemSize) hi
  have hfits := h.fits
  rw [int, if_pos (by omega)]

private theorem int_next (h : c.WellFormed) {i : Nat} (hi : i < c.size) :
    int (i + 1) = some (i + 1) := by
  have hmul := Nat.le_mul_of_pos_right c.size h.itemSize_pos
  have hfits := h.fits
  rw [int, if_pos (by omega)]

/-- `circ_read` is the slot read, and its copy fills the first `itemSize` bytes of `dst`. -/
theorem circRead_eq (h : c.WellFormed) {dst : List UInt8} (hdst : c.itemSize ≤ dst.length) :
    circRead c dst = some (if c.tail ≠ c.head then
      (1, { c with toCircIdx := c.incTail.wrapTail },
        block c.itemSize c.buf c.tail ++ dst.drop c.itemSize)
      else (0, c, dst)) := by
  unfold circRead
  split
  · simp only [h.int_offset h.valid.tail_lt, h.int_next h.valid.tail_lt, Option.bind_eq_bind,
      Option.bind_some, copy_from_block h.length_buf h.valid.tail_lt hdst]
    rfl
  · rfl

theorem circRead_of_nil (h : c.WellFormed) (hq : c.queue = []) {dst : List UInt8}
    (hdst : c.itemSize ≤ dst.length) : circRead c dst = some (0, c, dst) := by
  have heq : c.tail = c.head := (MentorRevival.Circ.toList_eq_nil_iff h.valid).mp hq
  rw [h.circRead_eq hdst, if_neg (not_not.mpr heq)]

theorem circRead_of_cons (h : c.WellFormed) {item : List UInt8} {rest : List (List UInt8)}
    (hq : c.queue = item :: rest) {dst : List UInt8} (hdst : c.itemSize ≤ dst.length) :
    ∃ c', circRead c dst = some (1, c', item ++ dst.drop c.itemSize) ∧ c'.WellFormed ∧
      c'.size = c.size ∧ c'.itemSize = c.itemSize ∧ c'.queue = rest ∧ c'.buf = c.buf := by
  have hne : c.tail ≠ c.head := by
    intro heq
    have hnil : c.queue = [] := (MentorRevival.Circ.toList_eq_nil_iff h.valid).mpr heq
    rw [hnil] at hq
    cases hq
  have hcons := MentorRevival.Circ.toList_cons (c := c.items) h.valid hne
  rw [queue, hcons] at hq
  injection hq with hhead hrest
  refine ⟨{ c with toCircIdx := c.incTail.wrapTail }, ?_, ?_, ?_, rfl, hrest, rfl⟩
  · rw [h.circRead_eq hdst, if_pos hne, ← hhead]
    rfl
  · exact ⟨h.valid.advanceTail, by simpa using h.length_buf, h.itemSize_pos, by simpa using h.fits⟩
  · simp

/-- `circ_write` is the slot write of the first `itemSize` bytes of `src`. -/
theorem circWrite_eq (h : c.WellFormed) {src : List UInt8} (hsrc : c.itemSize ≤ src.length) :
    ∃ c', circWrite c src = some (1, c') ∧ c'.WellFormed ∧ c'.size = c.size ∧
      c'.itemSize = c.itemSize ∧
      c'.items = (MentorRevival.circWrite c.items (src.take c.itemSize)).2 := by
  have hhead := h.valid.head_lt
  have hitem : (src.take c.itemSize).length = c.itemSize := by
    rw [List.length_take]
    omega
  let buf := c.buf.take (c.head * c.itemSize) ++ src.take c.itemSize ++
    c.buf.drop (c.head * c.itemSize + c.itemSize)
  refine ⟨{ c with toCircIdx := c.makeRoom.incHead.wrapHead, buf := buf }, ?_, ?_, ?_, rfl, ?_⟩
  · unfold circWrite
    simp only [h.int_next hhead, h.int_next h.valid.tail_lt, CircIdx.makeRoom_head,
      Nat.mul_comm c.itemSize, h.int_offset hhead, Option.bind_eq_bind, Option.bind_some,
      copy_to_block h.length_buf hhead hsrc]
    exact ite_self _
  · refine ⟨h.valid.makeRoom.advanceHead, ?_, h.itemSize_pos, ?_⟩
    · rw [length_overwrite h.length_buf hhead hitem]
      simp
    · simpa using h.fits
  · simp
  · simp only [items, MentorRevival.circWrite, CircIdx.makeRoom_head]
    congr 1
    exact block_overwrite h.length_buf hhead hitem

theorem circInit {itemSize numItems : Nat} {buf : List UInt8} (hn : 1 ≤ numItems)
    (hi : 1 ≤ itemSize) (hmax : numItems * itemSize ≤ INT_MAX)
    (hbuf : buf.length = numItems * itemSize) :
    (circInit buf itemSize numItems).WellFormed :=
  ⟨⟨hn, hn⟩, hbuf, hi, hmax⟩

end WellFormed

/-- One write leaves every queued item that is kept where it is, byte for byte. -/
theorem block_circWrite {c c' : Circ} (h : c.WellFormed) {src : List UInt8}
    (hsrc : c.itemSize ≤ src.length) (hc' : circWrite c src = some (1, c')) {i : Nat}
    (hi : i ∈ c.makeRoom.slots) : block c.itemSize c'.buf i = block c.itemSize c.buf i := by
  rcases h.circWrite_eq hsrc with ⟨d, hd, _, _, hsize, hitems⟩
  obtain rfl : d = c' := (Prod.mk.inj (Option.some.inj (hd.symm.trans hc'))).2
  have hne : i ≠ c.head := by
    rintro rfl
    exact h.valid.makeRoom.head_not_mem_slots (by simpa using hi)
  have hslot := congrFun (congrArg MentorRevival.Circ.buf hitems) i
  simpa [items, MentorRevival.circWrite, hsize, hne] using hslot

end Circ

inductive Call
  | write (src : List UInt8)
  | read (dst : List UInt8)

def Call.Fits (itemSize : Nat) : Call → Prop
  | .write src => itemSize ≤ src.length
  | .read dst => itemSize ≤ dst.length

def call : Call → Circ → Option Circ
  | .write src, c => (circWrite c src).map Prod.snd
  | .read dst, c => (circRead c dst).map fun r => r.2.1

/-- The abstract queue after a call: capacity `numItems - 1`, oldest item dropped when full. -/
def fifoCall (numItems itemSize : Nat) (q : List (List UInt8)) : Call → List (List UInt8)
  | .write src => push (numItems - 1) q (src.take itemSize)
  | .read _ => q.tail

theorem call_spec {c : Circ} (h : c.WellFormed) {k : Call} (hk : k.Fits c.itemSize) :
    ∃ c', call k c = some c' ∧ c'.WellFormed ∧ c'.size = c.size ∧ c'.itemSize = c.itemSize ∧
      c'.queue = fifoCall c.size c.itemSize c.queue k := by
  cases k with
  | write src =>
    rcases h.circWrite_eq hk with ⟨c', hc', hwf, hsize, hitem, hitems⟩
    refine ⟨c', by rw [call, hc']; rfl, hwf, hsize, hitem, ?_⟩
    rw [Circ.queue, hitems, MentorRevival.Circ.toList_circWrite h.valid]
    rfl
  | read dst =>
    cases hq : c.queue with
    | nil =>
      refine ⟨c, ?_, h, rfl, rfl, hq⟩
      rw [call, h.circRead_of_nil hq hk]
      rfl
    | cons item rest =>
      rcases h.circRead_of_cons hq hk with ⟨c', hc', hwf, hsize, hitem, hrest, _⟩
      refine ⟨c', ?_, hwf, hsize, hitem, hrest⟩
      rw [call, hc']
      rfl

theorem run_call {calls : List Call} {c : Circ} (h : c.WellFormed)
    (hfit : ∀ k ∈ calls, k.Fits c.itemSize) :
    ∃ c', Transition.run call calls c = some c' ∧ c'.WellFormed ∧ c'.size = c.size ∧
      c'.itemSize = c.itemSize ∧
      c'.queue = calls.foldl (fifoCall c.size c.itemSize) c.queue := by
  induction calls generalizing c with
  | nil => exact ⟨c, rfl, h, rfl, rfl, rfl⟩
  | cons k calls ih =>
    obtain ⟨d, hd, hwf, hsize, hitem, hqueue⟩ := call_spec h (hfit k (by simp))
    obtain ⟨c', hrun, hwf', hsize', hitem', hqueue'⟩ :=
      ih hwf (by rw [hitem]; exact fun k' hk' => hfit k' (by simp [hk']))
    refine ⟨c', ?_, hwf', hsize'.trans hsize, hitem'.trans hitem, ?_⟩
    · rw [Transition.run_cons, hd]
      exact hrun
    · rw [hqueue', hsize, hitem, hqueue]
      rfl

/-- The byte ring is a drop-oldest queue of capacity `numItems - 1`: after any sequence of
calls the indices are slots, `circ_read` delivers the oldest item or reports 0 and changes
nothing, and `circ_write` queues its item and leaves the bytes of the kept items alone. -/
theorem circ_refines_fifo (numItems itemSize : Nat) (hn : 1 ≤ numItems) (hi : 1 ≤ itemSize)
    (hmax : numItems * itemSize ≤ INT_MAX) (buf : List UInt8)
    (hbuf : buf.length = numItems * itemSize) (calls : List Call)
    (hfit : ∀ k ∈ calls, k.Fits itemSize) :
    ∃ c, Transition.run call calls (circInit buf itemSize numItems) = some c ∧
      c.head < numItems ∧ c.tail < numItems ∧ c.size = numItems ∧
      c.buf.length = numItems * itemSize ∧
      c.queue = calls.foldl (fifoCall numItems itemSize) [] ∧
      (∀ dst, itemSize ≤ dst.length → c.queue = [] → circRead c dst = some (0, c, dst)) ∧
      (∀ dst item rest, itemSize ≤ dst.length → c.queue = item :: rest →
        ∃ c', circRead c dst = some (1, c', item ++ dst.drop itemSize) ∧
          c'.queue = rest ∧ c'.buf = c.buf) ∧
      (∀ src, itemSize ≤ src.length →
        ∃ c', circWrite c src = some (1, c') ∧
          c'.queue = (c.queue ++ [src.take itemSize]).rtake (numItems - 1) ∧
          ∀ i ∈ c.makeRoom.slots, block itemSize c'.buf i = block itemSize c.buf i) := by
  have hinit := Circ.WellFormed.circInit hn hi hmax hbuf
  rcases run_call hinit hfit with ⟨c, hrun, hwf, hsize, hitem, hqueue⟩
  change c.size = numItems at hsize
  change c.itemSize = itemSize at hitem
  subst hsize hitem
  have hlen := hwf.length_buf
  have hempty : (circInit buf c.itemSize c.size).queue = [] :=
    MentorRevival.Circ.toList_circInit (block c.itemSize buf) c.size
  rw [hempty] at hqueue
  refine ⟨c, hrun, hwf.valid.head_lt, hwf.valid.tail_lt, rfl, hwf.length_buf, hqueue, ?_, ?_, ?_⟩
  · intro dst hdst hq
    exact hwf.circRead_of_nil hq hdst
  · intro dst item rest hdst hq
    rcases hwf.circRead_of_cons hq hdst with ⟨c', hc', _, _, _, hrest, hbuf'⟩
    exact ⟨c', hc', hrest, hbuf'⟩
  · intro src hsrc
    rcases hwf.circWrite_eq hsrc with ⟨c', hc', _, _, _, hitems⟩
    refine ⟨c', hc', ?_, fun i hi => Circ.block_circWrite hwf hsrc hc' hi⟩
    rw [Circ.queue, hitems, MentorRevival.Circ.toList_circWrite hwf.valid]
    rfl

theorem circ_refines_fifo_three :
    ∃ c, Transition.run call [.write [1, 2], .read [0, 0], .write [3, 4]]
        (circInit (.replicate 6 0) 2 3) = some c ∧ c.queue = [[3, 4]] := by
  obtain ⟨c, hrun, _, _, _, _, hqueue, _⟩ := circ_refines_fifo 3 2 (by decide) (by decide)
    (by decide) (.replicate 6 0) rfl [.write [1, 2], .read [0, 0], .write [3, 4]] (by
      intro k hk
      simp only [List.mem_cons, List.not_mem_nil, or_false] at hk
      rcases hk with rfl | rfl | rfl <;> exact Nat.le_refl 2)
  exact ⟨c, hrun, hqueue⟩

end MentorRevival.Bytes
