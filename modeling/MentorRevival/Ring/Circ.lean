import MentorRevival.Lib.CircularWindow
import MentorRevival.Lib.DropQueue

/-!
# The circular buffer

The index arithmetic of `circularBuffer.h`, one definition for each statement that touches
`head` or `tail`, and the ring over slots that hold whole items. `circRead` and `circWrite`
are shown to be the two operations of a drop-oldest queue with one slot less than the ring.
-/

namespace MentorRevival

open CircularWindow DropQueue

structure CircIdx where
  head : Nat
  tail : Nat
  size : Nat

namespace CircIdx

def isFull (i : CircIdx) : Bool :=
  i.head + 1 == i.tail || (i.head + 1 == i.size && i.tail == 0)

def incTail (i : CircIdx) : CircIdx := { i with tail := i.tail + 1 }

def wrapTail (i : CircIdx) : CircIdx := if i.tail == i.size then { i with tail := 0 } else i

def incHead (i : CircIdx) : CircIdx := { i with head := i.head + 1 }

def wrapHead (i : CircIdx) : CircIdx := if i.head == i.size then { i with head := 0 } else i

/-- The first statement of `circ_write`: a full ring gives up its oldest slot. -/
def makeRoom (i : CircIdx) : CircIdx := if i.isFull then i.incTail.wrapTail else i

structure Valid (i : CircIdx) : Prop where
  head_lt : i.head < i.size
  tail_lt : i.tail < i.size

def count (i : CircIdx) : Nat := distance i.size i.tail i.head

def slots (i : CircIdx) : List Nat := window id i.size i.tail i.count

@[simp] theorem wrapTail_incTail (i : CircIdx) :
    i.incTail.wrapTail = { i with tail := next i.size i.tail } := by
  unfold wrapTail incTail next
  split_ifs <;> simp_all

@[simp] theorem wrapHead_incHead (i : CircIdx) :
    i.incHead.wrapHead = { i with head := next i.size i.head } := by
  unfold wrapHead incHead next
  split_ifs <;> simp_all

@[simp] theorem makeRoom_head (i : CircIdx) : i.makeRoom.head = i.head := by
  unfold makeRoom
  split <;> simp

@[simp] theorem makeRoom_size (i : CircIdx) : i.makeRoom.size = i.size := by
  unfold makeRoom
  split <;> simp

namespace Valid

variable {i : CircIdx}

theorem size_pos (h : i.Valid) : 0 < i.size := Nat.lt_of_le_of_lt (Nat.zero_le _) h.head_lt

theorem count_lt (h : i.Valid) : i.count < i.size := distance_lt h.tail_lt h.head_lt

theorem advanceTail (h : i.Valid) : Valid i.incTail.wrapTail := by
  rw [wrapTail_incTail]
  exact ⟨h.head_lt, next_lt h.tail_lt⟩

theorem advanceHead (h : i.Valid) : Valid i.incHead.wrapHead := by
  rw [wrapHead_incHead]
  exact ⟨next_lt h.head_lt, h.tail_lt⟩

theorem makeRoom (h : i.Valid) : i.makeRoom.Valid := by
  unfold CircIdx.makeRoom
  split
  · exact h.advanceTail
  · exact h

theorem isFull_iff (h : i.Valid) : i.isFull = true ↔ i.count + 1 = i.size := by
  have := h.head_lt
  have := h.tail_lt
  simp only [isFull, count, distance, Bool.or_eq_true, Bool.and_eq_true, beq_iff_eq]
  split_ifs <;> omega

theorem count_eq_zero_iff (h : i.Valid) : i.count = 0 ↔ i.tail = i.head :=
  distance_eq_zero_iff h.tail_lt

theorem head_eq (h : i.Valid) : i.head = (i.tail + i.count) % i.size :=
  (add_distance_mod h.tail_lt h.head_lt).symm

theorem count_advanceTail (h : i.Valid) (hne : i.tail ≠ i.head) :
    i.count = i.incTail.wrapTail.count + 1 := by
  rw [wrapTail_incTail]
  exact distance_next_left h.tail_lt h.head_lt hne

theorem count_advanceHead (h : i.Valid) (hroom : i.count + 1 < i.size) :
    i.incHead.wrapHead.count = i.count + 1 := by
  rw [wrapHead_incHead]
  exact distance_next_right h.tail_lt hroom

/-- Apart from the one-slot ring there is room once the oldest slot has been given up. -/
theorem makeRoom_count_lt (h : i.Valid) (hsize : 1 < i.size) :
    i.makeRoom.count + 1 < i.size := by
  have hlt := h.count_lt
  have hfull := h.isFull_iff
  unfold CircIdx.makeRoom
  split
  · next hf =>
    have hcount := hfull.mp hf
    have hne : i.tail ≠ i.head := by
      intro heq
      have := h.count_eq_zero_iff.mpr heq
      omega
    have := h.count_advanceTail hne
    omega
  · next hf =>
    have : i.count + 1 ≠ i.size := fun heq => hf (hfull.mpr heq)
    omega

/-- No queued item that is kept sits in the slot which `circ_write` fills. -/
theorem head_not_mem_slots (h : i.Valid) : i.head ∉ i.slots := by
  intro hmem
  rcases List.mem_map.mp hmem with ⟨k, hk, heq⟩
  have hne := behind_ne (t := i.tail) (List.mem_range.mp hk) h.count_lt
  exact hne (heq.trans h.head_eq)

end Valid

end CircIdx

/-- The ring `circ_t` with its data area read as slots that hold one item each. -/
structure Circ (α : Type*) extends CircIdx where
  buf : Nat → α

variable {α β : Type*}

def circInit (buf : Nat → α) (numItems : Nat) : Circ α :=
  { head := 0, tail := 0, size := numItems, buf := buf }

/-- `circ_read`: the number of items read, the ring and the destination afterwards. -/
def circRead (c : Circ α) (dst : α) : Nat × Circ α × α :=
  if c.tail ≠ c.head then
    (1, { c with toCircIdx := c.incTail.wrapTail }, c.buf c.tail)
  else (0, c, dst)

/-- `circ_write`: the number of items written and the ring afterwards. -/
def circWrite (c : Circ α) (item : α) : Nat × Circ α :=
  let i := c.makeRoom
  (1, { toCircIdx := i.incHead.wrapHead, buf := Function.update c.buf i.head item })

def PACKET_BUFFER_LEN : Nat := 5

namespace Circ

def toList (c : Circ α) : List α := window c.buf c.size c.tail c.count

def map (f : α → β) (c : Circ α) : Circ β :=
  { toCircIdx := c.toCircIdx, buf := fun k => f (c.buf k) }

@[simp] theorem length_toList (c : Circ α) : c.toList.length = c.count := length_window ..

@[simp] theorem toList_map (f : α → β) (c : Circ α) : (c.map f).toList = c.toList.map f :=
  (map_window f c.buf c.size c.tail c.count).symm

@[simp] theorem toList_circInit (buf : Nat → α) (n : Nat) : (circInit buf n).toList = [] := by
  simp [toList, circInit, CircIdx.count]

theorem valid_circInit (buf : Nat → α) {n : Nat} (hn : 0 < n) : (circInit buf n).Valid :=
  ⟨hn, hn⟩

theorem toList_eq_nil_iff {c : Circ α} (h : c.Valid) : c.toList = [] ↔ c.tail = c.head := by
  rw [← h.count_eq_zero_iff, ← length_toList, List.length_eq_zero_iff]

theorem isFull_iff {c : Circ α} (h : c.Valid) :
    c.isFull = true ↔ c.toList.length = c.size - 1 := by
  have := h.size_pos
  rw [h.isFull_iff, length_toList]
  omega

theorem toList_cons {c : Circ α} (h : c.Valid) (hne : c.tail ≠ c.head) :
    c.toList = c.buf c.tail ::
      ({ c with toCircIdx := c.incTail.wrapTail } : Circ α).toList := by
  unfold toList
  rw [h.count_advanceTail hne, window_succ_left _ h.tail_lt, CircIdx.wrapTail_incTail]

theorem circRead_of_nil {c : Circ α} (h : c.Valid) (hq : c.toList = []) (dst : α) :
    circRead c dst = (0, c, dst) := by
  have heq := (toList_eq_nil_iff h).mp hq
  simp [circRead, heq]

theorem valid_circRead {c : Circ α} (h : c.Valid) (dst : α) :
    (circRead c dst).2.1.Valid ∧ (circRead c dst).2.1.size = c.size := by
  unfold circRead
  split
  · exact ⟨h.advanceTail, by simp⟩
  · exact ⟨h, rfl⟩

theorem circRead_of_cons {c : Circ α} (h : c.Valid) {a : α} {q : List α}
    (hq : c.toList = a :: q) (dst : α) :
    ∃ c', circRead c dst = (1, c', a) ∧ c'.toList = q := by
  have hne : c.tail ≠ c.head := by
    intro heq
    have hnil := (toList_eq_nil_iff h).mpr heq
    simp [hnil] at hq
  rw [toList_cons h hne] at hq
  injection hq with ha hq'
  refine ⟨{ c with toCircIdx := c.incTail.wrapTail }, ?_, hq'⟩
  rw [circRead, if_pos hne, ha]

private theorem toList_makeRoom {c : Circ α} (h : c.Valid) (hsize : 1 < c.size) :
    ({ c with toCircIdx := c.makeRoom } : Circ α).toList =
      if c.isFull then c.toList.tail else c.toList := by
  unfold CircIdx.makeRoom
  split
  · next hf =>
    have hcount := h.isFull_iff.mp hf
    have hne : c.tail ≠ c.head := by
      intro heq
      have := h.count_eq_zero_iff.mpr heq
      omega
    rw [toList_cons h hne, List.tail_cons]
  · rfl

private theorem toList_writeSlot {c : Circ α} (h : c.Valid) (hroom : c.count + 1 < c.size)
    (item : α) :
    ({ toCircIdx := c.incHead.wrapHead, buf := Function.update c.buf c.head item } :
      Circ α).toList = c.toList ++ [item] := by
  unfold toList
  rw [h.count_advanceHead hroom, CircIdx.wrapHead_incHead]
  conv_lhs => rw [h.head_eq]
  exact window_push c.buf h.count_lt item

/-- The slot behind the queued items may be filled before `head` moves. -/
theorem toList_update_head {c : Circ α} (h : c.Valid) (item : α) :
    ({ c with buf := Function.update c.buf c.head item } : Circ α).toList = c.toList := by
  unfold toList
  conv_lhs => rw [h.head_eq]
  exact window_update c.buf h.count_lt item

theorem toList_advanceHead {c : Circ α} (h : c.Valid) (hroom : c.count + 1 < c.size) :
    ({ c with toCircIdx := c.incHead.wrapHead } : Circ α).toList =
      c.toList ++ [c.buf c.head] := by
  unfold toList
  rw [h.count_advanceHead hroom, CircIdx.wrapHead_incHead, window_succ, h.head_eq]

/-- `circ_write` appends the item, and a full ring drops its oldest item for it. -/
theorem toList_circWrite {c : Circ α} (h : c.Valid) (item : α) :
    (circWrite c item).2.toList = push (c.size - 1) c.toList item := by
  rcases Nat.lt_or_ge 1 c.size with hsize | hsize
  · have hlen := length_toList c
    have hroom := h.makeRoom_count_lt hsize
    have hwrite := toList_writeSlot (c := { c with toCircIdx := c.makeRoom }) h.makeRoom
      (by simpa using hroom) item
    rw [toList_makeRoom h hsize] at hwrite
    refine hwrite.trans ?_
    split
    · next hf =>
      have hfull := (isFull_iff h).mp hf
      rw [push_of_full hfull, List.tail_append_of_ne_nil]
      rw [← List.length_pos_iff]
      omega
    · next hf =>
      have hlt := h.count_lt
      have hne : c.toList.length ≠ c.size - 1 := fun heq => hf ((isFull_iff h).mpr heq)
      exact (push_of_lt (by omega) item).symm
  · -- the one-slot ring drops every item at once
    have hlen := length_push (c.size - 1) c.toList item
    have hvalid : (circWrite c item).2.Valid := h.makeRoom.advanceHead
    have hlt := hvalid.count_lt
    have hsz : (circWrite c item).2.size = c.size := by simp [circWrite]
    have hzero : (circWrite c item).2.toList.length = 0 := by
      rw [length_toList]
      omega
    have hpush : push (c.size - 1) c.toList item = [] :=
      List.eq_nil_of_length_eq_zero (by omega)
    rw [hpush]
    exact List.eq_nil_of_length_eq_zero hzero

/-- What a write drops is the item in the slot that a full ring gives up. -/
theorem overflow_circWrite {c : Circ α} (h : c.Valid) (hsize : 1 < c.size) (item : α) :
    overflow (c.size - 1) c.toList item = if c.isFull then [c.buf c.tail] else [] := by
  have hfull := isFull_iff h
  split
  · next hf =>
    have hlen := hfull.mp hf
    have hne : c.tail ≠ c.head := by
      intro heq
      have hnil := (toList_eq_nil_iff h).mpr heq
      rw [hnil, List.length_nil] at hlen
      omega
    rw [overflow_of_full hlen, toList_cons h hne]
    rfl
  · next hf =>
    have hlen : c.toList.length ≠ c.size - 1 := fun heq => hf (hfull.mpr heq)
    have hlt := h.count_lt
    rw [← length_toList] at hlt
    exact overflow_of_lt (by omega) item

theorem valid_circWrite {c : Circ α} (h : c.Valid) (item : α) : (circWrite c item).2.Valid :=
  h.makeRoom.advanceHead

@[simp] theorem size_circWrite (c : Circ α) (item : α) : (circWrite c item).2.size = c.size := by
  simp [circWrite]

theorem circWrite_map (f : α → β) (c : Circ α) (item : α) :
    circWrite (c.map f) (f item) = (1, (circWrite c item).2.map f) := by
  simp only [circWrite, map, Prod.mk.injEq, true_and, Circ.mk.injEq]
  exact (Function.comp_update f c.buf c.makeRoom.head item).symm

theorem circRead_map (f : α → β) (c : Circ α) (dst : α) :
    circRead (c.map f) (f dst) =
      ((circRead c dst).1, (circRead c dst).2.1.map f, f (circRead c dst).2.2) := by
  unfold circRead
  by_cases hne : c.tail ≠ c.head
  · rw [if_pos hne, if_pos (show (c.map f).tail ≠ (c.map f).head from hne)]
    rfl
  · rw [if_neg hne, if_neg (show ¬ (c.map f).tail ≠ (c.map f).head from hne)]

end Circ

end MentorRevival
