import Mathlib.Data.List.DropRight

/-!
# Drop-oldest queues

A queue of bounded capacity that makes room for a new item by dropping its oldest one.
-/

namespace DropQueue

variable {α : Type*}

/-- Append an item to a queue of capacity `cap`, dropping the oldest items in excess. -/
def push (cap : Nat) (q : List α) (a : α) : List α := (q ++ [a]).rtake cap

def overflow (cap : Nat) (q : List α) (a : α) : List α := (q ++ [a]).rdrop cap

theorem overflow_append_push (cap : Nat) (q : List α) (a : α) :
    overflow cap q a ++ push cap q a = q ++ [a] := by
  simp [overflow, push, List.rdrop, List.rtake]

theorem length_push (cap : Nat) (q : List α) (a : α) :
    (push cap q a).length = min cap (q.length + 1) := by
  simp only [push, List.rtake, List.length_drop, List.length_append, List.length_singleton]
  omega

theorem push_of_lt {cap : Nat} {q : List α} (h : q.length < cap) (a : α) :
    push cap q a = q ++ [a] := by
  have hlen : (q ++ [a]).length - cap = 0 := by
    simp only [List.length_append, List.length_singleton]
    omega
  rw [push, List.rtake, hlen, List.drop_zero]

theorem push_of_full {cap : Nat} {q : List α} (h : q.length = cap) (a : α) :
    push cap q a = (q ++ [a]).tail := by
  have hlen : (q ++ [a]).length - cap = 1 := by
    simp only [List.length_append, List.length_singleton]
    omega
  rw [push, List.rtake, hlen, List.drop_one]

theorem overflow_of_lt {cap : Nat} {q : List α} (h : q.length < cap) (a : α) :
    overflow cap q a = [] := by
  have hlen : (q ++ [a]).length - cap = 0 := by
    simp only [List.length_append, List.length_singleton]
    omega
  rw [overflow, List.rdrop, hlen, List.take_zero]

theorem overflow_of_full {cap : Nat} {q : List α} (h : q.length = cap) (a : α) :
    overflow cap q a = (q ++ [a]).take 1 := by
  have hlen : (q ++ [a]).length - cap = 1 := by
    simp only [List.length_append, List.length_singleton]
    omega
  rw [overflow, List.rdrop, hlen]

section Recent

/-- The last `cap` items of a growing list are a queue from which nothing is ever taken. -/
theorem rtake_concat (cap : Nat) (l : List α) (a : α) :
    (l ++ [a]).rtake cap = push cap (l.rtake cap) a := by
  rcases Nat.lt_or_ge l.length cap with hlt | hle
  · have hall : l.rtake cap = l := by simp [List.rtake, Nat.sub_eq_zero_of_le hlt.le]
    rw [hall, push]
  · have hlen : (l.drop (l.length - cap) ++ [a]).length - cap = 1 := by
      simp only [List.length_append, List.length_drop, List.length_singleton]
      omega
    have hnext : (l ++ [a]).length - cap = l.length - cap + 1 := by
      simp only [List.length_append, List.length_singleton]
      omega
    rw [push, List.rtake, List.rtake, List.rtake, hlen, hnext, ← List.drop_drop,
      List.drop_append_of_le_length (by omega)]

theorem rdrop_concat (cap : Nat) (l : List α) (a : α) :
    (l ++ [a]).rdrop cap = l.rdrop cap ++ overflow cap (l.rtake cap) a := by
  have hsplit (l : List α) : l.rdrop cap ++ l.rtake cap = l := by
    rw [List.rdrop, List.rtake, List.take_append_drop]
  have hall : (l ++ [a]).rdrop cap ++ push cap (l.rtake cap) a =
      (l.rdrop cap ++ overflow cap (l.rtake cap) a) ++ push cap (l.rtake cap) a := by
    rw [List.append_assoc, overflow_append_push, ← List.append_assoc, hsplit, ← rtake_concat,
      hsplit]
  exact List.append_cancel_right hall

theorem length_rtake (cap : Nat) (l : List α) : (l.rtake cap).length = min cap l.length := by
  rw [List.rtake, List.length_drop]
  omega

/-- A suffix of at most `cap` items is one of the last `cap` items. -/
theorem suffix_rtake {cap : Nat} {q l : List α} (h : q <:+ l) (hlen : q.length ≤ cap) :
    q <:+ l.rtake cap := by
  apply List.suffix_of_suffix_length_le h (List.drop_suffix _ _)
  have hle := h.length_le
  rw [← List.rtake, length_rtake]
  omega

theorem map_rtake {β : Type*} (f : α → β) (cap : Nat) (l : List α) :
    (l.rtake cap).map f = (l.map f).rtake cap := by
  rw [List.rtake, List.rtake, List.map_drop, List.length_map]

theorem map_rdrop {β : Type*} (f : α → β) (cap : Nat) (l : List α) :
    (l.rdrop cap).map f = (l.map f).rdrop cap := by
  rw [List.rdrop, List.rdrop, List.map_take, List.length_map]

end Recent

end DropQueue
