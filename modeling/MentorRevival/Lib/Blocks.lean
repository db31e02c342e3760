import Mathlib.Data.List.Basic
import Mathlib.Logic.Function.Basic

/-!
# Blocks of a flat memory area

A data area of cells read as consecutive blocks of one width, and a copy between areas that
refuses to leave either of them. A copy onto block `h` changes block `h` and no other.
-/

namespace Blocks

variable {α : Type*}

/-- Copy `n` cells from offset `s` of `src` to offset `d` of `dst`; `none` out of bounds. -/
def copy (dst : List α) (d : Nat) (src : List α) (s n : Nat) : Option (List α) :=
  if d + n ≤ dst.length ∧ s + n ≤ src.length then
    some (dst.take d ++ (src.drop s).take n ++ dst.drop (d + n))
  else none

def block (w : Nat) (area : List α) (i : Nat) : List α := (area.drop (i * w)).take w

theorem block_end_le {w n i : Nat} (hi : i < n) : i * w + w ≤ n * w := by
  have := Nat.mul_le_mul_right w (Nat.succ_le_of_lt hi)
  rwa [Nat.succ_mul] at this

theorem copy_to_block {w n h : Nat} {area src : List α} (harea : area.length = n * w)
    (hh : h < n) (hsrc : w ≤ src.length) :
    copy area (h * w) src 0 w =
      some (area.take (h * w) ++ src.take w ++ area.drop (h * w + w)) := by
  have := block_end_le (w := w) hh
  rw [copy, if_pos (by omega), List.drop_zero]

theorem copy_from_block {w n t : Nat} {area dst : List α} (harea : area.length = n * w)
    (ht : t < n) (hdst : w ≤ dst.length) :
    copy dst 0 area (t * w) w = some (block w area t ++ dst.drop w) := by
  have := block_end_le (w := w) ht
  rw [copy, if_pos (by omega)]
  simp [block]

theorem length_overwrite {w n h : Nat} {area item : List α} (harea : area.length = n * w)
    (hh : h < n) (hitem : item.length = w) :
    (area.take (h * w) ++ item ++ area.drop (h * w + w)).length = n * w := by
  have := block_end_le (w := w) hh
  simp only [List.length_append, List.length_take, List.length_drop]
  omega

theorem block_overwrite {w n h : Nat} {area item : List α} (harea : area.length = n * w)
    (hh : h < n) (hitem : item.length = w) :
    block w (area.take (h * w) ++ item ++ area.drop (h * w + w)) =
      Function.update (block w area) h item := by
  have hend := block_end_le (w := w) hh
  have hpre : (area.take (h * w)).length = h * w := by
    rw [List.length_take]
    omega
  funext i
  rcases Nat.lt_trichotomy i h with hlt | rfl | hgt
  · have hi := block_end_le (w := w) hlt
    rw [Function.update_of_ne (Nat.ne_of_lt hlt)]
    unfold block
    rw [List.append_assoc, List.drop_append_of_le_length (by omega),
      List.take_append_of_le_length (by rw [List.length_drop]; omega), List.drop_take,
      List.take_take, Nat.min_eq_left (by omega)]
  · rw [Function.update_self]
    unfold block
    rw [List.append_assoc, List.drop_left' hpre, List.take_left' hitem]
  · have hi := block_end_le (w := w) hgt
    have hskip : (area.take (h * w) ++ item).length = h * w + w := by
      rw [List.length_append, hpre, hitem]
    rw [Function.update_of_ne (Nat.ne_of_gt hgt)]
    unfold block
    rw [List.drop_append, hskip, List.drop_eq_nil_of_le (by omega), List.nil_append,
      List.drop_drop, show h * w + w + (i * w - (h * w + w)) = i * w by omega]

end Blocks
