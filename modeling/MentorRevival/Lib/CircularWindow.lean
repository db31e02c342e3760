import Mathlib.Data.List.Range
import Mathlib.Data.Nat.ModEq
import Mathlib.Logic.Function.Basic

/-!
# Circular windows

A window of length `k` over `n` slots starts at slot `t` and wraps from the last slot to the
first. It is the list a ring buffer holds; the lemmas below say what happens to it when an
item is written behind its end, when its first item is taken, and when other slots change.
-/

namespace CircularWindow

variable {α β : Type*}

/-- The slot that follows `i` on a circle of `n` slots, as a wrap test computes it. -/
def next (n i : Nat) : Nat := if i + 1 = n then 0 else i + 1

/-- The slots `t, t + 1, ..., t + k - 1` of a circle of `n` slots, read in order. -/
def window (slot : Nat → α) (n t k : Nat) : List α :=
  (List.range k).map fun i => slot ((t + i) % n)

theorem next_eq_mod {n i : Nat} (hi : i < n) : next n i = (i + 1) % n := by
  unfold next
  split
  · next h => rw [h, Nat.mod_self]
  · next h => exact (Nat.mod_eq_of_lt (by omega)).symm

theorem next_lt {n i : Nat} (hi : i < n) : next n i < n := by
  unfold next
  split <;> omega

def distance (n t h : Nat) : Nat := if t ≤ h then h - t else h + n - t

theorem distance_lt {n t h : Nat} (ht : t < n) (hh : h < n) : distance n t h < n := by
  unfold distance
  split <;> omega

@[simp] theorem distance_self (n t : Nat) : distance n t t = 0 := by
  simp [distance]

theorem distance_eq_zero_iff {n t h : Nat} (ht : t < n) : distance n t h = 0 ↔ t = h := by
  unfold distance
  split <;> omega

theorem add_distance_mod {n t h : Nat} (ht : t < n) (hh : h < n) :
    (t + distance n t h) % n = h := by
  unfold distance
  split
  · rw [show t + (h - t) = h by omega]
    exact Nat.mod_eq_of_lt hh
  · rw [show t + (h + n - t) = h + n by omega, Nat.add_mod_right]
    exact Nat.mod_eq_of_lt hh

theorem distance_next_right {n t h : Nat} (ht : t < n)
    (hroom : distance n t h + 1 < n) : distance n t (next n h) = distance n t h + 1 := by
  unfold distance next at *
  split_ifs at * <;> omega

theorem distance_next_left {n t h : Nat} (ht : t < n) (hh : h < n) (hne : t ≠ h) :
    distance n t h = distance n (next n t) h + 1 := by
  unfold distance next
  split_ifs <;> omega

@[simp] theorem window_zero (slot : Nat → α) (n t : Nat) : window slot n t 0 = [] := rfl

@[simp] theorem length_window (slot : Nat → α) (n t k : Nat) : (window slot n t k).length = k := by
  simp [window]

theorem window_succ (slot : Nat → α) (n t k : Nat) :
    window slot n t (k + 1) = window slot n t k ++ [slot ((t + k) % n)] := by
  simp [window, List.range_succ]

theorem window_succ_left (slot : Nat → α) {n t : Nat} (ht : t < n) (k : Nat) :
    window slot n t (k + 1) = slot t :: window slot n (next n t) k := by
  rw [next_eq_mod ht]
  simp only [window, List.range_succ_eq_map, List.map_cons, List.map_map, Nat.add_zero,
    Nat.mod_eq_of_lt ht]
  congr 1
  apply List.map_congr_left
  intro i _
  simp only [Function.comp_apply, Nat.mod_add_mod]
  congr 2
  omega

theorem window_congr {slot slot' : Nat → α} {n t k : Nat}
    (h : ∀ i < k, slot ((t + i) % n) = slot' ((t + i) % n)) :
    window slot n t k = window slot' n t k := by
  apply List.map_congr_left
  intro i hi
  exact h i (List.mem_range.mp hi)

theorem map_window (f : α → β) (slot : Nat → α) (n t k : Nat) :
    (window slot n t k).map f = window (fun i => f (slot i)) n t k := by
  simp [window, Function.comp_def]

/-- The slot behind a window that does not fill the circle is outside of the window. -/
theorem behind_ne {n t i k : Nat} (hik : i < k) (hk : k < n) : (t + i) % n ≠ (t + k) % n := by
  intro h
  have hmod : k - i ≡ 0 [MOD n] := by
    have hsum : t + i + (k - i) ≡ t + i + 0 [MOD n] := by
      rw [show t + i + (k - i) = t + k by omega, Nat.add_zero]
      exact h.symm
    exact Nat.ModEq.add_left_cancel' _ hsum
  have hdvd : n ∣ k - i := (Nat.modEq_zero_iff_dvd).mp hmod
  have := Nat.le_of_dvd (by omega) hdvd
  omega

theorem window_update (slot : Nat → α) {n t k : Nat} (hk : k < n) (a : α) :
    window (Function.update slot ((t + k) % n) a) n t k = window slot n t k := by
  apply window_congr
  intro i hi
  exact Function.update_of_ne (behind_ne hi hk) _ _

/-- Writing behind the window and extending it by one appends the item. -/
theorem window_push (slot : Nat → α) {n t k : Nat} (hk : k < n) (a : α) :
    window (Function.update slot ((t + k) % n) a) n t (k + 1) = window slot n t k ++ [a] := by
  rw [window_succ, window_update slot hk, Function.update_self]

end CircularWindow
