import Mathlib.Data.List.Nodup
import Mathlib.Order.Basic

/-!
# Consumers that reuse their last item

A consumer keeps the last item it took in a register. When a take brings nothing it uses the
register once more. `Replay xs us` says that the uses `us` come from taking the items `xs` in
order: the items used are those taken, repeated but never reordered.
-/

namespace Register

variable {α : Type*}

/-- One use of the register; it is fresh when the item was taken for this use. -/
structure Use (α : Type*) where
  item : α
  fresh : Bool

def Use.map {β : Type*} (f : α → β) (u : Use α) : Use β := { item := f u.item, fresh := u.fresh }

inductive Replay : List α → List (Use α) → Prop
  | nil : Replay [] []
  | fresh {xs : List α} {us : List (Use α)} (a : α) (h : Replay xs us) :
    Replay (xs ++ [a]) (us ++ [{ item := a, fresh := true }])
  | stale {xs : List α} {us : List (Use α)} {a : α} (h : Replay xs us)
    (hlast : xs.getLast? = some a) : Replay xs (us ++ [{ item := a, fresh := false }])

namespace Replay

variable {xs : List α} {us : List (Use α)}

theorem mem_iff (h : Replay xs us) {a : α} : a ∈ us.map Use.item ↔ a ∈ xs := by
  induction h with
  | nil => rfl
  | fresh b h ih => simp only [List.map_append, List.mem_append, ih, List.map_cons, List.map_nil]
  | stale h hlast ih =>
    obtain ⟨ys, rfl⟩ := List.getLast?_eq_some_iff.mp hlast
    simp only [List.map_append, List.mem_append, ih, List.map_cons, List.map_nil, or_assoc, or_self]

theorem map {β : Type*} (f : α → β) (h : Replay xs us) :
    Replay (xs.map f) (us.map (Use.map f)) := by
  induction h with
  | nil => exact .nil
  | fresh a h ih =>
    rw [List.map_append, List.map_append]
    exact ih.fresh (f a)
  | stale h hlast ih =>
    rw [List.map_append]
    refine ih.stale ?_
    rw [List.getLast?_map, hlast]
    rfl

theorem dropLast {u : Use α} (h : Replay xs (us ++ [u])) : ∃ ys, ys <+: xs ∧ Replay ys us := by
  generalize hvs : us ++ [u] = vs at h
  cases h with
  | nil => simp at hvs
  | @fresh ys ws a h =>
    obtain ⟨rfl, _⟩ := List.append_inj' hvs rfl
    exact ⟨ys, List.prefix_append ys [a], h⟩
  | stale h hlast =>
    obtain ⟨rfl, _⟩ := List.append_inj' hvs rfl
    exact ⟨xs, List.prefix_rfl, h⟩

theorem pairwise_le [Preorder α] (h : Replay xs us) (hxs : xs.Pairwise (· < ·)) :
    (us.map Use.item).Pairwise (· ≤ ·) := by
  induction h with
  | nil => exact .nil
  | fresh a h ih =>
    rcases List.pairwise_append.mp hxs with ⟨hxs, _, hlt⟩
    rw [List.map_append, List.pairwise_append]
    refine ⟨ih hxs, by simp, ?_⟩
    intro b hb c hc
    have hbc := hlt b (h.mem_iff.mp hb) c hc
    exact hbc.le
  | @stale xs us a h hlast ih =>
    obtain ⟨ys, rfl⟩ := List.getLast?_eq_some_iff.mp hlast
    have hlt := (List.pairwise_append.mp hxs).2.2
    rw [List.map_append, List.pairwise_append]
    refine ⟨ih hxs, by simp, ?_⟩
    intro b hb c hc
    obtain rfl : c = a := by simpa using hc
    rcases List.mem_append.mp (h.mem_iff.mp hb) with hb | hb
    · exact (hlt b hb c (by simp)).le
    · obtain rfl : b = c := by simpa using hb
      exact le_refl b

theorem items_eq (h : Replay xs us) (hfresh : ∀ u ∈ us, u.fresh = true) :
    us.map Use.item = xs := by
  induction h with
  | nil => rfl
  | fresh a h ih =>
    rw [List.map_append, ih fun u hu => hfresh u (List.mem_append_left _ hu)]
    rfl
  | stale h hlast ih => simpa using hfresh _ (List.mem_append_right _ (List.mem_singleton_self _))

theorem eq_nil (h : Replay xs []) : xs = [] := by
  generalize hus : ([] : List (Use α)) = us at h
  cases h with
  | nil => rfl
  | fresh a h => simp at hus
  | stale h hlast => simp at hus

/-- The register is never used before the first item has been taken. -/
theorem head_fresh (h : Replay xs us) {u : Use α} (hu : us.head? = some u) : u.fresh = true := by
  induction h with
  | nil => simp at hu
  | @fresh xs us a h ih =>
    cases us with
    | nil =>
      obtain rfl : { item := a, fresh := true } = u := by simpa using hu
      rfl
    | cons v vs => exact ih hu
  | @stale xs us a h hlast ih =>
    cases us with
    | nil =>
      obtain rfl := h.eq_nil
      simp at hlast
    | cons v vs => exact ih hu

/-- When doing the same twice is doing it once, a replay has the effect of the items taken. -/
theorem foldl_eq {σ : Type*} {f : σ → α → σ} (hidem : ∀ s a, f (f s a) a = f s a)
    (h : Replay xs us) (s : σ) : (us.map Use.item).foldl f s = xs.foldl f s := by
  induction h with
  | nil => rfl
  | fresh a h ih =>
    rw [List.map_append, List.foldl_append, List.foldl_append, ih]
    rfl
  | stale h hlast ih =>
    obtain ⟨ys, rfl⟩ := List.getLast?_eq_some_iff.mp hlast
    rw [List.map_append, List.foldl_append, ih, List.foldl_append]
    exact hidem _ _

theorem nodup_iff (h : Replay xs us) (hxs : xs.Nodup) :
    (us.map Use.item).Nodup ↔ ∀ u ∈ us, u.fresh = true := by
  refine ⟨fun hnodup => ?_, fun hfresh => by rwa [h.items_eq hfresh]⟩
  induction h with
  | nil => simp
  | fresh a h ih =>
    rw [List.map_append] at hnodup
    have hfresh := ih (hxs.sublist (List.sublist_append_left _ _))
      (hnodup.sublist (List.sublist_append_left _ _))
    intro u hu
    rcases List.mem_append.mp hu with hu | hu
    · exact hfresh u hu
    · rw [List.mem_singleton.mp hu]
  | @stale xs us a h hlast ih =>
    -- the register holds the item of an earlier use
    have hmem : a ∈ us.map Use.item := h.mem_iff.mpr (List.mem_of_getLast? hlast)
    rw [List.map_append, List.nodup_append] at hnodup
    exact absurd rfl (hnodup.2.2 a hmem a (by simp))

/-- Uses are once each and in the order of reception exactly when all of them are fresh. -/
theorem sublist_iff (h : Replay xs us) {rs : List α} (hrs : rs.Nodup) (hxs : xs.Sublist rs) :
    (us.map Use.item).Sublist rs ↔ ∀ u ∈ us, u.fresh = true := by
  constructor
  · intro hsub
    exact (h.nodup_iff (hrs.sublist hxs)).mp (hrs.sublist hsub)
  · intro hfresh
    rwa [h.items_eq hfresh]

end Replay

end Register
