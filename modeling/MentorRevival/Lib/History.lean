import Mathlib.Data.List.Induction

/-!
# Histories

Properties of a list that speak of every entry and of the entries in front of it. Entries that
concern one party are picked out with `filterMap`, so a history of several parties that are
interleaved is judged by the history of the one.
-/

namespace History

variable {α β : Type*} {P Q : List α → α → Prop}

def AtEach (P : List α → α → Prop) (l : List α) : Prop :=
  ∀ before x after, l = before ++ x :: after → P before x

theorem atEach_nil : AtEach P [] := by
  intro before x after h
  simp at h

theorem atEach_append_singleton (l : List α) (x : α) :
    AtEach P (l ++ [x]) ↔ AtEach P l ∧ P l x := by
  constructor
  · intro h
    constructor
    · intro before y after hl
      apply h before y (after ++ [x])
      rw [hl, List.append_assoc, List.cons_append]
    · exact h l x [] rfl
  · rintro ⟨hl, hx⟩ before y after h
    induction after using List.reverseRecOn with
    | nil =>
      obtain ⟨rfl, hxy⟩ := List.append_inj' h rfl
      obtain rfl := List.singleton_inj.mp hxy
      exact hx
    | append_singleton after z _ =>
      apply hl before y after
      rw [← List.cons_append, ← List.append_assoc] at h
      exact (List.append_inj' h rfl).1

theorem atEach_congr (h : ∀ l x, P l x ↔ Q l x) (l : List α) : AtEach P l ↔ AtEach Q l := by
  have hPQ : P = Q := funext fun l => funext fun x => propext (h l x)
  rw [hPQ]

/-- Two properties agree on a history when they agree at every entry behind a history that has
both. -/
theorem atEach_iff (h : ∀ l x, AtEach P l → AtEach Q l → (P l x ↔ Q l x)) (l : List α) :
    AtEach P l ↔ AtEach Q l := by
  induction l using List.reverseRecOn with
  | nil => exact iff_of_true atEach_nil atEach_nil
  | append_singleton l x ih =>
    rw [atEach_append_singleton, atEach_append_singleton]
    constructor
    · rintro ⟨hl, hx⟩
      have hQ := ih.mp hl
      exact ⟨hQ, (h l x hl hQ).mp hx⟩
    · rintro ⟨hl, hx⟩
      have hP := ih.mpr hl
      exact ⟨hP, (h l x hP hl).mpr hx⟩

theorem atEach_filterMap {P : List β → β → Prop} {f : α → Option β} (l : List α) :
    AtEach (fun before x => ∀ y, f x = some y → P (before.filterMap f) y) l ↔
      AtEach P (l.filterMap f) := by
  induction l using List.reverseRecOn with
  | nil => exact iff_of_true atEach_nil atEach_nil
  | append_singleton l x ih =>
    rw [atEach_append_singleton, ih, List.filterMap_append]
    cases hx : f x with
    | none => simp [hx]
    | some y =>
      have hy : [x].filterMap f = [y] := by simp [hx]
      rw [hy, atEach_append_singleton]
      simp

/-- What every step overwrites or leaves alone holds the last value written to it. -/
theorem foldl_lastWrite {σ ι γ : Type*} {f : σ → ι → σ} {g : σ → γ}
    {write? : ι → Option γ} (h : ∀ s i, g (f s i) = (write? i).getD (g s)) (l : List ι)
    (s : σ) : g (l.foldl f s) = (l.filterMap write?).getLast?.getD (g s) := by
  induction l using List.reverseRecOn with
  | nil => rfl
  | append_singleton l i ih =>
    rw [List.foldl_append, List.foldl_cons, List.foldl_nil, h, ih, List.filterMap_append]
    cases hwrite : write? i with
    | none => simp [hwrite]
    | some v => simp [hwrite]

end History
