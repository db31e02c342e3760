import MentorRevival.Lib.Transition

/-!
# Systems that come to rest

Some labels of a transition system are its own: every step of one of them does one unit of the
work that is left. Silent labels are those that bring no new work. Then a silent schedule does
no more own steps than there is work, some schedule does all of it, and when own steps that
are enabled together commute the state at rest depends on the state at the outset only.
-/

namespace Transition

variable {σ ι : Type*}

structure Drains (step : ι → σ → Option σ) (silent : ι → Prop) (own : ι → Bool) (J : σ → Prop)
    (work : σ → Nat) : Prop where
  silent_of_own : ∀ l, own l = true → silent l
  kept : ∀ l s s', silent l → J s → step l s = some s' → J s'
  work_step : ∀ l s s', silent l → J s → step l s = some s' → work s = work s' + (own l).toNat
  enabled : ∀ s, J s → 0 < work s → ∃ l s', own l = true ∧ step l s = some s'

def Commutes (step : ι → σ → Option σ) (own : ι → Bool) (J : σ → Prop) : Prop :=
  ∀ l k s t u, own l = true → own k = true → l ≠ k → J s → step l s = some t →
    step k s = some u → ∃ v, step k t = some v ∧ step l u = some v

/-- Own steps lead from `s` to `t`, where no work is left. -/
def Settles (step : ι → σ → Option σ) (own : ι → Bool) (work : σ → Nat) (s t : σ) : Prop :=
  ∃ ls, (∀ l ∈ ls, own l = true) ∧ run step ls s = some t ∧ work t = 0

section Settles

variable {step : ι → σ → Option σ} {own : ι → Bool} {work : σ → Nat} {s s' t : σ}

theorem Settles.refl (h : work s = 0) : Settles step own work s s := ⟨[], by simp, rfl, h⟩

theorem Settles.cons {l : ι} (hl : own l = true) (hs : step l s = some s')
    (h : Settles step own work s' t) : Settles step own work s t := by
  obtain ⟨ls, hls, hrun, hrest⟩ := h
  refine ⟨l :: ls, List.forall_mem_cons.mpr ⟨hl, hls⟩, ?_, hrest⟩
  rw [run_cons, hs]
  exact hrun

theorem Settles.first (h : Settles step own work s t) :
    (work s = 0 ∧ s = t) ∨
      ∃ l s', own l = true ∧ step l s = some s' ∧ Settles step own work s' t := by
  obtain ⟨ls, hls, hrun, hrest⟩ := h
  cases ls with
  | nil =>
    obtain rfl : s = t := by simpa using hrun
    exact Or.inl ⟨hrest, rfl⟩
  | cons l ls =>
    obtain ⟨s', hs', hrun⟩ := Option.bind_eq_some_iff.mp hrun
    rw [List.forall_mem_cons] at hls
    exact Or.inr ⟨l, s', hls.1, hs', ls, hls.2, hrun, hrest⟩

end Settles

namespace Drains

variable {step : ι → σ → Option σ} {silent : ι → Prop} {own : ι → Bool} {J : σ → Prop}
variable {work : σ → Nat} {s t u : σ} {ls : List ι}

theorem restrict {K : σ → Prop} (h : Drains step silent own J work)
    (hK : ∀ l s s', silent l → J s → K s → step l s = some s' → K s') :
    Drains step silent own (fun s => J s ∧ K s) work where
  silent_of_own := h.silent_of_own
  kept := fun l s s' hl hs hstep =>
    ⟨h.kept l s s' hl hs.1 hstep, hK l s s' hl hs.1 hs.2 hstep⟩
  work_step := fun l s s' hl hs hstep => h.work_step l s s' hl hs.1 hstep
  enabled := fun s hs hwork => h.enabled s hs.1 hwork

theorem own_step (h : Drains step silent own J work) {l : ι} (hl : own l = true) (hs : J s)
    (hstep : step l s = some t) : J t ∧ work s = work t + 1 := by
  have hone := h.work_step l s t (h.silent_of_own l hl) hs hstep
  rw [hl] at hone
  exact ⟨h.kept l s t (h.silent_of_own l hl) hs hstep, hone⟩

/-- The work done in a silent schedule is the number of its own steps. -/
theorem work_run (h : Drains step silent own J work) (hls : ∀ l ∈ ls, silent l) (hs : J s)
    (hrun : run step ls s = some t) : J t ∧ work s = work t + ls.countP own := by
  induction ls generalizing s with
  | nil =>
    obtain rfl : s = t := by simpa using hrun
    exact ⟨hs, rfl⟩
  | cons l ls ih =>
    obtain ⟨s', hs', hrun⟩ := Option.bind_eq_some_iff.mp hrun
    rw [List.forall_mem_cons] at hls
    have hone := h.work_step l s s' hls.1 hs hs'
    have hrest := ih hls.2 (h.kept l s s' hls.1 hs hs') hrun
    refine ⟨hrest.1, ?_⟩
    cases hown : own l
    · rw [List.countP_cons_of_neg (by simp [hown])]
      simp only [hown, Bool.toNat_false] at hone
      omega
    · rw [List.countP_cons_of_pos hown]
      simp only [hown, Bool.toNat_true] at hone
      omega

theorem settles (h : Drains step silent own J work) (hs : J s) :
    ∃ t, Settles step own work s t := by
  induction hn : work s generalizing s with
  | zero => exact ⟨s, .refl hn⟩
  | succ n ih =>
    obtain ⟨l, s', hl, hs'⟩ := h.enabled s hs (by omega)
    obtain ⟨hJ, hone⟩ := h.own_step hl hs hs'
    obtain ⟨t, ht⟩ := ih hJ (by omega)
    exact ⟨t, ht.cons hl hs'⟩

theorem rest_iff (h : Drains step silent own J work) (hs : J s) :
    work s = 0 ↔ ∀ l, own l = true → step l s = none := by
  constructor
  · intro hrest l hl
    cases hs' : step l s with
    | none => rfl
    | some s' =>
      have hone := (h.own_step hl hs hs').2
      omega
  · intro hstuck
    by_contra hwork
    obtain ⟨l, s', hl, hs'⟩ := h.enabled s hs (Nat.pos_of_ne_zero hwork)
    simp [hstuck l hl] at hs'

theorem settles_unique (h : Drains step silent own J work) (hcomm : Commutes step own J)
    (hs : J s) (ht : Settles step own work s t) (hu : Settles step own work s u) : t = u := by
  induction hn : work s generalizing s t u with
  | zero =>
    have hstuck := (h.rest_iff hs).mp hn
    rcases ht.first with ⟨_, rfl⟩ | ⟨l, s', hl, hs', _⟩
    · rcases hu.first with ⟨_, rfl⟩ | ⟨k, s', hk, hs', _⟩
      · rfl
      · simp [hstuck k hk] at hs'
    · simp [hstuck l hl] at hs'
  | succ n ih =>
    rcases ht.first with ⟨hrest, _⟩ | ⟨l, s₁, hl, hs₁, ht⟩
    · omega
    · rcases hu.first with ⟨hrest, _⟩ | ⟨k, s₂, hk, hs₂, hu⟩
      · omega
      · obtain ⟨hJ₁, hone₁⟩ := h.own_step hl hs hs₁
        obtain ⟨hJ₂, hone₂⟩ := h.own_step hk hs hs₂
        by_cases hlk : l = k
        · subst hlk
          obtain rfl : s₁ = s₂ := Option.some.inj (hs₁.symm.trans hs₂)
          exact ih hJ₁ ht hu (by omega)
        · -- the first steps are joined in `v`, and `v` settles in some way
          obtain ⟨v, hv₁, hv₂⟩ := hcomm l k s s₁ s₂ hl hk hlk hs hs₁ hs₂
          obtain ⟨w, hw⟩ := h.settles (h.own_step hk hJ₁ hv₁).1
          have htw : t = w := ih hJ₁ ht (hw.cons hk hv₁) (by omega)
          have huw : u = w := ih hJ₂ hu (hw.cons hl hv₂) (by omega)
          rw [htw, huw]

end Drains

section Countdown

variable {step : ι → σ → Option σ} {own : ι → Bool} {J Done : σ → Prop} {Due : Nat → σ → Prop}

/-- What is due in `n` own steps, and nearer by one after each of them whatever happens in
between, is done once `n` own steps have been taken. -/
theorem done_or_due (hJ : ∀ l s s', J s → step l s = some s' → J s')
    (hdone : ∀ l s s', Done s → step l s = some s' → Done s')
    (hdue : ∀ n l s s', J s → Due n s → step l s = some s' →
      Done s' ∨ ∃ n', Due n' s' ∧ n' + (own l).toNat ≤ n)
    (ls : List ι) {n : Nat} {s t : σ} (hs : J s) (h : Due n s) (hrun : run step ls s = some t) :
    Done t ∨ ∃ n', Due n' t ∧ n' + ls.countP own ≤ n := by
  induction ls generalizing n s with
  | nil =>
    obtain rfl : s = t := by simpa using hrun
    exact Or.inr ⟨n, h, Nat.le_refl _⟩
  | cons l ls ih =>
    obtain ⟨s', hs', hrun⟩ := Option.bind_eq_some_iff.mp hrun
    rcases hdue n l s s' hs h hs' with hd | ⟨m, hm, hle⟩
    · exact Or.inl (run_invariant hdone ls hd hrun)
    · rcases ih (hJ l s s' hs hs') hm hrun with hd | ⟨k, hk, hle'⟩
      · exact Or.inl hd
      · refine Or.inr ⟨k, hk, ?_⟩
        rw [List.countP_cons]
        cases hown : own l
        · simp only [hown, Bool.toNat_false] at hle ⊢
          simp only [Bool.false_eq_true, if_false]
          omega
        · simp only [hown, Bool.toNat_true] at hle ⊢
          simp only [if_true]
          omega

end Countdown

end Transition
