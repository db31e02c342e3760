import Mathlib.Data.List.Basic

/-!
# Runs of a guarded step function

A transition system is an executable step function `step : ι → σ → Option σ` over labels `ι`;
`none` says that the label is not enabled. A schedule is a list of labels, so a statement
about every schedule is a statement about every interleaving.
-/

namespace Transition

variable {σ τ ι κ ω : Type*}

/-- The state a schedule leads to, when every label on the way is enabled. -/
def run (step : ι → σ → Option σ) : List ι → σ → Option σ
  | [], s => some s
  | l :: ls, s => (step l s).bind (run step ls)

def Reachable (step : ι → σ → Option σ) (init s : σ) : Prop :=
  ∃ ls, run step ls init = some s

/-- Every step of the schedule is taken in a state that meets the guard `G`. -/
def Along (step : ι → σ → Option σ) (G : ι → σ → Prop) : List ι → σ → Prop
  | [], _ => True
  | l :: ls, s => G l s ∧ ∀ s', step l s = some s' → Along step G ls s'

/-- The predicate `P` holds in every state the schedule visits, the first included. -/
def Always (step : ι → σ → Option σ) (P : σ → Prop) : List ι → σ → Prop
  | [], s => P s
  | l :: ls, s => P s ∧ ∀ s', step l s = some s' → Always step P ls s'

/-- What is seen of the steps of a schedule, each in the state in which it is taken. -/
def observe (step : ι → σ → Option σ) (obs : ι → σ → List ω) : List ι → σ → List ω
  | [], _ => []
  | l :: ls, s => obs l s ++ (step l s).elim [] (observe step obs ls)

instance Along.decidable (step : ι → σ → Option σ) (G : ι → σ → Prop)
    [∀ l s, Decidable (G l s)] : ∀ ls s, Decidable (Along step G ls s)
  | [], _ => isTrue trivial
  | l :: ls, s =>
    match h : step l s with
    | none => decidable_of_iff (G l s) ⟨fun hG => ⟨hG, by simp [h]⟩, And.left⟩
    | some s' =>
      have := Along.decidable step G ls s'
      decidable_of_iff (G l s ∧ Along step G ls s') (by simp [Along, h])

section Runs

variable {step : ι → σ → Option σ}

@[simp] theorem run_nil (s : σ) : run step [] s = some s := rfl

@[simp] theorem run_cons (l : ι) (ls : List ι) (s : σ) :
    run step (l :: ls) s = (step l s).bind (run step ls) := rfl

theorem run_singleton (l : ι) (s : σ) : run step [l] s = step l s := by
  rw [run_cons]
  cases step l s with
  | none => rfl
  | some t => rfl

theorem run_append (ls ks : List ι) (s : σ) :
    run step (ls ++ ks) s = (run step ls s).bind (run step ks) := by
  induction ls generalizing s with
  | nil => rfl
  | cons l ls ih =>
    simp only [List.cons_append, run_cons]
    cases step l s with
    | none => rfl
    | some s' => exact ih s'

theorem Reachable.refl (s : σ) : Reachable step s s := ⟨[], rfl⟩

theorem Reachable.trans {a b c : σ} (hab : Reachable step a b) (hbc : Reachable step b c) :
    Reachable step a c := by
  obtain ⟨ls, hls⟩ := hab
  obtain ⟨ks, hks⟩ := hbc
  refine ⟨ls ++ ks, ?_⟩
  rw [run_append, hls]
  exact hks

theorem Reachable.next {init s s' : σ} {l : ι} (h : Reachable step init s)
    (hl : step l s = some s') : Reachable step init s' := by
  refine h.trans ⟨[l], ?_⟩
  simp [hl]

theorem run_invariant {I : σ → Prop} (hstep : ∀ l s s', I s → step l s = some s' → I s')
    (ls : List ι) {s s' : σ} (h0 : I s) (h : run step ls s = some s') : I s' := by
  induction ls generalizing s with
  | nil =>
    obtain rfl : s = s' := by simpa using h
    exact h0
  | cons l ls ih =>
    obtain ⟨t, ht, hrun⟩ := Option.bind_eq_some_iff.mp h
    exact ih (hstep l s t h0 ht) hrun

theorem Reachable.invariant {I : σ → Prop} {init s : σ} (h : Reachable step init s)
    (h0 : I init) (hstep : ∀ l s s', I s → step l s = some s' → I s') : I s := by
  obtain ⟨ls, hls⟩ := h
  exact run_invariant hstep ls h0 hls

/-- An invariant may be used while another one is proved on top of it. -/
theorem Reachable.invariant_with {J I : σ → Prop} {init s : σ} (h : Reachable step init s)
    (hJ : ∀ s, Reachable step init s → J s) (h0 : I init)
    (hstep : ∀ l s s', J s → I s → step l s = some s' → I s') : I s := by
  have hboth : Reachable step init s ∧ I s := by
    refine Reachable.invariant (I := fun t => Reachable step init t ∧ I t) h ⟨.refl _, h0⟩ ?_
    intro l t t' ht hl
    exact ⟨ht.1.next hl, hstep l t t' (hJ t ht.1) ht.2 hl⟩
  exact hboth.2

/-- A predicate kept by every step that meets the guard holds throughout a guarded run. -/
theorem always_of_along {I : σ → Prop} {G : ι → σ → Prop}
    (hstep : ∀ l s s', I s → G l s → step l s = some s' → I s')
    (ls : List ι) {s : σ} (h0 : I s) (hG : Along step G ls s) : Always step I ls s := by
  induction ls generalizing s with
  | nil => exact h0
  | cons l ls ih =>
    refine ⟨h0, fun s' hs' => ?_⟩
    exact ih (hstep l s s' h0 hG.1 hs') (hG.2 s' hs')

theorem always_of_step {I : σ → Prop} (hstep : ∀ l s s', I s → step l s = some s' → I s')
    (ls : List ι) {s : σ} (h0 : I s) : Always step I ls s := by
  induction ls generalizing s with
  | nil => exact h0
  | cons l ls ih => exact ⟨h0, fun s' hs' => ih (hstep l s s' h0 hs')⟩

/-- A run whose steps meet the guard, or one that left it for good: `E` is entered by every
step that breaks the guard, and no step leaves `E` again. -/
theorem along_or_escaped {I E : σ → Prop} {G : ι → σ → Prop}
    (hI : ∀ l s s', I s → G l s → step l s = some s' → I s')
    (hesc : ∀ l s s', I s → ¬ G l s → step l s = some s' → E s')
    (hE : ∀ l s s', E s → step l s = some s' → E s')
    (ls : List ι) {s s' : σ} (h0 : I s) (hrun : run step ls s = some s') :
    Along step G ls s ∨ E s' := by
  induction ls generalizing s with
  | nil => exact Or.inl trivial
  | cons l ls ih =>
    obtain ⟨t, ht, hrun⟩ := Option.bind_eq_some_iff.mp hrun
    by_cases hG : G l s
    · rcases ih (hI l s t h0 hG ht) hrun with halong | hesc
      · refine Or.inl ⟨hG, fun t' ht' => ?_⟩
        obtain rfl : t = t' := Option.some.inj (ht.symm.trans ht')
        exact halong
      · exact Or.inr hesc
    · exact Or.inr (run_invariant hE ls (hesc l s t h0 hG ht) hrun)

/-- When the guard is exact for one step, in states that meet the invariant `J`, it is exact
for the whole run. -/
theorem always_iff_along {J P : σ → Prop} {G : ι → σ → Prop}
    (hJ : ∀ l s s', J s → step l s = some s' → J s')
    (hexact : ∀ l s s', J s → P s → step l s = some s' → (P s' ↔ G l s))
    (ls : List ι) {s s' : σ} (hrun : run step ls s = some s') (hJ0 : J s) (h0 : P s) :
    Always step P ls s ↔ Along step G ls s := by
  induction ls generalizing s with
  | nil => exact ⟨fun _ => trivial, fun _ => h0⟩
  | cons l ls ih =>
    obtain ⟨t, ht, hrun⟩ := Option.bind_eq_some_iff.mp hrun
    have hJt := hJ l s t hJ0 ht
    have hhead : Always step P ls t → P t := by
      intro h
      cases ls with
      | nil => exact h
      | cons k ks => exact h.1
    constructor
    · intro h
      have hP := hhead (h.2 t ht)
      refine ⟨(hexact l s t hJ0 h0 ht).mp hP, fun t' ht' => ?_⟩
      obtain rfl : t = t' := Option.some.inj (ht.symm.trans ht')
      exact (ih hrun hJt hP).mp (h.2 _ ht)
    · intro h
      refine ⟨h0, fun t' ht' => ?_⟩
      obtain rfl : t = t' := Option.some.inj (ht.symm.trans ht')
      exact (ih hrun hJt ((hexact l s _ hJ0 h0 ht).mpr h.1)).mpr (h.2 _ ht)

/-- A predicate that records whether the guard has been met so far tells so of the run. -/
theorem along_iff_last {P : σ → Prop} {G : ι → σ → Prop}
    (hrecord : ∀ l s s', step l s = some s' → (P s' ↔ P s ∧ G l s))
    (ls : List ι) {s s' : σ} (hrun : run step ls s = some s') :
    P s' ↔ P s ∧ Along step G ls s := by
  induction ls generalizing s with
  | nil =>
    obtain rfl : s = s' := by simpa using hrun
    exact ⟨fun h => ⟨h, trivial⟩, And.left⟩
  | cons l ls ih =>
    obtain ⟨t, ht, hrun⟩ := Option.bind_eq_some_iff.mp hrun
    rw [ih hrun, hrecord l s t ht]
    constructor
    · rintro ⟨⟨hP, hG⟩, halong⟩
      refine ⟨hP, hG, fun t' ht' => ?_⟩
      obtain rfl : t = t' := Option.some.inj (ht.symm.trans ht')
      exact halong
    · rintro ⟨hP, hG, halong⟩
      exact ⟨⟨hP, hG⟩, halong t ht⟩

theorem run_total (henabled : ∀ l s, ∃ s', step l s = some s') (ls : List ι) (s : σ) :
    ∃ s', run step ls s = some s' := by
  induction ls generalizing s with
  | nil => exact ⟨s, rfl⟩
  | cons l ls ih =>
    obtain ⟨t, ht⟩ := henabled l s
    rw [run_cons, ht]
    exact ih t

theorem Always.mono {P Q : σ → Prop} (hPQ : ∀ s, P s → Q s) {ls : List ι} {s : σ}
    (h : Always step P ls s) : Always step Q ls s := by
  induction ls generalizing s with
  | nil => exact hPQ s h
  | cons l ls ih => exact ⟨hPQ s h.1, fun s' hs' => ih (h.2 s' hs')⟩

theorem Always.last {P : σ → Prop} {ls : List ι} {s s' : σ} (h : Always step P ls s)
    (hrun : run step ls s = some s') : P s' := by
  induction ls generalizing s with
  | nil =>
    obtain rfl : s = s' := by simpa using hrun
    exact h
  | cons l ls ih =>
    obtain ⟨t, ht, hrun⟩ := Option.bind_eq_some_iff.mp hrun
    exact ih (h.2 t ht) hrun

/-- A relation between what has been seen so far and the state holds at the end of a run when
every step extends it. -/
theorem observe_invariant {obs : ι → σ → List ω} {R : List ω → σ → Prop}
    (hstep : ∀ seen l s s', R seen s → step l s = some s' → R (seen ++ obs l s) s')
    (ls : List ι) {seen : List ω} {s s' : σ} (h0 : R seen s) (hrun : run step ls s = some s') :
    R (seen ++ observe step obs ls s) s' := by
  induction ls generalizing seen s with
  | nil =>
    obtain rfl : s = s' := by simpa using hrun
    rwa [observe, List.append_nil]
  | cons l ls ih =>
    obtain ⟨t, ht, hrun⟩ := Option.bind_eq_some_iff.mp hrun
    have hrest := ih (hstep seen l s t h0 ht) hrun
    rw [List.append_assoc] at hrest
    rwa [observe, ht]

theorem Along.append_left {G : ι → σ → Prop} {ls ks : List ι} {s : σ}
    (h : Along step G (ls ++ ks) s) : Along step G ls s := by
  induction ls generalizing s with
  | nil => trivial
  | cons l ls ih => exact ⟨h.1, fun s' hs' => ih (h.2 s' hs')⟩

/-- What is seen along a run has a property that an invariant of the run gives it. -/
theorem forall_observe {obs : ι → σ → List ω} {P : ω → Prop} {I : σ → Prop} {G : ι → Prop}
    (hobs : ∀ l s, G l → I s → ∀ o ∈ obs l s, P o)
    (hstep : ∀ l s s', G l → I s → step l s = some s' → I s')
    {ls : List ι} (hls : ∀ l ∈ ls, G l) {s : σ} (h0 : I s) :
    ∀ o ∈ observe step obs ls s, P o := by
  induction ls generalizing s with
  | nil => simp [observe]
  | cons l ls ih =>
    rw [List.forall_mem_cons] at hls
    rw [observe, List.forall_mem_append]
    refine ⟨hobs l s hls.1 h0, ?_⟩
    cases hs : step l s with
    | none => simp
    | some s' => exact ih hls.2 (hstep l s s' hls.1 h0 hs)

theorem observe_append {obs : ι → σ → List ω} {ls : List ι} {s s' : σ}
    (h : run step ls s = some s') (ks : List ι) :
    observe step obs (ls ++ ks) s = observe step obs ls s ++ observe step obs ks s' := by
  induction ls generalizing s with
  | nil =>
    obtain rfl : s = s' := by simpa using h
    rfl
  | cons l ls ih =>
    obtain ⟨t, ht, hrun⟩ := Option.bind_eq_some_iff.mp h
    simp only [List.cons_append, observe, ht, Option.elim_some, ih hrun, List.append_assoc]

theorem observe_eq_nil {obs : ι → σ → List ω} {ls : List ι} (h : ∀ l ∈ ls, ∀ s, obs l s = [])
    (s : σ) : observe step obs ls s = [] := by
  induction ls generalizing s with
  | nil => rfl
  | cons l ls ih =>
    rw [List.forall_mem_cons] at h
    rw [observe, h.1, List.nil_append]
    cases step l s with
    | none => rfl
    | some s' => exact ih h.2 s'

theorem along_of_forall {G : ι → Prop} {ls : List ι} (h : ∀ l ∈ ls, G l) (s : σ) :
    Along step (fun l _ => G l) ls s := by
  induction ls generalizing s with
  | nil => trivial
  | cons l ls ih =>
    refine ⟨h l (by simp), fun s' _ => ?_⟩
    exact ih (fun k hk => h k (by simp [hk])) s'

theorem along_iff_forall {G : ι → Prop} (henabled : ∀ l s, ∃ s', step l s = some s')
    {ls : List ι} {s : σ} : Along step (fun l _ => G l) ls s ↔ ∀ l ∈ ls, G l := by
  refine ⟨fun h => ?_, fun h => along_of_forall h s⟩
  induction ls generalizing s with
  | nil => simp
  | cons l ls ih =>
    obtain ⟨s', hs'⟩ := henabled l s
    intro k hk
    rcases List.mem_cons.mp hk with rfl | hk
    · exact h.1
    · exact ih (h.2 s' hs') k hk

end Runs

section Simulation

variable {step : ι → σ → Option σ} {step' : κ → τ → Option τ}

/-- `f` maps every step to a step of the abstract system or to a stutter, in states that
meet `J`; then it maps reachable states to reachable states. -/
theorem Reachable.simulate {J : σ → Prop} {init s : σ} (f : σ → τ)
    (h : Reachable step init s) (hJ : ∀ s, Reachable step init s → J s)
    (hsim : ∀ l s s', J s → step l s = some s' → f s' = f s ∨ ∃ k, step' k (f s) = some (f s')) :
    Reachable step' (f init) (f s) := by
  refine Reachable.invariant_with (I := fun t => Reachable step' (f init) (f t)) h hJ (.refl _) ?_
  intro l t t' ht hreach hl
  rcases hsim l t t' ht hl with heq | ⟨k, hk⟩
  · rw [heq]
    exact hreach
  · exact hreach.next hk

/-- When every step that meets the guard is matched by what is seen of it, a guarded run is
matched by what is seen along it. -/
theorem simulate_along {R : σ → τ → Prop} {G : ι → σ → Prop} {obs : ι → σ → List κ}
    (hsim : ∀ l s s' t, R s t → G l s → step l s = some s' →
      ∃ t', run step' (obs l s) t = some t' ∧ R s' t')
    (ls : List ι) {s s' : σ} {t : τ} (h0 : R s t) (hG : Along step G ls s)
    (hrun : run step ls s = some s') :
    ∃ t', run step' (observe step obs ls s) t = some t' ∧ R s' t' := by
  induction ls generalizing s t with
  | nil =>
    obtain rfl : s = s' := by simpa using hrun
    exact ⟨t, rfl, h0⟩
  | cons l ls ih =>
    obtain ⟨u, hu, hrun⟩ := Option.bind_eq_some_iff.mp hrun
    obtain ⟨v, hv, hR⟩ := hsim l s u t h0 hG.1 hu
    obtain ⟨t', ht', hR'⟩ := ih hR (hG.2 u hu) hrun
    refine ⟨t', ?_, hR'⟩
    rw [observe, hu, run_append, hv]
    exact ht'

theorem observe_along {R : σ → τ → Prop} {G : ι → σ → Prop} {obs : ι → σ → List κ}
    (see : κ → τ → List ω) {see' : ι → σ → List ω}
    (hsim : ∀ l s s' t, R s t → G l s → step l s = some s' →
      ∃ t', run step' (obs l s) t = some t' ∧ R s' t')
    (hsee : ∀ l s t, R s t → observe step' see (obs l s) t = see' l s)
    (ls : List ι) {s s' : σ} {t : τ} (h0 : R s t) (hG : Along step G ls s)
    (hrun : run step ls s = some s') :
    observe step' see (observe step obs ls s) t = observe step see' ls s := by
  induction ls generalizing s t with
  | nil => rfl
  | cons l ls ih =>
    obtain ⟨u, hu, hrun⟩ := Option.bind_eq_some_iff.mp hrun
    obtain ⟨v, hv, hR⟩ := hsim l s u t h0 hG.1 hu
    have hrest := ih hR (hG.2 u hu) hrun
    simp only [observe, hu, Option.elim_some]
    rw [observe_append hv, hsee l s t h0, hrest]

end Simulation

end Transition
