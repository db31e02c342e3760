import MentorRevival.Events.Dispatch
import MentorRevival.Lib.Rest

/-!
# Coming to rest

While the host is silent the two threads can only work off what they have. Each of their steps
does one unit of that work, in whatever order they are scheduled, and a reachable state in
which none of them can move is one at rest.
-/

namespace MentorRevival

open Transition

/-- The steps that the threads take without a result of the stream. -/
def Action.internal : Action → Bool
  | .get _ | .adc _ => false
  | .write | .signal | .semInit | .wait | .read | .dispatch | .send => true

/-- A signalled packet costs `eventThread` four steps. -/
def SerialPc.work : SerialPc → Nat
  | .get => 0
  | .write => 6
  | .signal => 5

def EventPc.work : EventPc → Nat
  | .semInit => 1
  | .wait => 0
  | .read => 3
  | .dispatch => 2
  | .send => 1

def State.work (s : State) : Nat := 4 * s.packetSem + s.serialPc.work + s.eventPc.work

def Action.Silent (l : Action) : Prop := ∀ m, l ≠ .get m

theorem silent_of_messages {ls : List Action} (h : messages ls = []) : ∀ l ∈ ls, l.Silent := by
  rintro l hl m rfl
  have hmem : m ∈ messages ls := List.mem_filterMap.mpr ⟨.get m, hl, rfl⟩
  simp [h] at hmem

theorem work_step {l : Action} {s s' : State} (hl : l.Silent) (h : Occurs s)
    (hs : step l s = some s') : s.work = s'.work + l.internal.toNat := by
  cases l with
  | get m => exact absurd rfl (hl m)
  | adc samples =>
    obtain rfl := Option.some.inj hs
    rfl
  | write =>
    obtain ⟨hpc, rfl⟩ := enabled_of_some hs
    simp only [State.work, State.afterWrite, hpc, SerialPc.work, Action.internal, Bool.toNat_true]
    omega
  | signal =>
    obtain ⟨hpc, rfl⟩ := enabled_of_some hs
    simp only [State.work, State.afterSignal, hpc.1, SerialPc.work, Action.internal,
      Bool.toNat_true]
    omega
  | semInit =>
    obtain ⟨hpc, rfl⟩ := enabled_of_some hs
    -- `chSemInit` finds the counter as it leaves it
    simp [State.work, State.afterSemInit, hpc, h.sound.semInit hpc, EventPc.work, Action.internal]
  | wait =>
    obtain ⟨hpc, rfl⟩ := enabled_of_some hs
    have htoken := hpc.2
    simp only [State.work, State.afterWait, hpc.1, EventPc.work, Action.internal, Bool.toNat_true]
    omega
  | read =>
    obtain ⟨hpc, rfl⟩ := enabled_of_some hs
    simp [State.work, State.afterRead, hpc, EventPc.work, Action.internal]
  | dispatch =>
    obtain ⟨hpc, rfl⟩ := enabled_of_some hs
    simp [State.work, State.afterDispatch, hpc, EventPc.work, Action.internal]
  | send =>
    obtain ⟨hpc, rfl⟩ := enabled_of_some hs
    simp [State.work, State.afterSend, hpc, EventPc.work, Action.internal]

theorem internal_enabled {s : State} (hwork : 0 < s.work) :
    ∃ l s', l.internal = true ∧ step l s = some s' := by
  cases hevent : s.eventPc with
  | semInit => exact ⟨.semInit, _, rfl, if_pos hevent⟩
  | read => exact ⟨.read, _, rfl, if_pos hevent⟩
  | dispatch => exact ⟨.dispatch, _, rfl, if_pos hevent⟩
  | send => exact ⟨.send, _, rfl, if_pos hevent⟩
  | wait =>
    cases hserial : s.serialPc with
    | write => exact ⟨.write, _, rfl, if_pos hserial⟩
    | signal => exact ⟨.signal, _, rfl, if_pos ⟨hserial, by simp [hevent]⟩⟩
    | get =>
      have htoken : 0 < s.packetSem := by
        simp only [State.work, hevent, hserial, EventPc.work, SerialPc.work] at hwork
        omega
      exact ⟨.wait, _, rfl, if_pos ⟨hevent, htoken⟩⟩

theorem drains : Drains step Action.Silent Action.internal Occurs State.work where
  silent_of_own := by
    rintro l hl m rfl
    cases hl
  kept := fun _ _ _ _ h hs => h.next hs
  work_step := fun _ _ _ hl h hs => work_step hl h hs
  enabled := fun _ _ hwork => internal_enabled hwork

theorem Occurs.quiescent_iff {s : State} (h : Occurs s) : Quiescent s ↔ s.work = 0 := by
  constructor
  · intro hq
    simp [State.work, hq.sem, hq.event, hq.serial, SerialPc.work, EventPc.work]
  · intro hwork
    have hserial : s.serialPc = .get := by
      cases hpc : s.serialPc <;> simp [State.work, hpc, SerialPc.work] at hwork ⊢
    have hevent : s.eventPc = .wait := by
      cases hpc : s.eventPc <;> simp [State.work, hpc, EventPc.work] at hwork ⊢
    have hsem : s.packetSem = 0 := by
      simp only [State.work] at hwork
      omega
    have hring := (h.accounted.at_rest hsem (by simp [State.mailbox, hserial])
      (by simp [State.mailbox, hevent])).1
    exact ⟨hring, hsem, hevent, hserial⟩

section Order

theorem not_writing_step {l : Action} {s s' : State} (hl : l.Silent) (hpc : s.serialPc ≠ .write)
    (hs : step l s = some s') : s'.serialPc ≠ .write := by
  cases l with
  | get m => exact absurd rfl (hl m)
  | write => exact absurd (enabled_of_some hs).1 hpc
  | signal =>
    obtain ⟨_, rfl⟩ := enabled_of_some hs
    simp [State.afterSignal]
  | adc samples =>
    obtain rfl := Option.some.inj hs
    exact hpc
  | _ =>
    obtain ⟨_, rfl⟩ := enabled_of_some hs
    exact hpc

private theorem signal_commutes {k : Action} {s t u : State} (hk : k.internal = true)
    (hpc : s.serialPc ≠ .write) (hne : k ≠ .signal) (ht : step .signal s = some t)
    (hu : step k s = some u) : ∃ v, step k t = some v ∧ step .signal u = some v := by
  obtain ⟨hsignal, rfl⟩ := enabled_of_some ht
  cases k with
  | get m => cases hk
  | adc samples => cases hk
  | write => exact absurd (enabled_of_some hu).1 hpc
  | signal => exact absurd rfl hne
  | semInit => exact absurd (enabled_of_some hu).1 hsignal.2
  | wait =>
    obtain ⟨hwait, rfl⟩ := enabled_of_some hu
    have htoken := hwait.2
    refine ⟨_, if_pos ⟨hwait.1, Nat.succ_pos _⟩, ?_⟩
    rw [step, if_pos ⟨hsignal.1, by simp [State.afterWait]⟩]
    have hsem : s.packetSem - 1 + 1 = s.packetSem + 1 - 1 := by omega
    simp only [State.afterWait, State.afterSignal, hsem]
  | read =>
    obtain ⟨hread, rfl⟩ := enabled_of_some hu
    exact ⟨_, if_pos hread, if_pos ⟨hsignal.1, by simp [State.afterRead]⟩⟩
  | dispatch =>
    obtain ⟨hdispatch, rfl⟩ := enabled_of_some hu
    exact ⟨_, if_pos hdispatch, if_pos ⟨hsignal.1, by simp [State.afterDispatch]⟩⟩
  | send =>
    obtain ⟨hsend, rfl⟩ := enabled_of_some hu
    exact ⟨_, if_pos hsend, if_pos ⟨hsignal.1, by simp [State.afterSend]⟩⟩

private theorem event_step_eq {l k : Action} {s t u : State} (hl : l.internal = true)
    (hk : k.internal = true) (hpc : s.serialPc ≠ .write) (hls : l ≠ .signal) (hks : k ≠ .signal)
    (ht : step l s = some t) (hu : step k s = some u) : l = k := by
  have hplace {l : Action} {t : State} (hl : l.internal = true) (hls : l ≠ .signal)
      (ht : step l s = some t) :
      l = match s.eventPc with
        | .semInit => .semInit
        | .wait => .wait
        | .read => .read
        | .dispatch => .dispatch
        | .send => .send := by
    cases l with
    | get m => cases hl
    | adc samples => cases hl
    | signal => exact absurd rfl hls
    | write => exact absurd (enabled_of_some ht).1 hpc
    | wait => rw [(enabled_of_some ht).1.1]
    | _ => rw [(enabled_of_some ht).1]
  rw [hplace hl hls ht, hplace hk hks hu]

theorem internal_commutes :
    Commutes step Action.internal fun s => Occurs s ∧ s.serialPc ≠ .write := by
  rintro l k s t u hl hk hne ⟨-, hpc⟩ ht hu
  by_cases hls : l = .signal
  · subst hls
    exact signal_commutes hk hpc (Ne.symm hne) ht hu
  · by_cases hks : k = .signal
    · subst hks
      obtain ⟨v, hv, hv'⟩ := signal_commutes hl hpc hne hu ht
      exact ⟨v, hv', hv⟩
    · exact absurd (event_step_eq hl hk hpc hls hks ht hu) hne

end Order

/-- While the host is silent, and however often samples are taken, the threads make at most
`s.work` steps and are at rest exactly when they have made all of them, or when neither can
move. From every state on the way they can come to rest, and when no packet is on its way to
the ring the state they then come to is the same for all schedules of the threads. -/
theorem comes_to_rest (s t : State) (h : Occurs s) (ls : List Action) (hsilent : messages ls = [])
    (hrun : run step ls s = some t) :
    ls.countP Action.internal + t.work = s.work ∧
      (Quiescent t ↔ ls.countP Action.internal = s.work) ∧
      (Quiescent t ↔ ∀ l, l.internal = true → step l t = none) ∧
      ∃ ks u, (∀ k ∈ ks, k.internal = true) ∧ run step ks t = some u ∧ Quiescent u ∧
        (t.serialPc ≠ .write → ∀ ks' u', (∀ k ∈ ks', k.internal = true) →
          run step ks' t = some u' → Quiescent u' → u' = u) := by
  obtain ⟨hocc, hwork⟩ := drains.work_run (silent_of_messages hsilent) h hrun
  have hrest : Quiescent t ↔ t.work = 0 := hocc.quiescent_iff
  obtain ⟨u, ks, hks, hu, hquiet⟩ := drains.settles hocc
  have hoccurs {ks : List Action} {u : State} (hks : ∀ k ∈ ks, k.internal = true)
      (hu : run step ks t = some u) : Occurs u :=
    (drains.work_run (fun k hk => drains.silent_of_own k (hks k hk)) hocc hu).1
  refine ⟨by omega, hrest.trans (by omega), hrest.trans (drains.rest_iff hocc), ks, u, hks, hu,
    ?_, ?_⟩
  · exact (hoccurs hks hu).quiescent_iff.mpr hquiet
  · intro hpc ks' u' hks' hu' hq
    have hdrains := drains.restrict (K := fun s => s.serialPc ≠ .write)
      fun _ _ _ hl _ hpc hs => not_writing_step hl hpc hs
    have hquiet' := (hoccurs hks' hu').quiescent_iff.mp hq
    exact hdrains.settles_unique internal_commutes ⟨hocc, hpc⟩ ⟨ks', hks', hu', hquiet'⟩
      ⟨ks, hks, hu, hquiet⟩

/-- Two frames and the first token taken: seven steps are left. -/
theorem comes_to_rest_two :
    ∃ s t, run step (.semInit :: Frame.receive ⟨0x10, 0, 0, 0⟩ ++ Frame.receive ⟨0x25, 0, 0, 0⟩)
        (init pktInit fun _ => 0) = some s ∧
      run step [.wait, .adc fun _ => 9] s = some t ∧ s.work = 8 ∧ t.work = 7 ∧
      [Action.wait, .adc fun _ => 9].countP Action.internal + t.work = s.work := by
  refine ⟨_, _, rfl, rfl, rfl, rfl, ?_⟩
  have hocc : Occurs _ := ⟨pktInit, fun _ => 0,
    .semInit :: Frame.receive ⟨0x10, 0, 0, 0⟩ ++ Frame.receive ⟨0x25, 0, 0, 0⟩, rfl⟩
  exact (comes_to_rest _ _ hocc [.wait, .adc fun _ => 9] rfl rfl).1

end MentorRevival
