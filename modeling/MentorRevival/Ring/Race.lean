import MentorRevival.Lib.Transition
import MentorRevival.Ring.Circ

/-!
# The circular buffer under preemption

`packetBuf` is shared by the two event threads without a lock. Here every source statement of
`circ_write` and `circ_read` is one step, and a schedule picks the thread that moves. Both
operations increment `tail` and wrap it in a second statement; in between `tail` equals
`size`. A schedule is harmless exactly when no statement that uses `tail` as a slot runs in
that window of the other thread.
-/

namespace MentorRevival.Race

open Transition

/-- `serialThread` in front of each statement of `circ_write`, and of `chSemSignal`. -/
inductive SerialPc
  | fullTest | incTail | wrapTail | copy | incHead | wrapHead | signal
  deriving DecidableEq

/-- `eventThread` in front of `chSemWait` and of each statement of `circ_read`. -/
inductive EventPc
  | wait | emptyTest | copy | incTail | wrapTail
  deriving DecidableEq

/-- The indices of `packetBuf`, the semaphore, both program counters, and the slots that
`memcpy` has addressed so far. -/
structure State extends CircIdx where
  packetSem : Nat
  serialPc : SerialPc
  eventPc : EventPc
  touched : List Nat

inductive Thread
  | serial | event
  deriving DecidableEq

def boot : State :=
  { head := 0, tail := 0, size := PACKET_BUFFER_LEN, packetSem := 0, serialPc := .fullTest,
    eventPc := .wait, touched := [] }

def serialStep (s : State) : State :=
  match s.serialPc with
  | .fullTest => { s with serialPc := if s.isFull then .incTail else .copy }
  | .incTail => { s with toCircIdx := s.incTail, serialPc := .wrapTail }
  | .wrapTail => { s with toCircIdx := s.wrapTail, serialPc := .copy }
  | .copy => { s with touched := s.touched ++ [s.head], serialPc := .incHead }
  | .incHead => { s with toCircIdx := s.incHead, serialPc := .wrapHead }
  | .wrapHead => { s with toCircIdx := s.wrapHead, serialPc := .signal }
  | .signal => { s with packetSem := s.packetSem + 1, serialPc := .fullTest }

def eventStep (s : State) : Option State :=
  match s.eventPc with
  | .wait =>
    if 0 < s.packetSem then some { s with packetSem := s.packetSem - 1, eventPc := .emptyTest }
    else none
  | .emptyTest => some { s with eventPc := if s.tail ≠ s.head then .copy else .wait }
  | .copy => some { s with touched := s.touched ++ [s.tail], eventPc := .incTail }
  | .incTail => some { s with toCircIdx := s.incTail, eventPc := .wrapTail }
  | .wrapTail => some { s with toCircIdx := s.wrapTail, eventPc := .wait }

def step : Thread → State → Option State
  | .serial, s => some (serialStep s)
  | .event, s => eventStep s

def Idle (s : State) : Prop :=
  (s.serialPc = .fullTest ∨ s.serialPc = .signal) ∧ (s.eventPc = .wait ∨ s.eventPc = .emptyTest)

/-- Every copy so far addressed a slot, and the indices of an idle ring are slots. -/
structure InRange (s : State) : Prop where
  touched : ∀ i ∈ s.touched, i < s.size
  idle : Idle s → s.head < s.size ∧ s.tail < s.size

/-- Some thread has moved `tail` to `size` and has not run its wrap test yet. -/
def WrapPending (s : State) : Prop :=
  (s.serialPc = .wrapTail ∨ s.eventPc = .wrapTail) ∧ s.tail = s.size

/-- The next statement of the thread copies from the slot `tail`, or increments it. -/
def UsesTail : Thread → State → Prop
  | .serial, s => s.serialPc = .incTail
  | .event, s => s.eventPc = .copy ∨ s.eventPc = .incTail

/-- The scheduler leaves the window between `tail++` and its wrap test alone. -/
def Unhurried (t : Thread) (s : State) : Prop := UsesTail t s → ¬ WrapPending s

instance (t : Thread) (s : State) : Decidable (UsesTail t s) :=
  match t with
  | .serial => inferInstanceAs (Decidable (s.serialPc = .incTail))
  | .event => inferInstanceAs (Decidable (s.eventPc = .copy ∨ s.eventPc = .incTail))

instance (s : State) : Decidable (WrapPending s) :=
  inferInstanceAs (Decidable ((s.serialPc = .wrapTail ∨ s.eventPc = .wrapTail) ∧ s.tail = s.size))

instance (t : Thread) (s : State) : Decidable (Unhurried t s) :=
  inferInstanceAs (Decidable (UsesTail t s → ¬ WrapPending s))

/-- Without preemption the statements of `serialThread` add up to `circWrite`. -/
theorem serial_uninterrupted {α : Type*} (c : Circ α) (item : α) (s : State)
    (hs : s.toCircIdx = c.toCircIdx) (hpc : s.serialPc = .fullTest) :
    ∃ n, run step (.replicate n .serial) s = some { s with
      toCircIdx := (circWrite c item).2.toCircIdx
      serialPc := .signal
      touched := s.touched ++ [c.head] } := by
  by_cases hf : s.isFull = true
  · refine ⟨6, ?_⟩
    simp [List.replicate, step, serialStep, circWrite, CircIdx.makeRoom, ← hs, hpc, hf]
  · refine ⟨4, ?_⟩
    simp [List.replicate, step, serialStep, circWrite, CircIdx.makeRoom, ← hs, hpc, hf]

/-- Without preemption the statements of `eventThread` add up to `circRead`. -/
theorem event_uninterrupted {α : Type*} (c : Circ α) (dst : α) (s : State)
    (hs : s.toCircIdx = c.toCircIdx) (hpc : s.eventPc = .emptyTest) :
    ∃ n, run step (.replicate n .event) s = some { s with
      toCircIdx := (circRead c dst).2.1.toCircIdx
      eventPc := .wait
      touched := s.touched ++ if c.tail ≠ c.head then [c.tail] else [] } := by
  by_cases hne : s.tail ≠ s.head
  · refine ⟨4, ?_⟩
    simp [List.replicate, step, eventStep, circRead, ← hs, hpc, hne]
  · refine ⟨1, ?_⟩
    simp [List.replicate, step, eventStep, circRead, ← hs, hpc, hne]

structure Inv (s : State) : Prop where
  size_pos : 0 < s.size
  touched : ∀ i ∈ s.touched, i < s.size
  head_le : s.head ≤ s.size
  head_lt : s.serialPc ≠ .wrapHead → s.head < s.size
  tail_le : s.tail ≤ s.size
  tail_wrap : s.tail = s.size → s.serialPc = .wrapTail ∨ s.eventPc = .wrapTail

theorem Inv.boot : Inv boot where
  size_pos := by decide
  touched := by simp [Race.boot]
  head_le := by decide
  head_lt := fun _ => by decide
  tail_le := by decide
  tail_wrap := fun h => absurd h (by decide)

theorem Inv.inRange {s : State} (h : Inv s) : InRange s := by
  refine ⟨h.touched, fun hidle => ?_⟩
  have hserial : s.serialPc ≠ .wrapHead ∧ s.serialPc ≠ .wrapTail := by
    rcases hidle.1 with hpc | hpc <;> simp [hpc]
  have hevent : s.eventPc ≠ .wrapTail := by
    rcases hidle.2 with hpc | hpc <;> simp [hpc]
  have hne : s.tail ≠ s.size := fun heq => (h.tail_wrap heq).elim hserial.2 hevent
  exact ⟨h.head_lt hserial.1, Nat.lt_of_le_of_ne h.tail_le hne⟩

private theorem Inv.tail_lt {s : State} (h : Inv s) {t : Thread} (hG : Unhurried t s)
    (huse : UsesTail t s) : s.tail < s.size := by
  have hne : s.tail ≠ s.size := fun heq => hG huse ⟨h.tail_wrap heq, heq⟩
  exact Nat.lt_of_le_of_ne h.tail_le hne

private theorem mem_snoc_lt {xs : List Nat} {a n : Nat} (hxs : ∀ i ∈ xs, i < n) (ha : a < n) :
    ∀ i ∈ xs ++ [a], i < n := by
  intro i hi
  rcases List.mem_append.mp hi with hi | hi
  · exact hxs i hi
  · rwa [List.mem_singleton.mp hi]

private theorem Inv.serialStep {s : State} (h : Inv s) (hG : Unhurried .serial s) :
    Inv (serialStep s) := by
  have hsafe := h.tail_lt hG
  have hother (hne : s.serialPc ≠ .wrapTail) (heq : s.tail = s.size) : s.eventPc = .wrapTail :=
    (h.tail_wrap heq).resolve_left hne
  cases hpc : s.serialPc with
  | fullTest =>
    have hhead := h.head_lt (by simp [hpc])
    simp only [Race.serialStep, hpc]
    exact { h with
      head_lt := fun _ => hhead
      tail_wrap := fun heq => Or.inr (hother (by simp [hpc]) heq) }
  | incTail =>
    have hhead := h.head_lt (by simp [hpc])
    simp only [Race.serialStep, hpc, CircIdx.incTail]
    exact { h with
      head_lt := fun _ => hhead
      tail_le := hsafe hpc
      tail_wrap := fun _ => Or.inl rfl }
  | wrapTail =>
    have hhead := h.head_lt (by simp [hpc])
    have hpos := h.size_pos
    simp only [Race.serialStep, hpc, CircIdx.wrapTail]
    split
    · refine { h with head_lt := fun _ => hhead, tail_le := Nat.zero_le _, tail_wrap := ?_ }
      intro heq
      simp only at heq
      omega
    · next hne =>
      refine { h with head_lt := fun _ => hhead, tail_wrap := ?_ }
      exact fun heq => absurd heq (by simpa using hne)
  | copy =>
    have hhead := h.head_lt (by simp [hpc])
    simp only [Race.serialStep, hpc]
    exact { h with
      touched := mem_snoc_lt h.touched hhead
      head_lt := fun _ => hhead
      tail_wrap := fun heq => Or.inr (hother (by simp [hpc]) heq) }
  | incHead =>
    have hhead := h.head_lt (by simp [hpc])
    simp only [Race.serialStep, hpc, CircIdx.incHead]
    exact { h with
      head_le := hhead
      head_lt := fun hne => absurd rfl hne
      tail_wrap := fun heq => Or.inr (hother (by simp [hpc]) heq) }
  | wrapHead =>
    have hle := h.head_le
    have hpos := h.size_pos
    simp only [Race.serialStep, hpc, CircIdx.wrapHead]
    split
    · exact { h with
        head_le := Nat.zero_le _
        head_lt := fun _ => hpos
        tail_wrap := fun heq => Or.inr (hother (by simp [hpc]) heq) }
    · next hne =>
      have hlt : s.head < s.size := Nat.lt_of_le_of_ne hle (by simpa using hne)
      exact { h with
        head_lt := fun _ => hlt
        tail_wrap := fun heq => Or.inr (hother (by simp [hpc]) heq) }
  | signal =>
    have hhead := h.head_lt (by simp [hpc])
    simp only [Race.serialStep, hpc]
    exact { h with
      head_lt := fun _ => hhead
      tail_wrap := fun heq => Or.inr (hother (by simp [hpc]) heq) }

private theorem Inv.eventStep {s s' : State} (h : Inv s) (hG : Unhurried .event s)
    (hs : eventStep s = some s') : Inv s' := by
  have hsafe := h.tail_lt hG
  have hother (hne : s.eventPc ≠ .wrapTail) (heq : s.tail = s.size) : s.serialPc = .wrapTail :=
    (h.tail_wrap heq).resolve_right hne
  cases hpc : s.eventPc with
  | wait =>
    simp only [Race.eventStep, hpc] at hs
    split at hs
    · obtain rfl := Option.some.inj hs
      exact { h with tail_wrap := fun heq => Or.inl (hother (by simp [hpc]) heq) }
    · cases hs
  | emptyTest =>
    simp only [Race.eventStep, hpc] at hs
    obtain rfl := Option.some.inj hs
    exact { h with tail_wrap := fun heq => Or.inl (hother (by simp [hpc]) heq) }
  | copy =>
    simp only [Race.eventStep, hpc] at hs
    obtain rfl := Option.some.inj hs
    exact { h with
      touched := mem_snoc_lt h.touched (hsafe (Or.inl hpc))
      tail_wrap := fun heq => Or.inl (hother (by simp [hpc]) heq) }
  | incTail =>
    simp only [Race.eventStep, hpc, CircIdx.incTail] at hs
    obtain rfl := Option.some.inj hs
    exact { h with tail_le := hsafe (Or.inr hpc), tail_wrap := fun _ => Or.inr rfl }
  | wrapTail =>
    have hpos := h.size_pos
    simp only [Race.eventStep, hpc, CircIdx.wrapTail] at hs
    split at hs
    · obtain rfl := Option.some.inj hs
      refine { h with tail_le := Nat.zero_le _, tail_wrap := ?_ }
      intro heq
      simp only at heq
      omega
    · next hne =>
      obtain rfl := Option.some.inj hs
      refine { h with tail_wrap := ?_ }
      exact fun heq => absurd heq (by simpa using hne)

theorem Inv.step {t : Thread} {s s' : State} (h : Inv s) (hG : Unhurried t s)
    (hs : step t s = some s') : Inv s' := by
  cases t with
  | serial =>
    obtain rfl := Option.some.inj hs
    exact h.serialStep hG
  | event => exact h.eventStep hG hs

/-- `tail` has left the ring, or a copy was made outside of it: no later step repairs this. -/
def Escaped (s : State) : Prop := s.size < s.tail ∨ ∃ i ∈ s.touched, s.size ≤ i

theorem Escaped.not_inRange {s : State} (h : Escaped s) (hidle : Idle s) : ¬ InRange s := by
  intro hrange
  have htail := (hrange.idle hidle).2
  rcases h with hout | ⟨i, hi, hout⟩
  · omega
  · have := hrange.touched i hi
    omega

/-- What no statement undoes: a wrap test resets `tail` only at `size`. -/
private structure Onward (s s' : State) : Prop where
  size_eq : s'.size = s.size
  touched : ∀ i ∈ s.touched, i ∈ s'.touched
  tail : s.size < s.tail → s.size < s'.tail

private theorem onward_serialStep (s : State) : Onward s (serialStep s) := by
  cases hpc : s.serialPc with
  | fullTest => simp only [serialStep, hpc]; exact ⟨rfl, fun _ hi => hi, id⟩
  | incTail =>
    simp only [serialStep, hpc, CircIdx.incTail]
    exact ⟨rfl, fun _ hi => hi, Nat.lt_succ_of_lt⟩
  | wrapTail =>
    simp only [serialStep, hpc, CircIdx.wrapTail, beq_iff_eq]
    split
    · next heq => exact ⟨rfl, fun _ hi => hi, fun hlt => absurd heq (by omega)⟩
    · exact ⟨rfl, fun _ hi => hi, id⟩
  | copy =>
    simp only [serialStep, hpc]
    exact ⟨rfl, fun _ hi => List.mem_append_left _ hi, id⟩
  | incHead => simp only [serialStep, hpc]; exact ⟨rfl, fun _ hi => hi, id⟩
  | wrapHead =>
    simp only [serialStep, hpc, CircIdx.wrapHead]
    split <;> exact ⟨rfl, fun _ hi => hi, id⟩
  | signal => simp only [serialStep, hpc]; exact ⟨rfl, fun _ hi => hi, id⟩

private theorem onward_eventStep {s s' : State} (hs : eventStep s = some s') : Onward s s' := by
  cases hpc : s.eventPc with
  | wait =>
    simp only [eventStep, hpc] at hs
    split at hs
    · obtain rfl := Option.some.inj hs
      exact ⟨rfl, fun _ hi => hi, id⟩
    · cases hs
  | emptyTest =>
    simp only [eventStep, hpc] at hs
    obtain rfl := Option.some.inj hs
    exact ⟨rfl, fun _ hi => hi, id⟩
  | copy =>
    simp only [eventStep, hpc] at hs
    obtain rfl := Option.some.inj hs
    exact ⟨rfl, fun _ hi => List.mem_append_left _ hi, id⟩
  | incTail =>
    simp only [eventStep, hpc, CircIdx.incTail] at hs
    obtain rfl := Option.some.inj hs
    exact ⟨rfl, fun _ hi => hi, Nat.lt_succ_of_lt⟩
  | wrapTail =>
    simp only [eventStep, hpc, CircIdx.wrapTail, beq_iff_eq] at hs
    obtain rfl := Option.some.inj hs
    split
    · next heq => exact ⟨rfl, fun _ hi => hi, fun hlt => absurd heq (by omega)⟩
    · exact ⟨rfl, fun _ hi => hi, id⟩

private theorem Escaped.of_step {t : Thread} {s s' : State} (h : Escaped s)
    (hs : step t s = some s') : Escaped s' := by
  have hkeep : Onward s s' := by
    cases t with
    | serial =>
      obtain rfl := Option.some.inj hs
      exact onward_serialStep s
    | event => exact onward_eventStep hs
  rcases h with hout | ⟨i, hi, hout⟩
  · exact Or.inl (by rw [hkeep.size_eq]; exact hkeep.tail hout)
  · exact Or.inr ⟨i, hkeep.touched i hi, by rw [hkeep.size_eq]; exact hout⟩

/-- A statement that uses `tail` inside the window copies outside the ring or takes `tail`
beyond `size`. -/
private theorem escaped_of_hurried {t : Thread} {s s' : State} (hG : ¬ Unhurried t s)
    (hs : step t s = some s') : Escaped s' := by
  rcases Classical.not_imp.mp hG with ⟨huse, hpending⟩
  have htail := (not_not.mp hpending).2
  cases t with
  | serial =>
    obtain rfl := Option.some.inj hs
    simp only [UsesTail] at huse
    left
    simp only [serialStep, huse, CircIdx.incTail]
    omega
  | event =>
    rcases huse with hpc | hpc
    · simp only [step, eventStep, hpc, Option.some.injEq] at hs
      subst hs
      exact Or.inr ⟨s.tail, by simp, by simp only; omega⟩
    · simp only [step, eventStep, hpc, Option.some.injEq, CircIdx.incTail] at hs
      subst hs
      left
      simp only
      omega

/-- In every run whose steps keep out of the other thread's wrap window the ring stays in
range, and at idle states the ring is in range only after such runs. -/
theorem inRange_iff_unhurried (ls : List Thread) (s : State) (hrun : run step ls boot = some s) :
    (Along step Unhurried ls boot → Always step InRange ls boot) ∧
      (Idle s → (InRange s ↔ Along step Unhurried ls boot)) := by
  have halways (h : Along step Unhurried ls boot) : Always step Inv ls boot :=
    always_of_along (fun _ _ _ hI hG hs => hI.step hG hs) ls Inv.boot h
  refine ⟨fun h => ?_, fun hidle => ⟨fun hrange => ?_, fun h => ?_⟩⟩
  · exact (halways h).mono fun _ hI => hI.inRange
  · rcases along_or_escaped (fun _ _ _ hI hG hs => hI.step hG hs)
      (fun _ _ _ _ hG hs => escaped_of_hurried hG hs) (fun _ _ _ hE hs => hE.of_step hs)
      ls Inv.boot hrun with halong | hesc
    · exact halong
    · exact absurd hrange (hesc.not_inRange hidle)
  · exact ((halways h).last hrun).inRange

/-- Six writes and six reads. From the second write on each statement of a write is followed by
one of the read before it, also while `tail` stands at 5 of 5. -/
theorem inRange_iff_unhurried_round :
    Always step InRange (.replicate 5 .serial ++ (List.replicate 25 [.serial, .event]).flatten ++
        .replicate 5 .event) boot ∧
      InRange { boot with
        head := 1
        tail := 1
        touched := [0, 1, 0, 2, 1, 3, 2, 4, 3, 0, 4, 0] } := by
  have hrun : run step (.replicate 5 .serial ++ (List.replicate 25 [.serial, .event]).flatten ++
      .replicate 5 .event) boot = some { boot with
        head := 1
        tail := 1
        touched := [0, 1, 0, 2, 1, 3, 2, 4, 3, 0, 4, 0] } := rfl
  have hboth := inRange_iff_unhurried _ _ hrun
  have halong : Along step Unhurried (.replicate 5 .serial ++
      (List.replicate 25 [.serial, .event]).flatten ++ .replicate 5 .event) boot := by
    decide +kernel
  exact ⟨hboth.1 halong, (hboth.2 ⟨Or.inl rfl, Or.inl rfl⟩).mpr halong⟩

/-- Four writes, four reads, and a fifth batch of writes up to the `tail++` of a full ring:
a read that starts there copies from slot 5 of 5. -/
theorem hurried_read_copies_outside : ∃ ls s, run step ls boot = some s ∧ ¬ InRange s := by
  refine ⟨.replicate 20 .serial ++ .replicate 20 .event ++ .replicate 22 .serial ++
    .replicate 3 .event, _, rfl, fun h => ?_⟩
  exact absurd (h.touched 5 (by decide)) (by decide)

end MentorRevival.Race
