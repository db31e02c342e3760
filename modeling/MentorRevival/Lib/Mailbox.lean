import MentorRevival.Lib.DropQueue
import MentorRevival.Lib.Transition
import Mathlib.Data.List.Perm.Basic

/-!
# Lossy mailboxes

A producer puts items into a bounded queue which drops its oldest item when it is full, and
posts one token after each put. A consumer acquires a token and then takes the first item.
Dropped items leave their tokens behind, so some takes find the queue empty. The state below
carries the history of puts, drops and takes; `Accounted` is the invariant that ties the
history to the queue and to the number of tokens.
-/

namespace Mailbox

open DropQueue

variable {α : Type*}

structure State (α : Type*) where
  queue : List α
  tokens : Nat
  /-- An item has been put and its token not yet posted. -/
  posting : Bool
  /-- A token has been acquired and its take not yet done. -/
  claimed : Bool
  received : List α
  /-- The items dropped by puts that found the queue full. -/
  dropped : List α
  delivered : List α
  emptyTakes : Nat

def State.empty : State α := ⟨[], 0, false, false, [], [], [], 0⟩

inductive Op (α : Type*)
  | put (a : α)
  | post
  | acquire
  | take

def State.takeFirst (s : State α) : State α :=
  match s.queue with
  | [] => { s with claimed := false, emptyTakes := s.emptyTakes + 1 }
  | a :: q => { s with claimed := false, queue := q, delivered := s.delivered ++ [a] }

def step (cap : Nat) : Op α → State α → Option (State α)
  | .put a, s =>
    if s.posting then none
    else some { s with
      queue := push cap s.queue a
      posting := true
      received := s.received ++ [a]
      dropped := s.dropped ++ overflow cap s.queue a }
  | .post, s => if s.posting then some { s with posting := false, tokens := s.tokens + 1 } else none
  | .acquire, s =>
    if s.claimed = false ∧ 0 < s.tokens then
      some { s with claimed := true, tokens := s.tokens - 1 }
    else none
  | .take, s => if s.claimed then some s.takeFirst else none

theorem posting_of_put {cap : Nat} {a : α} {s s' : State α} (hs : step cap (.put a) s = some s') :
    s.posting = false ∧ s'.posting = true := by
  simp only [Mailbox.step] at hs
  split at hs
  · cases hs
  · next hp =>
    obtain rfl := Option.some.inj hs
    exact ⟨by simpa using hp, rfl⟩

/-- What has been received so far is recorded and never looked at. -/
theorem step_received {cap : Nat} {op : Op α} {s s' : State α} (hs : step cap op s = some s')
    (received : List α) :
    ∃ received', step cap op { s with received := received } =
      some { s' with received := received' } := by
  cases op with
  | put a =>
    simp only [Mailbox.step] at hs ⊢
    split at hs
    · cases hs
    · next hp =>
      obtain rfl := Option.some.inj hs
      exact ⟨received ++ [a], if_neg hp⟩
  | post =>
    simp only [Mailbox.step] at hs ⊢
    split at hs
    · next hp =>
      obtain rfl := Option.some.inj hs
      exact ⟨received, if_pos hp⟩
    · cases hs
  | acquire =>
    simp only [Mailbox.step] at hs ⊢
    split at hs
    · next hp =>
      obtain rfl := Option.some.inj hs
      exact ⟨received, if_pos hp⟩
    · cases hs
  | take =>
    simp only [Mailbox.step] at hs ⊢
    split at hs
    · next hc =>
      obtain rfl := Option.some.inj hs
      refine ⟨received, ?_⟩
      rw [if_pos hc, State.takeFirst, State.takeFirst]
      cases s.queue with
      | nil => rfl
      | cons a q => rfl
    · cases hs

/-- The books of a mailbox: tokens against items, and the history against the queue. -/
structure Accounted (cap : Nat) (s : State α) : Prop where
  tokens_eq : s.tokens + s.emptyTakes + s.posting.toNat + s.claimed.toNat =
    s.queue.length + s.dropped.length
  emptyTakes_le : s.emptyTakes ≤ s.dropped.length
  length_le : s.queue.length ≤ cap
  /-- What was put and is not queued any more was either dropped or delivered. -/
  history : ∃ gone, s.received = gone ++ s.queue ∧ gone.Perm (s.dropped ++ s.delivered) ∧
    s.delivered.Sublist gone
  /-- Before the first delivery nothing put is missing from the queue altogether. -/
  first : s.delivered = [] → s.emptyTakes = 0 ∧ (s.queue = [] → s.received = [])

theorem Accounted.empty (cap : Nat) : Accounted cap (State.empty : State α) where
  tokens_eq := rfl
  emptyTakes_le := Nat.le_refl _
  length_le := Nat.zero_le _
  history := ⟨[], rfl, .refl _, .slnil⟩
  first := by simp [State.empty]

private theorem accounted_put {cap : Nat} (hcap : 0 < cap) {s : State α} (h : Accounted cap s)
    (hp : s.posting = false) (a : α) :
    Accounted cap { s with
      queue := push cap s.queue a
      posting := true
      received := s.received ++ [a]
      dropped := s.dropped ++ overflow cap s.queue a } := by
  obtain ⟨gone, hrec, hperm, hsub⟩ := h.history
  have hsplit := overflow_append_push cap s.queue a
  have hlen := congrArg List.length hsplit
  simp only [List.length_append, List.length_singleton] at hlen
  have hpush := length_push cap s.queue a
  have htok := h.tokens_eq
  have hempty := h.emptyTakes_le
  simp only [hp, Bool.toNat_false] at htok
  refine ⟨?_, ?_, ?_, ?_, ?_⟩
  · simp only [List.length_append, Bool.toNat_true]
    omega
  · simp only [List.length_append]
    omega
  · simp only [hpush]
    omega
  · refine ⟨gone ++ overflow cap s.queue a, ?_, ?_, ?_⟩
    · simp only [hrec, List.append_assoc, hsplit]
    · calc gone ++ overflow cap s.queue a
          |>.Perm ((s.dropped ++ s.delivered) ++ overflow cap s.queue a) := hperm.append_right _
        _ |>.Perm (s.dropped ++ overflow cap s.queue a ++ s.delivered) := by
          simp only [List.append_assoc]
          exact List.perm_append_comm.append_left _
    · exact hsub.trans (List.sublist_append_left _ _)
  · intro hd
    refine ⟨(h.first hd).1, fun hq => ?_⟩
    simp only at hq
    rw [hq] at hpush
    simp only [List.length_nil] at hpush
    omega

/-- A take that finds the queue empty is never the first one. -/
theorem Accounted.delivered_ne_nil {cap : Nat} {s : State α} (h : Accounted cap s)
    (hc : s.claimed = true) (hq : s.queue = []) : s.delivered ≠ [] := by
  intro hd
  obtain ⟨gone, hrec, hperm, _⟩ := h.history
  have htok := h.tokens_eq
  rw [(h.first hd).2 hq, hq, List.append_nil] at hrec
  have hlen := hperm.length_eq
  simp only [← hrec, List.length_nil, List.length_append] at hlen
  simp only [hc, hq, Bool.toNat_true, List.length_nil] at htok
  omega

private theorem accounted_take {cap : Nat} {s : State α} (h : Accounted cap s)
    (hc : s.claimed = true) : Accounted cap s.takeFirst := by
  obtain ⟨gone, hrec, hperm, hsub⟩ := h.history
  have htok := h.tokens_eq
  have hempty := h.emptyTakes_le
  have hle := h.length_le
  simp only [hc, Bool.toNat_true] at htok
  cases hq : s.queue with
  | nil =>
    simp only [hq, List.length_nil] at htok
    simp only [State.takeFirst, hq]
    refine ⟨?_, ?_, by simp, ⟨gone, by simpa [hq] using hrec, hperm, hsub⟩, ?_⟩
    · simp only [Bool.toNat_false, List.length_nil]
      omega
    · simp only
      omega
    · exact fun hd => absurd hd (h.delivered_ne_nil hc hq)
  | cons a q =>
    simp only [hq, List.length_cons] at htok hle
    simp only [State.takeFirst, hq]
    refine ⟨?_, hempty, ?_, ⟨gone ++ [a], by simp [hrec, hq], ?_, ?_⟩, by simp⟩
    · simp only [Bool.toNat_false]
      omega
    · simp only
      omega
    · simp only [← List.append_assoc]
      exact hperm.append_right _
    · exact hsub.append (.refl _)

theorem Accounted.step {cap : Nat} (hcap : 0 < cap) {op : Op α} {s s' : State α}
    (h : Accounted cap s) (hs : step cap op s = some s') : Accounted cap s' := by
  cases op with
  | put a =>
    simp only [Mailbox.step] at hs
    split at hs
    · cases hs
    · next hp =>
      obtain rfl := Option.some.inj hs
      exact accounted_put hcap h (by simpa using hp) a
  | post =>
    simp only [Mailbox.step] at hs
    split at hs
    · next hp =>
      obtain rfl := Option.some.inj hs
      refine ⟨?_, h.emptyTakes_le, h.length_le, h.history, h.first⟩
      have htok := h.tokens_eq
      simp only [hp, Bool.toNat_true, Bool.toNat_false] at htok ⊢
      omega
    · cases hs
  | acquire =>
    simp only [Mailbox.step] at hs
    split at hs
    · next hp =>
      obtain rfl := Option.some.inj hs
      refine ⟨?_, h.emptyTakes_le, h.length_le, h.history, h.first⟩
      have htok := h.tokens_eq
      simp only [hp.1, Bool.toNat_true, Bool.toNat_false] at htok ⊢
      omega
    · cases hs
  | take =>
    simp only [Mailbox.step] at hs
    split at hs
    · next hc =>
      obtain rfl := Option.some.inj hs
      exact accounted_take h hc
    · cases hs

theorem accounted_of_reachable {cap : Nat} (hcap : 0 < cap) {s : State α}
    (h : Transition.Reachable (step cap) State.empty s) : Accounted cap s :=
  h.invariant (Accounted.empty cap) fun _ _ _ hs hstep => hs.step hcap hstep

namespace Accounted

variable {cap : Nat} {s : State α}

/-- At rest the queue is empty, and there were as many empty takes as dropped items. -/
theorem at_rest (h : Accounted cap s) (ht : s.tokens = 0) (hp : s.posting = false)
    (hc : s.claimed = false) : s.queue = [] ∧ s.emptyTakes = s.dropped.length := by
  have htok := h.tokens_eq
  have hempty := h.emptyTakes_le
  simp only [ht, hp, hc, Bool.toNat_false] at htok
  refine ⟨List.eq_nil_of_length_eq_zero ?_, ?_⟩ <;> omega

theorem delivered_of_received (h : Accounted cap s) {a : α} (ha : a ∈ s.received)
    (hq : a ∉ s.queue) (hd : a ∉ s.dropped) : a ∈ s.delivered := by
  obtain ⟨gone, hrec, hperm, _⟩ := h.history
  rw [hrec, List.mem_append] at ha
  have hmem := hperm.mem_iff.mp (ha.resolve_right hq)
  exact (List.mem_append.mp hmem).resolve_left hd

/-- The delivered items, followed by the queued ones, are put items in order of their puts. -/
theorem delivered_append_queue (h : Accounted cap s) :
    (s.delivered ++ s.queue).Sublist s.received := by
  obtain ⟨gone, hrec, _, hsub⟩ := h.history
  rw [hrec]
  exact hsub.append (.refl _)

/-- As long as nothing is dropped everything put is delivered in order or still queued. -/
theorem received_eq (h : Accounted cap s) (hd : s.dropped = []) :
    s.received = s.delivered ++ s.queue := by
  obtain ⟨gone, hrec, hperm, hsub⟩ := h.history
  rw [hd, List.nil_append] at hperm
  rw [hrec, hsub.eq_of_length hperm.length_eq.symm]

theorem no_emptyTakes (h : Accounted cap s) (hd : s.dropped = []) : s.emptyTakes = 0 := by
  have := h.emptyTakes_le
  simpa [hd] using this

theorem queue_suffix (h : Accounted cap s) : s.queue <:+ s.received := by
  obtain ⟨gone, hrec, _, _⟩ := h.history
  exact ⟨gone, hrec.symm⟩

theorem length_received (h : Accounted cap s) :
    s.received.length = s.dropped.length + s.delivered.length + s.queue.length := by
  obtain ⟨gone, hrec, hperm, _⟩ := h.history
  have hlen := hperm.length_eq
  rw [List.length_append] at hlen
  rw [hrec, List.length_append, hlen]

end Accounted

section Recent

/-- None of the last `cap` items put is ever missing: those delivered and those queued end in
them, and the dropped ones were put before them. -/
structure Recent (cap : Nat) (s : State α) : Prop where
  kept : ∃ old, s.delivered ++ s.queue = old ++ s.received.rtake cap ∧
    old.Sublist (s.received.rdrop cap)
  dropped : s.dropped.Sublist (s.received.rdrop cap)

theorem Recent.empty (cap : Nat) : Recent cap (State.empty : State α) where
  kept := ⟨[], by simp [State.empty, List.rtake], List.nil_sublist _⟩
  dropped := List.nil_sublist _

private theorem recent_put {cap : Nat} {s : State α} (h : Recent cap s) (hacc : Accounted cap s)
    (a : α) :
    Recent cap { s with
      queue := push cap s.queue a
      posting := true
      received := s.received ++ [a]
      dropped := s.dropped ++ overflow cap s.queue a } := by
  obtain ⟨old, hkept, hold⟩ := h.kept
  rcases Nat.lt_or_eq_of_le hacc.length_le with hlt | hfull
  · refine ⟨⟨old ++ overflow cap (s.received.rtake cap) a, ?_, ?_⟩, ?_⟩
    · simp only [rtake_concat, push_of_lt hlt]
      rw [List.append_assoc, overflow_append_push, ← List.append_assoc, hkept, List.append_assoc]
    · simp only [rdrop_concat]
      exact hold.append (.refl _)
    · simp only [rdrop_concat, overflow_of_lt hlt, List.append_nil]
      exact h.dropped.trans (List.sublist_append_left _ _)
  · -- a full queue holds the last `cap` items, and the oldest of them is dropped
    have hqueue : s.queue = s.received.rtake cap := by
      apply (suffix_rtake hacc.queue_suffix hacc.length_le).eq_of_length_le
      rw [length_rtake, hfull]
      exact Nat.min_le_left _ _
    have hdelivered : s.delivered = old := by
      rw [← hqueue] at hkept
      exact List.append_cancel_right hkept
    refine ⟨⟨old, ?_, ?_⟩, ?_⟩
    · simp only [rtake_concat, hqueue, hdelivered]
    · simp only [rdrop_concat]
      exact hold.trans (List.sublist_append_left _ _)
    · simp only [rdrop_concat, hqueue]
      exact h.dropped.append (.refl _)

theorem Recent.step {cap : Nat} {op : Op α} {s s' : State α} (h : Recent cap s)
    (hacc : Accounted cap s) (hs : step cap op s = some s') : Recent cap s' := by
  cases op with
  | put a =>
    simp only [Mailbox.step] at hs
    split at hs
    · cases hs
    · obtain rfl := Option.some.inj hs
      exact recent_put h hacc a
  | take =>
    simp only [Mailbox.step] at hs
    split at hs
    · obtain rfl := Option.some.inj hs
      cases hq : s.queue with
      | nil =>
        simp only [State.takeFirst, hq]
        exact ⟨by simpa [hq] using h.kept, h.dropped⟩
      | cons a q =>
        simp only [State.takeFirst, hq]
        exact ⟨by simpa [hq] using h.kept, h.dropped⟩
    · cases hs
  | post =>
    simp only [Mailbox.step] at hs
    split at hs
    · obtain rfl := Option.some.inj hs
      exact ⟨h.kept, h.dropped⟩
    · cases hs
  | acquire =>
    simp only [Mailbox.step] at hs
    split at hs
    · obtain rfl := Option.some.inj hs
      exact ⟨h.kept, h.dropped⟩
    · cases hs

theorem recent_of_reachable {cap : Nat} (hcap : 0 < cap) {s : State α}
    (h : Transition.Reachable (step cap) State.empty s) : Recent cap s :=
  h.invariant_with (fun _ ht => accounted_of_reachable hcap ht) (Recent.empty cap)
    fun _ _ _ hacc hs hstep => hs.step hacc hstep

namespace Recent

variable {cap : Nat} {s : State α}

/-- The last item put is the last one of those delivered and queued. -/
theorem getLast?_eq (h : Recent cap s) (hcap : 0 < cap) :
    (s.delivered ++ s.queue).getLast? = s.received.getLast? := by
  obtain ⟨old, hkept, hold⟩ := h.kept
  have hsplit : s.received.rdrop cap ++ s.received.rtake cap = s.received := by
    rw [List.rdrop, List.rtake, List.take_append_drop]
  cases hlast : s.received.rtake cap with
  | nil =>
    have hlen := length_rtake cap s.received
    rw [hlast, List.length_nil] at hlen
    have hnone : s.received = [] := List.eq_nil_of_length_eq_zero (by omega)
    rw [hlast, List.append_nil] at hkept
    rw [hnone, List.rdrop_nil] at hold
    rw [hkept, hnone, List.sublist_nil.mp hold]
  | cons a q =>
    rw [hlast] at hkept hsplit
    rw [hkept, ← hsplit, List.getLast?_append, List.getLast?_append, List.getLast?_cons]
    rfl

end Recent

end Recent

end Mailbox
