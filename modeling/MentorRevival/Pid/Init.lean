import MentorRevival.Pid.Pid

/-!
# Initialising the controllers

`PID_init` zeroes the gains of every controller, but what else it means to zero it writes
behind the table, and `sumError` it does not name. So it forgets the gains only.
-/

namespace MentorRevival

inductive PidOp
  | init
  | setGains (n : Fin NUM_PID) (kp ki kd : Float32)
  | addValue (n : Fin NUM_PID) (value : UInt32)

def PidOp.run : PidOp → PidState → PidState
  | init, s => pidInit s
  | setGains n kp ki kd, s => pidSetGains n kp ki kd s
  | addValue n value, s => pidAddValue n value s

def runOps (ops : List PidOp) (s : PidState) : PidState := ops.foldl (fun s op => op.run s) s

/-- The indices of `pid` that a function writes. -/
def writes (f : PidState → PidState) (s : PidState) : List Nat :=
  (f { s with written := [] }).written

/-- The records agree in everything but the result. -/
structure TPID.Agree (r r' : TPID) : Prop where
  kp : r.kp = r'.kp
  ki : r.ki = r'.ki
  kd : r.kd = r'.kd
  sum : r.sum = r'.sum
  sumError : r.sumError = r'.sumError
  target : r.target = r'.target
  lastValue : r.lastValue = r'.lastValue

def SameRecords (s s' : PidState) : Prop := ∀ n : Fin NUM_PID, (s.pid n).Agree (s'.pid n)

def SameSums (s s' : PidState) : Prop :=
  ∀ n : Fin NUM_PID, (s.pid n).sumError = (s'.pid n).sumError

/-- `PID_init` makes two states agree, now and after any calls that follow. -/
structure Forgotten (s s' : PidState) : Prop where
  records : SameRecords (pidInit s) (pidInit s')
  onward : ∀ ops, SameRecords (runOps ops (pidInit s)) (runOps ops (pidInit s'))

structure ForgetsPast (s s' : PidState) : Prop where
  forgotten : Forgotten s s'
  inRange : ∀ k ∈ writes pidInit s ++ writes pidInit s', k < NUM_PID

section Steps

theorem TPID.Agree.addValue {r r' : TPID} (h : r.Agree r') (value : UInt32) :
    (r.addValue value).Agree (r'.addValue value) := by
  rcases h with ⟨hkp, hki, hkd, hsum, hsumError, htarget, hlast⟩
  constructor
  · exact hkp
  · exact hki
  · exact hkd
  · exact hsum
  · simp only [TPID.addValue, hsumError]
  · exact htarget
  · exact hlast

/-- What an operation does to the record of a controller. -/
def PidOp.onRecord (n : Fin NUM_PID) : PidOp → TPID → TPID
  | init, r => { r with kp := 0, ki := 0, kd := 0 }
  | setGains k kp ki kd, r => if n = k then { r with kp := kp, ki := ki, kd := kd } else r
  | addValue k value, r => if n = k then r.addValue value else r

/-- One round of the loop: what is written behind the table does not reach a controller. -/
private theorem pid_round (s : PidState) (i : Nat) (n : Fin NUM_PID) :
    (pidSetGains i 0 0 0
      (s.write NUM_PID fun r => { r with lastValue := 0, sum := 0, target := 0 })).pid n =
      if (n : Nat) = i then { s.pid n with kp := 0, ki := 0, kd := 0 } else s.pid n := by
  have hbehind : (n : Nat) ≠ NUM_PID := Nat.ne_of_lt n.isLt
  rw [pidSetGains, PidState.write_pid, PidState.write_pid, if_neg hbehind]

private theorem pid_rounds (is : List Nat) (s : PidState) (n : Fin NUM_PID) :
    (is.foldl (fun s i => pidSetGains i 0 0 0
      (s.write NUM_PID fun r => { r with lastValue := 0, sum := 0, target := 0 })) s).pid n =
      if (n : Nat) ∈ is then { s.pid n with kp := 0, ki := 0, kd := 0 } else s.pid n := by
  induction is generalizing s with
  | nil => rfl
  | cons i is ih =>
    rw [List.foldl_cons, ih, pid_round]
    by_cases hi : (n : Nat) = i
    · simp [hi]
    · simp [hi]

theorem pid_run (op : PidOp) (s : PidState) (n : Fin NUM_PID) :
    (op.run s).pid n = op.onRecord n (s.pid n) := by
  cases op with
  | init =>
    have hrounds := pid_rounds (List.range NUM_PID) s n
    rwa [if_pos (List.mem_range.mpr n.isLt)] at hrounds
  | setGains k kp ki kd =>
    rw [PidOp.run, pidSetGains, PidState.write_pid, PidOp.onRecord]
    simp only [Fin.ext_iff]
  | addValue k value =>
    rw [PidOp.run, pid_pidAddValue, PidOp.onRecord]
    simp only [Fin.ext_iff]

/-- No controller loses anything but its gains. -/
theorem pid_pidInit (s : PidState) (n : Fin NUM_PID) :
    (pidInit s).pid n = { s.pid n with kp := 0, ki := 0, kd := 0 } :=
  pid_run .init s n

theorem writes_pidInit (s : PidState) :
    writes pidInit s = (List.range NUM_PID).flatMap fun i => [NUM_PID, i] := rfl

end Steps

section Agreement

theorem TPID.Agree.onRecord {r r' : TPID} (h : r.Agree r') (op : PidOp) (n : Fin NUM_PID) :
    (op.onRecord n r).Agree (op.onRecord n r') := by
  cases op with
  | init => exact ⟨rfl, rfl, rfl, h.sum, h.sumError, h.target, h.lastValue⟩
  | setGains k kp ki kd =>
    rw [PidOp.onRecord, PidOp.onRecord]
    split
    · exact ⟨rfl, rfl, rfl, h.sum, h.sumError, h.target, h.lastValue⟩
    · exact h
  | addValue k value =>
    rw [PidOp.onRecord, PidOp.onRecord]
    split
    · exact h.addValue value
    · exact h

theorem sameRecords_runOps {s s' : PidState} (h : SameRecords s s') (ops : List PidOp) :
    SameRecords (runOps ops s) (runOps ops s') := by
  induction ops generalizing s s' with
  | nil => exact h
  | cons op ops ih =>
    apply ih
    intro n
    rw [pid_run, pid_run]
    exact (h n).onRecord op n

/-- What no function sets to anything but zero. -/
structure TPID.Unset (r : TPID) : Prop where
  sum : r.sum = 0
  target : r.target = 0
  lastValue : r.lastValue = 0

theorem TPID.Unset.onRecord {r : TPID} (h : r.Unset) (op : PidOp) (n : Fin NUM_PID) :
    (op.onRecord n r).Unset := by
  cases op with
  | init => exact ⟨h.sum, h.target, h.lastValue⟩
  | setGains k kp ki kd =>
    rw [PidOp.onRecord]
    split
    · exact ⟨h.sum, h.target, h.lastValue⟩
    · exact h
  | addValue k value =>
    rw [PidOp.onRecord]
    split
    · exact ⟨h.sum, h.target, h.lastValue⟩
    · exact h

theorem unset_boot (behind : Nat → TPID) (n : Fin NUM_PID) :
    ((PidState.boot behind).pid n).Unset := by
  have hzero : (PidState.boot behind).pid n = TPID.zero := if_pos n.isLt
  rw [hzero]
  exact ⟨rfl, rfl, rfl⟩

theorem unset_runOps {s : PidState} (h : ∀ n : Fin NUM_PID, (s.pid n).Unset) (ops : List PidOp)
    (n : Fin NUM_PID) : ((runOps ops s).pid n).Unset := by
  induction ops generalizing s with
  | nil => exact h n
  | cons op ops ih =>
    apply ih
    intro m
    rw [pid_run]
    exact (h m).onRecord op m

end Agreement

section Forgetting

variable {s s' : PidState}

theorem sameRecords_pidInit_iff (h : ∀ n : Fin NUM_PID, (s.pid n).Unset)
    (h' : ∀ n : Fin NUM_PID, (s'.pid n).Unset) :
    SameRecords (pidInit s) (pidInit s') ↔ SameSums s s' := by
  constructor
  · intro hsame n
    have hsum := (hsame n).sumError
    rwa [pid_pidInit, pid_pidInit] at hsum
  · intro hsums n
    rw [pid_pidInit, pid_pidInit]
    constructor
    · rfl
    · rfl
    · rfl
    · exact (h n).sum.trans (h' n).sum.symm
    · exact hsums n
    · exact (h n).target.trans (h' n).target.symm
    · exact (h n).lastValue.trans (h' n).lastValue.symm

theorem forgotten_iff (h : ∀ n : Fin NUM_PID, (s.pid n).Unset)
    (h' : ∀ n : Fin NUM_PID, (s'.pid n).Unset) : Forgotten s s' ↔ SameSums s s' := by
  constructor
  · intro hforgotten
    exact (sameRecords_pidInit_iff h h').mp hforgotten.records
  · intro hsums
    have hrecords := (sameRecords_pidInit_iff h h').mpr hsums
    exact ⟨hrecords, sameRecords_runOps hrecords⟩

theorem not_forgetsPast (s s' : PidState) : ¬ ForgetsPast s s' := by
  intro h
  have hmem : NUM_PID ∈ writes pidInit s ++ writes pidInit s' := by
    apply List.mem_append_left
    rw [writes_pidInit]
    decide
  exact absurd (h.inRange NUM_PID hmem) (Nat.lt_irrefl _)

end Forgetting

/-- After no two histories does `PID_init` stay within the table; and it makes them forgotten
exactly when they have left the same `sumError` everywhere. -/
theorem init_forgets_iff (behind behind' : Nat → TPID) (past past' : List PidOp) :
    ¬ ForgetsPast (runOps past (PidState.boot behind)) (runOps past' (PidState.boot behind')) ∧
    (Forgotten (runOps past (PidState.boot behind)) (runOps past' (PidState.boot behind')) ↔
      SameSums (runOps past (PidState.boot behind)) (runOps past' (PidState.boot behind'))) := by
  constructor
  · exact not_forgetsPast _ _
  · apply forgotten_iff
    · exact unset_runOps (unset_boot behind) past
    · exact unset_runOps (unset_boot behind') past'

/-- One sample before `PID_init` is still in the accumulator behind it. -/
theorem sample_survives_init :
    ¬ ForgetsPast (runOps [.addValue 0 1] (PidState.boot fun _ => TPID.zero))
      (runOps [] (PidState.boot fun _ => TPID.zero)) := by
  intro h
  have hsum := (h.forgotten.records 0).sumError
  revert hsum
  decide

end MentorRevival
