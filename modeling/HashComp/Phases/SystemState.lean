import HashComp.Faster.Model
import Mathlib.Data.BitVec
import Mathlib.Data.List.GetD
import Mathlib.Data.List.Nodup
import Mathlib.Tactic.IntervalCases

namespace HashComp.Phases

open HashComp.Faster (Phase)

inductive Action where
  | none
  | checkpointFull
  | checkpointIndex
  | checkpointHybridLog
  | recover
  | gc
  | growIndex
  deriving DecidableEq

structure SystemState where
  action : Action
  phase : Phase
  version : BitVec 32
  deriving DecidableEq

/-- `GetNextState`.  A branch that is "not reached" has no result; the code
returns a state of all ones there, which names no action. -/
def SystemState.getNextState (s : SystemState) : Option SystemState :=
  match s.action with
  | .checkpointFull =>
      match s.phase with
      | .rest => some ⟨.checkpointFull, .prepIndexChkpt, s.version⟩
      | .prepIndexChkpt => some ⟨.checkpointFull, .indexChkpt, s.version⟩
      | .indexChkpt => some ⟨.checkpointFull, .prepare, s.version⟩
      | .prepare => some ⟨.checkpointFull, .inProgress, s.version + 1⟩
      | .inProgress => some ⟨.checkpointFull, .waitPending, s.version⟩
      | .waitPending => some ⟨.checkpointFull, .waitFlush, s.version⟩
      | .waitFlush => some ⟨.checkpointFull, .persistenceCallback, s.version⟩
      | .persistenceCallback => some ⟨.checkpointFull, .rest, s.version⟩
      | _ => none
  | .checkpointIndex =>
      match s.phase with
      | .rest => some ⟨.checkpointIndex, .prepIndexChkpt, s.version⟩
      | .prepIndexChkpt => some ⟨.checkpointIndex, .indexChkpt, s.version⟩
      | .indexChkpt => some ⟨.checkpointIndex, .rest, s.version⟩
      | _ => none
  | .checkpointHybridLog =>
      match s.phase with
      | .rest => some ⟨.checkpointHybridLog, .prepare, s.version⟩
      | .prepare => some ⟨.checkpointHybridLog, .inProgress, s.version + 1⟩
      | .inProgress => some ⟨.checkpointHybridLog, .waitPending, s.version⟩
      | .waitPending => some ⟨.checkpointHybridLog, .waitFlush, s.version⟩
      | .waitFlush => some ⟨.checkpointHybridLog, .persistenceCallback, s.version⟩
      | .persistenceCallback => some ⟨.checkpointHybridLog, .rest, s.version⟩
      | _ => none
  | .gc =>
      match s.phase with
      | .rest => some ⟨.gc, .gcIoPending, s.version⟩
      | .gcIoPending => some ⟨.gc, .gcInProgress, s.version⟩
      | .gcInProgress => some ⟨.gc, .rest, s.version⟩
      | _ => none
  | .growIndex =>
      match s.phase with
      | .rest => some ⟨.growIndex, .growPrepare, s.version⟩
      | .growPrepare => some ⟨.growIndex, .growInProgress, s.version⟩
      | .growInProgress => some ⟨.growIndex, .rest, s.version⟩
      | _ => none
  | _ => none

def Action.phases : Action → List Phase
  | .checkpointFull =>
      [.prepIndexChkpt, .indexChkpt, .prepare, .inProgress, .waitPending, .waitFlush,
        .persistenceCallback]
  | .checkpointIndex => [.prepIndexChkpt, .indexChkpt]
  | .checkpointHybridLog => [.prepare, .inProgress, .waitPending, .waitFlush, .persistenceCallback]
  | .gc => [.gcIoPending, .gcInProgress]
  | .growIndex => [.growPrepare, .growInProgress]
  | _ => []

/-- The state of an action that has made `i` transitions since it began with
version `v`. -/
def stage (a : Action) (v : BitVec 32) (i : Nat) : SystemState where
  action := a
  phase := (.rest :: a.phases).getD i .rest
  version := if .inProgress ∈ a.phases.take i then v + 1 else v

def IsLast (p : Phase) : Prop :=
  p ∈ [Phase.indexChkpt, .persistenceCallback, .gcInProgress, .growInProgress]

instance (p : Phase) : Decidable (IsLast p) :=
  inferInstanceAs (Decidable (_ ∈ _))

variable {a : Action} {v w : BitVec 32} {i j : Nat} {s t : SystemState}

theorem phases_nodup (a : Action) : (Phase.rest :: a.phases).Nodup := by
  cases a <;> decide

theorem stage_zero : stage a v 0 = ⟨a, .rest, v⟩ := rfl

theorem stage_phase_inj (hi : i ≤ a.phases.length) (hj : j ≤ a.phases.length)
    (h : (stage a v i).phase = (stage a w j).phase) : i = j := by
  have hi' : i < (Phase.rest :: a.phases).length := Nat.lt_succ_of_le hi
  have hj' : j < (Phase.rest :: a.phases).length := Nat.lt_succ_of_le hj
  have heq : (Phase.rest :: a.phases)[i] = (Phase.rest :: a.phases)[j] := by
    rw [← List.getD_eq_getElem _ .rest hi', ← List.getD_eq_getElem _ .rest hj']
    exact h
  exact (phases_nodup a).getElem_inj_iff.mp heq

theorem stage_inj (hi : i ≤ a.phases.length) (hj : j ≤ a.phases.length)
    (h : stage a v i = stage a w j) : i = j :=
  stage_phase_inj hi hj (congrArg SystemState.phase h)

theorem stage_phase_ne_rest (hpos : 1 ≤ i) (hi : i ≤ a.phases.length) :
    (stage a v i).phase ≠ .rest := by
  intro h
  have hzero : (stage a v i).phase = (stage a v 0).phase := h
  have := stage_phase_inj hi (Nat.zero_le _) hzero
  omega

theorem next_stage (hi : i < a.phases.length) :
    (stage a v i).getNextState = some (stage a v (i + 1)) := by
  cases a <;> simp only [Action.phases, List.length_cons, List.length_nil] at hi
  all_goals first
    | omega
    | interval_cases i <;> rfl

theorem next_stage_last (h : 1 ≤ a.phases.length) :
    (stage a v a.phases.length).getNextState =
      some ⟨a, .rest, (stage a v a.phases.length).version⟩ := by
  cases a
  case none => exact absurd h (by decide)
  case recover => exact absurd h (by decide)
  all_goals rfl

theorem next_action (h : s.getNextState = some t) : t.action = s.action := by
  rcases s with ⟨act, p, ver⟩
  cases act <;> cases p
  all_goals
    cases h
    try rfl

theorem phase_of_next_first (h : s.getNextState = some (stage a v 1)) : s.phase = .rest := by
  have ha : a = s.action := next_action h
  subst ha
  rcases s with ⟨act, p, ver⟩
  cases act <;> cases p <;> first | rfl | cases h

theorem isLast_stage_length (h : 1 ≤ a.phases.length) :
    IsLast (stage a v a.phases.length).phase := by
  revert h
  change 1 ≤ a.phases.length → IsLast ((Phase.rest :: a.phases).getD a.phases.length .rest)
  cases a <;> decide

theorem not_isLast_first (h : 1 ≤ a.phases.length) : ¬ IsLast (stage a v 1).phase := by
  revert h
  change 1 ≤ a.phases.length → ¬ IsLast ((Phase.rest :: a.phases).getD 1 .rest)
  cases a <;> decide

end HashComp.Phases
