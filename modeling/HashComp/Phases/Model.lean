import HashComp.Phases.SystemState
import Mathlib.Logic.Function.Basic

/-!
The threads of a `FasterKv` between which the phases of checkpoints, garbage
collection and index growth pass: `StartSession`, `Refresh`, `StopSession` and
the calls that start an action, one access to shared memory at a time.  What the
operations do between two calls of `Refresh` is left out, and whether an I/O or
a chunk of work is done is chosen with each step.  Assertions are compiled out.
-/

namespace HashComp.Phases

open HashComp.Faster (Phase)

def kMaxNumThreads : Nat := 96

structure ExecutionContext where
  phase : Phase
  version : BitVec 32
  deriving DecidableEq

/-- What a thread does next.  `final` is the state that `HandleSpecialPhases`
has loaded. -/
inductive Pc where
  | out
  | idle
  /-- `Refresh`: `ProtectAndDrain`, the load of `new_state`, and the load of
  `final_state`. -/
  | entering
  | refreshing
  | handling
  /-- The head of the loop of `HandleSpecialPhases`, and its end. -/
  | iterating (final previous : SystemState)
  | ending (final current : SystemState)
  /-- A state of all ones has been taken for the next one. -/
  | lost
  /-- `FinishThreadPhase`: the store, and the loop, between the two loads of
  which the phase of the entry is known. -/
  | finishing (final current : SystemState)
  | scanning (final current : SystemState) (idx : Nat) (entryPhase : Option Phase)
  /-- `GlobalMoveToNextState`, because `FinishThreadPhase` has returned true or
  without it, and its second store. -/
  | moving (final current : SystemState) (finished : Bool)
  | resting (final current : SystemState) (version : BitVec 32)
  /-- The end of `SplitHashTableBuckets`. -/
  | spinning (final current : SystemState)
  /-- `Checkpoint`, `CheckpointIndex`, `CheckpointHybridLog`,
  `ShiftBeginAddress` or `GrowIndex`: the exchange, `ResetPhaseFinished` and the
  store of the first phase. -/
  | opening (action : Action) (version : BitVec 32)
  | resetting (action : Action) (version : BitVec 32) (idx : Nat)
  | publishing (action : Action) (version : BitVec 32)
  deriving DecidableEq

/-- `epoch` and `phaseFinished` are the fields of the entries of the epoch
table; `acked` records the phases that each session has finished since the last
`ResetPhaseFinished`, and is read by no step. -/
structure System where
  state : SystemState
  currentEpoch : Nat
  epoch : Nat → Nat
  phaseFinished : Nat → Phase
  pc : Nat → Pc
  ctx : Nat → ExecutionContext
  acked : Nat → List Phase

/-- The constructor, before any thread has started a session. -/
def System.start : System where
  state := ⟨.none, .rest, 1⟩
  currentEpoch := 1
  epoch := fun _ => 0
  phaseFinished := fun _ => .rest
  pc := fun _ => .out
  ctx := fun _ => ⟨.invalid, 0⟩
  acked := fun _ => []

section Steps

inductive Work where
  | nothing
  | finish
  | move

/-- The switch in `HandleSpecialPhases`.  `ready` says that the I/O of the index
checkpoint is complete, that the previous context has no pending requests, that
the log is flushed, or that no bucket is left to clean. -/
def work (previous current : SystemState) (phaseFinished : Phase) (ready : Bool) : Work :=
  match current.action with
  | .checkpointFull | .checkpointIndex | .checkpointHybridLog =>
      match current.phase with
      | .prepIndexChkpt => if previous.phase = .rest then .finish else .nothing
      | .indexChkpt =>
          if ready then
            if current.action = .checkpointIndex then .finish else .move
          else .nothing
      | .prepare => if previous.phase ≠ .prepare then .finish else .nothing
      | .inProgress => if previous.phase = .prepare then .finish else .nothing
      | .waitPending =>
          if phaseFinished ≠ .waitPending ∧ ready then .finish else .nothing
      | .waitFlush => if phaseFinished ≠ .waitFlush ∧ ready then .finish else .nothing
      | .persistenceCallback => if previous.phase = .waitFlush then .finish else .nothing
      | _ => .nothing
  | .gc =>
      match current.phase with
      | .gcIoPending => if phaseFinished ≠ .gcIoPending ∧ ready then .finish else .nothing
      | .gcInProgress => if phaseFinished ≠ .gcInProgress ∧ ready then .finish else .nothing
      | _ => .nothing
  | .growIndex =>
      match current.phase with
      | .growPrepare => if previous.phase = .rest then .finish else .nothing
      | .growInProgress => .finish
      | _ => .nothing
  | _ => .nothing

def currentState (final previous : SystemState) : Option SystemState :=
  if previous = final then some final else previous.getNextState

def afterFinish (final current : SystemState) : Pc :=
  if current.phase = .growInProgress then .spinning final current else .ending final current

def System.setPc (x : System) (t : Nat) (pc : Pc) : System :=
  { x with pc := Function.update x.pc t pc }

def System.setCtx (x : System) (t : Nat) (ctx : ExecutionContext) : System :=
  { x with ctx := Function.update x.ctx t ctx }

def System.setState (x : System) (state : SystemState) : System :=
  { x with state := state }

def System.setEpoch (x : System) (t epoch : Nat) : System :=
  { x with epoch := Function.update x.epoch t epoch }

def System.setPhaseFinished (x : System) (idx : Nat) (phase : Phase) : System :=
  { x with phaseFinished := Function.update x.phaseFinished idx phase }

def System.setAcked (x : System) (t : Nat) (phases : List Phase) : System :=
  { x with acked := Function.update x.acked t phases }

/-- The next access of thread `t` to a table of `n` entries. -/
def System.run (n : Nat) (x : System) (t : Nat) (ready : Bool) : Option System :=
  match x.pc t with
  | .out => none
  | .idle => none
  | .entering => some ((x.setEpoch t x.currentEpoch).setPc t .refreshing)
  | .refreshing =>
      if (x.ctx t).phase = .rest ∧ x.state.phase = .rest then some (x.setPc t .idle)
      else some (x.setPc t .handling)
  | .handling =>
      if x.state.phase = .rest then
        some ((x.setCtx t ⟨.rest, x.state.version⟩).setPc t .idle)
      else
        some (x.setPc t
          (.iterating x.state ⟨x.state.action, (x.ctx t).phase, (x.ctx t).version⟩))
  | .iterating final previous =>
      match currentState final previous with
      | none => some (x.setPc t .lost)
      | some current =>
          match work previous current (x.phaseFinished t) ready with
          | .nothing => some (x.setPc t (.ending final current))
          | .finish =>
              -- a thread that is done with the action rests until the iteration ends
              if IsLast current.phase then
                some ((x.setCtx t { x.ctx t with phase := .rest }).setPc t
                  (.finishing final current))
              else some (x.setPc t (.finishing final current))
          | .move => some (x.setPc t (.moving final current false))
  | .ending final current =>
      some ((x.setCtx t ⟨current.phase, current.version⟩).setPc t
        (if current = final then .idle else .iterating final current))
  | .lost => some x
  | .finishing final current =>
      some (((x.setPhaseFinished t current.phase).setAcked t (current.phase :: x.acked t)).setPc t
        (.scanning final current 1 none))
  | .scanning final current idx none =>
      if idx ≤ n then some (x.setPc t (.scanning final current idx (some (x.phaseFinished idx))))
      else some (x.setPc t (.moving final current true))
  | .scanning final current idx (some entryPhase) =>
      if x.epoch idx ≠ 0 ∧ entryPhase ≠ current.phase then
        some (x.setPc t (afterFinish final current))
      else some (x.setPc t (.scanning final current (idx + 1) none))
  | .moving final current _ =>
      if x.state = current then
        match current.getNextState with
        | none => some (x.setPc t .lost)
        | some next =>
            some ((x.setState next).setPc t
              (if next.phase = .rest then .resting final current next.version
              else .ending final current))
      else some (x.setPc t (.ending final current))
  | .resting final current version =>
      some ((x.setState ⟨.none, .rest, version⟩).setPc t (.ending final current))
  | .spinning final current =>
      if x.state.phase = .growInProgress then some x
      else some (x.setPc t (.ending final current))
  | .opening action version =>
      if x.state = ⟨.none, .rest, version⟩ then
        some ((x.setState ⟨action, .rest, version⟩).setPc t (.resetting action version 1))
      else some (x.setPc t .idle)
  | .resetting action version idx =>
      if idx ≤ n then
        some ((x.setPhaseFinished idx .rest).setPc t (.resetting action version (idx + 1)))
      else some ({ x with acked := fun _ => [] }.setPc t (.publishing action version))
  | .publishing action version =>
      match SystemState.getNextState ⟨action, .rest, version⟩ with
      | none => none
      | some first =>
          some ((x.setState first).setPc t (if action = .growIndex then .entering else .idle))

inductive Move where
  | startSession (t : Nat)
  | refresh (t : Nat)
  | stopSession (t : Nat)
  | begin (t : Nat) (action : Action)
  | run (t : Nat) (ready : Bool)
  | bumpCurrentEpoch

/-- `n` is the number of entries and the number of thread ids. -/
def System.next (n : Nat) (x : System) : Move → Option System
  | .startSession t =>
      -- a session of a thread that has the id for the first time, or again
      if t < n ∧ x.pc t = .out ∧ x.state.phase = .rest then
        some (((x.setCtx t ⟨x.state.phase, x.state.version⟩).setAcked t []).setPc t .entering)
      else none
  | .refresh t => if x.pc t = .idle then some (x.setPc t .entering) else none
  | .stopSession t =>
      if x.pc t = .idle ∧ (x.ctx t).phase = .rest then some ((x.setEpoch t 0).setPc t .out)
      else none
  | .begin t action =>
      if x.pc t = .idle ∧ action.phases ≠ [] then
        some (x.setPc t (.opening action x.state.version))
      else none
  | .run t ready => x.run n t ready
  | .bumpCurrentEpoch => some { x with currentEpoch := x.currentEpoch + 1 }

def steps (t k : Nat) : List Move :=
  List.replicate k (.run t true)

end Steps

section Fields

variable (x : System) (t u : Nat)

@[simp] theorem setPc_state (pc : Pc) : (x.setPc t pc).state = x.state := rfl
@[simp] theorem setPc_epoch (pc : Pc) : (x.setPc t pc).epoch = x.epoch := rfl
@[simp] theorem setPc_phaseFinished (pc : Pc) :
    (x.setPc t pc).phaseFinished = x.phaseFinished := rfl
@[simp] theorem setPc_acked (pc : Pc) : (x.setPc t pc).acked = x.acked := rfl
@[simp] theorem setPc_ctx (pc : Pc) : (x.setPc t pc).ctx = x.ctx := rfl
@[simp] theorem setPc_currentEpoch (pc : Pc) : (x.setPc t pc).currentEpoch = x.currentEpoch := rfl
@[simp] theorem setPc_self (pc : Pc) : (x.setPc t pc).pc t = pc := Function.update_self ..
theorem setPc_of_ne (pc : Pc) (h : u ≠ t) : (x.setPc t pc).pc u = x.pc u :=
  Function.update_of_ne h ..

end Fields

end HashComp.Phases
