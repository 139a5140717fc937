import HashComp.Phases.SystemState
import HashComp.Requests.Model

/-!
The checkpoint locks from `InitializeCheckpointLocks` to `Free`, and the requests
that threads have pending in between.  What an operation returns is left open, and
so is when it locks and unlocks through its guard and when it refreshes.  Threads
do not wait for each other between two phases, but only before the locks are
freed.  That a copy of a context cannot be allocated is left out.
-/

namespace HashComp.Locks

open HashComp.Faster (Phase CheckpointLock)
open HashComp.Phases (SystemState Action)
open HashComp.Requests (Operation OperationStatus)

/-- A pending request: its class, the lock of its hash, and `version` of its
context.  It is in `pending_ios` when it is `onDisk`, and in `retry_requests`
otherwise.  `prepared` says that it has been in a queue while its thread was in
phase `PREPARE`; `taken` and `undone` count the calls of `try_lock_old` and
`unlock_old` made for it.  These three are read by no step. -/
structure Request where
  operation : Operation
  bucket : Nat
  version : BitVec 32
  onDisk : Bool
  prepared : Bool
  taken : Nat
  undone : Nat
  deriving DecidableEq

/-- How a request has come to run: called by the user, continued after a read,
taken from `retry_requests`, or run again on `RETRY_NOW`. -/
inductive Path where
  | called
  | continued
  | retried
  | again
  deriving DecidableEq

inductive Stage where
  | inside (old new : Nat)
  | returned (status : OperationStatus)
  | pivoting
  deriving DecidableEq

/-- The request a thread works on; `previous` says which of its two execution
contexts is handed on. -/
structure Job where
  request : Request
  previous : Bool
  path : Path
  stage : Stage
  deriving DecidableEq

/-- `current` and `previous` are the requests of `thread_ctx()` and of
`prev_thread_ctx()`, and `waited` says that the thread has finished
`WAIT_PENDING`. -/
structure Thread where
  phase : Phase
  version : BitVec 32
  previousVersion : BitVec 32
  current : List Request
  previous : List Request
  job : Option Job
  waited : Bool
  deriving DecidableEq

structure System where
  locks : Nat → CheckpointLock
  threads : Nat → Thread
  completed : List Request
  freed : Bool

def Request.prepare (q : Request) : Request :=
  { q with prepared := true }

section Locks

variable (locks : Nat → CheckpointLock) (b : Nat)

def tryLockOld : Option (Nat → CheckpointLock) :=
  if (locks b).newLockCount = 0 then
    some (Function.update locks b ⟨(locks b).oldLockCount + 1, 0⟩)
  else none

def tryLockNew : Option (Nat → CheckpointLock) :=
  if (locks b).oldLockCount = 0 then
    some (Function.update locks b ⟨0, (locks b).newLockCount + 1⟩)
  else none

def unlock (old new : Nat) : Nat → CheckpointLock :=
  Function.update locks b ⟨(locks b).oldLockCount - old, (locks b).newLockCount - new⟩

def markAllPendingRequests : (Nat → CheckpointLock) → List Request →
    (Nat → CheckpointLock) × List Request
  | locks, [] => (locks, [])
  | locks, q :: requests =>
      match tryLockOld locks q.bucket with
      | some marked =>
          let (locks, requests) := markAllPendingRequests marked requests
          (locks, { q with taken := q.taken + 1 } :: requests)
      | none =>
          let (locks, requests) := markAllPendingRequests locks requests
          (locks, q :: requests)

end Locks

section Steps

/-- The request is not in any queue, and has no lock. -/
def Request.new (operation : Operation) (bucket : Nat) (version : BitVec 32) (onDisk : Bool) :
    Request :=
  ⟨operation, bucket, version, onDisk, false, 0, 0⟩

/-- `Checkpoint` or `CheckpointHybridLog` has been called, while the threads have
requests pending. -/
def System.start (version : BitVec 32) (pending : Nat → List (Operation × Nat × Bool)) :
    System where
  locks := fun _ => ⟨0, 0⟩
  threads := fun t =>
    { phase := .rest
      version := version
      previousVersion := 0
      current := (pending t).map fun (operation, bucket, onDisk) =>
        .new operation bucket version onDisk
      previous := []
      job := none
      waited := false }
  completed := []
  freed := false

def System.setThread (x : System) (t : Nat) (thread : Thread) : System :=
  { x with threads := Function.update x.threads t thread }

def Thread.ownerVersion (thread : Thread) (job : Job) : BitVec 32 :=
  if job.previous then thread.previousVersion else thread.version

/-- The comparisons of `InternalContinuePendingRead`, `InternalContinuePendingRmw`
and `InternalRetryPendingRmw`. -/
def Thread.unmarks (thread : Thread) (job : Job) : Bool :=
  match job.path, job.request.operation with
  | .continued, .read => thread.version > thread.ownerVersion job
  | .continued, .rmw => thread.version ≠ thread.ownerVersion job
  | .retried, .rmw => job.request.version ≠ thread.version
  | _, _ => false

def Thread.status (thread : Thread) (job : Job) : Faster.OperationStatus → OperationStatus
  | .success => if thread.unmarks job then .successUnmark else .success
  | .notFound => if thread.unmarks job then .notFoundUnmark else .notFound
  | status => .ofInternal status

def canReturn : Operation → Path → List Faster.OperationStatus
  | .read, .continued => [.success, .notFound]
  | .rmw, .continued => [.success, .retryNow]
  | .read, _ => [.success, .notFound, .recordOnDisk, .cprShiftDetected]
  | .upsert, _ => [.success, .retryNow, .retryLater, .cprShiftDetected]
  | .rmw, _ => [.success, .retryNow, .retryLater, .recordOnDisk, .cprShiftDetected]
  | .delete, _ => [.success, .retryLater, .cprShiftDetected]

def Thread.goAsync (thread : Thread) (job : Job) (status : Faster.OperationStatus) : Request :=
  match status with
  | .retryLater | .recordOnDisk | .cprShiftDetected =>
      if job.path = .retried ∧ job.request.operation = .rmw then job.request
      else { job.request with version := thread.version }
  | _ => job.request

def System.complete (x : System) (t : Nat) (thread : Thread) (q : Request) : System :=
  { x with completed := q :: x.completed }.setThread t { thread with job := none }

def Thread.queued (thread : Thread) (q : Request) (onDisk : Bool) : Request :=
  { q with onDisk := onDisk, prepared := q.prepared || decide (thread.phase = .prepare) }

def Thread.retryLater (thread : Thread) (previous : Bool) (q : Request) : Thread :=
  let q := thread.queued q false
  if previous then { thread with previous := thread.previous ++ [q], job := none }
  else { thread with current := thread.current ++ [q], job := none }

def Thread.issue (thread : Thread) (q : Request) : Thread :=
  { thread with current := thread.current ++ [thread.queued q true], job := none }

def System.handleOperationStatus (x : System) (t : Nat) (job : Job) (status : OperationStatus) :
    System :=
  let thread := x.threads t
  let q := job.request
  let pivot := x.setThread t { thread with job := some { job with stage := .pivoting } }
  match status with
  | .success | .notFound => x.complete t thread q
  | .successUnmark | .notFoundUnmark =>
      { x with locks := unlock x.locks q.bucket 1 0 }.complete t thread
        { q with undone := q.undone + 1 }
  | .retryNow =>
      x.setThread t { thread with job := some { job with path := .again, stage := .inside 0 0 } }
  | .cprShiftDetected => pivot
  | .retryLater =>
      if thread.phase = .prepare then
        match tryLockOld x.locks q.bucket with
        | none => pivot
        | some locks =>
            { x with locks := locks }.setThread t
              (thread.retryLater job.previous { q with taken := q.taken + 1 })
      else x.setThread t (thread.retryLater job.previous q)
  | .recordOnDisk =>
      if thread.phase = .prepare then
        match tryLockOld x.locks q.bucket with
        | none => pivot
        | some locks =>
            { x with locks := locks }.setThread t (thread.issue { q with taken := q.taken + 1 })
      else x.setThread t (thread.issue q)

/-- `Checkpoint` or `CheckpointHybridLog`. -/
def action (full : Bool) : Action :=
  if full then .checkpointFull else .checkpointHybridLog

def System.refresh (full : Bool) (x : System) (t : Nat) : Option System :=
  let thread := x.threads t
  if thread.phase = .persistenceCallback then none
  else
    match SystemState.getNextState ⟨action full, thread.phase, thread.version⟩ with
    | none => none
    | some current =>
        match current.phase with
        | .prepare =>
            let (locks, requests) := markAllPendingRequests x.locks thread.current
            some ({ x with locks := locks }.setThread t
              { thread with
                phase := .prepare
                current := requests.map Request.prepare })
        | .inProgress =>
            some (x.setThread t
              { thread with
                phase := .inProgress
                version := current.version
                previousVersion := thread.version
                current := []
                previous := thread.current
                -- a call hands on the context that it finds when the operation has returned
                job := thread.job.map fun job =>
                  { job with previous := decide (job.path ≠ .called) } })
        | phase => some (x.setThread t { thread with phase := phase })

/-- `CompleteIoPendingRequests` and `CompleteRetryRequests` take a request. -/
def Thread.take (thread : Thread) (previous onDisk : Bool) (i : Nat) : Option Thread :=
  let requests := if previous then thread.previous else thread.current
  match requests[i]? with
  | none => none
  | some q =>
      if q.onDisk = onDisk then
        let job : Job := ⟨q, previous, if onDisk then .continued else .retried, .inside 0 0⟩
        some (if previous then
            { thread with previous := thread.previous.eraseIdx i, job := some job }
          else { thread with current := thread.current.eraseIdx i, job := some job })
      else none

inductive Move where
  | call (t : Nat) (operation : Operation) (bucket : Nat)
  | take (t : Nat) (previous onDisk : Bool) (i : Nat)
  /-- A `CheckpointLockGuard` locks. -/
  | lockOld (t : Nat)
  | lockNew (t : Nat)
  | returns (t : Nat) (status : Faster.OperationStatus)
  | handle (t : Nat)
  /-- `PivotAndRetry` after its `Refresh`. -/
  | retryNow (t : Nat)
  | refresh (t : Nat)
  /-- `FinishThreadPhase(WAIT_PENDING)`. -/
  | finishWaitPending (t : Nat)
  /-- `CheckpointLocks::Free`. -/
  | free
  deriving DecidableEq

def System.next (full : Bool) (n : Nat) (x : System) (move : Move) : Option System :=
  if x.freed then none
  else
    match move with
    | .call t operation bucket =>
        let thread := x.threads t
        if t < n ∧ thread.job = none then
          some (x.setThread t
            { thread with
              job := some ⟨.new operation bucket (2 ^ 32 - 1) false, false, .called,
                .inside 0 0⟩ })
        else none
    | .take t previous onDisk i =>
        let thread := x.threads t
        if t < n ∧ thread.job = none then (thread.take previous onDisk i).map (x.setThread t)
        else none
    | .lockOld t =>
        let thread := x.threads t
        match thread.job with
        | some ⟨q, previous, path, .inside old new⟩ =>
            if t < n ∧ q.operation ≠ .read then
              (tryLockOld x.locks q.bucket).map fun locks =>
                { x with locks := locks }.setThread t
                  { thread with job := some ⟨q, previous, path, .inside (old + 1) new⟩ }
            else none
        | _ => none
    | .lockNew t =>
        let thread := x.threads t
        match thread.job with
        | some ⟨q, previous, path, .inside old new⟩ =>
            if t < n ∧ q.operation ≠ .read then
              (tryLockNew x.locks q.bucket).map fun locks =>
                { x with locks := locks }.setThread t
                  { thread with job := some ⟨q, previous, path, .inside old (new + 1)⟩ }
            else none
        | _ => none
    | .returns t status =>
        let thread := x.threads t
        match thread.job with
        | some ⟨q, previous, path, .inside old new⟩ =>
            let job : Job := ⟨q, previous, path, .inside old new⟩
            if t < n ∧ status ∈ canReturn q.operation path then
              some ({ x with locks := unlock x.locks q.bucket old new }.setThread t
                { thread with
                  job := some ⟨thread.goAsync job status, previous, path,
                    .returned (thread.status job status)⟩ })
            else none
        | _ => none
    | .handle t =>
        match (x.threads t).job with
        | some ⟨q, previous, path, .returned status⟩ =>
            if t < n then
              some (x.handleOperationStatus t ⟨q, previous, path, .returned status⟩ status)
            else none
        | _ => none
    | .retryNow t =>
        let thread := x.threads t
        match thread.job with
        | some ⟨q, _, _, .pivoting⟩ =>
            if t < n then
              some (x.setThread t
                { thread with
                  job := some ⟨{ q with version := thread.version }, false, .again,
                    .inside 0 0⟩ })
            else none
        | _ => none
    | .refresh t =>
        match (x.threads t).job with
        | some ⟨_, _, _, .returned _⟩ => none
        | _ => if t < n then x.refresh full t else none
    | .finishWaitPending t =>
        let thread := x.threads t
        if t < n ∧ thread.phase = .waitPending ∧ thread.previous = [] then
          some (x.setThread t { thread with waited := true })
        else none
    | .free => some { x with freed := true }

end Steps

end HashComp.Locks
