import HashComp.Disk.Chains
import HashComp.Reads.Model
import Mathlib.Algebra.Group.Nat.Defs

/-!
One `Read`, `Upsert`, `Rmw` or `Delete` from the call to its final status, over
`HandleOperationStatus`, `PivotAndRetry`, `RetryLater` and the reads from disk,
while other threads access the store in any way.  An operation runs in one step,
in the phase and the version that the thread has by then.  A log entry stands
for a record in memory and on disk.  What `InternalContinuePendingRmw` does is
left open, and so is what follows when an operation runs on a context of another
class.  Assertions are compiled out.
-/

namespace HashComp.Requests

open HashComp.Faster
open HashComp.Reads (Status)

inductive OperationType where
  | read
  | rmw
  | upsert
  | insert
  | delete
  deriving DecidableEq

inductive OperationStatus where
  | success
  | notFound
  | retryNow
  | retryLater
  | recordOnDisk
  | successUnmark
  | notFoundUnmark
  | cprShiftDetected
  deriving DecidableEq

def OperationStatus.ofInternal : Faster.OperationStatus → OperationStatus
  | .success => .success
  | .notFound => .notFound
  | .retryNow => .retryNow
  | .retryLater => .retryLater
  | .recordOnDisk => .recordOnDisk
  | .cprShiftDetected => .cprShiftDetected

/-- `InternalRead`, `InternalUpsert`, `InternalRmw` and `InternalDelete`, and the
classes of contexts that they run on. -/
inductive Operation where
  | read
  | upsert
  | rmw
  | delete
  deriving DecidableEq

/-- The tag that the constructors of `AsyncPendingReadContext` and its siblings
store in the context. -/
def Operation.type : Operation → OperationType
  | .read => .read
  | .upsert => .upsert
  | .rmw => .rmw
  | .delete => .upsert

def retryNowOperation : OperationType → Option Operation
  | .read => some .read
  | .upsert => some .upsert
  | .delete => some .delete
  | .rmw => some .rmw
  | .insert => none

def retryRequestOperation : OperationType → Option Operation
  | .rmw => some .rmw
  | .upsert => some .upsert
  | _ => none

/-- The context of a caller.  `input` is what a `Delete` has not initialised. -/
structure Request (K : Type) where
  operation : Operation
  key : K
  input : BitVec 64

structure PendingContext where
  phase : Phase
  version : Nat
  address : Nat
  deriving DecidableEq

inductive Stage where
  | starting
  /-- `HandleOperationStatus` with `RETRY_NOW`. -/
  | retrying
  /-- `PivotAndRetry` before its `Refresh` has returned. -/
  | pivoting
  | queued
  | reading (address : Nat)
  | responded (address : Nat)
  | done (status : Status)
  /-- "Cannot happen!". -/
  | thrown
  /-- An operation has run on a context of another class. -/
  | undefined
  deriving DecidableEq

structure Execution (K : Type) where
  operation : Operation
  before : Store K
  after : Store K

/-- `thread` is what `thread_ctx()` returns, and `owner` the execution context
that is handed on to `HandleOperationStatus`.  The last execution comes first. -/
structure System (K : Type) where
  store : Store K
  thread : Context
  owner : Context
  pending : PendingContext
  stage : Stage
  executed : List (Execution K)

section Locks

variable {K : Type} (s : Store K)

def setLock (b : Nat) (lock : CheckpointLock) : Store K :=
  { s with locks := Function.update s.locks b lock }

def tryLockOld (b : Nat) : Option (Store K) :=
  let lock := s.locks b
  if lock.newLockCount = 0 then
    some (setLock s b { lock with oldLockCount := lock.oldLockCount + 1 })
  else none

def unlockOld (b : Nat) : Store K :=
  let lock := s.locks b
  setLock s b { lock with oldLockCount := lock.oldLockCount - 1 }

end Locks

section Accesses

variable {K : Type} (L : Layout K)

inductive Access (K : Type) where
  | findOrCreateEntry (key : K)
  /-- `BlockAllocate`, and a new record in front of what an entry led to. -/
  | create (record : Record K)
  /-- A record is updated in place, or marked as invalid. -/
  | rewrite (address : Nat) (value : BitVec 64) (invalid : Bool)
  /-- An entry gets the address of a record. -/
  | exchange (b slot address : Nat)
  /-- The store of `kInvalidEntry`. -/
  | erase (b slot : Nat)
  | lock (b : Nat) (lock : CheckpointLock)
  | shiftReadOnly (address : Nat)
  | shiftSafeReadOnly (address : Nat)
  | shiftHead (address : Nat)

def HasRecord (s : Store K) (address : Nat) : Bool :=
  decide (address < s.beginAddress) || (s.log address).isSome

def access (s : Store K) : Access K → Option (Store K)
  | .findOrCreateEntry key =>
      (findOrCreateEntry (L.tag key) (s.buckets (L.idx key))).map fun (_, _, bucket) =>
        setBucket s (L.idx key) bucket
  | .create record =>
      if HasRecord s record.previousAddress then
        some (constructRecord s (blockAllocate s) record)
      else none
  | .rewrite address value invalid =>
      (s.log address).map fun record =>
        Disk.setRecord s address { record with
          value := value
          invalid := invalid }
  | .exchange b slot address =>
      match (s.buckets b)[slot]? with
      | some (some entry) =>
          if HasRecord s address then
            some (setBucket s b ((s.buckets b).set slot (some ⟨address, entry.tag, false⟩)))
          else none
      | _ => none
  | .erase b slot =>
      if slot < (s.buckets b).length then
        some (setBucket s b ((s.buckets b).set slot none))
      else none
  | .lock b lock => some (setLock s b lock)
  | .shiftReadOnly address =>
      if s.readOnlyAddress ≤ address ∧ address ≤ s.tailAddress then
        some { s with readOnlyAddress := address }
      else none
  | .shiftSafeReadOnly address =>
      if s.safeReadOnlyAddress ≤ address ∧ address ≤ s.readOnlyAddress then
        some { s with safeReadOnlyAddress := address }
      else none
  | .shiftHead address =>
      if s.headAddress ≤ address ∧ address ≤ s.safeReadOnlyAddress then
        some { s with headAddress := address }
      else none

end Accesses

section Steps

variable {K : Type} [DecidableEq K] (L : Layout K) (r : Request K)

def System.start (context : Context) : System K where
  store := Store.new
  thread := context
  owner := context
  pending := ⟨.invalid, 2 ^ 32 - 1, kInvalidAddress⟩
  stage := .starting
  executed := []

/-- `InternalRmw` when the old record turns out to be on disk after the new one has
been allocated. -/
def rmwOnDisk (s : Store K) (ctx : Context) (key : K) : Option (Store K) := do
  let l ← locate L s key
  let s := l.store
  if s.beginAddress ≤ l.address ∧ l.address < s.headAddress then
    return constructRecord s (blockAllocate s)
      { newRecord ctx key 0 l.expected with invalid := true }
  else none

def Request.perform (s : Store K) (ctx : Context) : Option (OperationStatus × Store K) :=
  match r.operation with
  | .read =>
      (internalRead L s ctx r.key).map fun (status, _) => (.ofInternal status, s)
  | .upsert =>
      (internalUpsert L s ctx r.key r.input).map fun (status, s) => (.ofInternal status, s)
  | .rmw =>
      match internalRmw L s ctx r.key r.input with
      | some (status, s) => some (.ofInternal status, s)
      | none => (rmwOnDisk L s ctx r.key).map fun s => (.recordOnDisk, s)
  | .delete =>
      (internalDelete L s ctx r.key r.input).map fun (status, s) => (.ofInternal status, s)

/-- The address that the search for the key has come to. -/
def Request.address (s : Store K) : Option Nat :=
  match r.operation with
  | .read =>
      match findEntry (L.tag r.key) (s.buckets (L.idx r.key)) with
      | none => none
      | some entry => (findRecord s r.key entry.address).map Prod.fst
  | _ => (locate L s r.key).map fun l => l.address

def PendingContext.goAsync (p : PendingContext) (ctx : Context) (address : Option Nat)
    (status : OperationStatus) : PendingContext :=
  match status, address with
  | .cprShiftDetected, some a | .retryLater, some a | .recordOnDisk, some a =>
      ⟨ctx.phase, ctx.version, a⟩
  | _, _ => p

def System.handleOperationStatus (x : System K) (status : OperationStatus) : System K :=
  let b := L.idx r.key
  match status with
  | .retryNow => { x with stage := .retrying }
  | .retryLater =>
      if x.thread.phase = .prepare then
        match tryLockOld x.store b with
        | none => { x with stage := .pivoting }
        | some s => { x with store := s, stage := .queued }
      else { x with stage := .queued }
  | .recordOnDisk =>
      if x.thread.phase = .prepare then
        match tryLockOld x.store b with
        | none => { x with stage := .pivoting }
        | some s =>
            { x with store := s, owner := x.thread, stage := .reading x.pending.address }
      else { x with owner := x.thread, stage := .reading x.pending.address }
  | .successUnmark => { x with store := unlockOld x.store b, stage := .done .ok }
  | .notFoundUnmark => { x with store := unlockOld x.store b, stage := .done .notFound }
  | .cprShiftDetected => { x with stage := .pivoting }
  -- no case: "not reached"
  | .success | .notFound => { x with stage := .done .corruption }

def System.execute (x : System K) (operation : Operation) (ctx : Context) :
    Option (OperationStatus × System K) :=
  (r.perform L x.store ctx).map fun (status, s) =>
    (status, { x with
      store := s
      pending := x.pending.goAsync ctx (r.address L x.store) status
      executed := ⟨operation, x.store, s⟩ :: x.executed })

def System.stray (x : System K) (operation : Operation) : System K :=
  { x with
    stage := .undefined
    executed := ⟨operation, x.store, x.store⟩ :: x.executed }

/-- `Read`, `Upsert`, `Rmw` and `Delete`. -/
def System.begin (x : System K) : Option (System K) :=
  (x.execute L r r.operation x.thread).map fun (status, y) =>
    match status, r.operation with
    | .success, _ => { y with stage := .done .ok }
    | .notFound, .read => { y with stage := .done .notFound }
    | status, _ => { y with owner := y.thread }.handleOperationStatus L r status

def System.retryNow (x : System K) : Option (System K) :=
  match retryNowOperation r.operation.type with
  | none => none
  | some operation =>
      if operation = r.operation then
        (x.execute L r operation x.thread).map fun (status, y) =>
          if status = .success then { y with stage := .done .ok }
          else y.handleOperationStatus L r status
      else some (x.stray operation)

/-- `CompleteRetryRequests`, where an `Rmw` runs in the phase and the version that
it has kept. -/
def System.completeRetry (x : System K) : Option (System K) :=
  match retryRequestOperation r.operation.type with
  | none => some { x with stage := .thrown }
  | some operation =>
      if operation = r.operation then
        match operation with
        | .rmw =>
            (x.execute L r operation ⟨x.pending.phase, x.pending.version⟩).map
              fun (status, y) =>
                if status = .success then
                  if y.pending.version = y.thread.version then { y with stage := .done .ok }
                  else y.handleOperationStatus L r .successUnmark
                else y.handleOperationStatus L r status
        | _ =>
            (x.execute L r operation x.thread).map fun (status, y) =>
              if status = .success then { y with stage := .done .ok }
              else y.handleOperationStatus L r status
      else some (x.stray operation)

/-- `InternalContinuePendingRead`. -/
def System.continueRead (x : System K) (address : Nat) : OperationStatus :=
  if x.store.beginAddress ≤ address then
    if x.thread.version > x.owner.version then .successUnmark else .success
  else if x.thread.version > x.owner.version then .notFoundUnmark else .notFound

/-- `CompleteIoPendingRequests`; `continued` is what `InternalContinuePendingRmw`
returns. -/
def System.completeIo (x : System K) (address : Nat) (continued : OperationStatus) :
    Option (System K) :=
  match r.operation.type with
  | .read =>
      match x.continueRead address with
      | .success => some { x with stage := .done .ok }
      | .notFound => some { x with stage := .done .notFound }
      | status => some (x.handleOperationStatus L r status)
  | .rmw =>
      match continued with
      | .success => some { x with stage := .done .ok }
      | .successUnmark | .retryNow => some (x.handleOperationStatus L r continued)
      | _ => none
  | _ => none

/-- A read completes, and `AsyncGetFromDiskCallback` looks at the record. -/
def System.readDisk (x : System K) (address : Nat) : Option (System K) :=
  (x.store.log address).map fun record =>
    if r.key = record.key then { x with stage := .responded address }
    else if x.store.beginAddress ≤ record.previousAddress then
      { x with stage := .reading record.previousAddress }
    else { x with stage := .responded record.previousAddress }

inductive Move (K : Type) where
  | run (continued : OperationStatus)
  /-- Another thread accesses the store. -/
  | other (a : Access K)
  /-- `Refresh`, which the thread calls when the request waits, and in
  `PivotAndRetry`. -/
  | refresh (ctx : Context)

def Stage.mayRefresh : Stage → Bool
  | .retrying => false
  | _ => true

def System.next (x : System K) : Move K → Option (System K)
  | .run continued =>
      match x.stage with
      | .starting => x.begin L r
      | .retrying => x.retryNow L r
      | .pivoting =>
          some { x with
            pending := { x.pending with
              phase := x.thread.phase
              version := x.thread.version }
            owner := x.thread
            stage := .retrying }
      | .queued => x.completeRetry L r
      | .reading address => x.readDisk r address
      | .responded address => x.completeIo L r address continued
      | .done _ | .thrown | .undefined => none
  | .other a => (access L x.store a).map fun s => { x with store := s }
  | .refresh ctx => if x.stage.mayRefresh then some { x with thread := ctx } else none

end Steps

section Shift

/-- A thread in phase `PREPARE` meets a record of the next version, which another
thread has created for key 2, and goes on in phase `IN_PROGRESS`. -/
def shiftMoves : List (Move Nat) :=
  [.other (.findOrCreateEntry 2), .other (.create ⟨2, 10, 2, kInvalidAddress, false⟩),
    .other (.exchange 0 0 64), .run .success, .refresh ⟨.inProgress, 2⟩, .run .success,
    .run .success]

end Shift

end HashComp.Requests
