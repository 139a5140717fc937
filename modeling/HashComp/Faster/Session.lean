import HashComp.Faster.Model

namespace HashComp.Faster

/-- A request in `retry_requests`, with the phase and the version that
`go_async` has kept. -/
structure PendingRmw (K : Type) where
  key : K
  incr : BitVec 64
  context : Context

structure Session (K : Type) where
  store : Store K
  context : Context
  retryRequests : List (PendingRmw K)

inductive Op (K : Type) where
  | read (key : K)
  | upsert (key : K) (input : BitVec 64)
  | rmw (key : K) (incr : BitVec 64)
  /-- `input` is what memory happens to hold in the context of the call. -/
  | delete (key : K) (input : BitVec 64)
  | completePending
  | shiftReadOnly (address : Nat)
  | shiftSafeReadOnly (address : Nat)

/-- What a call returns.  `value` is `Ok` with the value that was passed to the
context, and `completed` lists the requests that `CompletePending` has called
back before it returned `done`. -/
inductive Result (K : Type) where
  | ok
  | value (v : BitVec 64)
  | notFound
  | pending
  | completed (requests : List (K × BitVec 64)) (done : Bool)
  | shifted
  deriving DecidableEq

section Session

variable {K : Type} [DecidableEq K] (L : Layout K)

def Store.new : Store K where
  buckets := fun _ => List.replicate kNumEntries none
  log := fun _ => none
  tailAddress := kCacheLineBytes
  readOnlyAddress := kCacheLineBytes
  safeReadOnlyAddress := kCacheLineBytes
  headAddress := kCacheLineBytes
  beginAddress := kCacheLineBytes
  locks := fun _ => ⟨0, 0⟩

/-- The session of a thread that has started in phase `REST`. -/
def Session.new : Session K where
  store := Store.new
  context := ⟨.rest, 1⟩
  retryRequests := []

/-- `CompleteRetryRequests` on the requests that were there when it started: the
requests it has completed, those it has pushed back, and the store. -/
def completeRetryRequests (s : Store K) :
    List (PendingRmw K) → Option (List (K × BitVec 64) × List (PendingRmw K) × Store K)
  | [] => some ([], [], s)
  | r :: rest =>
      match internalRmw L s r.context r.key r.incr with
      | some (.success, s) =>
          (completeRetryRequests s rest).map fun (completed, requests, s) =>
            ((r.key, r.incr) :: completed, requests, s)
      | some (.retryLater, s) =>
          (completeRetryRequests s rest).map fun (completed, requests, s) =>
            (completed, r :: requests, s)
      | _ => none

/-- `Read`, `Upsert`, `Rmw`, `Delete` and `CompletePending`, and the moves of the
log's boundaries, each of which goes up and stays below the next. -/
def Session.call (x : Session K) : Op K → Option (Result K × Session K)
  | .read key =>
      match internalRead L x.store x.context key with
      | some (.success, some v) => some (.value v, x)
      | some (.notFound, _) => some (.notFound, x)
      | _ => none
  | .upsert key input =>
      match internalUpsert L x.store x.context key input with
      | some (.success, s) => some (.ok, { x with store := s })
      | _ => none
  | .rmw key incr =>
      match internalRmw L x.store x.context key incr with
      | some (.success, s) => some (.ok, { x with store := s })
      | some (.retryLater, s) =>
          some (.pending, { x with
            store := s
            retryRequests := x.retryRequests ++ [⟨key, incr, x.context⟩] })
      | _ => none
  | .delete key input =>
      match internalDelete L x.store x.context key input with
      | some (.success, s) => some (.ok, { x with store := s })
      | _ => none
  | .completePending =>
      (completeRetryRequests L x.store x.retryRequests).map fun (completed, requests, s) =>
        (.completed completed requests.isEmpty, { x with store := s, retryRequests := requests })
  | .shiftReadOnly address =>
      if x.store.readOnlyAddress ≤ address ∧ address ≤ x.store.tailAddress then
        some (.shifted, { x with store := { x.store with readOnlyAddress := address } })
      else some (.shifted, x)
  | .shiftSafeReadOnly address =>
      if x.store.safeReadOnlyAddress ≤ address ∧ address ≤ x.store.readOnlyAddress then
        some (.shifted, { x with store := { x.store with safeReadOnlyAddress := address } })
      else some (.shifted, x)

/-- Calls made one after the other. -/
def Session.calls (x : Session K) : List (Op K) → Option (List (Result K) × Session K)
  | [] => some ([], x)
  | op :: ops =>
      match x.call L op with
      | none => none
      | some (r, y) =>
          match Session.calls y ops with
          | none => none
          | some (rs, z) => some (r :: rs, z)

end Session

end HashComp.Faster
