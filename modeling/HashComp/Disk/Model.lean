import HashComp.Faster.Effects
import HashComp.Faster.Session

/-!
`Upsert` and `Rmw` of any number of threads on a `FasterKv` in phase `REST` whose
records leave memory, one access to shared memory at a time.  A record that is
below the head address is on disk, as it was written, and a log entry stands for
both.  The search of a chain reads keys and links that never change and is one
step, and so are `FindOrCreateEntry`, whose own steps are in `Index`, and the
construction of a record that no entry leads to yet.

A thread between two loads has not refreshed, so that the safe read-only address
does not pass the read-only address that it has seen, and no page is closed that
is not below the head address that it has seen.  The epochs do not wait so for
thread id 0.
-/

namespace HashComp.Disk

open HashComp.Faster

inductive Request (K : Type) where
  | upsert (key : K) (input : BitVec 64)
  | rmw (key : K) (incr : BitVec 64)
  deriving DecidableEq

def Request.key {K : Type} : Request K → K
  | .upsert key _ | .rmw key _ => key

structure PendingContext (K : Type) where
  key : K
  incr : BitVec 64
  address : Nat
  entry : HashBucketEntry

/-- `thread_io_responses` has got the context when it is `responded`, and
`record` is what the last read has brought. -/
structure AsyncIOContext (K : Type) where
  callerContext : PendingContext K
  address : Nat
  record : Option (Record K)
  responded : Bool

inductive Job (K : Type) where
  | call (op : Request K)
  | continuing (io : AsyncIOContext K)

inductive Pc where
  | idle
  /-- `InternalUpsert` and `InternalRmw`: `FindOrCreateEntry`, the loads of the
  three boundaries, and then the search of the chain. -/
  | finding
  | loadingHead (slot : Nat) (expected : HashBucketEntry)
  | loadingReadOnly (slot : Nat) (expected : HashBucketEntry) (headAddress : Nat)
  | loadingSafe (slot : Nat) (expected : HashBucketEntry) (headAddress readOnlyAddress : Nat)
  | updating (address : Nat)
  | creating (slot : Nat) (expected : HashBucketEntry) (address : Nat)
  | filling (slot : Nat) (expected : HashBucketEntry) (address newAddress : Nat)
  | publishing (slot : Nat) (expected : HashBucketEntry) (newAddress : Nat)
  /-- `InternalContinuePendingRmw`: `FindOrCreateEntry`, the search of the chain,
  `BlockAllocate` with the copy, and the exchange. -/
  | resuming
  | rechecking (slot : Nat) (expected : HashBucketEntry)
  | appending (slot : Nat) (expected : HashBucketEntry) (address : Nat)
  | swapping (slot : Nat) (expected : HashBucketEntry) (address newAddress : Nat)
  deriving DecidableEq

structure System (K : Type) where
  store : Store K
  /-- The pages below have been closed, and their buffers are used for others. -/
  safeHeadAddress : Nat
  pc : Nat → Pc
  job : Nat → Option (Job K)
  /-- The `AsyncIOContext`s of a thread, and its `retry_requests`. -/
  ios : Nat → List (AsyncIOContext K)
  retryRequests : Nat → List (K × BitVec 64)

section Steps

variable {K : Type} [DecidableEq K] (L : Layout K) (numThreads : Nat)

/-- A new store and no thread inside a call. -/
def System.start : System K where
  store := Store.new
  safeHeadAddress := kCacheLineBytes
  pc := fun _ => .idle
  job := fun _ => none
  ios := fun _ => []
  retryRequests := fun _ => []

def System.goto (x : System K) (t : Nat) (store : Store K) (pc : Pc) : System K :=
  { x with
    store := store
    pc := Function.update x.pc t pc }

def System.take (x : System K) (t : Nat) (job : Job K) (pc : Pc) : System K :=
  { x with
    pc := Function.update x.pc t pc
    job := Function.update x.job t (some job) }

/-- The thread is through with its job. -/
def System.finish (x : System K) (t : Nat) (store : Store K) : System K :=
  { x with
    store := store
    pc := Function.update x.pc t .idle
    job := Function.update x.job t none }

/-- `IssueAsyncIoRequest`. -/
def System.issue (x : System K) (t : Nat) (store : Store K) (context : PendingContext K) :
    System K :=
  { x.finish t store with
    ios := Function.update x.ios t (x.ios t ++ [⟨context, context.address, none, false⟩]) }

def System.retryLater (x : System K) (t : Nat) (key : K) (incr : BitVec 64) : System K :=
  { x.finish t x.store with
    retryRequests := Function.update x.retryRequests t (x.retryRequests t ++ [(key, incr)]) }

/-- `TraceBackForKeyMatch` from the entry on, with a head address that has been
loaded before. -/
def search (s : Store K) (key : K) (headAddress address : Nat) : Option Nat :=
  traceBackForKeyMatch s key headAddress (address + 1) address

def invalidate (s : Store K) (address : Nat) : Store K :=
  { s with
    log := Function.update s.log address
      ((s.log address).map fun record => { record with invalid := true }) }

/-- `BlockAllocate`, and the header and the key of the new record. -/
def allocate (s : Store K) (key : K) (value : BitVec 64) (expected : HashBucketEntry) :
    Store K :=
  constructRecord s (blockAllocate s)
    { key := key
      value := value
      checkpointVersion := 1
      previousAddress := expected.address
      invalid := false }

def System.decide (x : System K) (t : Nat) (slot : Nat) (expected : HashBucketEntry)
    (headAddress readOnlyAddress address : Nat) : Request K → System K
  | .upsert _ _ =>
      if readOnlyAddress ≤ address then x.goto t x.store (.updating address)
      else x.goto t x.store (.creating slot expected address)
  | .rmw key incr =>
      if readOnlyAddress ≤ address then x.goto t x.store (.updating address)
      else if x.store.safeReadOnlyAddress ≤ address then x.retryLater t key incr
      else if headAddress ≤ address then x.goto t x.store (.creating slot expected address)
      else if x.store.beginAddress ≤ address then
        x.issue t x.store ⟨key, incr, address, expected⟩
      else x.goto t x.store (.creating slot expected address)

def Request.put (op : Request K) (old : BitVec 64) : BitVec 64 :=
  match op with
  | .upsert _ input => input
  | .rmw _ incr => old + incr

/-- The value of a new record: `Put`, or `RmwInitial` and `RmwCopy`.  The old
record may be gone from memory. -/
def System.fill (x : System K) (t : Nat) (slot : Nat) (expected : HashBucketEntry)
    (address newAddress : Nat) : Request K → Option (System K)
  | .upsert _ input =>
      (setValue x.store newAddress input).map fun s =>
        x.goto t s (.publishing slot expected newAddress)
  | .rmw key incr =>
      if address < x.store.beginAddress then
        (setValue x.store newAddress incr).map fun s =>
          x.goto t s (.publishing slot expected newAddress)
      else if x.store.headAddress ≤ address then
        match x.store.log address with
        | none => none
        | some oldRecord =>
            (setValue x.store newAddress (oldRecord.value + incr)).map fun s =>
              x.goto t s (.publishing slot expected newAddress)
      else
        some (x.issue t (invalidate x.store newAddress) ⟨key, incr, address, expected⟩)

/-- The value of the record that `InternalContinuePendingRmw` creates. -/
def AsyncIOContext.value (io : AsyncIOContext K) (beginAddress : Nat) : Option (BitVec 64) :=
  if io.address < beginAddress then some io.callerContext.incr
  else io.record.map fun diskRecord => diskRecord.value + io.callerContext.incr

/-- The request that `HandleOperationStatus` runs again on `RETRY_NOW`. -/
def AsyncIOContext.request (io : AsyncIOContext K) : Request K :=
  .rmw io.callerContext.key io.callerContext.incr

def System.stepCall (x : System K) (t : Nat) (op : Request K) : Option (System K) :=
  let s := x.store
  let b := L.idx op.key
  match x.pc t with
  | .finding =>
      (findOrCreateEntry (L.tag op.key) (s.buckets b)).map fun (slot, expected, bucket) =>
        x.goto t (setBucket s b bucket) (.loadingHead slot expected)
  | .loadingHead slot expected =>
      some (x.goto t s (.loadingReadOnly slot expected s.headAddress))
  | .loadingReadOnly slot expected headAddress =>
      some (x.goto t s (.loadingSafe slot expected headAddress s.readOnlyAddress))
  | .loadingSafe slot expected headAddress readOnlyAddress =>
      -- what a search reads in the buffer of a closed page is not modelled
      if headAddress < x.safeHeadAddress then none
      else
        (search s op.key headAddress expected.address).map fun address =>
          x.decide t slot expected headAddress readOnlyAddress address op
  | .updating address =>
      match s.log address with
      | none => none
      | some record => (setValue s address (op.put record.value)).map (x.finish t)
  | .creating slot expected address =>
      some (x.goto t (allocate s op.key 0 expected)
        (.filling slot expected address (blockAllocate s)))
  | .filling slot expected address newAddress => x.fill t slot expected address newAddress op
  | .publishing slot expected newAddress =>
      if (s.buckets b)[slot]? = some (some expected) then
        some (x.finish t (replaceEntry s b slot (some ⟨newAddress, L.tag op.key, false⟩)))
      else some (x.goto t (invalidate s newAddress) .finding)
  | _ => none

def System.stepContinue (x : System K) (t : Nat) (io : AsyncIOContext K) : Option (System K) :=
  let s := x.store
  let key := io.callerContext.key
  let b := L.idx key
  match x.pc t with
  | .resuming =>
      (findOrCreateEntry (L.tag key) (s.buckets b)).map fun (slot, expected, bucket) =>
        x.goto t (setBucket s b bucket) (.rechecking slot expected)
  | .rechecking slot expected =>
      (search s key s.headAddress expected.address).map fun address =>
        if io.callerContext.entry.address < address then x.take t (.call io.request) .finding
        else x.goto t s (.appending slot expected address)
  | .appending slot expected address =>
      (io.value s.beginAddress).map fun value =>
        x.goto t (allocate s key value expected)
          (.swapping slot expected address (blockAllocate s))
  | .swapping slot expected _ newAddress =>
      if (s.buckets b)[slot]? = some (some expected) then
        some (x.finish t (replaceEntry s b slot (some ⟨newAddress, L.tag key, false⟩)))
      else
        some ({ x with store := invalidate s newAddress }.take t (.call io.request) .finding)
  | _ => none

inductive Move (K : Type) where
  | call (t : Nat) (op : Request K)
  | run (t : Nat)
  /-- `CompleteIoPendingRequests` and `CompleteRetryRequests` take a request. -/
  | completeIo (t i : Nat)
  | completeRetry (t i : Nat)
  /-- A read completes, and `AsyncGetFromDiskCallback` looks at the record. -/
  | readDisk (t i : Nat)
  | shiftReadOnly (address : Nat)
  | shiftSafeReadOnly (address : Nat)
  | shiftHead (address : Nat)
  /-- `OnPagesClosed`. -/
  | closePages (address : Nat)
  deriving DecidableEq

/-- `AsyncGetFromDiskCallback` with the whole record at the address. -/
def AsyncIOContext.read (s : Store K) (io : AsyncIOContext K) : Option (AsyncIOContext K) :=
  if io.responded then none
  else
    match s.log io.address with
    | none => none
    | some record =>
        if io.callerContext.key = record.key then
          some { io with
            record := some record
            responded := true }
        else
          some { io with
            address := record.previousAddress
            record := some record
            responded := decide (record.previousAddress < s.beginAddress) }

/-- The safe read-only address may be moved past what the thread is about to
update in place, which it found to be mutable. -/
def Pc.SafeBelow (address : Nat) : Pc → Prop
  | .loadingSafe _ _ _ readOnlyAddress => address ≤ readOnlyAddress
  | .updating found => address ≤ found
  | _ => True

instance (address : Nat) (pc : Pc) : Decidable (pc.SafeBelow address) := by
  cases pc
  case loadingSafe | updating => exact inferInstanceAs (Decidable (_ ≤ _))
  all_goals exact .isTrue trivial

/-- Pages may be closed below the head address that the thread has loaded. -/
def Pc.HeadBelow (address : Nat) : Pc → Prop
  | .loadingReadOnly _ _ headAddress | .loadingSafe _ _ headAddress _ => address ≤ headAddress
  | _ => True

instance (address : Nat) (pc : Pc) : Decidable (pc.HeadBelow address) := by
  cases pc
  case loadingReadOnly | loadingSafe => exact inferInstanceAs (Decidable (_ ≤ _))
  all_goals exact .isTrue trivial

def System.next (x : System K) : Move K → Option (System K)
  | .call t op =>
      if t < numThreads ∧ x.pc t = .idle then some (x.take t (.call op) .finding) else none
  | .run t =>
      match x.job t with
      | none => none
      | some (.call op) => x.stepCall L t op
      | some (.continuing io) => x.stepContinue L t io
  | .completeIo t i =>
      match (x.ios t)[i]? with
      | none => none
      | some io =>
          if t < numThreads ∧ x.pc t = .idle ∧ io.responded = true then
            some ({ x with
              ios := Function.update x.ios t ((x.ios t).eraseIdx i) }.take t (.continuing io)
                .resuming)
          else none
  | .completeRetry t i =>
      match (x.retryRequests t)[i]? with
      | none => none
      | some (key, incr) =>
          if t < numThreads ∧ x.pc t = .idle then
            some ({ x with
              retryRequests :=
                Function.update x.retryRequests t ((x.retryRequests t).eraseIdx i) }.take t
                (.call (.rmw key incr)) .finding)
          else none
  | .readDisk t i =>
      match (x.ios t)[i]? with
      | none => none
      | some io =>
          (io.read x.store).map fun io' =>
            { x with ios := Function.update x.ios t ((x.ios t).set i io') }
  | .shiftReadOnly address =>
      if x.store.readOnlyAddress ≤ address ∧ address ≤ x.store.tailAddress then
        some { x with store := { x.store with readOnlyAddress := address } }
      else none
  | .shiftSafeReadOnly address =>
      if x.store.safeReadOnlyAddress ≤ address ∧ address ≤ x.store.readOnlyAddress ∧
          ∀ t < numThreads, t ≠ 0 → (x.pc t).SafeBelow address then
        some { x with store := { x.store with safeReadOnlyAddress := address } }
      else none
  | .shiftHead address =>
      if x.store.headAddress ≤ address ∧ address ≤ x.store.safeReadOnlyAddress then
        some { x with store := { x.store with headAddress := address } }
      else none
  | .closePages address =>
      if x.safeHeadAddress ≤ address ∧ address ≤ x.store.headAddress ∧
          ∀ t < numThreads, t ≠ 0 → (x.pc t).HeadBelow address then
        some { x with safeHeadAddress := address }
      else none

/-- Thread id 0 is not in the middle of a call that relies on what is made read-only, or
closed. -/
def ZeroSafe (x : System K) : Move K → Prop
  | .shiftSafeReadOnly address => (x.pc 0).SafeBelow address
  | .closePages address => (x.pc 0).HeadBelow address
  | _ => True

instance decidableZeroSafe (x : System K) : (m : Move K) → Decidable (ZeroSafe x m)
  | .shiftSafeReadOnly address => inferInstanceAs (Decidable ((x.pc 0).SafeBelow address))
  | .closePages address => inferInstanceAs (Decidable ((x.pc 0).HeadBelow address))
  | .call _ _ | .run _ | .completeIo _ _ | .completeRetry _ _ | .readDisk _ _ | .shiftReadOnly _
  | .shiftHead _ => .isTrue trivial

end Steps

end HashComp.Disk
