import HashComp.Library.RecordChain
import Mathlib.Algebra.Group.Nat.Defs

/-!
`FasterKv` as one thread sees it: the hash buckets, the log in memory, and the
operations of `faster.h` with the contexts of `kvcontext.h`.  What lies on disk
is left out, so that `head_address` never moves.  An operation that reads an
address without a record, or needs another thread to lose an exchange, has no
outcome.
-/

namespace HashComp.Faster

open HashComp.RecordChain

inductive Phase where
  | prepIndexChkpt
  | indexChkpt
  | prepare
  | inProgress
  | waitPending
  | waitFlush
  | rest
  | persistenceCallback
  | gcIoPending
  | gcInProgress
  | growPrepare
  | growInProgress
  | invalid
  deriving DecidableEq

inductive OperationStatus where
  | success
  | notFound
  | retryNow
  | retryLater
  | recordOnDisk
  | cprShiftDetected
  deriving DecidableEq

def kInvalidAddress : Nat := 1

/-- `Constants::kCacheLineBytes`, the size of the invalid page and hence the
address of the first record. -/
def kCacheLineBytes : Nat := 64

def kPageSize : Nat := 2 ^ 25

def recordSize : Nat := 24

def kNumEntries : Nat := 7

structure HashBucketEntry where
  address : Nat
  tag : BitVec 14
  tentative : Bool
  deriving DecidableEq

/-- A record with the fields of its header. -/
structure Record (K : Type) where
  key : K
  value : BitVec 64
  checkpointVersion : Nat
  previousAddress : Nat
  invalid : Bool

abbrev Bucket := List (Option HashBucketEntry)

structure CheckpointLock where
  oldLockCount : Nat
  newLockCount : Nat

structure Store (K : Type) where
  buckets : Nat → Bucket
  log : Nat → Option (Record K)
  tailAddress : Nat
  readOnlyAddress : Nat
  safeReadOnlyAddress : Nat
  headAddress : Nat
  beginAddress : Nat
  locks : Nat → CheckpointLock

/-- The hash of the keys and the size of the table. -/
structure Layout (K : Type) where
  getHash : K → BitVec 64
  tableSize : Nat

namespace Layout

variable {K : Type} (L : Layout K)

def idx (key : K) : Nat :=
  ((L.getHash key).setWidth 48).toNat &&& (L.tableSize - 1)

def tag (key : K) : BitVec 14 :=
  (L.getHash key >>> 48).setWidth 14

end Layout

/-- All keys share one entry. -/
def oneEntry : Layout Nat where
  getHash := fun _ => 0
  tableSize := 1

section Buckets

def findEntry (tag : BitVec 14) : Bucket → Option HashBucketEntry
  | [] => none
  | none :: bucket => findEntry tag bucket
  | some entry :: bucket =>
      if tag = entry.tag ∧ entry.tentative = false then some entry else findEntry tag bucket

/-- What `FindTentativeEntry` returns: a matching entry, a free slot, or the
first slot of a new overflow bucket. -/
inductive Candidate where
  | found (slot : Nat) (entry : HashBucketEntry)
  | free (slot : Nat)
  | overflow (slot : Nat)

/-- `FindTentativeEntry` from slot `i` on; `atomicEntry` is the first free slot
before it. -/
def findTentativeEntry (tag : BitVec 14) : Nat → Option Nat → Bucket → Candidate
  | i, none, [] => .overflow i
  | _, some slot, [] => .free slot
  | i, atomicEntry, none :: bucket =>
      findTentativeEntry tag (i + 1) (atomicEntry <|> some i) bucket
  | i, atomicEntry, some entry :: bucket =>
      if tag = entry.tag ∧ entry.tentative = false then .found i entry
      else findTentativeEntry tag (i + 1) atomicEntry bucket

def hasConflictingEntry (tag : BitVec 14) (atomicEntry : Nat) : Nat → Bucket → Bool
  | _, [] => false
  | i, none :: bucket => hasConflictingEntry tag atomicEntry (i + 1) bucket
  | i, some entry :: bucket =>
      if entry.tag = tag ∧ atomicEntry ≠ i then true
      else hasConflictingEntry tag atomicEntry (i + 1) bucket

def installEntry (tag : BitVec 14) (i : Nat) (bucket : Bucket) :
    Option (Nat × HashBucketEntry × Bucket) :=
  if bucket[i]? = some none then
    let tentative := bucket.set i (some ⟨kInvalidAddress, tag, true⟩)
    -- the back-off of a thread that runs alone would never end
    if hasConflictingEntry tag i 0 tentative then none
    else
      let expectedEntry := ⟨kInvalidAddress, tag, false⟩
      some (i, expectedEntry, tentative.set i (some expectedEntry))
  else none

def findOrCreateEntry (tag : BitVec 14) (bucket : Bucket) :
    Option (Nat × HashBucketEntry × Bucket) :=
  match findTentativeEntry tag 0 none bucket with
  | .found slot entry => some (slot, entry, bucket)
  | .free slot => installEntry tag slot bucket
  | .overflow slot => installEntry tag slot (bucket ++ List.replicate kNumEntries none)

end Buckets

section Log

variable {K : Type} [DecidableEq K] (s : Store K)

def traceBackForKeyMatch (key : K) (minOffset : Nat) : Nat → Nat → Option Nat
  | 0, _ => none
  | fuel + 1, fromAddress =>
      if minOffset ≤ fromAddress then
        match s.log fromAddress with
        | none => none
        | some record =>
            if key = record.key then some fromAddress
            else traceBackForKeyMatch key minOffset fuel record.previousAddress
      else some fromAddress

/-- The address of the most recent record of the key, and
`latest_record_version`.  Links go to lower addresses, so that as many links as
the first address says are enough. -/
def findRecord (key : K) (address : Nat) : Option (Nat × Nat) :=
  if s.headAddress ≤ address then
    match s.log address with
    | none => none
    | some record =>
        if key = record.key then some (address, record.checkpointVersion)
        else
          (traceBackForKeyMatch s key s.headAddress (address + 1) record.previousAddress).map
            fun found => (found, record.checkpointVersion)
  else some (address, 0)

def blockAllocate : Nat :=
  if s.tailAddress % kPageSize + recordSize ≤ kPageSize then s.tailAddress
  else (s.tailAddress / kPageSize + 1) * kPageSize

def constructRecord (newAddress : Nat) (record : Record K) : Store K :=
  { s with
    log := Function.update s.log newAddress (some record)
    tailAddress := newAddress + recordSize }

def setValue (address : Nat) (value : BitVec 64) : Option (Store K) :=
  (s.log address).map fun record =>
    { s with log := Function.update s.log address (some { record with value := value }) }

def putAtomic (address : Nat) (input : BitVec 64) : Option (Store K) :=
  setValue s address input

def rmwAtomic (address : Nat) (incr : BitVec 64) : Option (Store K) :=
  match s.log address with
  | none => none
  | some record => setValue s address (record.value + incr)

def setBucket (i : Nat) (bucket : Bucket) : Store K :=
  { s with buckets := Function.update s.buckets i bucket }

def compareExchange (i slot : Nat) (expected updated : HashBucketEntry) : Option (Store K) :=
  if (s.buckets i)[slot]? = some (some expected) then
    some (setBucket s i ((s.buckets i).set slot (some updated)))
  else none

end Log

section Phases

inductive Acquired where
  | proceed
  | createRecord
  | status (s : OperationStatus)
  deriving DecidableEq

/-- "Acquire necessary locks" of `InternalUpsert`, `InternalRmw` and
`InternalDelete`.  The guard releases what it has locked when the operation
returns. -/
def acquire (phase : Phase) (version latestRecordVersion : Nat) (lock : CheckpointLock) :
    Acquired :=
  match phase with
  | .prepare =>
      if lock.newLockCount ≠ 0 then .status .cprShiftDetected
      else if latestRecordVersion > version then .status .cprShiftDetected
      else .proceed
  | .inProgress =>
      if latestRecordVersion < version then
        if lock.oldLockCount ≠ 0 then .status .retryLater else .createRecord
      else .proceed
  | .waitPending =>
      if latestRecordVersion < version then
        if lock.oldLockCount > 0 then .status .retryLater else .createRecord
      else .proceed
  | .waitFlush => if latestRecordVersion < version then .createRecord else .proceed
  | _ => .proceed

/-- The phase and the version of an execution context. -/
structure Context where
  phase : Phase
  version : Nat

end Phases

section Operations

variable {K : Type} [DecidableEq K] (L : Layout K) (s : Store K) (ctx : Context)

structure Located (K : Type) where
  slot : Nat
  expected : HashBucketEntry
  address : Nat
  latestRecordVersion : Nat
  store : Store K

/-- The first part of `InternalUpsert`, `InternalRmw` and `InternalDelete`. -/
def locate (key : K) : Option (Located K) := do
  let (slot, expected, bucket) ← findOrCreateEntry (L.tag key) (s.buckets (L.idx key))
  let s := setBucket s (L.idx key) bucket
  let (address, latestRecordVersion) ← findRecord s key expected.address
  return ⟨slot, expected, address, latestRecordVersion, s⟩

def newRecord (key : K) (value : BitVec 64) (expected : HashBucketEntry) : Record K :=
  { key := key
    value := value
    checkpointVersion := ctx.version % 2 ^ 13
    previousAddress := expected.address
    invalid := false }

def createRecord (key : K) (value : BitVec 64) (slot : Nat) (expected : HashBucketEntry) :
    Option (OperationStatus × Store K) :=
  let newAddress := blockAllocate s
  let s := constructRecord s newAddress (newRecord ctx key value expected)
  (compareExchange s (L.idx key) slot expected ⟨newAddress, L.tag key, false⟩).map
    fun s => (.success, s)

/-- `InternalRead`, with the value that is passed to `Get` or `GetAtomic`. -/
def internalRead (key : K) : Option (OperationStatus × Option (BitVec 64)) :=
  match findEntry (L.tag key) (s.buckets (L.idx key)) with
  | none => some (.notFound, none)
  | some entry =>
      match findRecord s key entry.address with
      | none => none
      | some (address, latestRecordVersion) =>
          if ctx.phase = .prepare ∧ latestRecordVersion > ctx.version then
            some (.cprShiftDetected, none)
          else if s.safeReadOnlyAddress ≤ address then
            (s.log address).map fun record => (.success, some record.value)
          else if s.headAddress ≤ address then
            (s.log address).map fun record => (.success, some record.value)
          else if s.beginAddress ≤ address then some (.recordOnDisk, none)
          else some (.notFound, none)

def internalUpsert (key : K) (input : BitVec 64) : Option (OperationStatus × Store K) := do
  let l ← locate L s key
  let s := l.store
  if ctx.phase = .rest ∧ s.readOnlyAddress ≤ l.address then
    return (.success, ← putAtomic s l.address input)
  else
    match acquire ctx.phase ctx.version l.latestRecordVersion (s.locks (L.idx key)) with
    | .status status => return (status, s)
    | .createRecord => createRecord L s ctx key input l.slot l.expected
    | .proceed =>
        if s.readOnlyAddress ≤ l.address then
          if (s.buckets (L.idx key))[l.slot]? ≠ some (some l.expected) then
            return (.retryNow, s)
          else return (.success, ← putAtomic s l.address input)
        else createRecord L s ctx key input l.slot l.expected

def rmwCreateRecord (key : K) (incr : BitVec 64) (l : Located K) :
    Option (OperationStatus × Store K) :=
  let s := l.store
  if l.address < s.beginAddress then createRecord L s ctx key incr l.slot l.expected
  else if s.headAddress ≤ l.address then
    match s.log l.address with
    | none => none
    | some oldRecord =>
        createRecord L s ctx key (oldRecord.value + incr) l.slot l.expected
  else none

/-- `InternalRmw`, with the phase and the version that a retried request has
kept. -/
def internalRmw (key : K) (incr : BitVec 64) : Option (OperationStatus × Store K) := do
  let l ← locate L s key
  let s := l.store
  if ctx.phase = .rest ∧ s.readOnlyAddress ≤ l.address then
    return (.success, ← rmwAtomic s l.address incr)
  else
    match acquire ctx.phase ctx.version l.latestRecordVersion (s.locks (L.idx key)) with
    | .status status => return (status, s)
    | .createRecord => rmwCreateRecord L ctx key incr l
    | .proceed =>
        if s.readOnlyAddress ≤ l.address then
          if (s.buckets (L.idx key))[l.slot]? ≠ some (some l.expected) then
            return (.retryNow, s)
          else return (.success, ← rmwAtomic s l.address incr)
        else if s.safeReadOnlyAddress ≤ l.address then return (.retryLater, s)
        else if s.headAddress ≤ l.address then rmwCreateRecord L ctx key incr l
        else if s.beginAddress ≤ l.address then return (.recordOnDisk, s)
        else rmwCreateRecord L ctx key incr l

/-- `InternalDelete`.  The new record gets the `input_` of `DeleteContext`, which
nothing has initialised. -/
def internalDelete (key : K) (input : BitVec 64) : Option (OperationStatus × Store K) := do
  let l ← locate L s key
  let s := l.store
  match acquire ctx.phase ctx.version l.latestRecordVersion (s.locks (L.idx key)) with
  | .status status => return (status, s)
  | .createRecord => createRecord L s ctx key input l.slot l.expected
  | .proceed =>
      if s.readOnlyAddress ≤ l.address then
        match (s.buckets (L.idx key))[l.slot]? with
        | some (some entry) =>
            if entry.address = l.address then
              return (.success,
                setBucket s (L.idx key) ((s.buckets (L.idx key)).set l.slot none))
            else return (.success, s)
        | _ => return (.success, s)
      else createRecord L s ctx key input l.slot l.expected

end Operations

end HashComp.Faster
