import Mathlib.Data.List.Basic
import Mathlib.Logic.Function.Basic

/-!
The reads that an operation leaves behind when its record is on disk: from
`IssueAsyncIoRequest` over the callbacks of the disk to the user's callback.  A
read may fail when it is submitted, and when it is done; one that is `Ok` brings
all the bytes that were asked for.  What `InternalContinuePendingRmw` and
`InternalRmw` make of a record depends on what other threads do, and is left open.
The throttling of `AsyncGetFromDisk`, which delays a read, is left out.
-/

namespace HashComp.Reads

inductive Status where
  | ok
  | pending
  | notFound
  | outOfMemory
  | ioError
  | corruption
  | aborted
  deriving DecidableEq

/-- The sizes and alignments of `key_t` and `value_t`, and the sector size of the
disk. -/
structure Format where
  sizeofKey : Nat
  alignofKey : Nat
  sizeofValue : Nat
  alignofValue : Nat
  sectorSize : Nat
  sectorSize_pos : 0 < sectorSize

def padAlignment (size alignment : Nat) : Nat :=
  (size + (alignment - 1)) / alignment * alignment

def sizeofRecordInfo : Nat := 8

structure DiskRecord (K : Type) where
  key : K
  keySize : Nat
  valueSize : Nat
  previousAddress : Nat

namespace Format

variable {K : Type} (f : Format)

def minDiskKeySize : Nat :=
  f.sizeofKey + padAlignment sizeofRecordInfo f.alignofKey

def valueOffset (record : DiskRecord K) : Nat :=
  padAlignment (record.keySize + padAlignment sizeofRecordInfo f.alignofKey) f.alignofValue

def minDiskValueSize (record : DiskRecord K) : Nat :=
  f.sizeofValue + f.valueOffset record

def diskSize (record : DiskRecord K) : Nat :=
  record.valueSize + f.valueOffset record

def minIoRequestSize : Nat :=
  f.sizeofValue + padAlignment f.minDiskKeySize f.alignofValue

/-- `GetFileReadBoundaries` and the `available_bytes` of `AsyncGetFromDisk`: the
read begins and ends at sector boundaries. -/
def availableBytes (address numRecords : Nat) : Nat :=
  let beginRead := address / f.sectorSize * f.sectorSize
  let endRead := (address + numRecords + (f.sectorSize - 1)) / f.sectorSize * f.sectorSize
  endRead - beginRead - address % f.sectorSize

end Format

structure Device (K : Type) where
  beginAddress : Nat
  record : Nat → Option (DiskRecord K)
  links : ∀ a r, record a = some r → r.previousAddress < a ∧
    (beginAddress ≤ r.previousAddress → (record r.previousAddress).isSome)

inductive OperationType where
  | read
  | rmw
  deriving DecidableEq

/-- The context that an operation was called in, and its number there. -/
structure Request (K : Type) where
  context : Nat
  number : Nat
  type : OperationType
  key : K

/-- `owner` is the execution context that `thread_io_responses` belongs to. -/
structure AsyncIOContext (K : Type) where
  owner : Nat
  ioId : Nat
  address : Nat
  request : Request K

structure Read (K : Type) where
  io : AsyncIOContext K
  availableBytes : Nat

structure ExecutionContext (K : Type) where
  pendingIos : List Nat
  ioResponses : List (AsyncIOContext K)
  retryRequests : List (Request K)

/-- The last four fields record what has happened and are read by no step, except
that requests are numbered.  `results` has what `ReadAsync` has returned and what
the disk has delivered. -/
structure System (K : Type) where
  contexts : Nat → ExecutionContext K
  ioId : Nat → Nat
  inFlight : List (Read K)
  numRequests : Nat → Nat
  results : List (AsyncIOContext K × Status)
  pushed : List (AsyncIOContext K)
  calledBack : List (Request K × Status)

section Callback

variable {K : Type} [DecidableEq K] (f : Format) (d : Device K)

inductive Outcome (K : Type) where
  | again (io : AsyncIOContext K) (numRecords : Nat)
  | push (io : AsyncIOContext K)
  | nothing

def asyncGetFromDiskCallback (read : Read K) (result : Status) : Option (Outcome K) :=
  let io := read.io
  if result = .ok then
    match d.record io.address with
    | none => none
    | some record =>
        if read.availableBytes < f.minDiskKeySize then some (.again io f.minDiskKeySize)
        else if read.availableBytes < f.minDiskValueSize record then
          some (.again io (f.minDiskValueSize record))
        else if read.availableBytes < f.diskSize record then
          some (.again io (f.diskSize record))
        else if io.request.key = record.key then some (.push io)
        else
          let io := { io with address := record.previousAddress }
          if d.beginAddress ≤ io.address then some (.again io f.minIoRequestSize)
          else some (.push io)
  else some .nothing

end Callback

section Steps

variable {K : Type} [DecidableEq K] (f : Format) (d : Device K) (numContexts : Nat)

def System.start : System K where
  contexts := fun _ => ⟨[], [], []⟩
  ioId := fun _ => 0
  inFlight := []
  numRequests := fun _ => 0
  results := []
  pushed := []
  calledBack := []

/-- `AsyncGetFromDisk`.  What `ReadAsync` returns is dropped. -/
def System.read (x : System K) (io : AsyncIOContext K) (numRecords : Nat) (submitted : Status) :
    System K :=
  { x with
    inFlight :=
      if submitted = .ok then x.inFlight ++ [⟨io, f.availableBytes io.address numRecords⟩]
      else x.inFlight
    results := (io, submitted) :: x.results }

def System.issue (x : System K) (c : Nat) (request : Request K) (address : Nat)
    (submitted : Status) : System K :=
  let ctx := x.contexts c
  { x with
    contexts := Function.update x.contexts c { ctx with pendingIos := x.ioId c :: ctx.pendingIos }
    ioId := Function.update x.ioId c (x.ioId c + 1) }.read f ⟨c, x.ioId c, address, request⟩
      f.minIoRequestSize submitted

def System.respond (x : System K) (io : AsyncIOContext K) : System K :=
  let ctx := x.contexts io.owner
  { x with
    contexts :=
      Function.update x.contexts io.owner { ctx with ioResponses := ctx.ioResponses ++ [io] }
    pushed := io :: x.pushed }

def System.deliver (x : System K) (i : Nat) (result submitted : Status) : Option (System K) :=
  match x.inFlight[i]? with
  | none => none
  | some read =>
      let x := { x with
        inFlight := x.inFlight.eraseIdx i
        results := (read.io, result) :: x.results }
      (asyncGetFromDiskCallback f d read result).map fun outcome =>
        match outcome with
        | .again io numRecords => x.read f io numRecords submitted
        | .push io => x.respond io
        | .nothing => x

def System.callBack (x : System K) (request : Request K) (status : Status) : System K :=
  { x with calledBack := (request, status) :: x.calledBack }

def System.retryLater (x : System K) (c : Nat) (request : Request K) : System K :=
  let ctx := x.contexts c
  { x with
    contexts :=
      Function.update x.contexts c { ctx with retryRequests := ctx.retryRequests ++ [request] } }

/-- How an `Rmw` ends when it is continued or retried, after any number of
`RETRY_NOW`.  The context that it goes into need not be the one that it was taken
from: `IssueAsyncIoRequest` and `PivotAndRetry` use the thread's own. -/
inductive Continued where
  | success
  | recordOnDisk (into address : Nat) (submitted : Status)
  | retryLater (into : Nat)

def System.continueRmw (x : System K) (request : Request K) : Continued → Option (System K)
  | .success => some (x.callBack request .ok)
  | .recordOnDisk into address submitted =>
      if into < numContexts ∧ d.beginAddress ≤ address ∧ (d.record address).isSome then
        some (x.issue f into request address submitted)
      else none
  | .retryLater into => if into < numContexts then some (x.retryLater into request) else none

def System.completeIo (x : System K) (c : Nat) (continued : Continued) : Option (System K) :=
  let ctx := x.contexts c
  match ctx.ioResponses with
  | [] => none
  | io :: responses =>
      let x := { x with
        contexts := Function.update x.contexts c { ctx with
          pendingIos := ctx.pendingIos.erase io.ioId
          ioResponses := responses } }
      match io.request.type, continued with
      | .read, .success =>
          -- `InternalContinuePendingRead`
          some (x.callBack io.request (if d.beginAddress ≤ io.address then .ok else .notFound))
      | .read, _ => none
      | .rmw, continued => x.continueRmw f d numContexts io.request continued

def System.completeRetry (x : System K) (c : Nat) (continued : Continued) : Option (System K) :=
  let ctx := x.contexts c
  match ctx.retryRequests with
  | [] => none
  | request :: requests =>
      let x := { x with
        contexts := Function.update x.contexts c { ctx with retryRequests := requests } }
      x.continueRmw f d numContexts request continued

inductive Move (K : Type) where
  /-- A `Read` or an `Rmw` finds that the record at the address is on disk. -/
  | goPending (c : Nat) (type : OperationType) (key : K) (address : Nat) (submitted : Status)
  | deliver (i : Nat) (result submitted : Status)
  | completeIo (c : Nat) (continued : Continued)
  | completeRetry (c : Nat) (continued : Continued)

def System.next (x : System K) : Move K → Option (System K)
  | .goPending c type key address submitted =>
      if c < numContexts ∧ d.beginAddress ≤ address ∧ (d.record address).isSome then
        some ({ x with numRequests := Function.update x.numRequests c (x.numRequests c + 1) }.issue f
          c ⟨c, x.numRequests c, type, key⟩ address submitted)
      else none
  | .deliver i result submitted => x.deliver f d i result submitted
  | .completeIo c continued =>
      if c < numContexts then x.completeIo f d numContexts c continued else none
  | .completeRetry c continued =>
      if c < numContexts then x.completeRetry f d numContexts c continued else none

/-- The condition on which `CompletePending(true)` and `StopSession` leave their
loops, in phase `REST`. -/
def System.Done (x : System K) (c : Nat) : Prop :=
  (x.contexts c).pendingIos = [] ∧ (x.contexts c).retryRequests = []

end Steps

end HashComp.Reads
