import HashComp.Hlog.Flushed
import HashComp.Recovery.PageScan

namespace HashComp.Recovery

open HashComp.ByteMemory
open HashComp.Faster (kPageSize)
open HashComp.Hlog
open HashComp.Runs

inductive PageRecoveryStatus where
  | notStarted
  | issuedRead
  | readDone
  | issuedFlush
  | flushDone
  deriving DecidableEq

/-- What the passes are given: the buffer, `checkpoint_start_address` and `final_address`.
The first is one at which a record starts, or `GetTailAddress` has found the page full;
a range that ends with that byte of the page holds no record and is left out. -/
structure LogRange where
  config : Config
  fromAddress : Nat
  toAddress : Nat
  from_le : fromAddress ≤ toAddress
  from_spec : 8 ∣ fromAddress ∨
    fromAddress % kPageSize = kPageSize - 1 ∧ toAddress ≠ fromAddress + 1

namespace LogRange

variable (r : LogRange)

def capacity : Nat := r.config.bufferSize

def startPage : Nat := pageOf r.fromAddress

def endPage : Nat :=
  if 0 < r.toAddress % kPageSize then pageOf r.toAddress + 1 else pageOf r.toAddress

/-- Where `RecoverFromPage` begins and ends on a page. -/
def fromOffset (page : Nat) : Nat :=
  if page = r.startPage then r.fromAddress % kPageSize else 0

def toOffset (page : Nat) : Nat :=
  if page + 1 = r.endPage then r.toAddress - pageStart page else kPageSize - 1

/-- The first page that `RestoreHybridLog` reads, the page of the new head. -/
def headPage : Nat :=
  if r.endPage < r.capacity - kNumHeadPages then 0
  else r.endPage - (r.capacity - kNumHeadPages)

end LogRange

/-- A pass: the buffer, the log on disk, the status of the pages, the page that the loop of the
first pass has come to, and the hash entries. -/
structure Pass (H : Type) where
  pages : Nat → Option Memory
  log : Nat → Memory
  status : Nat → PageRecoveryStatus
  page : Nat
  entries : H → Option Nat

inductive PassStep where
  | readDone (page : Nat)
  | recoverPage
  | flushDone (page : Nat)

variable {H : Type} [DecidableEq H] (C : Classes H) (point : RecoveryPoint) (r : LogRange)

namespace Pass

variable (x : Pass H)

def setPage (page : Nat) (memory : Memory) : Pass H :=
  { x with pages := Function.update x.pages (r.config.slot page) (some memory) }

def setStatus (page : Nat) (status : PageRecoveryStatus) : Pass H :=
  { x with status := Function.update x.status page status }

/-- A turn of the loop of `AsyncReadPages`: the page is allocated or cleared, and its read
issued. -/
def issueRead (page : Nat) : Pass H :=
  (x.setPage r page fun _ => 0).setStatus page .issuedRead

def readDone (page : Nat) : Option (Pass H) :=
  if x.status page = .issuedRead then
    some ((x.setPage r page (x.log page)).setStatus page .readDone)
  else none

end Pass

/-- `AsyncReadPagesFromLog`. -/
def Pass.issueReads (x : Pass H) (page : Nat) : Nat → Pass H
  | 0 => x
  | numPages + 1 => (x.issueReads page numPages).issueRead r (page + numPages)

/-- The start of `RecoverHybridLog` with the buffer that the constructor has left. -/
def startRecovering (log : Nat → Memory) (entries : H → Option Nat) : Pass H :=
  let x : Pass H :=
    { pages := fun b => if b < 2 then some fun _ => 0 else none
      log := log
      status := fun _ => .notStarted
      page := r.startPage
      entries := entries }
  x.issueReads r r.startPage (min r.capacity (r.endPage - r.startPage))

def Pass.next (x : Pass H) : PassStep → Option (Pass H)
  | .readDone page => x.readDone r page
  | .recoverPage =>
      if x.page < r.endPage ∧ x.status x.page = .readDone then
        match x.pages (r.config.slot x.page) with
        | none => none
        | some memory =>
            let fromOffset := r.fromOffset x.page
            let toOffset := r.toOffset x.page
            (recoverFromPage C point x.page (toOffset - fromOffset + 1) fromOffset toOffset
              ⟨memory, x.entries, []⟩).map fun scan =>
                { (x.setPage r x.page scan.memory).setStatus x.page .issuedFlush with
                  page := x.page + 1
                  entries := scan.entries }
      else none
  | .flushDone page =>
      if x.status page = .issuedFlush then
        match x.pages (r.config.slot page) with
        | none => none
        | some memory =>
            let y := { x.setStatus page .flushDone with log := Function.update x.log page memory }
            if page + r.capacity < r.endPage then some (y.issueRead r (page + r.capacity))
            else some y
      else none

/-- `RecoverHybridLog` has seen all pages flushed. -/
def Pass.Recovered (x : Pass H) : Prop :=
  x.page = r.endPage ∧ ∀ p, r.startPage ≤ p → p < r.endPage → x.status p = .flushDone

/-- The start of `RestoreHybridLog`. -/
def startRestoring (x : Pass H) : Pass H :=
  { x with status := fun _ => .notStarted }.issueReads r r.headPage (r.endPage - r.headPage)

def Pass.restoreNext (x : Pass H) (page : Nat) : Option (Pass H) := x.readDone r page

def Pass.Restored (x : Pass H) : Prop :=
  ∀ p, r.headPage ≤ p → p < r.endPage → x.status p = .readDone

def Pass.allocateMissing (x : Pass H) (page : Nat) : Pass H :=
  match x.pages (r.config.slot page) with
  | none => x.setPage r page fun _ => 0
  | some _ => x

/-- `RecoveryReset`, by what it does to the buffer. -/
def recoveryReset (x : Pass H) : Pass H :=
  (x.allocateMissing r r.endPage).allocateMissing r (r.endPage + 1)

def Blank (m : Memory) : Prop :=
  ∀ i < kPageSize, m i = 0

/-- After `RecoveryReset`: the pages that `NewPage` can open before another one is closed are
blank, as far as they have a buffer, and those from the head to the tail hold what was read for
them, which is nothing for a tail page that has not been begun. -/
structure LeftClean (x : Pass H) : Prop where
  ahead : ∀ p, pageOf r.toAddress < p → p + 1 < r.headPage + r.capacity →
    ∀ m, x.pages (r.config.slot p) = some m → Blank m
  held : ∀ p, r.headPage ≤ p → p ≤ pageOf r.toAddress →
    ∃ m, x.pages (r.config.slot p) = some m ∧ if p < r.endPage then m = x.log p else Blank m

end HashComp.Recovery
