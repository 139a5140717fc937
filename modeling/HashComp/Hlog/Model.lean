import HashComp.Faster.Model
import HashComp.Library.Runs

/-!
`PersistentMemoryMalloc`: the tail that moves from page to page, the addresses
that follow it, and the circular buffer whose pages are written to the log,
closed, cleared and used again.  An address is the number of its byte.  Each
access to a shared variable is a step of its own.  A thread drains actions and
completes writes in frames of their own, in the middle of any operation.  A record
is in its page when the thread to which `Allocate` has returned the address has
written it, which it does before it refreshes.
-/

namespace HashComp.Hlog

open HashComp.Faster

inductive FlushStatus where
  | flushed
  | inProgress
  deriving DecidableEq

inductive CloseStatus where
  | closed
  | isOpen
  deriving DecidableEq

structure FlushCloseStatus where
  flush : FlushStatus
  close : CloseStatus
  deriving DecidableEq

def FlushCloseStatus.Ready (status : FlushCloseStatus) : Prop :=
  status.flush = .flushed ∧ status.close = .isOpen

instance (status : FlushCloseStatus) : Decidable status.Ready :=
  inferInstanceAs (Decidable (_ ∧ _))

def kNumHeadPages : Nat := 4

structure Config where
  bufferSize : Nat
  numMutablePages : Nat
  /-- The thread ids, each with its entry of the epoch table. -/
  numThreads : Nat
  /-- A frame of its own for each thread, then those of its callbacks. -/
  numFrames : Nat
  bufferSize_gt : kNumHeadPages + 1 < bufferSize
  numMutablePages_gt : 1 < numMutablePages
  numThreads_pos : 0 < numThreads
  numThreads_le : numThreads ≤ numFrames

/-- A write of a page, of which the bytes below `untilAddress` are wanted. -/
structure Write where
  page : Nat
  untilAddress : Nat
  deriving DecidableEq

inductive Callback where
  | onPagesClosed (newSafeHeadAddress : Nat)
  | onPagesMarkedReadOnly (newSafeReadOnlyAddress : Nat)
  deriving DecidableEq

structure EpochAction where
  epoch : Nat
  callback : Callback
  deriving DecidableEq

inductive Pc where
  | idle
  /-- `Allocate` has returned this address, which `BlockAllocate` compares with
  `read_only_address` before a record is written there. -/
  | holding (address : Nat)
  | recording (address : Nat)
  /-- `Allocate` has closed this page, or `NewPage` has returned `false` for it. -/
  | full (oldPage : Nat)
  /-- `NewPage`: the loads of `safe_head_address`, of the status of the next page
  and of the tail, the exchange, the two shifts, and `AllocatePage`. -/
  | checking (oldPage : Nat)
  | testing (oldPage : Nat)
  | moving (oldPage : Nat)
  | exchanging (oldPage expectedOffset : Nat)
  | shiftingReadOnly (tailPage : Nat) (wonCas : Bool)
  | bumpingReadOnly (desired tailPage : Nat) (wonCas : Bool)
  | shiftingHead (tailPage : Nat) (wonCas : Bool)
  | updatingHead (desired tailPage : Nat) (wonCas : Bool)
  | bumpingHead (desired tailPage : Nat) (wonCas : Bool)
  | allocating (page : Nat)
  /-- `ShiftReadOnlyToTail` with the tail that it has loaded. -/
  | updatingToTail (tailAddress : Nat)
  | bumpingToTail (tailAddress : Nat)
  /-- `OnPagesMarkedReadOnly`, and `AsyncFlushPages` at a page. -/
  | markingReadOnly (newSafeReadOnlyAddress : Nat)
  | flushing (flushPage stop untilAddress : Nat)
  | resetting (flushPage stop untilAddress : Nat)
  | issuing (flushPage stop untilAddress : Nat)
  /-- `OnPagesClosed`, at a page. -/
  | movingSafeHead (newSafeHeadAddress : Nat)
  | closing (idx stop : Nat)
  | clearing (idx stop : Nat)
  | reopening (idx stop : Nat)
  /-- The callback of a write. -/
  | storing (page untilAddress : Nat)
  | settling (page : Nat)
  | wiping (page : Nat)
  | opening (page : Nat)
  /-- `ShiftFlushedUntilAddress`, its loop since it began at the page `start`, and
  its `MonotonicUpdate`. -/
  | loading
  | walking (start page current : Nat) (update : Bool)
  | publishing (current : Nat)
  deriving DecidableEq

/-- The allocator and the threads.  `allocated`, `status`, `lastFlushed` and
`records` are about the pages of the buffer; `records` has the addresses that were
written since the page was cleared.  `issued` are the writes that the disk has not
completed, and `completed`, which no step reads, those that it has. -/
structure System where
  tailPage : Nat
  tailOffset : Nat
  readOnlyAddress : Nat
  safeReadOnlyAddress : Nat
  headAddress : Nat
  safeHeadAddress : Nat
  flushedUntilAddress : Nat
  allocated : Nat → Bool
  status : Nat → FlushCloseStatus
  lastFlushed : Nat → Nat
  records : Nat → List Nat
  issued : List Write
  completed : List Write
  currentEpoch : Nat
  localEpoch : Nat → Nat
  actions : List EpochAction
  pc : Nat → Pc

inductive Move where
  | allocate (t numSlots : Nat)
  | newPage (t : Nat)
  | shiftReadOnlyToTail (t : Nat)
  /-- `ProtectAndDrain`, without the actions that it runs. -/
  | refresh (t : Nat)
  | unprotect (t : Nat)
  /-- A frame begins the action with this index. -/
  | drain (t i : Nat)
  /-- The disk has completed the write with this index, and a frame begins its
  callback. -/
  | complete (t i : Nat)
  | run (t : Nat)
  deriving DecidableEq

def pageOf (address : Nat) : Nat := address / kPageSize

def pageStart (page : Nat) : Nat := page * kPageSize

variable (c : Config)

def Config.slot (page : Nat) : Nat := page % c.bufferSize

def Config.thread (frame : Nat) : Nat := frame % c.numThreads

/-- The state that the constructor leaves, with the invalid page allocated. -/
def System.start : System where
  tailPage := 0
  tailOffset := kCacheLineBytes
  readOnlyAddress := kCacheLineBytes
  safeReadOnlyAddress := kCacheLineBytes
  headAddress := kCacheLineBytes
  safeHeadAddress := kCacheLineBytes
  flushedUntilAddress := 0
  allocated := fun b => decide (b < 2)
  status := fun b => if b < 2 then ⟨.flushed, .isOpen⟩ else ⟨.flushed, .closed⟩
  lastFlushed := fun _ => 0
  records := fun _ => []
  issued := []
  completed := []
  currentEpoch := 1
  localEpoch := fun _ => 0
  actions := []
  pc := fun _ => .idle

def System.construct (startAddress : Nat) : System where
  tailPage := pageOf startAddress
  tailOffset := startAddress % kPageSize
  readOnlyAddress := startAddress
  safeReadOnlyAddress := startAddress
  headAddress := startAddress
  safeHeadAddress := startAddress
  flushedUntilAddress := startAddress
  allocated := fun b => decide (b = c.slot (pageOf startAddress) ∨
    b = c.slot (pageOf startAddress + 1))
  status := fun b =>
    if b = c.slot (pageOf startAddress) ∨ b = c.slot (pageOf startAddress + 1) then
      ⟨.flushed, .isOpen⟩
    else ⟨.flushed, .closed⟩
  lastFlushed := fun _ => 0
  records := fun _ => []
  issued := []
  completed := []
  currentEpoch := 1
  localEpoch := fun _ => 0
  actions := []
  pc := fun _ => .idle

namespace System

variable (x : System)

def goto (t : Nat) (pc : Pc) : System :=
  { x with pc := Function.update x.pc t pc }

def setStatus (page : Nat) (status : FlushCloseStatus) : System :=
  { x with status := Function.update x.status (c.slot page) status }

def setLastFlushed (page address : Nat) : System :=
  { x with lastFlushed := Function.update x.lastFlushed (c.slot page) address }

def setRecords (page : Nat) (records : List Nat) : System :=
  { x with records := Function.update x.records (c.slot page) records }

def bump (callback : Callback) : System :=
  { x with
    currentEpoch := x.currentEpoch + 1
    actions := x.actions ++ [⟨x.currentEpoch, callback⟩] }

def issue (write : Write) : System :=
  { x with issued := x.issued ++ [write] }

def allocatePage (page : Nat) : System :=
  { x with
    allocated := Function.update x.allocated (c.slot page) true
    status := Function.update x.status (c.slot page) ⟨.flushed, .isOpen⟩
    records := Function.update x.records (c.slot page) [] }

/-- The entries are read from the second on: that of thread id 0 is not. -/
def SafeToReclaim (epoch : Nat) : Prop :=
  ∀ t < c.numThreads, t ≠ 0 → x.localEpoch t = 0 ∨ epoch < x.localEpoch t

instance (epoch : Nat) : Decidable (x.SafeToReclaim c epoch) :=
  inferInstanceAs (Decidable (∀ t < c.numThreads, _ → _ ∨ _))

def Inside (t : Nat) : Prop :=
  t < c.numFrames ∧ x.localEpoch (c.thread t) ≠ 0

instance (t : Nat) : Decidable (x.Inside c t) :=
  inferInstanceAs (Decidable (_ ∧ _))

/-- No callback of the thread is under way. -/
def Alone (t : Nat) : Prop :=
  ∀ u < c.numFrames, c.thread u = t → u ≠ t → x.pc u = .idle

instance (t : Nat) : Decidable (x.Alone c t) :=
  inferInstanceAs (Decidable (∀ u < c.numFrames, _ → _ → _))

end System

/-- What follows the shifts in `NewPage`.  It returns `false` to the thread that has won
the exchange as well, since its expected value is still that of the old page. -/
def afterShifts (tailPage : Nat) (wonCas : Bool) : Pc :=
  if wonCas then .allocating (tailPage + 1) else .full (tailPage - 1)

def flushStop (untilAddress : Nat) : Nat :=
  if 0 < untilAddress % kPageSize then pageOf untilAddress + 1 else pageOf untilAddress

def desiredHead (tailPage flushedUntil : Nat) : Nat :=
  if flushedUntil < pageStart (tailPage - (c.bufferSize - kNumHeadPages)) then
    pageStart (pageOf flushedUntil)
  else pageStart (tailPage - (c.bufferSize - kNumHeadPages))

def Callback.start : Callback → Pc
  | .onPagesClosed newSafeHeadAddress => .movingSafeHead newSafeHeadAddress
  | .onPagesMarkedReadOnly newSafeReadOnlyAddress => .markingReadOnly newSafeReadOnlyAddress

def System.step (x : System) (t : Nat) : Option System :=
  match x.pc t with
  | .idle | .full _ => none
  | .holding address =>
      if address < x.readOnlyAddress then some (x.goto t .idle)
      else some (x.goto t (.recording address))
  | .recording address =>
      some ((x.setRecords c (pageOf address)
        (address :: x.records (c.slot (pageOf address)))).goto t .idle)
  | .checking oldPage =>
      if pageOf x.safeHeadAddress + c.bufferSize ≤ oldPage + 2 then
        some (x.goto t (.shiftingReadOnly (oldPage + 1) false))
      else some (x.goto t (.testing oldPage))
  | .testing oldPage =>
      if (x.status (c.slot (oldPage + 1))).Ready then some (x.goto t (.moving oldPage))
      else some (x.goto t (.shiftingReadOnly (oldPage + 1) false))
  | .moving oldPage =>
      if x.tailPage = oldPage then some (x.goto t (.exchanging oldPage x.tailOffset))
      else some (x.goto t .idle)
  | .exchanging oldPage expectedOffset =>
      if x.tailPage = oldPage ∧ x.tailOffset = expectedOffset then
        some ({ x with tailPage := oldPage + 1, tailOffset := 0 }.goto t
          (.shiftingReadOnly (oldPage + 1) true))
      else if oldPage < x.tailPage then some (x.goto t .idle)
      else some (x.goto t (.full oldPage))
  | .shiftingReadOnly tailPage wonCas =>
      if tailPage ≤ c.numMutablePages then some (x.goto t (.shiftingHead tailPage wonCas))
      else
        let desired := pageStart (tailPage - c.numMutablePages)
        if x.readOnlyAddress < desired then
          some ({ x with readOnlyAddress := desired }.goto t
            (.bumpingReadOnly desired tailPage wonCas))
        else some (x.goto t (.shiftingHead tailPage wonCas))
  | .bumpingReadOnly desired tailPage wonCas =>
      some ((x.bump (.onPagesMarkedReadOnly desired)).goto t (.shiftingHead tailPage wonCas))
  | .shiftingHead tailPage wonCas =>
      if tailPage ≤ c.bufferSize - kNumHeadPages then
        some (x.goto t (afterShifts tailPage wonCas))
      else
        some (x.goto t
          (.updatingHead (desiredHead c tailPage x.flushedUntilAddress) tailPage wonCas))
  | .updatingHead desired tailPage wonCas =>
      if x.headAddress < desired then
        some ({ x with headAddress := desired }.goto t (.bumpingHead desired tailPage wonCas))
      else some (x.goto t (afterShifts tailPage wonCas))
  | .bumpingHead desired tailPage wonCas =>
      some ((x.bump (.onPagesClosed desired)).goto t (afterShifts tailPage wonCas))
  | .allocating page =>
      if x.allocated (c.slot page) then some (x.goto t (.full (page - 2)))
      else some ((x.allocatePage c page).goto t (.full (page - 2)))
  | .updatingToTail tailAddress =>
      if x.readOnlyAddress < tailAddress then
        some ({ x with readOnlyAddress := tailAddress }.goto t (.bumpingToTail tailAddress))
      else some (x.goto t .idle)
  | .bumpingToTail tailAddress =>
      some ((x.bump (.onPagesMarkedReadOnly tailAddress)).goto t .idle)
  | .markingReadOnly newAddress =>
      if x.safeReadOnlyAddress < newAddress then
        some ({ x with safeReadOnlyAddress := newAddress }.goto t
          (.flushing (pageOf x.safeReadOnlyAddress) (flushStop newAddress) newAddress))
      else some (x.goto t .idle)
  | .flushing flushPage stop untilAddress =>
      if flushPage < stop then
        some ((x.setStatus c flushPage
          ⟨.inProgress, (x.status (c.slot flushPage)).close⟩).goto t
            (.resetting flushPage stop untilAddress))
      else some (x.goto t .idle)
  | .resetting flushPage stop untilAddress =>
      some ((x.setLastFlushed c flushPage 0).goto t (.issuing flushPage stop untilAddress))
  | .issuing flushPage stop untilAddress =>
      some ((x.issue ⟨flushPage, min (pageStart (flushPage + 1)) untilAddress⟩).goto t
        (.flushing (flushPage + 1) stop untilAddress))
  | .movingSafeHead newAddress =>
      if x.safeHeadAddress < newAddress then
        some ({ x with safeHeadAddress := newAddress }.goto t
          (.closing (pageOf x.safeHeadAddress) (pageOf newAddress)))
      else some (x.goto t .idle)
  | .closing idx stop =>
      if idx < stop then
        let y := x.setStatus c idx ⟨(x.status (c.slot idx)).flush, .closed⟩
        if (x.status (c.slot idx)).flush = .flushed then some (y.goto t (.clearing idx stop))
        else some (y.goto t (.closing (idx + 1) stop))
      else some (x.goto t .idle)
  | .clearing idx stop => some ((x.setRecords c idx []).goto t (.reopening idx stop))
  | .reopening idx stop =>
      some ((x.setStatus c idx ⟨.flushed, .isOpen⟩).goto t (.closing (idx + 1) stop))
  | .storing page untilAddress =>
      some ((x.setLastFlushed c page untilAddress).goto t (.settling page))
  | .settling page =>
      let y := x.setStatus c page ⟨.flushed, (x.status (c.slot page)).close⟩
      if (x.status (c.slot page)).close = .closed then some (y.goto t (.wiping page))
      else some (y.goto t .loading)
  | .wiping page => some ((x.setRecords c page []).goto t (.opening page))
  | .opening page => some ((x.setStatus c page ⟨.flushed, .isOpen⟩).goto t .loading)
  | .loading =>
      some (x.goto t (.walking (pageOf x.flushedUntilAddress) (pageOf x.flushedUntilAddress)
        x.flushedUntilAddress false))
  | .walking start page current update =>
      if current ≤ x.lastFlushed (c.slot page) then
        some (x.goto t (.walking start (page + 1) (x.lastFlushed (c.slot page)) true))
      else if update then some (x.goto t (.publishing current))
      else some (x.goto t .idle)
  | .publishing current =>
      some ({ x with flushedUntilAddress := max x.flushedUntilAddress current }.goto t .idle)

def System.next (x : System) : Move → Option System
  | .allocate t numSlots =>
      if t < c.numThreads ∧ x.pc t = .idle ∧ x.localEpoch t ≠ 0 ∧ 0 < numSlots ∧
          numSlots < kPageSize then
        let y := { x with tailOffset := x.tailOffset + numSlots }
        if kPageSize < x.tailOffset + numSlots then some (y.goto t (.full x.tailPage))
        else some (y.goto t (.holding (pageStart x.tailPage + x.tailOffset)))
      else none
  | .newPage t =>
      match x.pc t with
      | .full oldPage => some (x.goto t (.checking oldPage))
      | _ => none
  | .shiftReadOnlyToTail t =>
      if x.Inside c t ∧ x.pc t = .idle then
        some (x.goto t
          (.updatingToTail (pageStart x.tailPage + min (kPageSize - 1) x.tailOffset)))
      else none
  | .refresh t =>
      match x.pc t with
      | .idle | .full _ =>
          if t < c.numThreads ∧ x.Alone c t then
            some { x with localEpoch := Function.update x.localEpoch t x.currentEpoch }
          else none
      | _ => none
  | .unprotect t =>
      if t < c.numThreads ∧ x.pc t = .idle ∧ x.Alone c t then
        some { x with localEpoch := Function.update x.localEpoch t 0 }
      else none
  | .drain t i =>
      match x.actions[i]? with
      | some action =>
          if x.Inside c t ∧ x.pc t = .idle ∧ x.SafeToReclaim c action.epoch then
            some ({ x with actions := x.actions.eraseIdx i }.goto t action.callback.start)
          else none
      | none => none
  | .complete t i =>
      match x.issued[i]? with
      | some write =>
          if x.Inside c t ∧ x.pc t = .idle then
            some ({ x with
              issued := x.issued.eraseIdx i
              completed := write :: x.completed }.goto t (.storing write.page write.untilAddress))
          else none
      | none => none
  | .run t => x.step c t

end HashComp.Hlog
