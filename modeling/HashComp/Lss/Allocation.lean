import HashComp.Library.ByteMemory
import HashComp.Lss.Model

namespace HashComp.Lss

open HashComp.ByteMemory
open HashComp.Records

/-- `aligned_alloc` for a segment: the n-th call, while the segments of the list are in use.
It may fail, and does not return memory in use. -/
structure AlignedAlloc where
  run : Nat → List Nat → Option Nat
  aligned : ∀ n live a, run n live = some a → kCacheLineSize ∣ a
  bounded : ∀ n live a, run n live = some a → a + sizeofSegmentAllocator ≤ 2 ^ 64
  apart : ∀ n live a, run n live = some a →
    ∀ b ∈ live, Apart a sizeofSegmentAllocator b sizeofSegmentAllocator

structure Block where
  segment : Nat
  start : Nat
  request : Request

/-- The allocators of the threads, the words of the segments by their addresses, the
segments in use, the memory, the calls of `aligned_alloc`, and the blocks returned. -/
structure LssAllocator where
  threads : Nat → ThreadAllocator
  control : Nat → BitVec 64
  live : List Nat
  memory : Memory
  calls : Nat
  blocks : List Block

def LssAllocator.start (memory : Memory) : LssAllocator where
  threads := fun _ => .fresh
  control := fun _ => 0
  live := []
  memory := memory
  calls := 0
  blocks := []

def Request.userOffset (address : BitVec 64) : Request → BitVec 32
  | allocate _ => 0
  | allocateAligned _ alignment =>
      (padAlignment (address + sizeofHeader) (alignment.setWidth 64) - address -
        sizeofHeader).setWidth 32

def headerBytes (offset : BitVec 32) : List Byte :=
  [offset.setWidth 8, (offset >>> 8).setWidth 8]

def headerOffset (m : Memory) (header : Nat) : BitVec 16 :=
  m (header + 1) ++ m header

/-- The address at which `LssAllocator::Free` takes the segment of a block to be. -/
def freeTarget (m : Memory) (bytes : Nat) : Nat :=
  let block := bytes - sizeofHeader.toNat
  let offset := (headerOffset m block).setWidth 32 + kBufferOffset
  block - offset.toNat

inductive Attempt where
  | returned (s : LssAllocator) (pointer : Option Nat)
  | again (s : LssAllocator)

namespace LssAllocator

variable (m : AlignedAlloc) (u : Nat) (r : Request)

/-- `Allocate` and `AllocateAligned` with the thread's segment at `segment`. -/
def place (s : LssAllocator) (segment : Nat) : Attempt :=
  let reserved := (s.threads u).reserve r.blockSize
  if reserved.2.segmentOffset ≤ kSegmentSize then
    let buffer := segment + kBufferOffset.toNat
    let fill := r.userOffset (BitVec.ofNat 64 (buffer + reserved.1.toNat))
    let offset := reserved.1 + fill
    let header := buffer + offset.toNat
    let start := header + sizeofHeader.toNat
    .returned { s with
      threads := Function.update s.threads u reserved.2
      memory := writeBytes s.memory header (headerBytes offset)
      blocks := ⟨segment, start, r⟩ :: s.blocks } (some start)
  else
    let word := sealSegment (s.control segment) reserved.2.allocations
    .again { s with
      threads := Function.update s.threads u .fresh
      control := Function.update s.control segment word.1
      live := if word.2 then s.live.erase segment else s.live }

def attempt (s : LssAllocator) : Attempt :=
  match (s.threads u).segmentAllocator with
  | some segment => s.place u r segment
  | none =>
      match m.run s.calls s.live with
      | none => .returned { s with calls := s.calls + 1 } none
      | some segment =>
          place u r { s with
            threads := Function.update s.threads u
              { s.threads u with segmentAllocator := some segment }
            control := Function.update s.control segment (SegmentState.control ⟨0, 0⟩)
            live := segment :: s.live
            calls := s.calls + 1 } segment

/-- A call that calls itself no more than `fuel` times. -/
def call : Nat → LssAllocator → Option (LssAllocator × Option Nat)
  | 0, _ => none
  | fuel + 1, s =>
      match s.attempt m u r with
      | .returned s' pointer => some (s', pointer)
      | .again s' => call fuel s'

/-- The caller writes a byte of the n-th last block. -/
def store (s : LssAllocator) (n i : Nat) (byte : Byte) : LssAllocator :=
  match s.blocks[n]? with
  | none => s
  | some b =>
      if i < b.request.size.toNat then
        { s with memory := writeBytes s.memory (b.start + i) [byte] }
      else s

end LssAllocator

inductive Event where
  | request (u : Nat) (r : Request)
  | store (n i : Nat) (byte : Byte)

/-- The calls one after the other, each within `fuel`. -/
def LssAllocator.run (m : AlignedAlloc) (fuel : Nat) :
    LssAllocator → List Event → Option LssAllocator
  | s, [] => some s
  | s, .request u r :: events =>
      match s.call m u r fuel with
      | none => none
      | some (s', _) => LssAllocator.run m fuel s' events
  | s, .store n i byte :: events => LssAllocator.run m fuel (s.store n i byte) events

/-- The block with its header is within the buffer of its segment, it is aligned, and
`Free` finds the segment. -/
structure Block.Usable (b : Block) (m : Memory) : Prop where
  aligned : b.request.alignment.toNat ∣ b.start
  header : b.segment + kBufferOffset.toNat + sizeofHeader.toNat ≤ b.start
  inside : b.start + b.request.size.toNat ≤ b.segment + kBufferOffset.toNat + kSegmentSize.toNat
  found : freeTarget m b.start = b.segment

def Block.Disjoint (b b' : Block) : Prop :=
  Apart (b.start - sizeofHeader.toNat) (sizeofHeader.toNat + b.request.size.toNat)
    (b'.start - sizeofHeader.toNat) (sizeofHeader.toNat + b'.request.size.toNat)

/-- All calls return, and the blocks that they return are usable and disjoint. -/
def Serves (m : AlignedAlloc) (memory : Memory) (events : List Event) : Prop :=
  ∃ fuel s, LssAllocator.run m fuel (.start memory) events = some s ∧
    (∀ b ∈ s.blocks, b.Usable s.memory) ∧ s.blocks.Pairwise Block.Disjoint

end HashComp.Lss
