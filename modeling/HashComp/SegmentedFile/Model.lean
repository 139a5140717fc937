import HashComp.Library.Runs
import HashComp.SegmentedFile.Bundle
import Mathlib.Data.BitVec

/-!
`FileSystemSegmentedFile`: requests at offsets of the log go to the files of its segments.
A bundle that was replaced lives on until its callback runs, which may be at any later
time.
-/

namespace HashComp.SegmentedFile

open HashComp.Runs

/-- What `BumpCurrentEpoch` is to call: the callbacks of `OpenSegment` and of
`TruncateSegments`. -/
inductive Callback where
  | free (files : Bundle)
  | truncate (files : Bundle) (newBeginSegment : Nat) (callerCallback : Bool)

def Callback.bundle : Callback → Bundle
  | free files => files
  | truncate files _ _ => files

inductive Status where
  | ok
  | ioError
  deriving DecidableEq

inductive Kind where
  | read
  | write
  deriving DecidableEq

inductive Outcome where
  | served (handle : Handle) (offset : Nat)
  | ioError
  deriving DecidableEq

/-- A call of `ReadAsync` or of `WriteAsync` that returned, with the segment up to which
others were truncated by then and the files that were closed. -/
structure Answer where
  kind : Kind
  offset : BitVec 64
  length : BitVec 32
  outcome : Outcome
  truncatedBelow : Nat
  closed : List Handle
  deriving DecidableEq

/-- The file, the callbacks that are pending, all files opened, closed and deleted so far,
the offsets that were reported to callers of `Truncate`, and the answers.  The segments
below `truncatedBelow` were truncated.  There is a fault once a bundle was used that is not
there or has no such segment. -/
structure File where
  beginSegment : Nat
  files : Option Bundle
  pending : List Callback
  opened : List Handle
  closed : List Handle
  deleted : List Handle
  reported : List Nat
  answers : List Answer
  truncatedBelow : Nat
  fault : Bool

def File.start : File where
  beginSegment := 0
  files := none
  pending := []
  opened := []
  closed := []
  deleted := []
  reported := []
  answers := []
  truncatedBelow := 0
  fault := false

/-- The operations of a file with segments of `size` bytes.  There is `none` at a fault. -/
structure Setting where
  sizes : Sizes
  size : Nat

namespace File

variable (c : Setting) (s : File)

def openSegment (segment : Nat) : Option (File × Status) :=
  if segment < s.beginSegment then some (s, .ioError)
  else
    match s.files with
    | none =>
        match Bundle.create c.sizes segment ((segment + 1) % 2 ^ 64) s.opened with
        | none => none
        | some (newFiles, opened) => some ({ s with files := some newFiles, opened := opened }, .ok)
    | some files =>
        if files.exists segment then some (s, .ok)
        else
          match files.takeOver c.sizes (min files.beginSegment segment)
              (max files.endSegment ((segment + 1) % 2 ^ 64)) s.opened with
          | none => none
          | some (newFiles, other, opened) =>
              some ({ s with
                files := some newFiles
                opened := opened
                pending := s.pending ++ [.free other] }, .ok)

def fileOf (segment : Nat) : Option Handle :=
  match s.files with
  | none => none
  | some files => if files.exists segment then files.slots segment else none

def hasSegment (segment : Nat) : Bool :=
  match s.files with
  | none => false
  | some files => files.exists segment

def serve (segment : Nat) (offset : BitVec 64) : Option (File × Outcome) :=
  match s.fileOf segment with
  | none => none
  | some handle => some (s, .served handle (offset.toNat % c.size))

/-- What `ReadAsync` and `WriteAsync` do up to the call of the file. -/
def request (offset : BitVec 64) : Option (File × Outcome) :=
  let segment := offset.toNat / c.size
  if s.hasSegment segment then s.serve c segment offset
  else
    match s.openSegment c segment with
    | none => none
    | some (s', .ioError) => some (s', .ioError)
    | some (s', .ok) => s'.serve c segment offset

def truncateSegments (newBeginSegment : Nat) (callerCallback : Bool) : Option File :=
  match s.files with
  | none => none
  | some files =>
      if newBeginSegment ≤ files.beginSegment then
        some { s with
          reported := if callerCallback then s.reported ++ [files.beginSegment * c.size]
            else s.reported }
      else
        match files.takeOver c.sizes newBeginSegment files.endSegment s.opened with
        | none => none
        | some (newFiles, other, opened) =>
            some { s with
              files := some newFiles
              opened := opened
              pending := s.pending ++ [.truncate other newBeginSegment callerCallback] }

def truncate (newBeginOffset : BitVec 64) (callback : Bool) : Option File :=
  let newBeginSegment := newBeginOffset.toNat / c.size
  truncateSegments c { s with
    beginSegment := newBeginSegment
    truncatedBelow := max s.truncatedBelow newBeginSegment } newBeginSegment callback

def runCallback (i : Nat) : Callback → Option File
  | .free _ => some { s with pending := s.pending.eraseIdx i }
  | .truncate files newBeginSegment callerCallback =>
      match files.discardFiles files.beginSegment (newBeginSegment - files.beginSegment) s.closed
          s.deleted with
      | none => none
      | some (closed, deleted) =>
          some { s with
            pending := s.pending.eraseIdx i
            closed := closed
            deleted := deleted
            reported := if callerCallback then s.reported ++ [newBeginSegment * c.size]
              else s.reported }

end File

inductive Action where
  | request (kind : Kind) (offset : BitVec 64) (length : BitVec 32)
  | truncate (newBeginOffset : BitVec 64) (callback : Bool)
  | run (i : Nat)
  deriving DecidableEq

def File.orFault (s : File) : Option File → File
  | none => { s with fault := true }
  | some s' => s'

/-- A call, or a callback that is pending. -/
def File.next (c : Setting) (s : File) : Action → Option File
  | .request kind offset length =>
      some (s.orFault ((s.request c offset).map fun r =>
        { r.1 with answers := r.1.answers ++
          [⟨kind, offset, length, r.2, r.1.truncatedBelow, r.1.closed⟩] }))
  | .truncate newBeginOffset callback => some (s.orFault (s.truncate c newBeginOffset callback))
  | .run i =>
      match s.pending[i]? with
      | none => none
      | some callback => some (s.orFault (s.runCallback c i callback))

def File.live (s : File) : List Bundle :=
  s.files.toList ++ s.pending.map Callback.bundle

def File.span (s : File) (segment : Nat) : Nat :=
  match s.files with
  | none => 1
  | some files => max files.endSegment (segment + 1) - min files.beginSegment segment

/-- A segment is truncated only when there is a bundle, no less far than before, and no
further than its last segment.  The number of a segment to be opened and the size of a
bundle that reaches to it fit into 64 bits. -/
def File.Orderly (c : Setting) (s : File) : Action → Prop
  | .request _ offset _ =>
      s.beginSegment ≤ offset.toNat / c.size → offset.toNat / c.size + 1 < 2 ^ 64 ∧
        c.sizes.bundle + s.span (offset.toNat / c.size) * c.sizes.file < 2 ^ 64
  | .truncate newBeginOffset _ =>
      match s.files with
      | none => False
      | some files => s.beginSegment ≤ newBeginOffset.toNat / c.size ∧
          newBeginOffset.toNat / c.size ≤ files.endSegment
  | .run _ => True

instance (c : Setting) (s : File) : (a : Action) → Decidable (s.Orderly c a)
  | .request _ _ _ => inferInstanceAs (Decidable (_ → _))
  | .truncate newBeginOffset _ =>
      match h : s.files with
      | none => .isFalse fun hok => by simp [File.Orderly, h] at hok
      | some files =>
          decidable_of_iff (s.beginSegment ≤ newBeginOffset.toNat / c.size ∧
            newBeginOffset.toNat / c.size ≤ files.endSegment) (by simp [File.Orderly, h])
  | .run _ => .isTrue trivial

def Answer.Right (c : Setting) (a : Answer) (opened : List Handle) : Prop :=
  match a.outcome with
  | .served handle offset =>
      handle.segment = a.offset.toNat / c.size ∧ offset = a.offset.toNat % c.size ∧
        a.truncatedBelow ≤ handle.segment ∧ handle ∈ opened ∧ handle ∉ a.closed
  | .ioError => a.offset.toNat / c.size < a.truncatedBelow

def File.Owns (s : File) (place : Nat × Nat) (handle : Handle) : Prop :=
  ∃ b, s.live[place.1]? = some b ∧ b.slots place.2 = some handle

/-- No bundle was misused, requests were routed to their segments, the open files have one
owner each, and the truncated segments were closed and deleted once, when no callback is
left to do so. -/
structure File.Routed (c : Setting) (s : File) : Prop where
  fault : s.fault = false
  answers : ∀ a ∈ s.answers, a.Right c s.opened
  owned : ∀ h ∈ s.opened, h ∉ s.closed → ∃! place, s.Owns place h
  deleted : s.deleted = s.closed
  once : (s.closed.map Handle.segment).Nodup
  truncated : ∀ h ∈ s.closed, h ∈ s.opened ∧ h.segment < s.truncatedBelow
  complete : s.pending = [] → ∀ h ∈ s.opened, h.segment < s.truncatedBelow → h ∈ s.closed

end HashComp.SegmentedFile
