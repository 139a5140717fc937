import HashComp.BzTree.Keys
import Mathlib.Logic.Function.Basic

/-!
Nodes of the tree: the status word, the metadata of the records and the bytes of the
record area.  The metadata are kept beside the bytes, since the two areas of a node do
not meet.  Assertions that the release build leaves out are left out.
-/

namespace HashComp.BzTree

open HashComp.ByteMemory

/-- The sizes of a tree, small enough for the fields of a status word and for the
offset of a record to differ from an epoch. -/
structure ParameterSet where
  splitThreshold : Nat
  mergeThreshold : Nat
  leafNodeSize : Nat
  split_le : splitThreshold ≤ leafNodeSize
  large : 32 ≤ leafNodeSize
  small : leafNodeSize ≤ 2 ^ 19

/-- The constructor of `ParameterSet` without arguments. -/
def ParameterSet.default : ParameterSet where
  splitThreshold := 3072
  mergeThreshold := 1024
  leafNodeSize := 4096
  split_le := by decide
  large := by decide
  small := by decide

structure StatusWord where
  frozen : Bool
  recordCount : Nat
  blockSize : Nat
  deletedSize : Nat
deriving DecidableEq

namespace StatusWord

def freeze (s : StatusWord) : StatusWord :=
  { s with frozen := true }

def prepareForInsert (s : StatusWord) (size : Nat) : StatusWord :=
  { s with recordCount := s.recordCount + 1, blockSize := s.blockSize + size }

/-- `LeafNode::GetUsedSpace`. -/
def usedSpace (s : StatusWord) : Nat :=
  32 + s.blockSize + s.recordCount * 8

end StatusWord

/-- The words that a metadata entry can hold: zero, the word of `PrepareForInsert`, and
those of `FinalizeForInsert` with the visible bit set or not. -/
inductive RecordMetadata where
  | vacant
  | inserting
  | record (visible : Bool) (offset keyLength totalLength : Nat)
deriving DecidableEq

namespace RecordMetadata

def isVacant (m : RecordMetadata) : Bool :=
  m = .vacant

def isInserting (m : RecordMetadata) : Bool :=
  m = .inserting

def isVisible : RecordMetadata → Bool
  | .record visible _ _ _ => visible
  | _ => false

def keyLength : RecordMetadata → Nat
  | .record _ _ keyLength _ => keyLength
  | _ => 0

def finalizeForInsert (offset keyLength totalLength : Nat) : RecordMetadata :=
  .record (offset ≠ 0) offset keyLength totalLength

end RecordMetadata

structure BaseNode where
  isLeaf : Bool
  size : Nat
  status : StatusWord
  sortedCount : Nat
  recordMetadata : Nat → RecordMetadata
  data : Memory

namespace BaseNode

def getKey (n : BaseNode) : RecordMetadata → Option (List Byte)
  | .record true offset keyLength _ => some (readBytes n.data offset keyLength)
  | _ => none

def payload (n : BaseNode) (offset keyLength : Nat) : Word :=
  readWord n.data (offset + padKeyLength keyLength)

def setMetadata (n : BaseNode) (i : Nat) (m : RecordMetadata) : BaseNode :=
  { n with recordMetadata := Function.update n.recordMetadata i m }

/-- `LeafNode::New` and `InternalNode::New`: all zero but the size. -/
def new (isLeaf : Bool) (size : Nat) : BaseNode where
  isLeaf := isLeaf
  size := size
  status := ⟨false, 0, 0, 0⟩
  sortedCount := 0
  recordMetadata := fun _ => .vacant
  data := fun _ => 0

structure Row where
  keyLength : Nat
  totalLength : Nat
  bytes : List Byte

/-- One round of the loops that copy records: the record goes below the ones before it.
A record without a key to copy from, or one that would meet the metadata, is the end. -/
def copyRecord (row? : Option Row) : BaseNode × Nat × Nat → Option (BaseNode × Nat × Nat)
  | (n, i, offset) =>
      row?.bind fun row =>
        if 32 + (i + 1) * 8 + row.totalLength ≤ offset then
          let offset := offset - row.totalLength
          some ({ n.setMetadata i (.finalizeForInsert offset row.keyLength row.totalLength) with
            data := writeBytes n.data offset row.bytes }, i + 1, offset)
        else none

def copyRecords : List (Option Row) → BaseNode × Nat × Nat → Option (BaseNode × Nat × Nat)
  | [], r => some r
  | row? :: rows, r => (copyRecord row? r).bind (copyRecords rows)

def finishCopy : BaseNode × Nat × Nat → BaseNode
  | (n, count, offset) =>
      { n with
        status := { n.status with blockSize := n.size - offset, recordCount := count }
        sortedCount := count }

/-- `LeafNode::CopyFrom` to a new leaf, for records in the order of their keys. -/
def copyFrom (size : Nat) (rows : List (Option Row)) : Option BaseNode :=
  (copyRecords rows (new true size, 0, size)).map finishCopy

end BaseNode

end HashComp.BzTree
