import HashComp.BzTree.LeafMachine
import HashComp.BzTree.Order
import HashComp.Library.Segments
import Mathlib.Data.List.Sort

namespace HashComp.BzTree

open HashComp.ByteMemory

structure LeafRecord (K : Type) where
  key : K
  payload : Word
  visible : Bool
deriving DecidableEq

structure LeafNode (K : Type) where
  frozen : Bool
  records : List (LeafRecord K)
  sortedCount : Nat
  blockSize : Nat
  deletedSize : Nat
deriving DecidableEq

variable {K : Type} [TreeKey K]

namespace LeafRecord

def getKey (r : LeafRecord K) : Option (List Byte) :=
  if r.visible then some (TreeKey.bytes r.key) else none

def totalLength (r : LeafRecord K) : Nat :=
  TreeKey.totalSize r.key

end LeafRecord

namespace LeafNode

def new : LeafNode K where
  frozen := false
  records := []
  sortedCount := 0
  blockSize := 0
  deletedSize := 0

/-- `GetUsedSpace`. -/
def usedSpace (n : LeafNode K) : Nat :=
  32 + n.blockSize + n.records.length * 8

/-- `SearchRecordMeta`: the index of the visible record with the key, first among the
sorted records and then among the other ones. -/
def searchRecordMeta (n : LeafNode K) (key : K) : Option Nat :=
  ((n.records.take n.sortedCount).findIdx? fun r =>
      keyCompare (some (TreeKey.bytes key)) r.getKey = 0).or
    (((n.records.drop n.sortedCount).findIdx? fun r =>
      r.visible ∧ (TreeKey.bytes r.key).length = (TreeKey.bytes key).length ∧
        keyCompare (some (TreeKey.bytes key)) r.getKey = 0).map (· + n.sortedCount))

/-- `LeafNode::Insert`.  The record of the only thread is visible at once. -/
def insert (parameters : ParameterSet) (n : LeafNode K) (key : K) (payload : Word) :
    LeafNode K × ReturnCode :=
  if n.frozen then (n, .nodeFrozen)
  else
    match n.searchRecordMeta key with
    | some _ => (n, .keyExists)
    | none =>
        let newSize := n.usedSpace + 8 + TreeKey.totalSize key
        if parameters.splitThreshold ≤ newSize then (n, .notEnoughSpace)
        else
          ({ n with
            records := n.records ++ [⟨key, payload, true⟩]
            blockSize := n.blockSize + TreeKey.totalSize key }, .ok)

def update (n : LeafNode K) (key : K) (payload : Word) : LeafNode K × ReturnCode :=
  if n.frozen then (n, .nodeFrozen)
  else
    match n.searchRecordMeta key with
    | none => (n, .notFound)
    | some i =>
        if (n.records[i]?).map (·.payload) = some payload then (n, .ok)
        else ({ n with records := n.records.modify i fun r => { r with payload := payload } }, .ok)

def delete (n : LeafNode K) (key : K) : LeafNode K × ReturnCode :=
  if n.frozen then (n, .nodeFrozen)
  else
    match n.searchRecordMeta key with
    | none => (n, .notFound)
    | some i =>
        ({ n with
          records := n.records.modify i fun r => { r with visible := false }
          deletedSize := n.deletedSize + ((n.records[i]?).map (·.totalLength)).getD 0 }, .ok)

def read (n : LeafNode K) (key : K) : Option Word :=
  (n.searchRecordMeta key).bind fun i => (n.records[i]?).map (·.payload)

def sortMetadataByKey (n : LeafNode K) : List (LeafRecord K) :=
  (n.records.filter (·.visible)).insertionSort fun r r' =>
    ¬ keyCompare (some (TreeKey.bytes r'.key)) (some (TreeKey.bytes r.key)) < 0

def copyFrom (records : List (LeafRecord K)) : LeafNode K where
  frozen := false
  records := records
  sortedCount := records.length
  blockSize := (records.map (·.totalLength)).sum
  deletedSize := 0

/-- The loop of `PrepareForSplit` that counts the records of the left leaf. -/
def countLeft : (leftSize : Int) → List (LeafRecord K) → Nat
  | _, [] => 0
  | leftSize, r :: records =>
      if leftSize - r.totalLength ≤ 0 then 1 else countLeft (leftSize - r.totalLength) records + 1

/-- The part of `LeafNode::PrepareForSplit` about the leaf: the two leaves and the key
between them, the last one of the left leaf.  Without a record that is visible there is
none at the index -1. -/
def splitLeaf (n : LeafNode K) : Option (LeafNode K × K × LeafNode K) :=
  if 2 < n.records.length then
    let metaVec := n.sortMetadataByKey
    let nLeft := countLeft (((metaVec.map (·.totalLength)).sum / 2 : Nat) : Int) metaVec
    (metaVec.take nLeft).getLast?.map fun separator =>
      (copyFrom (metaVec.take nLeft), separator.key, copyFrom (metaVec.drop nLeft))
  else none

end LeafNode

end HashComp.BzTree
