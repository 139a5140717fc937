import HashComp.BzTree.LeafMachine
import HashComp.BzTree.StatusWords
import HashComp.Library.Runs
import Mathlib.Algebra.BigOperators.Group.Finset.Basic
import Mathlib.Algebra.Order.BigOperators.Group.Finset

/-!
`Insert` and `Delete` on the words of a leaf of any size: the status word with its packed
fields and the metadata.  What the searches for a key find is left open, and the ranges
that have been reserved are kept on the side.
-/

namespace HashComp.BzTree.Space

open HashComp.Runs

/-- The words of a metadata entry, with what `GetOffset` and `GetTotalLength` read. -/
inductive Metadata where
  | vacant
  | inserting
  | record (visible : Bool) (offset totalLength : Nat)
deriving DecidableEq

structure Leaf where
  size : Nat
  status : BitVec 64
  metadata : Nat → Metadata

def Leaf.setMetadata (leaf : Leaf) (i : Nat) (m : Metadata) : Nat → Metadata :=
  Function.update leaf.metadata i m

def totalSize (key_size : Nat) : Nat :=
  padKeyLength16 key_size + 8

/-- What `Insert` knows once it has reserved a slot, with the offset it will publish. -/
structure Reservation where
  slot : Nat
  total : Nat
  offset : Nat
  recheck : Bool
deriving DecidableEq

inductive InsertPc where
  | retry
  | checkUnique (expected : BitVec 64)
  | readMeta (expected : BitVec 64) (recheck : Bool)
  | reserve (expected : BitVec 64) (recheck : Bool)
  | copy (r : Reservation)
  | recheckUnique (r : Reservation)
  | readStatus (r : Reservation)
  | finalize (r : Reservation) (s : BitVec 64)
deriving DecidableEq

inductive DeletePc where
  | retry
  | search (old_status : BitVec 64)
  | swap (old_status : BitVec 64) (slot offset totalLength : Nat)
deriving DecidableEq

structure Range where
  offset : Nat
  len : Nat
deriving DecidableEq

/-- What a step does to the space: it reserves a range, fills the bytes from the place of a
slot on, or deletes the record of a slot. -/
inductive Event where
  | nothing
  | reserved (range : Range)
  | copied (slot len : Nat)
  | deleted (slot totalLength : Nat)
deriving DecidableEq

/-- What the two calls of `memcpy` fill, the key and the payload behind the padded key. -/
def copiedSize (key_size : Nat) : Nat :=
  max key_size (totalSize key_size)

/-- `retry_phase2`. -/
def phase2 (r : Reservation) : InsertPc :=
  if r.recheck then .recheckUnique r else .readStatus r

/-- A step of `Insert`; `answer` is what `CheckUnique` or `RecheckUnique` returns there. -/
def insertStep (split_threshold : Nat) (leaf : Leaf) (key_size : Nat) (answer : Uniqueness) :
    InsertPc → Leaf × Event × Outcome InsertPc
  | .retry =>
      if isFrozen leaf.status then (leaf, .nothing, .ret .nodeFrozen)
      else (leaf, .nothing, .goto (.checkUnique leaf.status))
  | .checkUnique expected =>
      if answer = .duplicate then (leaf, .nothing, .ret .keyExists)
      else if split_threshold ≤ usedSpace expected + 8 + totalSize key_size then
        (leaf, .nothing, .ret .notEnoughSpace)
      else (leaf, .nothing, .goto (.readMeta expected (answer = .reCheck)))
  | .readMeta expected recheck =>
      if leaf.metadata (recordCount expected) = .vacant then
        (leaf, .nothing, .goto (.reserve expected recheck))
      else (leaf, .nothing, .goto .retry)
  | .reserve expected recheck =>
      if leaf.status = expected ∧ leaf.metadata (recordCount expected) = .vacant then
        let desired := prepareForInsert expected (totalSize key_size)
        let offset := (leaf.size + 2 ^ 32 - blockSize desired) % 2 ^ 32
        let r : Reservation := ⟨recordCount expected, totalSize key_size, offset, recheck⟩
        ({ leaf with
            status := desired
            metadata := leaf.setMetadata (recordCount expected) .inserting },
          .reserved ⟨offset, totalSize key_size⟩, .goto (.copy r))
      else (leaf, .nothing, .goto .retry)
  | .copy r => (leaf, .copied r.slot (copiedSize key_size), .goto (phase2 r))
  | .recheckUnique r =>
      if isFrozen leaf.status then (leaf, .nothing, .ret .nodeFrozen)
      else if answer = .duplicate then
        -- `memset` of the bytes that were copied
        (leaf, .copied r.slot (copiedSize key_size), .goto (.readStatus { r with offset := 0 }))
      else (leaf, .nothing, .goto (.readStatus r))
  | .readStatus r =>
      if isFrozen leaf.status then (leaf, .nothing, .ret .nodeFrozen)
      else (leaf, .nothing, .goto (.finalize r leaf.status))
  | .finalize r s =>
      if leaf.status = s ∧ leaf.metadata r.slot = .inserting then
        let m : Metadata := .record (r.offset ≠ 0) (r.offset % 2 ^ 28) (r.total % 2 ^ 16)
        ({ leaf with metadata := leaf.setMetadata r.slot m }, .nothing, .ret .ok)
      else (leaf, .nothing, .goto (phase2 r))

/-- A step of `Delete`; `found` is the slot that `SearchRecordMeta` comes to. -/
def deleteStep (leaf : Leaf) (found : Option Nat) : DeletePc → Leaf × Event × Outcome DeletePc
  | .retry =>
      if isFrozen leaf.status then (leaf, .nothing, .ret .nodeFrozen)
      else (leaf, .nothing, .goto (.search leaf.status))
  | .search old_status =>
      match found with
      | none => (leaf, .nothing, .ret .notFound)
      | some slot =>
          match leaf.metadata slot with
          | .record true offset totalLength =>
              (leaf, .nothing, .goto (.swap old_status slot offset totalLength))
          | .inserting => (leaf, .nothing, .goto .retry)
          | _ => (leaf, .nothing, .ret .notFound)
  | .swap old_status slot offset totalLength =>
      if leaf.status = old_status ∧ leaf.metadata slot = .record true offset totalLength then
        let new_status := setDeleteSize old_status (deletedSize old_status + totalLength)
        ({ leaf with
            status := new_status
            metadata := leaf.setMetadata slot (.record false offset totalLength) },
          .deleted slot totalLength, .ret .ok)
      else (leaf, .nothing, .goto .retry)

inductive LeafOp where
  | insert (key_size : Nat)
  | delete
deriving DecidableEq

inductive LeafPc where
  | insert (key_size : Nat) (pc : InsertPc)
  | delete (pc : DeletePc)
  | done (rc : ReturnCode)
  | aborted
deriving DecidableEq

def pcAfter {π : Type} (inside : π → LeafPc) : Outcome π → LeafPc
  | .goto pc => inside pc
  | .ret rc => .done rc
  | .abort => .aborted

def LeafOp.begin : LeafOp → LeafPc
  | .insert key_size => .insert key_size .retry
  | .delete => .delete .retry

def leafStep (split_threshold : Nat) (leaf : Leaf) (answer : Uniqueness) (found : Option Nat) :
    LeafPc → Leaf × Event × LeafPc
  | .insert key_size pc =>
      let r := insertStep split_threshold leaf key_size answer pc
      (r.1, r.2.1, pcAfter (.insert key_size) r.2.2)
  | .delete pc =>
      let r := deleteStep leaf found pc
      (r.1, r.2.1, pcAfter .delete r.2.2)
  | .done rc => (leaf, .nothing, .done rc)
  | .aborted => (leaf, .nothing, .aborted)

/-- The ranges reserved so far by their slots, how many bytes have been filled from the
offset of each, and the lengths deleted of each. -/
structure Ledger where
  count : Nat
  range : Nat → Range
  copied : Nat → Nat
  gone : Nat → Nat

def Ledger.note (ledger : Ledger) : Event → Ledger
  | .nothing => ledger
  | .reserved range =>
      { ledger with
        count := ledger.count + 1
        range := Function.update ledger.range ledger.count range
        copied := Function.update ledger.copied ledger.count 0
        gone := Function.update ledger.gone ledger.count 0 }
  | .copied slot len => { ledger with copied := Function.update ledger.copied slot len }
  | .deleted slot totalLength =>
      { ledger with gone := Function.update ledger.gone slot (ledger.gone slot + totalLength) }

/-- A leaf with the threads that work on it.  `high` are the bits above the record count. -/
structure State where
  leaf : Leaf
  ledger : Ledger
  high : Nat
  threads : Nat → Option LeafPc

inductive Action where
  | call (tid : Nat) (op : LeafOp)
  | run (tid : Nat) (answer : Uniqueness) (found : Option Nat)
  | ret (tid : Nat)

def next (split_threshold : Nat) (s : State) : Action → Option State
  | .call tid op =>
      match s.threads tid with
      | none => some { s with threads := Function.update s.threads tid (some op.begin) }
      | some _ => none
  | .run tid answer found =>
      (s.threads tid).map fun l =>
        let r := leafStep split_threshold s.leaf answer found l
        { s with
          leaf := r.1
          ledger := s.ledger.note r.2.1
          threads := Function.update s.threads tid (some r.2.2) }
  | .ret tid =>
      match s.threads tid with
      | some (.done _) => some { s with threads := Function.update s.threads tid none }
      | _ => none

end HashComp.BzTree.Space
