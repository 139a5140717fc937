import HashComp.BzTree.Nodes
import HashComp.Library.Threads

namespace HashComp.BzTree

open HashComp.ByteMemory
open HashComp.Threads

inductive ReturnCode where
  | ok
  | keyExists
  | notFound
  | nodeFrozen
  | pmwcasFailure
  | notEnoughSpace
deriving DecidableEq

inductive Uniqueness where
  | isUnique
  | duplicate
  | reCheck
deriving DecidableEq

inductive Outcome (π : Type) where
  | goto (pc : π)
  | ret (rc : ReturnCode)
  | abort

section Search

/-- Where `SearchRecordMeta` is: at entry `i` of the sorted records, at the bound of the
loop over the other ones, or at entry `i` of these. -/
inductive Search where
  | sorted (i : Nat)
  | bound (i : Nat)
  | linear (i : Nat)
deriving DecidableEq

inductive Searched where
  | going (s : Search)
  | found (i : Nat) (m : RecordMetadata)
  | missing

def searchStep (n : BaseNode) (key : List Byte) : Search → Searched
  | .sorted i =>
      if i < n.sortedCount then
        let current := n.recordMetadata i
        if keyCompare (some key) (n.getKey current) = 0 then
          if current.isVisible then .found i current else .going (.bound n.sortedCount)
        else .going (.sorted (i + 1))
      else .going (.bound n.sortedCount)
  | .bound i => if i < n.status.recordCount then .going (.linear i) else .missing
  | .linear i =>
      let current := n.recordMetadata i
      if current.isInserting then .found i current
      else if current.isVisible ∧ current.keyLength = key.length ∧
          keyCompare (some key) (n.getKey current) = 0 then .found i current
      else .going (.bound (i + 1))

end Search

section Insert

def checkUnique (n : BaseNode) (key : List Byte) (m : RecordMetadata) : Option Uniqueness :=
  if m.isInserting then some .reCheck
  else if m.isVisible then
    if keyCompare (some key) (n.getKey m) = 0 then some .duplicate else some .reCheck
  else none

def checkMetadata (n : BaseNode) (key : List Byte) (m : RecordMetadata) : Uniqueness :=
  if m.isInserting then .reCheck
  else if m.isVacant ∨ m.isVisible = false then .isUnique
  else if key.length = m.keyLength ∧ keyCompare (some key) (n.getKey m) = 0 then .duplicate
  else .isUnique

/-- What `Insert` knows once it has reserved a slot: the slot, where its record is, the
offset that it will publish and whether it has to check again. -/
structure Reserved where
  slot : Nat
  place : Nat
  offset : Nat
  recheck : Bool
deriving DecidableEq

inductive InsertPc where
  | retry
  | checking (expected : StatusWord) (s : Search)
  | readMeta (expected : StatusWord) (uniqueness : Uniqueness)
  | reserve (expected : StatusWord) (uniqueness : Uniqueness)
  | copy (r : Reserved)
  | recheckStatus (r : Reserved)
  | recheckBound (r : Reserved)
  | scan (r : Reserved) (i linearEnd : Nat) (checkIdx : List Nat)
  | whileCheck (r : Reserved) (checkIdx : List Nat) (needCheck : Nat)
  | forCheck (r : Reserved) (checkIdx : List Nat) (needCheck i : Nat)
  | clear (r : Reserved)
  | readStatus (r : Reserved)
  | finalize (r : Reserved) (s : StatusWord)
deriving DecidableEq

/-- `retry_phase2`. -/
def phase2 (r : Reserved) : InsertPc :=
  if r.recheck then .recheckStatus r else .readStatus r

def checkSpace (parameters : ParameterSet) (totalSize : Nat) (expected : StatusWord)
    (uniqueness : Uniqueness) : Outcome InsertPc :=
  if parameters.splitThreshold ≤ expected.usedSpace + 8 + totalSize then .ret .notEnoughSpace
  else .goto (.readMeta expected uniqueness)

/-- A step of `Insert`, for what `PadKeyLength` makes of the length of the key: the padded
length and the total size, and the word that `FinalizeForInsert` then makes of an offset. -/
def insertStepWith (paddedSize totalSize : Nat) (finalized : Nat → RecordMetadata)
    (parameters : ParameterSet) (n : BaseNode) (key : List Byte) (payload : Word) :
    InsertPc → BaseNode × Outcome InsertPc
  | .retry =>
      if n.status.frozen then (n, .ret .nodeFrozen)
      else (n, .goto (.checking n.status (.sorted 0)))
  | .checking expected s =>
      match searchStep n key s with
      | .going s => (n, .goto (.checking expected s))
      | .missing => (n, checkSpace parameters totalSize expected .isUnique)
      | .found _ m =>
          match checkUnique n key m with
          | some .duplicate => (n, .ret .keyExists)
          | some uniqueness => (n, checkSpace parameters totalSize expected uniqueness)
          | none => (n, .abort)
  | .readMeta expected uniqueness =>
      if (n.recordMetadata expected.recordCount).isVacant then
        (n, .goto (.reserve expected uniqueness))
      else (n, .goto .retry)
  | .reserve expected uniqueness =>
      let desired := expected.prepareForInsert totalSize
      if n.status = expected ∧ n.recordMetadata expected.recordCount = .vacant then
        let place := n.size - desired.blockSize
        ({ n.setMetadata expected.recordCount .inserting with status := desired },
          .goto (.copy ⟨expected.recordCount, place, place, uniqueness = .reCheck⟩))
      else (n, .goto .retry)
  | .copy r =>
      let data := writeBytes n.data r.place key
      ({ n with data := writeWord data (r.place + paddedSize) payload },
        .goto (phase2 r))
  | .recheckStatus r =>
      if n.status.frozen then (n, .ret .nodeFrozen) else (n, .goto (.recheckBound r))
  | .recheckBound r =>
      (n, .goto (.scan r n.sortedCount (min n.status.recordCount r.slot) []))
  | .scan r i linearEnd checkIdx =>
      if i < linearEnd then
        match checkMetadata n key (n.recordMetadata i) with
        | .duplicate => (n, .goto (.clear r))
        | .reCheck => (n, .goto (.scan r (i + 1) linearEnd (checkIdx ++ [i])))
        | .isUnique => (n, .goto (.scan r (i + 1) linearEnd checkIdx))
      else (n, .goto (.whileCheck r checkIdx (checkIdx.length % 2 ^ 32)))
  | .whileCheck r checkIdx needCheck =>
      if needCheck = 0 then (n, .goto (.readStatus r))
      else (n, .goto (.forCheck r checkIdx needCheck 0))
  | .forCheck r checkIdx needCheck i =>
      if i < checkIdx.length then
        -- the entry `i`, not `check_idx[i]`
        match checkMetadata n key (n.recordMetadata i) with
        | .duplicate => (n, .goto (.clear r))
        | .reCheck => (n, .goto (.forCheck r checkIdx needCheck (i + 1)))
        | .isUnique => (n, .goto (.forCheck r checkIdx ((needCheck + 2 ^ 32 - 1) % 2 ^ 32) (i + 1)))
      else (n, .goto (.whileCheck r checkIdx needCheck))
  | .clear r =>
      let data := writeBytes n.data r.place (List.replicate key.length 0)
      ({ n with data := writeWord data (r.place + paddedSize) 0 },
        .goto (.readStatus { r with offset := 0 }))
  | .readStatus r =>
      if n.status.frozen then (n, .ret .nodeFrozen) else (n, .goto (.finalize r n.status))
  | .finalize r s =>
      if n.status = s ∧ n.recordMetadata r.slot = .inserting then
        (n.setMetadata r.slot (finalized r.offset), .ret .ok)
      else (n, .goto (phase2 r))

def insertStep (parameters : ParameterSet) (n : BaseNode) (key : Key) (payload : Word) :
    InsertPc → BaseNode × Outcome InsertPc :=
  insertStepWith (padKeyLength key.bytes.length) key.totalSize
    (.finalizeForInsert · key.bytes.length key.totalSize) parameters n key.bytes payload

end Insert

section Update

inductive UpdatePc where
  | retry
  | search (oldStatus : StatusWord) (s : Search)
  | readPayload (oldStatus : StatusWord) (i : Nat) (m : RecordMetadata)
  | swap (oldStatus : StatusWord) (i : Nat) (m : RecordMetadata) (recordPayload : Word)
deriving DecidableEq

def updateStep (n : BaseNode) (key : Key) (payload : Word) : UpdatePc → BaseNode × Outcome UpdatePc
  | .retry =>
      if n.status.frozen then (n, .ret .nodeFrozen)
      else (n, .goto (.search n.status (.sorted 0)))
  | .search oldStatus s =>
      match searchStep n key.bytes s with
      | .going s => (n, .goto (.search oldStatus s))
      | .missing => (n, .ret .notFound)
      | .found i m =>
          if m.isInserting then (n, .goto .retry) else (n, .goto (.readPayload oldStatus i m))
  | .readPayload oldStatus i m =>
      match m with
      | .record _ offset keyLength _ =>
          if payload = n.payload offset keyLength then (n, .ret .ok)
          -- the key of a record with an empty key is a null pointer
          else if padKeyLength keyLength = 0 then (n, .abort)
          else (n, .goto (.swap oldStatus i m (n.payload offset keyLength)))
      | _ => (n, .abort)
  | .swap oldStatus i m recordPayload =>
      match m with
      | .record _ offset keyLength _ =>
          if n.payload offset keyLength = recordPayload ∧ n.recordMetadata i = m ∧
              n.status = oldStatus then
            ({ n with data := writeWord n.data (offset + padKeyLength keyLength) payload }, .ret .ok)
          else (n, .goto .retry)
      | _ => (n, .abort)

end Update

section Delete

inductive DeletePc where
  | retry
  | search (oldStatus : StatusWord) (s : Search)
  | swap (oldStatus : StatusWord) (i : Nat) (m : RecordMetadata)
deriving DecidableEq

def deleteStep (n : BaseNode) (key : Key) : DeletePc → BaseNode × Outcome DeletePc
  | .retry =>
      if n.status.frozen then (n, .ret .nodeFrozen)
      else (n, .goto (.search n.status (.sorted 0)))
  | .search oldStatus s =>
      match searchStep n key.bytes s with
      | .going s => (n, .goto (.search oldStatus s))
      | .missing => (n, .ret .notFound)
      | .found i m =>
          if m.isInserting then (n, .goto .retry) else (n, .goto (.swap oldStatus i m))
  | .swap oldStatus i m =>
      match m with
      | .record _ offset keyLength totalLength =>
          if n.status = oldStatus ∧ n.recordMetadata i = m then
            ({ n.setMetadata i (.record false offset keyLength totalLength) with
              status := { oldStatus with deletedSize := oldStatus.deletedSize + totalLength } },
              .ret .ok)
          else (n, .goto .retry)
      | _ => (n, .abort)

end Delete

section Freeze

inductive FreezePc where
  | read
  | swap (expected : StatusWord)
deriving DecidableEq

def freezeStep (n : BaseNode) : FreezePc → BaseNode × Outcome FreezePc
  | .read =>
      if n.status.frozen then (n, .ret .pmwcasFailure) else (n, .goto (.swap n.status))
  | .swap expected =>
      if n.status = expected then ({ n with status := expected.freeze }, .ret .ok)
      else (n, .ret .pmwcasFailure)

end Freeze

inductive LeafOp where
  | insert (key : Key) (payload : Word)
  | update (key : Key) (payload : Word)
  | delete (key : Key)
  | freeze
deriving DecidableEq

inductive LeafPc where
  | insert (key : Key) (payload : Word) (pc : InsertPc)
  | update (key : Key) (payload : Word) (pc : UpdatePc)
  | delete (key : Key) (pc : DeletePc)
  | freeze (pc : FreezePc)
  | done (op : LeafOp) (rc : ReturnCode)
  | aborted
deriving DecidableEq

/-- The place in the code after a step. -/
def Outcome.pc {π : Type} (op : LeafOp) (inside : π → LeafPc) : Outcome π → LeafPc
  | .goto pc => inside pc
  | .ret rc => .done op rc
  | .abort => .aborted

def LeafOp.begin : LeafOp → LeafPc
  | .insert key payload => .insert key payload .retry
  | .update key payload => .update key payload .retry
  | .delete key => .delete key .retry
  | .freeze => .freeze .read

def leafStep (parameters : ParameterSet) (n : BaseNode) : LeafPc → BaseNode × LeafPc
  | .insert key payload pc =>
      let r := insertStep parameters n key payload pc
      (r.1, r.2.pc (.insert key payload) (.insert key payload))
  | .update key payload pc =>
      let r := updateStep n key payload pc
      (r.1, r.2.pc (.update key payload) (.update key payload))
  | .delete key pc =>
      let r := deleteStep n key pc
      (r.1, r.2.pc (.delete key) (.delete key))
  | .freeze pc =>
      let r := freezeStep n pc
      (r.1, r.2.pc .freeze .freeze)
  | .done op rc => (n, .done op rc)
  | .aborted => (n, .aborted)

def LeafPc.finished : LeafPc → Option (LeafOp × ReturnCode)
  | .done op rc => some (op, rc)
  | _ => none

def leafProgram (parameters : ParameterSet) : Program BaseNode LeafPc LeafOp ReturnCode where
  begin := LeafOp.begin
  step := fun _ n l => leafStep parameters n l
  done := .done
  finished := LeafPc.finished
  finished_iff := by
    intro l op rc
    cases l with
    | done op' rc' => simp [LeafPc.finished]
    | insert | update | delete | freeze | aborted => simp [LeafPc.finished]
  rest := fun _ _ _ _ => rfl

end HashComp.BzTree
