import HashComp.BzTree.LeafMachine
import Mathlib.Data.List.Sort

/-!
The nodes of a tree at their addresses, with `CheckMerge` and `InternalNode::Update`
beside the operations on leaves, step by step.  A node that is frozen is copied in one
step.  A pointer that leads to no node, or to a node of the other kind, is the end of
its thread.
-/

namespace HashComp.BzTree

open HashComp.ByteMemory
open HashComp.Threads

abbrev Addr := Nat

structure Heap where
  nodes : Addr → Option BaseNode
  fresh : Addr
  root : Addr

def Heap.set (h : Heap) (a : Addr) (n : BaseNode) : Heap :=
  { h with nodes := Function.update h.nodes a (some n) }

structure Frame where
  node : Addr
  metaIndex : Nat
deriving DecidableEq

structure Stack where
  root : Option Addr
  frames : List Frame
deriving DecidableEq

namespace Stack

def push (s : Stack) (f : Frame) : Option Stack :=
  if s.frames.length < 32 then some { s with frames := f :: s.frames } else none

def clear : Stack :=
  ⟨none, []⟩

end Stack

namespace RecordMetadata

def totalLength : RecordMetadata → Nat
  | .record _ _ _ totalLength => totalLength
  | _ => 0

end RecordMetadata

namespace BaseNode

def freeze (n : BaseNode) : BaseNode :=
  { n with status := n.status.freeze }

section Records

def rawKey (n : BaseNode) : RecordMetadata → Option (List Byte)
  | .record _ offset keyLength _ =>
      if padKeyLength keyLength = 0 then none else some (readBytes n.data offset keyLength)
  | _ => none

def getChildByMetaIndex (n : BaseNode) (i : Nat) : Option Addr :=
  match n.recordMetadata i with
  | .record _ offset keyLength _ => some (n.payload offset keyLength).toNat
  | _ => none

def dataRow (n : BaseNode) : RecordMetadata → Option Row
  | .record _ offset keyLength totalLength =>
      some ⟨keyLength, totalLength, readBytes n.data offset totalLength⟩
  | _ => none

def keyRow (n : BaseNode) (m : RecordMetadata) : Option Row :=
  (n.rawKey m).bind fun _ => n.dataRow m

def childRow (key : List Byte) (totalLength : Nat) (child : Word) : Row :=
  ⟨key.length, totalLength,
    key ++ List.replicate (padKeyLength key.length - key.length) 0 ++ bytesOf child⟩

/-- `GetChildIndex`.  Each round but the last leaves fewer records between the bounds. -/
def getChildIndex (n : BaseNode) (key : List Byte) (getLe : Bool) : Nat :=
  let cmp := fun i => keyCompare (some key) (n.rawKey (n.recordMetadata i))
  (childIndexLoop cmp getLe (n.sortedCount + 2) 0 (n.sortedCount - 1) % 2 ^ 32).toNat

end Records

section Merge

def sortedMetadata (n : BaseNode) : List RecordMetadata :=
  (((List.range n.status.recordCount).map n.recordMetadata).filter (·.isVisible)).insertionSort
    fun m1 m2 => ¬ keyCompare (n.getKey m2) (n.getKey m1) < 0

/-- `LeafNode::MergeNodes`. -/
def mergeLeafNodes (left right : BaseNode) : Option BaseNode :=
  copyFrom left.size (left.sortedMetadata.map left.keyRow ++ right.sortedMetadata.map right.keyRow)

def copyChildren (size : Nat) (rows : List (Option Row)) : Option BaseNode :=
  (copyRecords rows (new false size, 0, size)).map fun (n, count, _) => { n with sortedCount := count }

/-- `InternalNode::MergeNodes`: the first record of the right node gets the key that
stood between the two nodes. -/
def mergeInternalNodes (left right : BaseNode) (key : List Byte) : Option BaseNode :=
  let size := left.size + right.size + padKeyLength key.length - 32
  let first := (right.getChildByMetaIndex 0).map fun child =>
    childRow key (padKeyLength key.length + 8) (BitVec.ofNat 64 child)
  copyChildren size (((List.range left.sortedCount).map fun i => left.dataRow (left.recordMetadata i)) ++
    (List.range right.sortedCount).map fun i =>
      if i = 0 then first else right.keyRow (right.recordMetadata i))

/-- `DeleteRecord`: the record after the one that gets the new child is left out. -/
def deleteRecord (n : BaseNode) (metaToUpdate : Nat) (newChild : Word) : Option BaseNode :=
  let metaToDelete := metaToUpdate + 1
  let less := (n.recordMetadata metaToDelete).totalLength + 8
  let updated : RecordMetadata → Option Row
    | .record _ offset keyLength totalLength =>
        some (childRow (readBytes n.data offset keyLength) totalLength newChild)
    | _ => none
  if less ≤ n.size then
    copyChildren (n.size - less) (((List.range n.sortedCount).filter (· ≠ metaToDelete)).map fun i =>
      if i = metaToUpdate then updated (n.recordMetadata i) else n.dataRow (n.recordMetadata i))
  else none

/-- The new node and the new parent of `CheckMerge`, with the new node at `newNode`. -/
def mergedNodes (node sibling parent : BaseNode) (metaIndex siblingIndex : Nat) (newNode : Addr) :
    Option (BaseNode × BaseNode) :=
  let onLeft := decide (siblingIndex < metaIndex)
  let left := if onLeft then sibling else node
  let right := if onLeft then node else sibling
  let leftIndex := if onLeft then siblingIndex else metaIndex
  let key := (parent.rawKey (parent.recordMetadata (leftIndex + 1))).getD []
  if node.isLeaf ≠ sibling.isLeaf ∨ parent.isLeaf then none
  else
    (if node.isLeaf then mergeLeafNodes left right else mergeInternalNodes left right key).bind
      fun n => (parent.deleteRecord leftIndex (BitVec.ofNat 64 newNode)).map fun p => (n, p)

end Merge

end BaseNode

section Operations

inductive TreeOp where
  | leaf (a : Addr) (op : LeafOp)
  | updateChild (a : Addr) (m : RecordMetadata) (oldChild newChild : Addr)
  | checkMerge (a : Addr) (stack : Stack) (key : List Byte) (backoff : Bool)

inductive SwapPc where
  | status
  | swap (s : StatusWord)

/-- A call of `CheckMerge`, with the stack that it shares with its callers and with the
new parent and `freeze_retry` of each of these. -/
structure MergeCall where
  node : Addr
  stack : Stack
  key : List Byte
  backoff : Bool
  waiting : List (Addr × Nat)

inductive MergePc where
  | threshold
  | child (f : Frame) (left : Bool)
  | weigh (f : Frame) (left : Bool) (sibling : Addr)
  | sibling (f : Frame) (siblingIndex : Nat)
  | nodeStatus (f : Frame) (siblingIndex : Nat) (sibling : Addr)
  | siblingStatus (f : Frame) (siblingIndex : Nat) (sibling : Addr) (nodeStatus : StatusWord)
  | parentStatus (f : Frame) (siblingIndex : Nat) (sibling : Addr)
      (nodeStatus siblingStatus : StatusWord)
  | freeze (f : Frame) (siblingIndex : Nat) (sibling : Addr)
      (nodeStatus siblingStatus parentStatus : StatusWord)
  | build (f : Frame) (siblingIndex : Nat) (sibling : Addr)
  | install (f : Frame) (newParent : Addr)
  | update (f grandpa : Frame) (newParent : Addr) (m : RecordMetadata) (pc : SwapPc)
  | landRoot
  | descend (a : Addr)

inductive TreePc where
  | leaf (a : Addr) (l : LeafPc)
  | updateChild (a : Addr) (m : RecordMetadata) (oldChild newChild : Addr) (pc : SwapPc)
  | merge (op : TreeOp) (c : MergeCall) (pc : MergePc)
  | done (op : TreeOp) (rc : ReturnCode)
  | aborted

def LeafPc.inTree (a : Addr) : LeafPc → TreePc
  | .done op rc => .done (.leaf a op) rc
  | .aborted => .aborted
  | l => .leaf a l

def Outcome.inTree (a : Addr) (m : RecordMetadata) (oldChild newChild : Addr) : Outcome SwapPc → TreePc
  | .goto pc => .updateChild a m oldChild newChild pc
  | .ret rc => .done (.updateChild a m oldChild newChild) rc
  | .abort => .aborted

def LeafPc.isFreeze : LeafPc → Bool
  | .freeze _ => true
  | _ => false

/-- `InternalNode::Update`. -/
def internalUpdate (h : Heap) (a : Addr) (m : RecordMetadata) (oldChild newChild : Addr) :
    SwapPc → Heap × Outcome SwapPc
  | .status =>
      match h.nodes a with
      | some n =>
          if n.isLeaf then (h, .abort)
          else if n.status.frozen then (h, .ret .nodeFrozen)
          else (h, .goto (.swap n.status))
      | none => (h, .abort)
  | .swap s =>
      match h.nodes a, m with
      | some n, .record _ offset keyLength _ =>
          if n.isLeaf then (h, .abort)
          else if n.status = s ∧ n.payload offset keyLength = BitVec.ofNat 64 oldChild then
            let data := writeWord n.data (offset + padKeyLength keyLength) (BitVec.ofNat 64 newChild)
            (h.set a { n with data := data }, .ret .ok)
          else (h, .ret .pmwcasFailure)
      | _, _ => (h, .abort)

namespace MergeCall

/-- The return of the innermost call: `Ok` is returned by its callers as well, and after
another code the last of them looks for its new parent again. -/
def ret (c : MergeCall) (op : TreeOp) (rc : ReturnCode) : TreePc :=
  match rc, c.waiting with
  | .ok, _ | _, [] => .done op rc
  | _, (newParent, freezeRetry) :: waiting =>
      .merge op { c with
        stack := .clear
        waiting := (newParent, (freezeRetry + 1) % 2 ^ 32) :: waiting } .landRoot

/-- What `TraverseToNode` goes on with at a node: the node is the one looked for, or a
leaf, or is gone through. -/
def reached (c : MergeCall) (op : TreeOp) (a : Addr) (n : BaseNode) : TreePc :=
  match c.waiting with
  | (newParent, freezeRetry) :: _ =>
      if a = newParent then
        .merge op { c with node := newParent, backoff := decide (freezeRetry < 1) } .threshold
      else if n.isLeaf then c.ret op .ok
      else .merge op c (.descend a)
  | [] => .aborted

def siblingIndex (f : Frame) (left : Bool) : Nat :=
  if left then (if f.metaIndex = 0 then 2 ^ 32 - 1 else f.metaIndex - 1)
  else (f.metaIndex + 1) % 2 ^ 32

def unsuitable (c : MergeCall) (op : TreeOp) (f : Frame) (left : Bool) : TreePc :=
  if left then .merge op c (.child f false) else c.ret op .ok

def updated (c : MergeCall) (op : TreeOp) (newParent : Addr) (inside : SwapPc → MergePc) :
    Outcome SwapPc → TreePc
  | .goto pc => .merge op c (inside pc)
  | .ret .ok =>
      .merge op { c with
        node := newParent
        backoff := true
        waiting := (newParent, 0) :: c.waiting } .threshold
  | .ret rc => c.ret op rc
  | .abort => .aborted

end MergeCall

def BaseNode.validSize (n : BaseNode) : Nat :=
  (n.status.usedSpace + 2 ^ 32 - n.status.deletedSize) % 2 ^ 32

def BaseNode.mergeSize (n : BaseNode) : Nat :=
  if n.isLeaf then n.validSize else n.size

def Heap.freezeAll (h : Heap) (as : List Addr) : Heap :=
  { h with nodes := fun a => if a ∈ as then (h.nodes a).map BaseNode.freeze else h.nodes a }

/-- The two nodes of `CheckMerge`, at the next addresses. -/
def Heap.allocate (h : Heap) (newNode newParent : BaseNode) : Heap where
  nodes := Function.update (Function.update h.nodes h.fresh (some newNode)) (h.fresh + 1)
    (some newParent)
  fresh := h.fresh + 2
  root := h.root

/-- `BaseNode::CheckMerge` -/
def mergeStep (parameters : ParameterSet) (h : Heap) (op : TreeOp) (c : MergeCall) :
    MergePc → Heap × TreePc
  | .threshold =>
      match h.nodes c.node with
      | none => (h, .aborted)
      | some n =>
          if (n.isLeaf = false ∧ parameters.mergeThreshold < n.size) ∨
              parameters.mergeThreshold < n.validSize then (h, c.ret op .ok)
          else
            match c.stack.frames with
            | [] => (h, c.ret op .ok)
            | f :: frames =>
                (h, .merge op { c with stack := { c.stack with frames := frames } } (.child f true))
  | .child f left =>
      match h.nodes f.node with
      | none => (h, .aborted)
      | some parent =>
          if parent.isLeaf then (h, .aborted)
          else if MergeCall.siblingIndex f left < parent.sortedCount then
            match parent.getChildByMetaIndex (MergeCall.siblingIndex f left) with
            | none => (h, .aborted)
            | some sibling => (h, .merge op c (.weigh f left sibling))
          else (h, c.unsuitable op f left)
  | .weigh f left sibling =>
      match h.nodes sibling with
      | none => (h, .aborted)
      | some n =>
          if n.mergeSize < parameters.mergeThreshold then
            (h, .merge op c (.sibling f (MergeCall.siblingIndex f left)))
          else (h, c.unsuitable op f left)
  | .sibling f i =>
      match (h.nodes f.node).bind fun parent => parent.getChildByMetaIndex i with
      | none => (h, .aborted)
      | some sibling => (h, .merge op c (.nodeStatus f i sibling))
  | .nodeStatus f i sibling =>
      match h.nodes c.node with
      | none => (h, .aborted)
      | some n => (h, .merge op c (.siblingStatus f i sibling n.status))
  | .siblingStatus f i sibling s =>
      match h.nodes sibling with
      | none => (h, .aborted)
      | some n => (h, .merge op c (.parentStatus f i sibling s n.status))
  | .parentStatus f i sibling s s' =>
      match h.nodes f.node with
      | none => (h, .aborted)
      | some n =>
          if c.backoff ∧ (s.frozen ∨ s'.frozen ∨ n.status.frozen) then (h, c.ret op .nodeFrozen)
          else (h, .merge op c (.freeze f i sibling s s' n.status))
  | .freeze f i sibling s s' s'' =>
      if (h.nodes c.node).map (·.status) = some s ∧ (h.nodes sibling).map (·.status) = some s' ∧
          (h.nodes f.node).map (·.status) = some s'' then
        (h.freezeAll [c.node, sibling, f.node], .merge op c (.build f i sibling))
      else (h, c.ret op .pmwcasFailure)
  | .build f i sibling =>
      match h.nodes c.node, h.nodes sibling, h.nodes f.node with
      | some n, some s, some p =>
          match BaseNode.mergedNodes n s p f.metaIndex i h.fresh with
          | some (newNode, newParent) =>
              (h.allocate newNode newParent, .merge op c (.install f (h.fresh + 1)))
          | none => (h, .aborted)
      | _, _, _ => (h, .aborted)
  | .install f newParent =>
      match c.stack.frames with
      | [] =>
          -- `ChangeRoot`
          if c.stack.root = some h.root then ({ h with root := newParent }, c.ret op .ok)
          else (h, c.ret op .pmwcasFailure)
      | g :: _ =>
          match h.nodes g.node with
          | none => (h, .aborted)
          | some grandparent =>
              (h, .merge op c (.update f g newParent (grandparent.recordMetadata g.metaIndex) .status))
  | .update f g newParent m pc =>
      let r := internalUpdate h g.node m f.node newParent pc
      (r.1, c.updated op newParent (.update f g newParent m) r.2)
  | .landRoot =>
      match h.nodes h.root with
      | none => (h, .aborted)
      | some n => (h, { c with stack := { c.stack with root := some h.root } }.reached op h.root n)
  | .descend a =>
      match h.nodes a with
      | none => (h, .aborted)
      | some parent =>
          let i := parent.getChildIndex c.key true
          match parent.getChildByMetaIndex i, c.stack.push ⟨a, i⟩ with
          | some b, some stack =>
              match h.nodes b with
              | none => (h, .aborted)
              | some n => (h, { c with stack := stack }.reached op b n)
          | _, _ => (h, .aborted)

def TreeOp.begin : TreeOp → TreePc
  | .leaf a op => .leaf a op.begin
  | .updateChild a m oldChild newChild => .updateChild a m oldChild newChild .status
  | .checkMerge a stack key backoff =>
      .merge (.checkMerge a stack key backoff) ⟨a, stack, key, backoff, []⟩ .threshold

def treeStep (parameters : ParameterSet) (h : Heap) : TreePc → Heap × TreePc
  | .leaf a l =>
      match h.nodes a with
      | none => (h, .aborted)
      | some n =>
          if n.isLeaf ∨ l.isFreeze then
            let r := leafStep parameters n l
            (h.set a r.1, r.2.inTree a)
          else (h, .aborted)
  | .updateChild a m oldChild newChild pc =>
      let r := internalUpdate h a m oldChild newChild pc
      (r.1, r.2.inTree a m oldChild newChild)
  | .merge op c pc => mergeStep parameters h op c pc
  | .done op rc => (h, .done op rc)
  | .aborted => (h, .aborted)

def TreePc.finished : TreePc → Option (TreeOp × ReturnCode)
  | .done op rc => some (op, rc)
  | _ => none

/-- The operations on the nodes of a tree. -/
def treeProgram (parameters : ParameterSet) : Program Heap TreePc TreeOp ReturnCode where
  begin := TreeOp.begin
  step := fun _ h pc => treeStep parameters h pc
  done := .done
  finished := TreePc.finished
  finished_iff := by
    intro pc op rc
    cases pc with
    | done op' rc' => simp [TreePc.finished]
    | leaf | updateChild | merge | aborted => simp [TreePc.finished]
  rest := fun _ _ _ _ => rfl

end Operations

end HashComp.BzTree
