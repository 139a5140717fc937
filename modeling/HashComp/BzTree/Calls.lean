import HashComp.BzTree.InnerSplits

/-!
`Insert`, `Update`, `Upsert` and `Delete` of `BzTree` on the nodes at their addresses, step
by step, with a retry on a frozen node and without merges, as they are built by default.  A
node that is frozen is copied in one step.  A pointer that leads to no node, or to a node of
the other kind, an index that is no record's, and an allocation without an address left are
the end of the thread.
-/

namespace HashComp.BzTree

open HashComp.ByteMemory
open HashComp.Threads

namespace BaseNode

/-- The loop of `PrepareForSplit` that counts the records of the left leaf. -/
def countLeft : (leftSize : Int) → List RecordMetadata → Nat
  | _, [] => 0
  | leftSize, m :: metas =>
      if leftSize - m.totalLength ≤ 0 then 1 else countLeft (leftSize - m.totalLength) metas + 1

/-- The part of `LeafNode::PrepareForSplit` about the leaf: the two leaves and the key between
them, the last one of the left leaf.  Without a visible record there is none at the index -1. -/
def splitLeaf (n : BaseNode) : Option (BaseNode × List Byte × BaseNode) :=
  if 2 < n.status.recordCount then
    let metaVec := n.sortedMetadata
    let nLeft := countLeft (((metaVec.map (·.totalLength)).sum / 2 : Nat) : Int) metaVec
    (copyFrom n.size ((metaVec.take nLeft).map n.keyRow)).bind fun left =>
      (copyFrom n.size ((metaVec.drop nLeft).map n.keyRow)).bind fun right =>
        ((metaVec.take nLeft).getLast?.bind n.getKey).map fun key => (left, key, right)
  else none

end BaseNode

/-- The constructor of `BzTree`: the root is an empty leaf. -/
def Heap.new (parameters : ParameterSet) : Heap where
  nodes := Function.update (fun _ => none) 1 (some (BaseNode.new true parameters.leafNodeSize))
  fresh := 2
  root := 1

/-- A new node at the next address. -/
def Heap.add (h : Heap) (n : BaseNode) : Heap where
  nodes := Function.update h.nodes h.fresh (some n)
  fresh := h.fresh + 1
  root := h.root

def Heap.leaf (h : Heap) (a : Addr) : Option BaseNode :=
  (h.nodes a).filter fun n => n.isLeaf

def Heap.inner (h : Heap) (a : Addr) : Option BaseNode :=
  (h.nodes a).filter fun n => !n.isLeaf

namespace Calls

inductive CallOp where
  | insert (key : Key) (payload : Word)
  | update (key : Key) (payload : Word)
  | upsert (key : Key) (payload : Word)
  | delete (key : Key)
deriving DecidableEq

namespace CallOp

def key : CallOp → Key
  | .insert key _ | .update key _ | .upsert key _ | .delete key => key

def payload : CallOp → Word
  | .insert _ payload | .update _ payload | .upsert _ payload => payload
  | .delete _ => 0

end CallOp

structure Insertion where
  op : CallOp
  stack : Stack
  freezeRetry : Nat

inductive Job where
  | insert (i : Insertion)
  | update (op : CallOp)
  | delete (op : CallOp)
  | read (op : CallOp)

def Job.op : Job → CallOp
  | .insert i => i.op
  | .update op | .delete op | .read op => op

structure Halves where
  old : Addr
  left : Addr
  key : List Byte
  right : Addr

/-- What a loop of `Freeze` is for: a leaf without space, or the parent of a node that was
split. -/
inductive Goal where
  | leaf
  | parent (s : Halves)

inductive Pc where
  | land (j : Job)
  | descend (j : Job) (a : Addr)
  | reading (op : CallOp) (a : Addr) (s : Search)
  | readPayload (op : CallOp) (a : Addr) (m : RecordMetadata)
  | leaf (j : Job) (a : Addr) (l : LeafPc)
  | freezing (i : Insertion) (goal : Goal) (a : Addr) (frozenByMe : Bool) (pc : Option FreezePc)
  | splitLeaf (i : Insertion) (a : Addr)
  | newRoot (i : Insertion) (s : Halves)
  | splitParent (i : Insertion) (s : Halves)
  | install (i : Insertion) (old new : Addr)
  | update (i : Insertion) (old new : Addr) (g : Frame) (m : RecordMetadata) (pc : SwapPc)
  | done (op : CallOp) (rc : ReturnCode)
  | aborted

namespace Insertion

def start (op : CallOp) : Insertion :=
  ⟨op, .clear, 0⟩

def again (i : Insertion) : Pc :=
  .land (.insert i)

def backoff (i : Insertion) : Bool :=
  i.freezeRetry ≤ 1

def retried (i : Insertion) : Insertion :=
  { i with freezeRetry := i.freezeRetry + 1 }

def lost (i : Insertion) (a : Addr) : Pc :=
  if i.freezeRetry + 1 ≤ 1 then i.retried.again else .splitLeaf i.retried a

/-- The node is frozen that the loop of `Freeze` is for. -/
def frozen (i : Insertion) (a : Addr) (byMe : Bool) : Goal → Pc
  | .leaf => if byMe then .splitLeaf i a else i.lost a
  | .parent s => if byMe = false ∧ i.backoff then i.again else .splitParent i s

def climb (i : Insertion) (s : Halves) : Pc :=
  match i.stack.frames with
  | [] => .newRoot i s
  | f :: _ => .freezing i (.parent s) f.node false none

/-- The frame of the node that was split is popped. -/
def popped (i : Insertion) : Insertion :=
  { i with stack := { i.stack with frames := i.stack.frames.tail } }

end Insertion

namespace Job

def rooted (root : Addr) : Job → Job
  | .insert i => .insert { i with stack := ⟨some root, []⟩ }
  | j => j

def push (f : Frame) : Job → Option Job
  | .insert i => (i.stack.push f).map fun stack => .insert { i with stack := stack }
  | j => some j

def reached (j : Job) (a : Addr) (n : BaseNode) : Pc :=
  if n.isLeaf then
    match j with
    | .insert i => .leaf j a (LeafOp.insert i.op.key i.op.payload).begin
    | .update op => .leaf j a (LeafOp.update op.key op.payload).begin
    | .delete op => .leaf j a (LeafOp.delete op.key).begin
    | .read op => .reading op a (.sorted 0)
  else .descend j a

/-- What the call makes of the code that an operation of the leaf returns. -/
def returned (j : Job) (a : Addr) (rc : ReturnCode) : Pc :=
  match j, rc with
  | .insert i, .ok | .insert i, .keyExists => .done i.op rc
  | .insert i, .nodeFrozen => i.lost a
  | .insert i, _ => .freezing i .leaf a false none
  | .update op, .pmwcasFailure => .land (.update op)
  | .delete op, .nodeFrozen => .land (.delete op)
  | j, rc => .done j.op rc

def inLeaf (j : Job) (a : Addr) : LeafPc → Pc
  | .done _ rc => j.returned a rc
  | .aborted => .aborted
  | l => .leaf j a l

end Job

def readStep (n : BaseNode) (key : List Byte) (s : Search) : Searched :=
  match searchStep n key s with
  | .found i m => if m.isInserting then .going (.bound (i + 1)) else .found i m
  | r => r

def afterRead (op : CallOp) : Option Word → Pc
  | none => (Insertion.start op).again
  | some payload => if payload = op.payload then .done op .ok else .land (.update op)

/-- What `Insert` does after `InternalNode::Update`, whatever it has returned. -/
def afterUpdate (i : Insertion) (inside : SwapPc → Pc) : Outcome SwapPc → Pc
  | .goto pc => inside pc
  | .ret _ => i.again
  | .abort => .aborted

def descendStep (h : Heap) (j : Job) (a : Addr) (n : BaseNode) : Pc :=
  let index := n.getChildIndex j.op.key.bytes true
  match (if index < n.sortedCount then n.getChildByMetaIndex index else none), j.push ⟨a, index⟩ with
  | some b, some j =>
      match h.nodes b with
      | some m => j.reached b m
      | none => .aborted
  | _, _ => .aborted

def splitLeafStep (h : Heap) (i : Insertion) (a : Addr) (n : BaseNode) : Heap × Pc :=
  match n.splitLeaf with
  | some (left, key, right) =>
      if h.fresh + 2 ≤ 2 ^ 64 then
        ((h.add left).add right, i.climb ⟨a, h.fresh, key, h.fresh + 1⟩)
      else (h, .aborted)
  | none => (h, .aborted)

def newRootStep (h : Heap) (i : Insertion) (s : Halves) : Heap × Pc :=
  match BaseNode.newRoot s.key (BitVec.ofNat 64 s.left) (BitVec.ofNat 64 s.right) with
  | some m =>
      if h.fresh + 2 ≤ 2 ^ 64 then (h.add m, .install i s.old h.fresh) else (h, .aborted)
  | none => (h, .aborted)

def splitParentStep (parameters : ParameterSet) (h : Heap) (i : Insertion) (s : Halves) (f : Frame)
    (n : BaseNode) : Heap × Pc :=
  match n.prepareForSplit parameters.splitThreshold s.key (BitVec.ofNat 64 s.left)
      (BitVec.ofNat 64 s.right) with
  | some (.one m) =>
      if h.fresh + 2 ≤ 2 ^ 64 then (h.add m, .install i.popped f.node h.fresh) else (h, .aborted)
  | some (.two left key right) =>
      if h.fresh + 2 ≤ 2 ^ 64 then
        ((h.add left).add right, i.popped.climb ⟨f.node, h.fresh, key, h.fresh + 1⟩)
      else (h, .aborted)
  | none => (h, .aborted)

def readingStep (op : CallOp) (a : Addr) (n : BaseNode) (s : Search) : Pc :=
  match readStep n op.key.bytes s with
  | .going s => .reading op a s
  | .missing => afterRead op none
  | .found _ m => .readPayload op a m

/-- One round of `while (!node->IsFrozen()) frozen_by_me = node->Freeze()`. -/
def freezingStep (h : Heap) (i : Insertion) (goal : Goal) (a : Addr) (byMe : Bool) (n : BaseNode) :
    Option FreezePc → Heap × Pc
  | none =>
      if n.status.frozen then (h, i.frozen a byMe goal)
      else (h, .freezing i goal a byMe (some .read))
  | some pc =>
      let r := freezeStep n pc
      match r.2 with
      | .goto pc => (h.set a r.1, .freezing i goal a byMe (some pc))
      | .ret rc => (h.set a r.1, .freezing i goal a (decide (rc = .ok)) none)
      | .abort => (h, .aborted)

def callStep (parameters : ParameterSet) (h : Heap) : Pc → Heap × Pc
  | .land j =>
      match h.nodes h.root with
      | some n => (h, (j.rooted h.root).reached h.root n)
      | none => (h, .aborted)
  | .descend j a =>
      match h.inner a with
      | some n => (h, descendStep h j a n)
      | none => (h, .aborted)
  | .reading op a s =>
      match h.leaf a with
      | some n => (h, readingStep op a n s)
      | none => (h, .aborted)
  | .readPayload op a m =>
      match h.leaf a, m with
      | some n, .record _ offset keyLength _ => (h, afterRead op (some (n.payload offset keyLength)))
      | _, _ => (h, .aborted)
  | .leaf j a l =>
      match h.leaf a with
      | some n =>
          let r := leafStep parameters n l
          (h.set a r.1, j.inLeaf a r.2)
      | none => (h, .aborted)
  | .freezing i goal a byMe pc =>
      match h.nodes a with
      | some n => freezingStep h i goal a byMe n pc
      | none => (h, .aborted)
  | .splitLeaf i a =>
      match h.leaf a with
      | some n => splitLeafStep h i a n
      | none => (h, .aborted)
  | .newRoot i s => newRootStep h i s
  | .splitParent i s =>
      match i.stack.frames with
      | f :: _ =>
          match h.inner f.node with
          | some n => splitParentStep parameters h i s f n
          | none => (h, .aborted)
      | [] => (h, .aborted)
  | .install i old new =>
      match i.stack.frames with
      | g :: _ =>
          match h.inner g.node with
          | some n => (h, .update i old new g (n.recordMetadata g.metaIndex) .status)
          | none => (h, .aborted)
      | [] =>
          -- `ChangeRoot`
          if i.stack.root = some h.root then ({ h with root := new }, i.again) else (h, i.again)
  | .update i old new g m pc =>
      let r := internalUpdate h g.node m old new pc
      (r.1, afterUpdate i (.update i old new g m) r.2)
  | .done op rc => (h, .done op rc)
  | .aborted => (h, .aborted)

def CallOp.begin : CallOp → Pc
  | .insert key payload => (Insertion.start (.insert key payload)).again
  | .update key payload => .land (.update (.update key payload))
  | .upsert key payload => .land (.read (.upsert key payload))
  | .delete key => .land (.delete (.delete key))

def Pc.finished : Pc → Option (CallOp × ReturnCode)
  | .done op rc => some (op, rc)
  | _ => none

def callProgram (parameters : ParameterSet) : Program Heap Pc CallOp ReturnCode where
  begin := CallOp.begin
  step := fun _ h pc => callStep parameters h pc
  done := .done
  finished := Pc.finished
  finished_iff := by
    intro pc op rc
    cases pc with
    | done op' rc' => simp [Pc.finished]
    | land | descend | reading | readPayload | leaf | freezing | splitLeaf | newRoot | splitParent
    | install | update | aborted => simp [Pc.finished]
  rest := fun _ _ _ _ => rfl

end Calls

end HashComp.BzTree
