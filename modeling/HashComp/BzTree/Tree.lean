import HashComp.BzTree.Leaves

namespace HashComp.BzTree

open HashComp.ByteMemory

structure InternalNode (K α : Type) where
  frozen : Bool
  size : Nat
  first : α
  rest : List (K × α)
deriving DecidableEq

/-- The subtrees of each height. -/
@[reducible] def Subtree (K : Type) : Nat → Type
  | 0 => LeafNode K
  | d + 1 => InternalNode K (Subtree K d)

inductive Above (K : Type) : Nat → Type
  | root {d : Nat} : Above K d
  | frame {d : Nat} (node : InternalNode K (Subtree K d)) (metaIndex : Nat) (above : Above K (d + 1)) :
      Above K d

/-- `BzTree` -/
structure Tree (K : Type) where
  height : Nat
  root : Subtree K height

variable {K : Type} [TreeKey K] {α : Type}

namespace InternalNode

def sortedCount (n : InternalNode K α) : Nat :=
  n.rest.length + 1

def restSize (rest : List (K × α)) : Nat :=
  (rest.map fun c => TreeKey.totalSize c.1 + 8).sum

/-- A node with these children, as large as they need: its header and the record with
the empty key come first. -/
def build (first : α) (rest : List (K × α)) : InternalNode K α where
  frozen := false
  size := 32 + (8 + 8) + restSize rest
  first := first
  rest := rest

def recordKey (n : InternalNode K α) : Nat → Option (List Byte)
  | 0 => none
  | i + 1 => (n.rest[i]?).map fun c => TreeKey.bytes c.1

/-- `GetChildIndex`.  The key of the first record is below all others, so that the index
is never -1. -/
def getChildIndex (n : InternalNode K α) (key : K) (getLe : Bool) : Nat :=
  (childIndexLoop (fun i => keyCompare (some (TreeKey.bytes key)) (n.recordKey i)) getLe
    (n.sortedCount + 2) 0 (n.sortedCount - 1)).toNat

/-- `GetChildByMetaIndex`. -/
def getChild (n : InternalNode K α) : Nat → α
  | 0 => n.first
  | i + 1 => ((n.rest[i]?).map (·.2)).getD n.first

def setChild (n : InternalNode K α) (i : Nat) (c : α) : InternalNode K α :=
  match i with
  | 0 => { n with first := c }
  | i + 1 => { n with rest := n.rest.modify i fun r => (r.1, c) }

/-- The loop of the constructor that copies records and puts a new key among them: the
record before it gets the left child.  The assertion fails at an equal key. -/
def insertKey (key : K) (left right : α) : (prev : α) → List (K × α) → Option (α × List (K × α))
  | _, [] => some (left, [(key, right)])
  | prev, (k, c) :: rest =>
      let cmp := keyCompare (some (TreeKey.bytes k)) (some (TreeKey.bytes key))
      if cmp = 0 then none
      else if 0 < cmp then some (left, (key, right) :: (k, c) :: rest)
      else (insertKey key left right c rest).map fun r => (prev, (k, r.1) :: r.2)

def newWithKey (n : InternalNode K α) (key : K) (left right : α) : Option (InternalNode K α) :=
  (insertKey key left right n.first n.rest).map fun r =>
    { frozen := false
      size := n.size + (TreeKey.totalSize key + 8)
      first := r.1
      rest := r.2 }

structure Halves (K α : Type) where
  left : InternalNode K α
  separator : K
  right : InternalNode K α

/-- The part of `InternalNode::PrepareForSplit` that makes two nodes of one. -/
def splitNode (n : InternalNode K α) (key : K) (left right : α) : Option (Halves K α) :=
  if n.sortedCount < 2 then none
  else
    let nLeft := n.sortedCount / 2
    match n.rest[nLeft - 1]? with
    | none => none
    | some (separatorKey, separatorPayload) =>
        let cmp := keyCompare (some (TreeKey.bytes key)) (some (TreeKey.bytes separatorKey))
        if cmp = 0 then none
        else if cmp < 0 then
          (insertKey key left right n.first (n.rest.take (nLeft - 1))).map fun r =>
            ⟨build r.1 r.2, separatorKey, build separatorPayload (n.rest.drop nLeft)⟩
        else
          (insertKey key left right separatorPayload (n.rest.drop nLeft)).map fun r =>
            ⟨build n.first (n.rest.take (nLeft - 1)), separatorKey, build r.1 r.2⟩

end InternalNode

section Paths

namespace Above

/-- The number of frames on the stack. -/
def length : {d : Nat} → Above K d → Nat
  | _, .root => 0
  | _, .frame _ _ above => above.length + 1

def plug : {d : Nat} → Above K d → Subtree K d → Tree K
  | d, .root, t => ⟨d, t⟩
  | _, .frame node metaIndex above, t => above.plug (node.setChild metaIndex t : InternalNode K (Subtree K _))

end Above

def descend (key : K) (leChild : Bool) : (d : Nat) → Above K d → Subtree K d → Above K 0 × LeafNode K
  | 0, above, leaf => (above, leaf)
  | d + 1, above, (n : InternalNode K (Subtree K d)) =>
      let metaIndex := n.getChildIndex key leChild
      descend key leChild d (.frame n metaIndex above) (n.getChild metaIndex)

def Tree.traverseToLeaf (tree : Tree K) (key : K) (leChild : Bool) : Above K 0 × LeafNode K :=
  descend key leChild tree.height .root tree.root

end Paths

section Splits

/-- What `PrepareForSplit` comes to: it gives up, with the nodes that it has frozen; it
has made a new root; or it has made a node to install in the place of another one. -/
inductive Prepared (K : Type) where
  | backOff (tree : Tree K)
  | newRoot (tree : Tree K)
  | install {d : Nat} (old new : InternalNode K (Subtree K d)) (above : Above K (d + 1))

/-- `InternalNode::PrepareForSplit`, for a node that is frozen. -/
def InternalNode.prepareForSplit (parameters : ParameterSet) (backoff : Bool) : {d : Nat} → Above K (d + 1) →
    (n : InternalNode K (Subtree K d)) → (key : K) → (left right : Subtree K d) → Option (Prepared K)
  | d, above, n, key, left, right =>
      if 32 + (n.size + (TreeKey.bytes key).length + 8 + 8) < parameters.splitThreshold then
        (n.newWithKey key left right).map fun new => .install n new above
      else
        (n.splitNode key left right).bind fun halves =>
          match above with
          | .root => some (.newRoot ⟨d + 2, (InternalNode.build halves.left
              [(halves.separator, halves.right)] : InternalNode K (Subtree K (d + 1)))⟩)
          | .frame parent metaIndex above =>
              if parent.frozen ∧ backoff then some (.backOff ((Above.frame parent metaIndex above).plug n))
              else
                InternalNode.prepareForSplit parameters backoff above
                  ({ parent with frozen := true }.setChild metaIndex n)
                  halves.separator halves.left halves.right
termination_by _ above => sizeOf above
decreasing_by
  rw [Above.frame.sizeOf_spec]
  omega

/-- `LeafNode::PrepareForSplit`, for a leaf that is frozen. -/
def LeafNode.prepareForSplit (parameters : ParameterSet) (backoff : Bool) (above : Above K 0)
    (leaf : LeafNode K) : Option (Prepared K) :=
  leaf.splitLeaf.bind fun (left, separator, right) =>
    match above with
    | .root => some (.newRoot ⟨1, (InternalNode.build left [(separator, right)] :
        InternalNode K (Subtree K 0))⟩)
    | .frame parent metaIndex above =>
        if parent.frozen ∧ backoff then some (.backOff ((Above.frame parent metaIndex above).plug leaf))
        else
          InternalNode.prepareForSplit parameters backoff above
            ({ parent with frozen := true }.setChild metaIndex leaf : InternalNode K (Subtree K 0))
            separator left right

end Splits

section Calls

/-- One round of the loop of `Insert`: the call returns, or goes on with `freeze_retry`. -/
inductive Round (K : Type) where
  | ret (tree : Tree K) (rc : ReturnCode)
  | again (tree : Tree K) (freezeRetry : Nat)
  | abort

/-- `grand_parent->Update` or `ChangeRoot`.  The pointers are those of the path, so that
only a grandparent that is frozen is in the way. -/
def Prepared.installed : Prepared K → Tree K
  | .backOff tree | .newRoot tree => tree
  | @Prepared.install _ d old new above =>
      match above with
      | .root => ⟨d + 1, new⟩
      | .frame grandParent metaIndex above =>
          (Above.frame grandParent metaIndex above).plug (if grandParent.frozen then old else new)

/-- The split of a leaf in `Insert`. -/
def Tree.split (parameters : ParameterSet) (above : Above K 0) (leaf : LeafNode K)
    (freezeRetry : Nat) : Round K :=
  match leaf.prepareForSplit parameters (freezeRetry ≤ 1) above with
  | none => .abort
  | some prepared => .again prepared.installed freezeRetry

def Tree.insertRound (parameters : ParameterSet) (tree : Tree K) (key : K) (payload : Word)
    (freezeRetry : Nat) : Round K :=
  match tree.traverseToLeaf key true with
  | (above, leaf) =>
      if 32 < above.length then .abort
      else
        match leaf.insert parameters key payload with
        | (leaf, .nodeFrozen) =>
            if freezeRetry + 1 ≤ 1 then .again tree (freezeRetry + 1)
            else Tree.split parameters above leaf (freezeRetry + 1)
        | (leaf, .notEnoughSpace) =>
            let frozenByMe := !leaf.frozen
            let leaf := { leaf with frozen := true }
            if frozenByMe then Tree.split parameters above leaf freezeRetry
            else if freezeRetry + 1 ≤ 1 then .again tree (freezeRetry + 1)
            else Tree.split parameters above leaf (freezeRetry + 1)
        | (leaf, rc) => .ret (above.plug leaf) rc

/-- `BzTree::Insert`, where it takes at most the given number of rounds. -/
def Tree.insert (parameters : ParameterSet) (key : K) (payload : Word) :
    (rounds : Nat) → Tree K → (freezeRetry : Nat) → Option (Tree K × ReturnCode)
  | 0, _, _ => none
  | rounds + 1, tree, freezeRetry =>
      match tree.insertRound parameters key payload freezeRetry with
      | .ret tree rc => some (tree, rc)
      | .again tree freezeRetry => Tree.insert parameters key payload rounds tree freezeRetry
      | .abort => none

def Tree.read (tree : Tree K) (key : K) : Option Word :=
  (tree.traverseToLeaf key true).2.read key

def Tree.update (tree : Tree K) (key : K) (payload : Word) : Tree K × ReturnCode :=
  match tree.traverseToLeaf key true with
  | (above, leaf) => (above.plug (leaf.update key payload).1, (leaf.update key payload).2)

/-- `BzTree::Delete`, which looks again for ever at a leaf that stays frozen. -/
def Tree.delete (tree : Tree K) (key : K) : Option (Tree K × ReturnCode) :=
  match tree.traverseToLeaf key true with
  | (above, leaf) =>
      match leaf.delete key with
      | (_, .nodeFrozen) => none
      | (leaf, rc) => some (above.plug leaf, rc)

inductive Request (K : Type) where
  | insert (key : K) (payload : Word)
  | update (key : K) (payload : Word)
  | upsert (key : K) (payload : Word)
  | read (key : K)
  | delete (key : K)

structure Reply where
  code : ReturnCode
  payload : Option Word
deriving DecidableEq

/-- A call, where an insertion takes at most the given number of rounds. -/
def Tree.call (parameters : ParameterSet) (rounds : Nat) (tree : Tree K) :
    Request K → Option (Tree K × Reply)
  | .insert key payload => (tree.insert parameters key payload rounds 0).map fun r => (r.1, ⟨r.2, none⟩)
  | .update key payload => some ((tree.update key payload).1, ⟨(tree.update key payload).2, none⟩)
  | .upsert key payload =>
      match tree.read key with
      | none => (tree.insert parameters key payload rounds 0).map fun r => (r.1, ⟨r.2, none⟩)
      | some tmpPayload =>
          if tmpPayload = payload then some (tree, ⟨.ok, none⟩)
          else some ((tree.update key payload).1, ⟨(tree.update key payload).2, none⟩)
  | .read key =>
      match tree.read key with
      | none => some (tree, ⟨.notFound, none⟩)
      | some payload => some (tree, ⟨.ok, some payload⟩)
  | .delete key => (tree.delete key).map fun r => (r.1, ⟨r.2, none⟩)

/-- The constructor: the root is an empty leaf. -/
def Tree.new : Tree K :=
  ⟨0, (LeafNode.new : LeafNode K)⟩

/-- Calls that return, one after the other, with what they return. -/
inductive Session (parameters : ParameterSet) : List (Request K × Reply) → Tree K → Prop
  | new : Session parameters [] Tree.new
  | call {log : List (Request K × Reply)} {tree tree' : Tree K} {request : Request K} {reply : Reply}
      (h : Session parameters log tree) (rounds : Nat)
      (hcall : tree.call parameters rounds request = some (tree', reply)) :
      Session parameters (log ++ [(request, reply)]) tree'

end Calls

end HashComp.BzTree
