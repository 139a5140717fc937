import HashComp.Library.CheckedLoops
import Mathlib.Algebra.Group.Nat.Defs

/-!
The B+-tree `index_btree` of one partition, with latches disabled.  A node keeps
`order - 1` keys and `order` pointers; the pointers of a leaf lead to items.
Memory handed out by the allocator has arbitrary contents, and an access outside
an array is a fault.
-/

namespace HashComp.IndexBtree

open HashComp.CheckedLoops

abbrev Addr := Nat

/-- `BTREE_ORDER`. -/
def order : Nat := 16

structure BtNode where
  pointers : Cells order (Option Addr)
  isLeaf : Bool
  keys : Cells (order - 1) Nat
  parent : Option Addr
  numKeys : Nat
  next : Option Addr

/-- What the slots of a node hold before the first write. -/
structure RawNode where
  pointers : Cells order (Option Addr)
  keys : Cells (order - 1) Nat

/-- The tree with the cursor of each thread.  `itemNext` is the field `next` of the
items. -/
structure Btree where
  raw : Addr → RawNode
  nodes : Addr → Option BtNode
  fresh : Addr
  root : Addr
  itemNext : Addr → Option Addr
  curLeaf : Nat → Option Addr
  curIdx : Nat → Nat

inductive Access where
  | insert
  | read
deriving DecidableEq

namespace Btree

def node (s : Btree) (a : Addr) : Except Fault BtNode :=
  match s.nodes a with
  | some n => .ok n
  | none => .error .nullPointer

def put (s : Btree) (a : Addr) (n : BtNode) : Btree :=
  { s with nodes := Function.update s.nodes a (some n) }

def newNode (s : Btree) (isLeaf : Bool) : BtNode where
  pointers := (s.raw s.fresh).pointers
  isLeaf := isLeaf
  keys := (s.raw s.fresh).keys
  parent := none
  numKeys := 0
  next := none

/-- `make_node`, `make_lf` and `make_nl` allocate a node and set its kind. -/
def make (s : Btree) (isLeaf : Bool) : Btree :=
  { s.put s.fresh (s.newNode isLeaf) with fresh := s.fresh + 1 }

end Btree

/-- `init`: the root is an empty leaf, and the items of the calls to come are
freshly initialised. -/
def init (raw : Addr → RawNode) (curLeaf : Nat → Option Addr) (curIdx : Nat → Nat) : Btree :=
  Btree.make
    { raw, nodes := fun _ => none, fresh := 0, root := 0, itemNext := fun _ => none
      curLeaf, curIdx } true

def deref (p : Option Addr) : Except Fault Addr :=
  match p with
  | some a => .ok a
  | none => .error .nullPointer

def leafHasKey (leaf : BtNode) (key : Nat) : Except Fault (Option Nat) := do
  let i ← scanUp 0 leaf.numKeys fun i => do
    let k ← leaf.keys.read i
    .ok (k == key)
  .ok (if i < leaf.numKeys then some i else none)

def cut (length : Nat) : Nat :=
  if length % 2 = 0 then length / 2 else length / 2 + 1

def climb (s : Btree) (lastEx : Addr) : (fuel : Nat) → (node : Addr) → Except Fault Unit
  | 0, _ => .error .unfinished
  | fuel + 1, node => do
      let n ← s.node node
      let p ← deref n.parent
      if p = lastEx then .ok () else climb s lastEx fuel p

def cleanup (s : Btree) (node : Addr) : (lastEx : Option Addr) → Except Fault Unit
  | none => .ok ()
  | some e => climb s e s.fresh node

/-- The child that a search for the key takes in an inner node. -/
def childFor (c : BtNode) (key : Nat) : Except Fault Addr := do
  let i ← scanUp 0 c.numKeys fun i => do
    let k ← c.keys.read i
    .ok (decide (key < k))
  let p ← c.pointers.read i
  deref p

def findLeaf (s : Btree) (key : Nat) (access : Access) :
    (fuel : Nat) → (c : Addr) → (lastEx : Option Addr) → Except Fault (Addr × Option Addr)
  | 0, _, _ => .error .unfinished
  | fuel + 1, c, lastEx => do
      let n ← s.node c
      if n.isLeaf then .ok (c, lastEx)
      else do
        let child ← childFor n key
        match access with
        | .read => findLeaf s key access fuel child lastEx
        | .insert => do
            let m ← s.node child
            if m.numKeys = order - 1 then
              findLeaf s key access fuel child (some (lastEx.getD c))
            else do
              cleanup s c lastEx
              findLeaf s key access fuel child none

/-- The position at which `insert_into_leaf` and `split_lf_insert` put a new key. -/
def insertionPoint (leaf : BtNode) (key : Nat) : Except Fault Nat :=
  scanUp 0 leaf.numKeys fun i => do
    let k ← leaf.keys.read i
    .ok (!decide (k < key))

def moveUp (i : Nat) (n : BtNode) : Except Fault BtNode := do
  let k ← n.keys.read (i - 1)
  let keys ← n.keys.write i k
  let p ← n.pointers.read (i - 1)
  let pointers ← n.pointers.write i p
  .ok { n with keys, pointers }

/-- The part of `insert_into_leaf` for a key that the leaf does not have. -/
def placeInLeaf (leaf : BtNode) (point key : Nat) (item : Addr) : Except Fault BtNode := do
  let leaf ← forDown point leaf.numKeys moveUp leaf
  let keys ← leaf.keys.write point key
  let pointers ← leaf.pointers.write point (some item)
  if leaf.numKeys + 1 < order then
    .ok { leaf with keys, pointers, numKeys := leaf.numKeys + 1 }
  else .error .assertion

def insertIntoLeaf (s : Btree) (leaf : Addr) (key : Nat) (item : Addr) :
    Except Fault Btree := do
  let n ← s.node leaf
  let found ← leafHasKey n key
  match found with
  | some idx => do
      let old ← n.pointers.read idx
      let pointers ← n.pointers.write idx (some item)
      .ok { s.put leaf { n with pointers } with
        itemNext := Function.update s.itemNext item old }
  | none => do
      let point ← insertionPoint n key
      let n ← placeInLeaf n point key item
      .ok (s.put leaf n)

section Temp

variable {α : Type} {m k : Nat}

/-- One round of the loops that fill `temp_keys` and `temp_pointers`, with `j` and the
temporary array. -/
def spreadRound (src : Cells m α) (pos i : Nat) (r : Nat × Cells k α) :
    Except Fault (Nat × Cells k α) := do
  let j := if r.1 = pos then r.1 + 1 else r.1
  let x ← src.read i
  let temp ← r.2.write j x
  .ok (j + 1, temp)

/-- The loops that fill `temp_keys` and `temp_pointers`: `count` slots of `src` and
`v` at the position `pos`. -/
def spread (src : Cells m α) (count pos : Nat) (v : α) (temp : Cells k α) :
    Except Fault (Cells k α) := do
  let r ← forUp 0 count (spreadRound src pos) (0, temp)
  r.2.write pos v

/-- One round of the loops that move entries from the temporary arrays to a node.  It
asserts that `checked` stays below the order. -/
def takeRound (checked : BtNode → Nat) (tempKeys : Cells order Nat)
    (tempPointers : Cells k (Option Addr)) (start j : Nat) (n : BtNode) : Except Fault BtNode := do
  let p ← tempPointers.read (start + j)
  let pointers ← n.pointers.write j p
  let x ← tempKeys.read (start + j)
  let keys ← n.keys.write j x
  let n := { n with keys, pointers, numKeys := n.numKeys + 1 }
  if checked n < order then .ok n else .error .assertion

def take (checked : BtNode → Nat) (tempKeys : Cells order Nat)
    (tempPointers : Cells k (Option Addr)) (start count : Nat) (n : BtNode) : Except Fault BtNode :=
  forUp 0 count (takeRound checked tempKeys tempPointers start) n

def clearSlot (i : Nat) (n : BtNode) : Except Fault BtNode := do
  let pointers ← n.pointers.write i none
  .ok { n with pointers }

/-- `for (i = num_keys; i < order - 1; i++) pointers[i] = NULL;` -/
def clearRest (n : BtNode) : Except Fault BtNode :=
  forUp n.numKeys (order - 1) clearSlot n

end Temp

/-- `split_lf_insert` up to its call of `insert_into_parent`: the leaf, the key for
the parent and the new leaf. -/
def splitLeaf (s : Btree) (leaf : Addr) (key : Nat) (item : Addr) :
    Except Fault (Btree × Nat × Addr) := do
  let newLeaf := s.fresh
  let raw := s.raw newLeaf
  let s := s.make true
  let n ← s.node leaf
  if n.numKeys = order - 1 then do
    let point ← insertionPoint n key
    let tempKeys ← spread n.keys n.numKeys point key (⟨raw.keys.slot⟩ : Cells order Nat)
    let tempPointers ← spread n.pointers n.numKeys point (some item)
      (⟨raw.pointers.slot⟩ : Cells order (Option Addr))
    let n ← take BtNode.numKeys tempKeys tempPointers 0 (cut (order - 1)) { n with numKeys := 0 }
    let r ← s.node newLeaf
    let r ← take (fun _ => n.numKeys) tempKeys tempPointers (cut (order - 1))
      (order - cut (order - 1)) r
    let r := { r with next := n.next }
    let n := { n with next := some newLeaf }
    let n ← clearRest n
    let r ← clearRest r
    let r := { r with parent := n.parent }
    let newKey ← r.keys.read 0
    .ok ((s.put leaf n).put newLeaf r, newKey, newLeaf)
  else .error .assertion

def insertIntoNewRoot (s : Btree) (left : Addr) (key : Nat) (right : Addr) :
    Except Fault Btree := do
  let newRoot := s.fresh
  let s := s.make false
  let r ← s.node newRoot
  let keys ← r.keys.write 0 key
  let pointers ← r.pointers.write 0 (some left)
  let pointers ← pointers.write 1 (some right)
  if r.numKeys + 1 < order then do
    let s := s.put newRoot { r with keys, pointers, numKeys := r.numKeys + 1, parent := none }
    let l ← s.node left
    let s := s.put left { l with parent := some newRoot }
    let n ← s.node right
    let s := s.put right { n with parent := some newRoot }
    let l ← s.node left
    let s := s.put left { l with next := some right }
    .ok { s with root := newRoot }
  else .error .assertion

section Parent

/-- What a read of `keys` one slot past the array gives: nothing, or whatever the
memory there holds. -/
abbrev Past := Option (Btree → Addr → Nat)

variable (past : Past)

/-- The read of `keys[insert_idx]` that comes before the test of its bound. -/
def readKey (s : Btree) (a : Addr) (p : BtNode) (i : Nat) : Except Fault Nat :=
  match past with
  | none => p.keys.read i
  | some value => if i < order - 1 then p.keys.read i else .ok (value s a)

/-- `while (keys[insert_idx] < key && insert_idx < num_keys) insert_idx++;` with
`rest` positions left before `num_keys`. -/
def insertIdx (s : Btree) (a : Addr) (p : BtNode) (key : Nat) :
    (rest : Nat) → (idx : Nat) → Except Fault Nat
  | 0, idx => do
      let _ ← readKey past s a p idx
      .ok idx
  | rest + 1, idx => do
      let k ← readKey past s a p idx
      if k < key then insertIdx s a p key rest (idx + 1) else .ok idx

/-- `for (UInt32 i = num_keys - 1; i >= insert_idx; i--)`: the counter wraps around. -/
def shiftParent (idx : Nat) : (fuel i : Nat) → BtNode → Except Fault BtNode
  | 0, _, _ => .error .unfinished
  | fuel + 1, i, n =>
      if idx ≤ i then do
        let k ← n.keys.read i
        let keys ← n.keys.write ((i + 1) % 2 ^ 32) k
        let p ← n.pointers.read ((i + 1) % 2 ^ 32)
        let pointers ← n.pointers.write ((i + 2) % 2 ^ 32) p
        shiftParent idx fuel ((i + 2 ^ 32 - 1) % 2 ^ 32) { n with keys, pointers }
      else .ok n

def placeInParent (p : BtNode) (idx key : Nat) (right : Addr) : Except Fault BtNode := do
  let n ← shiftParent idx (p.numKeys + 2) ((p.numKeys + 2 ^ 32 - 1) % 2 ^ 32) p
  let keys ← n.keys.write idx key
  let pointers ← n.pointers.write (idx + 1) (some right)
  .ok { n with keys, pointers, numKeys := n.numKeys + 1 }

/-- `child = new_node->pointers[i]; child->parent = new_node;` -/
def adoptChild (newNode : Addr) (n : BtNode) (i : Nat) (s : Btree) : Except Fault Btree := do
  let p ← n.pointers.read i
  let child ← deref p
  let c ← s.node child
  .ok (s.put child { c with parent := some newNode })

def adopt (s : Btree) (newNode : Addr) (n : BtNode) : Except Fault Btree :=
  forUp 0 (n.numKeys + 1) (adoptChild newNode n) s

/-- `split_nl_insert` up to its call of `insert_into_parent`: the key for the parent
and the new node. -/
def splitInner (s : Btree) (oldNode : Addr) (leftIndex key : Nat) (right : Addr) :
    Except Fault (Btree × Nat × Addr) := do
  let newNode := s.fresh
  let raw := s.raw newNode
  let s := s.make false
  let n ← s.node oldNode
  let tempPointers ← spread n.pointers (n.numKeys + 1) (leftIndex + 1) (some right)
    (⟨raw.pointers.slot⟩ : Cells (order + 1) (Option Addr))
  let tempKeys ← spread n.keys n.numKeys leftIndex key (⟨raw.keys.slot⟩ : Cells order Nat)
  let n ← take BtNode.numKeys tempKeys tempPointers 0 (cut order - 1) { n with numKeys := 0 }
  let r ← s.node newNode
  let r := { r with next := n.next }
  let n := { n with next := some newNode }
  let p ← tempPointers.read (cut order - 1)
  let pointers ← n.pointers.write (cut order - 1) p
  let n := { n with pointers }
  let kPrime ← tempKeys.read (cut order - 1)
  let r ← take (fun _ => n.numKeys) tempKeys tempPointers (cut order) (order - cut order) r
  let p ← tempPointers.read order
  let pointers ← r.pointers.write (order - cut order) p
  let r := { r with pointers, parent := n.parent }
  let s ← adopt ((s.put oldNode n).put newNode r) newNode r
  .ok (s, kPrime, newNode)

def insertIntoParent : (fuel : Nat) → Btree → (left : Addr) → (key : Nat) →
    (right : Addr) → Except Fault Btree
  | 0, _, _, _, _ => .error .unfinished
  | fuel + 1, s, left, key, right => do
      let l ← s.node left
      match l.parent with
      | none => insertIntoNewRoot s left key right
      | some parent => do
          let p ← s.node parent
          let idx ← insertIdx past s parent p key p.numKeys 0
          if p.numKeys < order - 1 then do
            let p ← placeInParent p idx key right
            .ok (s.put parent p)
          else do
            let (s, kPrime, newNode) ← splitInner s parent idx key right
            insertIntoParent fuel s parent kPrime newNode

def splitLfInsert (s : Btree) (leaf : Addr) (key : Nat) (item : Addr) :
    Except Fault Btree := do
  let (s, newKey, newLeaf) ← splitLeaf s leaf key item
  insertIntoParent past s.fresh s leaf newKey newLeaf

/-- The nodes that `index_insert` lists as latched: the leaf and the nodes from it up
to `last_ex`.  The list has room for 100, more than the height that 64-bit keys can give. -/
def exList (s : Btree) (leaf : Addr) (lastEx : Option Addr) : Except Fault Unit :=
  if lastEx = some leaf then .ok () else cleanup s leaf lastEx

def indexInsert (s : Btree) (key : Nat) (item : Addr) : Except Fault Btree := do
  let (leaf, lastEx) ← findLeaf s key .insert s.fresh s.root none
  exList s leaf lastEx
  let n ← s.node leaf
  let found ← leafHasKey n key
  if n.numKeys < order - 1 ∨ found.isSome then insertIntoLeaf s leaf key item
  else splitLfInsert past s leaf key item

end Parent

/-- `index_read` with a `uint64_t` and an `int64_t`, in the partition 0: the chain of the
key, with the cursor of the thread on the key. -/
def indexRead (s : Btree) (key thdId : Nat) : Except Fault (Btree × Option Addr) := do
  let (leaf, _) ← findLeaf s key .read s.fresh s.root none
  let n ← s.node leaf
  let found ← leafHasKey n key
  match found with
  | some i => do
      let item ← n.pointers.read i
      .ok ({ s with
        curLeaf := Function.update s.curLeaf thdId (some leaf)
        curIdx := Function.update s.curIdx thdId i }, item)
  | none => .error .assertion

/-- The overloads of `index_read` that give an item back, by the arguments after it. -/
inductive ReadForm where
  /-- `uint64_t thd_id, int64_t part_id`. -/
  | threadPart (thdId : Nat) (partId : Int)
  /-- `int part_id, int thd_id`. -/
  | partThread (partId thdId : Int)
  /-- `int part_id`. -/
  | part (partId : Int)
  | plain

/-- The calls that the overloads make of each other: those with two arguments of type `int`
are calls of the one with two of type `int`. -/
def indexReadForm (s : Btree) (key : Nat) :
    (fuel : Nat) → ReadForm → Except Fault (Btree × Option Addr)
  | 0, _ => .error .unfinished
  | _ + 1, .threadPart thdId partId =>
      if partId = 0 then indexRead s key thdId else .error .assertion
  | fuel + 1, .partThread partId thdId => indexReadForm s key fuel (.partThread thdId partId)
  | fuel + 1, .part partId => indexReadForm s key fuel (.partThread 0 partId)
  | _ + 1, .plain => .error .assertion

def indexNext (s : Btree) (thdId : Nat) (samekey : Bool) :
    Except Fault (Btree × Option Addr) := do
  let leaf ← deref (s.curLeaf thdId)
  let n ← s.node leaf
  let curKey ← n.keys.read (s.curIdx thdId)
  let idx := s.curIdx thdId + 1
  let (leaf, idx) := if n.numKeys ≤ idx then (n.next, 0) else (some leaf, idx)
  let s := { s with
    curLeaf := Function.update s.curLeaf thdId leaf
    curIdx := Function.update s.curIdx thdId idx }
  match leaf with
  | none => .ok (s, none)
  | some a => do
      let n ← s.node a
      if n.isLeaf then do
        let differs ← if samekey then do
            let k ← n.keys.read idx
            .ok (decide (k ≠ curKey))
          else .ok false
        let item ← n.pointers.read idx
        .ok (s, if differs then none else item)
      else .error .assertion

end HashComp.IndexBtree
