import Mathlib.Data.UInt
import Mathlib.Logic.Function.Basic

/-!
The hash index of `index_hash.cpp`: a table of buckets for each partition, in a bucket a
list of nodes by key, in a node the list of the items of its key.
-/

namespace HashComp.HashIndex

/-- `idx_key_t`. -/
abbrev IdxKey := UInt64

abbrev NodeAddress := Nat

abbrev ItemAddress := Nat

structure BucketNode where
  key : IdxKey
  next : Option NodeAddress
  items : Option ItemAddress
  deriving DecidableEq, Repr

def BucketNode.init (key : IdxKey) : BucketNode := ⟨key, none, none⟩

structure BucketHeader where
  first_node : Option NodeAddress
  node_cnt : Nat
  locked : Bool
  deriving DecidableEq, Repr

def BucketHeader.init : BucketHeader := ⟨none, 0, false⟩

/-- The nodes the allocator has given out, at the addresses below `allocated`, and the
`next` pointers of the items of the callers. -/
structure Heap where
  nodes : NodeAddress → BucketNode
  allocated : Nat
  item_next : ItemAddress → Option ItemAddress

structure IndexHash where
  heap : Heap
  buckets : Nat → Nat → BucketHeader
  bucket_cnt_per_part : Nat

def initBuckets (bucket_cnt_per_part : Nat) :
    Nat → UInt32 → (Nat → BucketHeader) → Option (Nat → BucketHeader)
  | 0, _, _ => none
  | fuel + 1, n, buckets =>
      if n.toNat < bucket_cnt_per_part then
        initBuckets bucket_cnt_per_part fuel (n + 1) (Function.update buckets n.toNat .init)
      else some buckets

def initParts (bucket_cnt_per_part fuel : Nat) :
    Nat → Nat → (Nat → Nat → BucketHeader) → Option (Nat → Nat → BucketHeader)
  | 0, _, buckets => some buckets
  | parts + 1, i, buckets =>
      (initBuckets bucket_cnt_per_part fuel 0 (buckets i)).bind fun row =>
        initParts bucket_cnt_per_part fuel parts (i + 1) (Function.update buckets i row)

/-- `IndexHash::init`, in memory that may hold anything. -/
def IndexHash.init (heap : Heap) (memory : Nat → Nat → BucketHeader)
    (fuel bucket_cnt part_cnt : Nat) : Option IndexHash :=
  let bucket_cnt_per_part := bucket_cnt / part_cnt
  (initParts bucket_cnt_per_part fuel part_cnt 0 memory).map fun buckets =>
    { heap := heap, buckets := buckets, bucket_cnt_per_part := bucket_cnt_per_part }

/-- The loop of `insert_item` and of `read_item`: `cur_node` and `prev_node` at its end.  A
walk over more nodes than there are goes in a circle. -/
def findNode (nodes : NodeAddress → BucketNode) (key : IdxKey) :
    Nat → Option NodeAddress → Option NodeAddress →
      Option (Option NodeAddress × Option NodeAddress)
  | 0, _, _ => none
  | _ + 1, none, prev_node => some (none, prev_node)
  | fuel + 1, some cur_node, prev_node =>
      if (nodes cur_node).key = key then some (some cur_node, prev_node)
      else findNode nodes key fuel (nodes cur_node).next (some cur_node)

def Heap.appendNode (heap : Heap) (header : BucketHeader) (key : IdxKey) (item : ItemAddress)
    (prev_node : Option NodeAddress) : Heap × BucketHeader :=
  let new_node := heap.allocated
  let node : BucketNode := { BucketNode.init key with items := some item }
  match prev_node with
  | some prev =>
      let nodes := Function.update heap.nodes new_node
        { node with next := (heap.nodes prev).next }
      let nodes := Function.update nodes prev { nodes prev with next := some new_node }
      ({ heap with nodes := nodes, allocated := new_node + 1 }, header)
  | none =>
      let nodes := Function.update heap.nodes new_node { node with next := header.first_node }
      ({ heap with nodes := nodes, allocated := new_node + 1 },
        { header with first_node := some new_node })

def Heap.pushItem (heap : Heap) (cur_node : NodeAddress) (item : ItemAddress) : Heap :=
  let item_next := Function.update heap.item_next item (heap.nodes cur_node).items
  let node : BucketNode := { heap.nodes cur_node with items := some item }
  { heap with nodes := Function.update heap.nodes cur_node node, item_next := item_next }

def BucketHeader.insert_item (heap : Heap) (header : BucketHeader) (key : IdxKey)
    (item : ItemAddress) : Option (Heap × BucketHeader) :=
  (findNode heap.nodes key (heap.allocated + 1) header.first_node none).map fun found =>
    match found.1 with
    | none => heap.appendNode header key item found.2
    | some cur_node => (heap.pushItem cur_node item, header)

/-- `BucketHeader::read_item`.  There is no node to compare the key of if there is none
with the key. -/
def BucketHeader.read_item (heap : Heap) (header : BucketHeader) (key : IdxKey) :
    Option (Option ItemAddress) :=
  (findNode heap.nodes key (heap.allocated + 1) header.first_node none).bind fun found =>
    found.1.bind fun cur_node =>
      if (heap.nodes cur_node).key = key then some (heap.nodes cur_node).items else none

def IndexHash.hash (table : IndexHash) (key : IdxKey) : Nat :=
  key.toNat % table.bucket_cnt_per_part

def IndexHash.setBucket (table : IndexHash) (part_id bkt_idx : Nat) (header : BucketHeader) :
    Nat → Nat → BucketHeader :=
  Function.update table.buckets part_id
    (Function.update (table.buckets part_id) bkt_idx header)

/-- `IndexHash::index_insert`, by one thread: a latch that is taken stays so. -/
def IndexHash.index_insert (table : IndexHash) (key : IdxKey) (item : ItemAddress)
    (part_id : Nat) : Option IndexHash :=
  let bkt_idx := table.hash key
  if bkt_idx < table.bucket_cnt_per_part then
    let cur_bkt := table.buckets part_id bkt_idx
    if cur_bkt.locked then none
    else
      (BucketHeader.insert_item table.heap { cur_bkt with locked := true } key item).map
        fun inserted =>
          let header := { inserted.2 with locked := false }
          { table with heap := inserted.1, buckets := table.setBucket part_id bkt_idx header }
  else none

/-- `IndexHash::index_read`, in both forms: that with a thread does the same. -/
def IndexHash.index_read (table : IndexHash) (key : IdxKey) (part_id : Nat) :
    Option (Option ItemAddress) :=
  let bkt_idx := table.hash key
  if bkt_idx < table.bucket_cnt_per_part then
    BucketHeader.read_item table.heap (table.buckets part_id bkt_idx) key
  else none

structure Call where
  key : IdxKey
  item : ItemAddress
  part_id : Nat
  deriving DecidableEq, Repr

def IndexHash.insertAll (table : IndexHash) : List Call → Option IndexHash
  | [] => some table
  | call :: calls =>
      (table.index_insert call.key call.item call.part_id).bind fun table =>
        table.insertAll calls

/-- The items inserted for a key into a partition, the newest first. -/
def inserted (calls : List Call) (key : IdxKey) (part_id : Nat) : List ItemAddress :=
  ((calls.filter fun call => call.key = key ∧ call.part_id = part_id).map Call.item).reverse

end HashComp.HashIndex
