import HashComp.Faster.Buckets

/-!
The hash index while threads install entries for `Upsert` and `Rmw` and while
others clean it after `ShiftBeginAddress`: `FindOrCreateEntry`, the exchange of
the entry that it has returned, and `CleanHashTableBuckets`, one access to an
entry at a time.  The chain of overflow buckets behind a bucket is one list of
slots, at the end of which `FindTentativeEntry` puts a new bucket, unless another
thread has done so.
-/

namespace HashComp.Index

open HashComp.Faster

def kGcHashTableChunkSize : Nat := 16384

def kGrowHashTableChunkSize : Nat := 16384

inductive Pc (K : Type) where
  | idle
  /-- `FindOrCreateEntry`: `FindTentativeEntry` at a slot with the first free slot
  before it, the exchange, `HasConflictingEntry`, and the two stores. -/
  | scanning (key : K) (i : Nat) (atomicEntry : Option Nat)
  | installing (key : K) (slot : Nat)
  | tagging (key : K) (slot : Nat)
  | checking (key : K) (slot : Nat) (tag : BitVec 14) (i : Nat)
  | backing (key : K) (slot : Nat)
  | confirming (key : K) (slot : Nat)
  /-- It has returned the slot and the entry. -/
  | found (key : K) (slot : Nat) (expected : HashBucketEntry)
  | exchanging (key : K) (slot : Nat) (expected : HashBucketEntry) (newAddress : Nat)
  /-- `CleanHashTableBuckets` with its chunk: the load of `begin_address`, the loop
  over the buckets, the loop over the slots, and the exchange. -/
  | starting (chunk : Nat)
  | visiting (chunk upperBound beginAddress idx : Nat)
  | cleaning (chunk upperBound beginAddress idx i : Nat)
  | collecting (chunk upperBound beginAddress idx i : Nat) (expected : HashBucketEntry)
  /-- It has read beyond the end of the table. -/
  | faulted
  deriving DecidableEq

/-- The table and the threads.  `growNumChunks` is the `num_chunks` of the
`GrowState`, `gcNumChunks` and `nextChunk` are those of the `GcState`.  `accessed`
and `processed` are the buckets that `CleanHashTableBuckets` has addressed and the
chunks it is done with since the last `ShiftBeginAddress`, and are read by no
step. -/
structure System (K : Type) where
  buckets : Nat → Bucket
  tailAddress : Nat
  beginAddress : Nat
  growNumChunks : Nat
  gcNumChunks : Nat
  nextChunk : Nat
  pc : Nat → Pc K
  accessed : List Nat
  processed : List Nat

inductive Move (K : Type) where
  /-- An `Upsert` or `Rmw` calls `FindOrCreateEntry`. -/
  | call (t : Nat) (key : K)
  | run (t : Nat)
  /-- It returns without an exchange. -/
  | finish (t : Nat)
  /-- `BlockAllocate` has returned the address of its new record. -/
  | allocate (t : Nat) (address : Nat)
  | cleanHashTableBuckets (t : Nat)
  | shiftBeginAddress (t : Nat) (address : Nat)
  deriving DecidableEq

section Steps

variable {K : Type} (L : Layout K)

/-- A new store.  Nothing initialises `num_chunks` of the `GrowState`. -/
def System.start (growNumChunks : Nat) : System K where
  buckets := fun _ => List.replicate kNumEntries none
  tailAddress := kCacheLineBytes
  beginAddress := kCacheLineBytes
  growNumChunks := growNumChunks
  gcNumChunks := 0
  nextChunk := 0
  pc := fun _ => .idle
  accessed := []
  processed := []

def System.goto (x : System K) (t : Nat) (pc : Pc K) : System K :=
  { x with pc := Function.update x.pc t pc }

def System.setSlot (x : System K) (b slot : Nat) (entry : Option HashBucketEntry) : System K :=
  { x with buckets := Function.update x.buckets b ((x.buckets b).set slot entry) }

def System.extend (x : System K) (b : Nat) : System K :=
  { x with
    buckets := Function.update x.buckets b (x.buckets b ++ List.replicate kNumEntries none) }

/-- The number of buckets of a chunk, as `CleanHashTableBuckets` computes it. -/
def upperBound (tableSize growNumChunks chunk : Nat) : Nat :=
  if chunk + 1 < growNumChunks then kGrowHashTableChunkSize
  else tableSize - chunk * kGcHashTableChunkSize

def bucketOf (chunk idx : Nat) : Nat :=
  chunk * kGcHashTableChunkSize + idx

def Truncated (beginAddress : Nat) (entry : HashBucketEntry) : Prop :=
  entry.address ≠ kInvalidAddress ∧ entry.address < beginAddress

instance (beginAddress : Nat) (entry : HashBucketEntry) :
    Decidable (Truncated beginAddress entry) :=
  inferInstanceAs (Decidable (_ ∧ _))

def System.step (x : System K) (t : Nat) : Option (System K) :=
  match x.pc t with
  | .idle | .found _ _ _ | .faulted => none
  | .scanning key i atomicEntry =>
      match (x.buckets (L.idx key))[i]? with
      | none =>
          match atomicEntry with
          | some slot => some (x.goto t (.installing key slot))
          | none => some ((x.extend (L.idx key)).goto t (.installing key i))
      | some none => some (x.goto t (.scanning key (i + 1) (atomicEntry <|> some i)))
      | some (some entry) =>
          if L.tag key = entry.tag ∧ entry.tentative = false then
            some (x.goto t (.found key i entry))
          else some (x.goto t (.scanning key (i + 1) atomicEntry))
  | .installing key slot =>
      if (x.buckets (L.idx key))[slot]? = some none then
        some ((x.setSlot (L.idx key) slot (some ⟨kInvalidAddress, L.tag key, true⟩)).goto t
          (.tagging key slot))
      else some (x.goto t (.scanning key 0 none))
  | .tagging key slot =>
      match (x.buckets (L.idx key))[slot]? with
      | some (some entry) => some (x.goto t (.checking key slot entry.tag 0))
      | _ => some (x.goto t (.checking key slot 0 0))
  | .checking key slot tag i =>
      match (x.buckets (L.idx key))[i]? with
      | none => some (x.goto t (.confirming key slot))
      | some none => some (x.goto t (.checking key slot tag (i + 1)))
      | some (some entry) =>
          if entry.tag = tag ∧ slot ≠ i then some (x.goto t (.backing key slot))
          else some (x.goto t (.checking key slot tag (i + 1)))
  | .backing key slot => some ((x.setSlot (L.idx key) slot none).goto t (.scanning key 0 none))
  | .confirming key slot =>
      some ((x.setSlot (L.idx key) slot (some (freshEntry (L.tag key)))).goto t
        (.found key slot (freshEntry (L.tag key))))
  | .exchanging key slot expected newAddress =>
      if (x.buckets (L.idx key))[slot]? = some (some expected) then
        some ((x.setSlot (L.idx key) slot (some ⟨newAddress, L.tag key, false⟩)).goto t .idle)
      else some (x.goto t (.scanning key 0 none))
  | .starting chunk =>
      some (x.goto t
        (.visiting chunk (upperBound L.tableSize x.growNumChunks chunk) x.beginAddress 0))
  | .visiting chunk bound first idx =>
      if idx < bound then
        let y := { x with accessed := bucketOf chunk idx :: x.accessed }
        if bucketOf chunk idx < L.tableSize then some (y.goto t (.cleaning chunk bound first idx 0))
        else some (y.goto t .faulted)
      else some ({ x with processed := chunk :: x.processed }.goto t .idle)
  | .cleaning chunk bound first idx i =>
      match (x.buckets (bucketOf chunk idx))[i]? with
      | none => some (x.goto t (.visiting chunk bound first (idx + 1)))
      | some none => some (x.goto t (.cleaning chunk bound first idx (i + 1)))
      | some (some entry) =>
          if Truncated first entry then
            some (x.goto t (.collecting chunk bound first idx i entry))
          else some (x.goto t (.cleaning chunk bound first idx (i + 1)))
  | .collecting chunk bound first idx i expected =>
      let y := x.goto t (.cleaning chunk bound first idx (i + 1))
      if (x.buckets (bucketOf chunk idx))[i]? = some (some expected) then
        some (y.setSlot (bucketOf chunk idx) i none)
      else some y

def System.next [DecidableEq K] (x : System K) : Move K → Option (System K)
  | .call t key => if x.pc t = .idle then some (x.goto t (.scanning key 0 none)) else none
  | .run t => x.step L t
  | .finish t =>
      match x.pc t with
      | .found _ _ _ => some (x.goto t .idle)
      | _ => none
  | .allocate t address =>
      match x.pc t with
      | .found key slot expected =>
          if x.tailAddress ≤ address then
            some ({ x with tailAddress := address + recordSize }.goto t
              (.exchanging key slot expected address))
          else none
      | _ => none
  | .cleanHashTableBuckets t =>
      if x.pc t = .idle then
        let y := { x with nextChunk := x.nextChunk + 1 }
        if x.nextChunk < x.gcNumChunks then some (y.goto t (.starting x.nextChunk)) else some y
      else none
  | .shiftBeginAddress t address =>
      if x.pc t = .idle then
        some { x with
          beginAddress := address
          gcNumChunks := max (L.tableSize / kGcHashTableChunkSize) 1
          nextChunk := 0
          accessed := []
          processed := [] }
      else none

end Steps

end HashComp.Index
