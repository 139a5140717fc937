import HashComp.Library.Transfers
import Mathlib.Algebra.Group.Nat.Defs

/-!
The checkpoint of the hash table of the FASTER index: `InternalHashTable::Checkpoint`
and `InternalHashTable::Recover`, over a file that keeps the bytes it is given.  Chunk
size, transfer size and offsets are computed in 32 bits, as the code computes them.
-/

namespace HashComp.IndexFile

open Transfers

def INT32_MAX : Nat := 2 ^ 31 - 1

/-- `static_cast<uint32_t>`. -/
def uint32 (n : Nat) : Nat := n % 2 ^ 32

/-- `sizeof(HashBucket)`, seven entries and the overflow entry of eight bytes each. -/
def sizeofHashBucket : Nat := 64

def kCacheLineBytes : Nat := 64

def kNumMergeChunks : Nat := 256

def IsPowerOfTwo (x : Nat) : Bool := x != 0 && x &&& (x - 1) == 0

/-- The sizes that the constructor `FasterKv(table_size, ...)` does not reject. -/
def Accepted (table_size : Nat) : Prop :=
  IsPowerOfTwo table_size = true ∧ ¬table_size > INT32_MAX

/-- How a checkpoint or a recovery fails: an assertion stops the program, or the
operating system refuses a transfer. -/
inductive Failure where
  | assertion
  | IOError
deriving Repr, DecidableEq

def check (asserts : Bool) (p : Bool) : Except Failure Unit :=
  if asserts && !p then .error .assertion else .ok ()

/-- The table.  Byte `j` of bucket `i` is at the address `sizeof(HashBucket) * i + j`
of `buckets_`. -/
structure InternalHashTable where
  size_ : Nat
  buckets_ : Nat → UInt8

/-- A checkpoint file.  Bytes from the end of the file on are `none`. -/
structure File where
  unbuffered : Bool
  alignment : Nat
  alignment_power : IsPowerOfTwo alignment = true
  alignment_line : kCacheLineBytes ≤ alignment
  content : Nat → Option UInt8

/-- A transfer is submitted.  The kernel refuses a misaligned one on a file that is
opened with `O_DIRECT`; `DCHECK_ALIGNMENT` is empty unless `_DEBUG` is defined. -/
def File.submit (file : File) (t : Transfer) : Except Failure Transfer :=
  if file.unbuffered &&
      !(t.source % file.alignment == 0 && t.dest % file.alignment == 0 &&
        t.length % file.alignment == 0) then
    .error .IOError
  else .ok t

namespace InternalHashTable

/-- All the bytes of the bucket with the index `i`. -/
def bucketBytes (table : InternalHashTable) (i : Nat) (j : Fin sizeofHashBucket) : UInt8 :=
  table.buckets_ (sizeofHashBucket * i + j)

def bucket (asserts : Bool) (table : InternalHashTable) (idx : Nat) : Except Failure Nat := do
  check asserts (idx < table.size_)
  return sizeofHashBucket * idx

def Initialize (asserts : Bool) (new_size alignment : Nat) :
    Except Failure InternalHashTable := do
  check asserts (new_size < INT32_MAX)
  check asserts (IsPowerOfTwo new_size)
  check asserts (IsPowerOfTwo alignment)
  check asserts (alignment ≥ kCacheLineBytes)
  return { size_ := new_size, buckets_ := fun _ => 0 }

/-- The writes that are submitted, and `checkpoint_size`. -/
def Checkpoint (asserts : Bool) (table : InternalHashTable) (file : File) :
    Except Failure (List Transfer × Nat) := do
  check asserts (table.size_ % kNumMergeChunks == 0)
  let chunk_size := uint32 (table.size_ / kNumMergeChunks)
  let write_size := uint32 (chunk_size * sizeofHashBucket)
  check asserts (write_size % file.alignment == 0)
  let writes ← (List.range kNumMergeChunks).mapM fun idx => do
    let source ← table.bucket asserts (uint32 (idx * chunk_size))
    file.submit { source, dest := uint32 (idx * write_size), length := write_size }
  return (writes, table.size_ * sizeofHashBucket)

/-- The table that is initialised, and the reads into it that are submitted. -/
def Recover (asserts : Bool) (file : File) (checkpoint_size : Nat) :
    Except Failure (InternalHashTable × List Transfer) := do
  check asserts (checkpoint_size > 0)
  check asserts (checkpoint_size % sizeofHashBucket == 0)
  check asserts (checkpoint_size % kNumMergeChunks == 0)
  let read_size := uint32 (checkpoint_size / kNumMergeChunks)
  let chunk_size := uint32 (read_size / sizeofHashBucket)
  check asserts (read_size % file.alignment == 0)
  let table ← Initialize asserts (checkpoint_size / sizeofHashBucket) file.alignment
  let reads ← (List.range kNumMergeChunks).mapM fun idx => do
    let dest ← table.bucket asserts (uint32 (idx * chunk_size))
    file.submit { source := uint32 (idx * read_size), dest, length := read_size }
  return (table, reads)

/-- The reads have completed, in the order of the list.  A read leaves the bytes
beyond the end of the file as they are. -/
def fetched (table : InternalHashTable) (file : File) (reads : List Transfer) :
    InternalHashTable :=
  { table with
    buckets_ := performAll (fun x old => (file.content x).getD old) reads table.buckets_ }

end InternalHashTable

/-- The writes have completed, in the order of the list. -/
def File.written (file : File) (table : InternalHashTable) (writes : List Transfer) : File :=
  { file with content := performAll (fun x _ => some (table.buckets_ x)) writes file.content }

end HashComp.IndexFile
