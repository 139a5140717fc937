import HashComp.Library.Threads
import Mathlib.Algebra.Group.Nat.Defs

/-!
Level hashing (`level_hashing.c`): a top level of buckets over a bottom level with
half as many, two buckets for a key in each, and a spin lock for every slot.  A
thread takes a step to acquire a lock and a step to release it, and what it does
with the slot in between belongs to the release.  A key is the C string in its
`KEY_LEN` bytes, which is all that `strlen` and `strcmp` look at.  A lock beyond
the end of `level_locks` leads to `fault`, and `exit(1)` to `exited`.
-/

namespace HashComp.LevelHashing

open HashComp.Threads

def assocNum : Nat := 4

inductive Level where
  | top
  | bottom
  deriving DecidableEq

structure Slot where
  level : Level
  bucket : Nat
  index : Nat
  deriving DecidableEq

structure Cell (K V : Type*) where
  token : Bool
  key : K
  value : V

/-- The two seeded hash functions, `F_HASH` and `S_HASH`. -/
structure Hashing (K : Type*) where
  fHash : K → BitVec 64
  sHash : K → BitVec 64

/-- `level_hash`.  `bucketCount` and `lockCount` are the numbers of elements that
`buckets` and `level_locks` have been allocated with, and a lock that is taken
has the thread that has taken it. -/
structure Table (K V : Type*) where
  cells : Slot → Cell K V
  locks : Slot → Option Nat
  bucketCount : Level → Nat
  lockCount : Level → Nat
  addrCapacity : Nat
  levelSize : Nat
  levelResize : Nat

inductive Search (K V : Type*) where
  | query (key : K)
  | update (key : K) (newValue : V)
  | delete (key : K)
  deriving DecidableEq

inductive Op (K V : Type*) where
  | search (s : Search K V)
  | insert (key : K) (value : V)
  | resize
  deriving DecidableEq

/-- What a call returns.  `value` is 0 with what `level_query` has copied. -/
inductive Reply (V : Type*) where
  | code (n : Nat)
  | value (v : V)
  | void
  deriving DecidableEq

/-- `try_movement` on a bucket of a level, or `b2t_movement` on a bucket of the
bottom level. -/
inductive Movement where
  | tryMovement (levelNum : Level) (idx : Nat)
  | b2tMovement (idx : Nat)
  deriving DecidableEq

/-- Where a thread stands: about to acquire the lock of a slot (`search`, `scan`,
`source`, `target`), or about to use and release the slot whose lock it has got.
`slots` are the slots that the loop has not come to yet. -/
inductive Local (K V : Type*) where
  | called (op : Op K V)
  | search (s : Search K V) (slots : List Slot)
  | searchLocked (s : Search K V) (slot : Slot) (slots : List Slot)
  | scan (key : K) (value : V) (slots : List Slot)
  | scanLocked (key : K) (value : V) (slot : Slot) (slots : List Slot)
  /-- Iteration `i` of the first of the movements. -/
  | source (key : K) (value : V) (movements : List Movement) (i : Nat)
  | target (key : K) (value : V) (m : Movement) (movements : List Movement) (i : Nat)
      (slots : List Slot)
  | targetLocked (key : K) (value : V) (m : Movement) (movements : List Movement) (i : Nat)
      (slot : Slot) (slots : List Slot)
  /-- The item has been moved, and its slot is still locked. -/
  | fill (key : K) (value : V) (m : Movement) (i : Nat)
  | resizing
  | done (op : Op K V) (reply : Reply V)
  | fault
  | exited
  deriving DecidableEq

section Addresses

def fIdx (hashKey capacity : Nat) : Nat :=
  hashKey % (capacity / 2)

def sIdx (hashKey capacity : Nat) : Nat :=
  hashKey % (capacity / 2) + capacity / 2

def consecutive (fIdx sIdx : Nat) : List (Nat × Nat) :=
  (List.range assocNum).map (fIdx, ·) ++ (List.range assocNum).map (sIdx, ·)

def alternating (fIdx sIdx : Nat) : List (Nat × Nat) :=
  (List.range assocNum).flatMap fun j => [(fIdx, j), (sIdx, j)]

def Level.slot (level : Level) (p : Nat × Nat) : Slot :=
  ⟨level, p.1, p.2⟩

end Addresses

section Table

variable {K V : Type*} (H : Hashing K) (t : Table K V)

def Table.capacity : Level → Nat
  | .top => t.addrCapacity
  | .bottom => t.addrCapacity / 2

def Table.fBucket (level : Level) (key : K) : Nat :=
  fIdx (H.fHash key).toNat (t.capacity level)

def Table.sBucket (level : Level) (key : K) : Nat :=
  sIdx (H.sHash key).toNat (t.capacity level)

/-- The slots in the order of `level_query`, `level_update` and `level_delete`. -/
def Table.searchOrder (key : K) : List Slot :=
  [Level.top, Level.bottom].flatMap fun level =>
    (consecutive (t.fBucket H level key) (t.sBucket H level key)).map level.slot

def Table.insertOrder (key : K) : List Slot :=
  [Level.top, Level.bottom].flatMap fun level =>
    (alternating (t.fBucket H level key) (t.sBucket H level key)).map level.slot

def Table.movements (key : K) : List Movement :=
  [.tryMovement .top (t.fBucket H .top key), .tryMovement .top (t.sBucket H .top key),
    .tryMovement .bottom (t.fBucket H .bottom key),
    .tryMovement .bottom (t.sBucket H .bottom key)] ++
  if 0 < t.levelResize then
    [.b2tMovement (t.fBucket H .bottom key), .b2tMovement (t.sBucket H .bottom key)]
  else []

def Movement.source : Movement → Nat → Slot
  | .tryMovement levelNum idx, i => ⟨levelNum, idx, i⟩
  | .b2tMovement idx, i => ⟨.bottom, idx, i⟩

def Movement.targets (key : K) : Movement → List Slot
  | .tryMovement levelNum idx =>
      let jdx :=
        if t.fBucket H levelNum key = idx then t.sBucket H levelNum key
        else t.fBucket H levelNum key
      (List.range assocNum).map fun j => ⟨levelNum, jdx, j⟩
  | .b2tMovement _ => (alternating (t.fBucket H .top key) (t.sBucket H .top key)).map Level.top.slot

def Search.key : Search K V → K
  | .query key | .update key _ | .delete key => key

def Table.lock (tid : Nat) (slot : Slot) : Table K V :=
  { t with locks := Function.update t.locks slot (some tid) }

def Table.unlock (slot : Slot) : Table K V :=
  { t with locks := Function.update t.locks slot none }

def Table.setCell (slot : Slot) (cell : Cell K V) : Table K V :=
  { t with cells := Function.update t.cells slot cell }

def Table.put (slot : Slot) (key : K) (value : V) : Table K V :=
  t.setCell slot ⟨true, key, value⟩

def Table.clearToken (slot : Slot) : Table K V :=
  t.setCell slot { t.cells slot with token := false }

def Table.relocate (source target : Slot) : Table K V :=
  (t.put target (t.cells source).key (t.cells source).value).setCell source
    { t.cells source with token := false }

def Search.apply (slot : Slot) : Search K V → Table K V × Reply V
  | .query _ => (t, .value (t.cells slot).value)
  | .update _ newValue => (t.setCell slot { t.cells slot with value := newValue }, .code 0)
  | .delete _ => (t.clearToken slot, .code 0)

def Table.acquire (tid : Nat) (slot : Slot) (spinning locked : Local K V) :
    Table K V × Local K V :=
  if slot.bucket < t.lockCount slot.level then
    match t.locks slot with
    | none => (t.lock tid slot, locked)
    | some _ => (t, spinning)
  else (t, .fault)

end Table

section Resize

variable {K V : Type*} (H : Hashing K)

def rehash (addrCapacity : Nat) (newBuckets : Nat × Nat → Cell K V) (cell : Cell K V) :
    Option (Nat × Nat → Cell K V) :=
  ((alternating (fIdx (H.fHash cell.key).toNat addrCapacity)
      (sIdx (H.sHash cell.key).toNat addrCapacity)).find?
    fun p => !(newBuckets p).token).map
    fun p => Function.update newBuckets p ⟨true, cell.key, cell.value⟩

/-- The loop of `level_resize` over the slots of the old bottom level: the new
level and the old one after it, unless an item finds no free slot. -/
def rehashAll (addrCapacity : Nat) : List (Nat × Nat) → (Nat × Nat → Cell K V) →
    (Nat × Nat → Cell K V) → Option ((Nat × Nat → Cell K V) × (Nat × Nat → Cell K V))
  | [], newBuckets, oldBuckets => some (newBuckets, oldBuckets)
  | p :: slots, newBuckets, oldBuckets =>
      if (oldBuckets p).token then
        match rehash H addrCapacity newBuckets (oldBuckets p) with
        | none => none
        | some newBuckets =>
            rehashAll addrCapacity slots newBuckets
              (Function.update oldBuckets p { oldBuckets p with token := false })
      else rehashAll addrCapacity slots newBuckets oldBuckets

def grid (buckets : Nat) : List (Nat × Nat) :=
  (List.range buckets).flatMap fun b => (List.range assocNum).map (b, ·)

variable [Inhabited K] [Inhabited V]

def blank : Cell K V :=
  ⟨false, default, default⟩

def levelInit (levelSize : Nat) : Table K V where
  cells := fun _ => blank
  locks := fun _ => none
  bucketCount := fun
    | .top => 2 ^ levelSize
    | .bottom => 2 ^ (levelSize - 1)
  lockCount := fun
    | .top => 2 ^ levelSize
    | .bottom => 2 ^ (levelSize - 1)
  addrCapacity := 2 ^ levelSize
  levelSize := levelSize
  levelResize := 0

/-- `level_resize`.  It leaves `level_locks` as it is, and `level_resize` is a
`uint8_t`. -/
def Table.resize (t : Table K V) : Option (Table K V) :=
  let addrCapacity := 2 ^ (t.levelSize + 1)
  (rehashAll H addrCapacity (grid (2 ^ (t.levelSize - 1))) (fun _ => blank)
      fun p => t.cells (Level.bottom.slot p)).map
    fun (newBuckets, _) =>
      { t with
        cells := fun s =>
          match s.level with
          | .top => newBuckets (s.bucket, s.index)
          | .bottom => t.cells { s with level := .top }
        bucketCount := fun
          | .top => addrCapacity
          | .bottom => t.bucketCount .top
        addrCapacity := addrCapacity
        levelSize := t.levelSize + 1
        levelResize := (t.levelResize + 1) % 256 }

end Resize

section Program

variable {K V : Type*} [DecidableEq K] [Inhabited K] [Inhabited V] (H : Hashing K)

def step (tid : Nat) (t : Table K V) : Local K V → Table K V × Local K V
  | .called (.search s) => (t, .search s (t.searchOrder H s.key))
  | .called (.insert key value) => (t, .scan key value (t.insertOrder H key))
  | .called .resize => (t, .resizing)
  | .search s [] => (t, .done (.search s) (.code 1))
  | .search s (slot :: slots) =>
      t.acquire tid slot (.search s (slot :: slots)) (.searchLocked s slot slots)
  | .searchLocked s slot slots =>
      if (t.cells slot).token = true ∧ (t.cells slot).key = s.key then
        ((s.apply t slot).1.unlock slot, .done (.search s) (s.apply t slot).2)
      else (t.unlock slot, .search s slots)
  | .scan key value [] => (t, .source key value (t.movements H key) 0)
  | .scan key value (slot :: slots) =>
      t.acquire tid slot (.scan key value (slot :: slots)) (.scanLocked key value slot slots)
  | .scanLocked key value slot slots =>
      if (t.cells slot).token = false then
        ((t.put slot key value).unlock slot, .done (.insert key value) (.code 0))
      else (t.unlock slot, .scan key value slots)
  | .source key value [] _ => (t, .done (.insert key value) (.code 1))
  | .source key value (m :: movements) i =>
      if i < assocNum then
        t.acquire tid (m.source i) (.source key value (m :: movements) i)
          (.target key value m movements i (m.targets H t (t.cells (m.source i)).key))
      else (t, .source key value movements 0)
  | .target key value m movements i [] =>
      (t.unlock (m.source i), .source key value (m :: movements) (i + 1))
  | .target key value m movements i (slot :: slots) =>
      t.acquire tid slot (.target key value m movements i (slot :: slots))
        (.targetLocked key value m movements i slot slots)
  | .targetLocked key value m movements i slot slots =>
      if (t.cells slot).token = false then
        ((t.relocate (m.source i) slot).unlock slot, .fill key value m i)
      else (t.unlock slot, .target key value m movements i slots)
  | .fill key value m i =>
      ((t.put (m.source i) key value).unlock (m.source i), .done (.insert key value) (.code 0))
  | .resizing =>
      match t.resize H with
      | none => (t, .exited)
      | some t => (t, .done .resize .void)
  | .done op reply => (t, .done op reply)
  | .fault => (t, .fault)
  | .exited => (t, .exited)

/-- The calls as the program of a thread. -/
def program : Program (Table K V) (Local K V) (Op K V) (Reply V) where
  begin := .called
  step := step H
  done := .done
  finished
    | .done op reply => some (op, reply)
    | _ => none
  finished_iff := by
    intro l op reply
    cases l <;> simp
  rest := fun _ _ _ _ => rfl

/-- A call made by a thread that runs alone returns. -/
abbrev Returns (tid : Nat) (t : Table K V) (op : Op K V) (t' : Table K V) (reply : Reply V) :
    Prop :=
  (program H).Returns tid t op t' reply

/-- The tables between the calls of single-threaded runs. -/
abbrev Reached (tid : Nat) (t : Table K V) : Table K V → Prop :=
  (program H).Reached tid t

/-- The table with the threads that call its functions. -/
abbrev State (K V : Type*) := System (Table K V) (Local K V) (Op K V) (Reply V)

theorem soloStep_eq (tid : Nat) (t : Table K V) (l : Local K V) :
    (program H).soloStep tid (t, l) = step H tid t l := rfl

@[simp] theorem program_begin (op : Op K V) : (program H).begin op = .called op := rfl

@[simp] theorem program_done (op : Op K V) (reply : Reply V) :
    (program H).done op reply = .done op reply := rfl

end Program

end HashComp.LevelHashing
