import HashComp.Library.SlotTrie
import HashComp.Mhash.LevelHash

/-!
`BasicHashTable`, whose slots own the data and array nodes.  The arrays waiting
in the pool are all empty and hence only counted.  Assertions are compiled out,
and a call that shifts a `size_t` by 64 or more has no result.
-/

namespace HashComp.Basic

open HashComp.LevelHash
open HashComp.SlotTrie

/-- The template arguments: the hasher and `HASH_LEVEL`. -/
structure Layout (K : Type*) where
  hasher : K → BitVec 64
  hashLevel : Nat

/-- The members of a table; `pool` is the number of arrays in `pool_`. -/
structure Table (K T : Type*) where
  slots : Slots (K × T)
  pool : Nat
  size : BitVec 64
  maxLevel : Nat

inductive Op (K T : Type*) where
  | reserve (newCap : BitVec 64)
  | insert (key : K) (mapped : T)
  | get (key : K)
  | find (key : K)
  | update (key : K) (mapped : T)
  | remove (key : K)
  | size

/-- What a call returns; `outOfRange` is the exception that `Get` throws. -/
inductive Result (K T : Type*) where
  | none
  | bool (b : Bool)
  | pair (key : K) (mapped : T)
  | outOfRange
  | shared (entry : Option (K × T))
  | count (size : BitVec 64)
  deriving DecidableEq

namespace Layout

variable {K : Type*} (L : Layout K)

def arraySize : Nat :=
  if L.hashLevel > 10 then 65536 else getPower2 L.hashLevel

def levelHash (hash : BitVec 64) (level : Nat) : Option Nat :=
  LevelHash.levelHash hash level L.arraySize L.hashLevel

def fragment (hash : BitVec 64) (level : Nat) : Nat :=
  ((hash >>> (L.hashLevel * level)) &&& BitVec.ofNat 64 (L.arraySize - 1)).toNat

def keyPath (key : K) : Nat → Path :=
  pathOf (L.fragment (L.hasher key))

end Layout

section Table

variable {K T : Type*} (L : Layout K) (t : Table K T)

def new (keySize fuel : Nat) : Option (Table K T) :=
  (Constructor.maxLevel L.arraySize keySize fuel).map fun level =>
    { slots := fun p => if p = [] then .array else .null
      pool := 0
      size := 0
      maxLevel := level }

def reserve (newCap : BitVec 64) : Table K T :=
  let newArr :=
    if newCap.toNat % L.arraySize ≠ 0 then newCap.toNat / L.arraySize
    else newCap.toNat / L.arraySize + 1
  { t with pool := t.pool + newArr }

def setSlot (p : Path) (s : Slot (K × T)) : Table K T :=
  { t with slots := Function.update t.slots p s }

/-- Move the node `a` of slot `p` to cell `i` of an array, which is taken from
the pool unless that is empty. -/
def pushDown (p : Path) (i : Nat) (a : K × T) : Table K T :=
  { t with
    slots := publish t.slots p i a
    pool := if t.pool = 0 then 0 else t.pool - 1 }

/-- The loop of the finding locator with `n` levels to go; the outcome is
`loc_ref_`. -/
def locate (hash : BitVec 64) : Nat → Nat → Path → Option (Option Path)
  | 0, _, _ => some none
  | n + 1, level, currArr =>
      match L.levelHash hash level with
      | none => none
      | some currHash =>
          match t.slots (currArr ++ [currHash]) with
          | .null => some none
          | .data a =>
              if hash = L.hasher a.1 then some (some (currArr ++ [currHash])) else some none
          | .array => locate hash n (level + 1) (currArr ++ [currHash])

def locator (key : K) : Option (Option Path) :=
  locate L t (L.hasher key) t.maxLevel 0 []

/-- The loop of the inserting locator with `n` levels to go. -/
def place (key : K) (mapped : T) :
    Nat → Nat → Path → Table K T → Option (Option Path × Table K T)
  | 0, _, _, t => some (none, t)
  | n + 1, level, currArr, t =>
      match L.levelHash (L.hasher key) level with
      | none => none
      | some currHash =>
          let nodePtr := currArr ++ [currHash]
          match t.slots nodePtr with
          | .null => some (some nodePtr, setSlot t nodePtr (.data (key, mapped)))
          | .data a =>
              if L.hasher a.1 = L.hasher key then some (none, t)
              else
                match L.levelHash (L.hasher a.1) (level + 1) with
                | none => none
                | some tempHash =>
                    place key mapped n (level + 1) nodePtr (pushDown t nodePtr tempHash a)
          | .array => place key mapped n (level + 1) nodePtr t

def insert (key : K) (mapped : T) : Option (Bool × Table K T) :=
  match place L key mapped t.maxLevel 0 [] t with
  | none => none
  | some (none, t') => some (false, t')
  | some (some _, t') => some (true, { t' with size := t'.size + 1 })

def located : Option Path → Option (K × T)
  | none => none
  | some p =>
      match t.slots p with
      | .data a => some a
      | _ => none

def get (key : K) : Option (Result K T) :=
  (locator L t key).map fun loc =>
    match located t loc with
    | none => .outOfRange
    | some (k, mapped) => .pair k mapped

def find (key : K) : Option (Result K T) :=
  (locator L t key).map fun loc => .shared (located t loc)

def remove (key : K) : Option (Bool × Table K T) :=
  (locator L t key).map fun loc =>
    match loc with
    | none => (false, t)
    | some p => (true, { setSlot t p .null with size := t.size - 1 })

def update (key : K) (mapped : T) : Option (Bool × Table K T) :=
  (locator L t key).map fun loc =>
    match loc, located t loc with
    | some p, some a => (true, setSlot t p (.data (a.1, mapped)))
    | _, _ => (false, t)

def call : Op K T → Option (Result K T × Table K T)
  | .reserve newCap => some (.none, reserve L t newCap)
  | .insert key mapped => (insert L t key mapped).map fun r => (.bool r.1, r.2)
  | .get key => (get L t key).map fun r => (r, t)
  | .find key => (find L t key).map fun r => (r, t)
  | .update key mapped => (update L t key mapped).map fun r => (.bool r.1, r.2)
  | .remove key => (remove L t key).map fun r => (.bool r.1, r.2)
  | .size => some (.count t.size, t)

/-- Calls made one after the other. -/
def calls (t : Table K T) : List (Op K T) → Option (List (Result K T) × Table K T)
  | [] => some ([], t)
  | op :: ops => do
      let (r, t') ← call L t op
      let (rs, t'') ← calls t' ops
      return (r :: rs, t'')

end Table

end HashComp.Basic
