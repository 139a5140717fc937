import HashComp.Library.Threads
import HashComp.Mhash.LevelHash
import HashComp.Mhash.HashTrie

/-!
`ConcurrentHashTable` as a machine that performs one atomic access a step.  A
node stays allocated while a shared pointer refers to it, so no address is used
again while a thread compares with it.  Assertions are compiled out.  Undefined
behaviour (a null `curr_arr_ptr`, a shift by 64 or more, an array taken for a
data node) leads to `fault`.
-/

namespace HashComp.Concurrent

open HashComp.HashTrie
open HashComp.LevelHash
open HashComp.Operations
open HashComp.SlotTrie
open HashComp.Threads

def failLimit : Nat := 20

/-- The shared state.  `fresh` is the next address of the allocator. -/
structure Table (K T : Type*) extends Trie K T where
  fresh : Nat
  size : BitVec 64
  maxLevel : Nat

/-- Where a thread stands inside an operation.  `loc` is the locator's
`loc_ref_`, and `located` is reached when the locator is built. -/
inductive Local (K T : Type*) where
  | level (m : Mutation K T) (level : Nat) (loc : Slot Nat) (currArr : Option Path)
  | attempt (m : Mutation K T) (level fail : Nat) (loc : Slot Nat)
      (currArr : Option Path) (atomicPos : Path)
  | located (m : Mutation K T) (loc : Slot Nat)
  | getLevel (key : K) (level : Nat) (loc : Slot Nat) (currArr : Option Path)
  | done (op : Op K T) (result : Result K T)
  | fault

def constructedLevel (hashLevel keySize fuel : Nat) : Option Nat :=
  Constructor.maxLevel (getPower2 hashLevel) keySize fuel

section Table

variable {K T : Type*} (L : Layout K) (t : Table K T)

/-- The constructor.  `garbage` is the memory that nodes will be allocated in. -/
def new (garbage : Nat → DataBlock K T) (keySize fuel : Nat) : Option (Table K T) :=
  (constructedLevel L.hashLevel keySize fuel).map fun level =>
    { toTrie := .empty garbage
      fresh := 0
      size := 0
      maxLevel := level }

/-- `new data_node(key, mapped, hash)`. -/
def newDataNode (key : K) (mapped : T) : Nat × Table K T :=
  (t.fresh, { t with
    heap := Function.update t.heap t.fresh (block L key mapped)
    fresh := t.fresh + 1 })

def setSlot (p : Path) (s : Slot Nat) : Table K T :=
  { t with toTrie := t.toTrie.setSlot p s }

def publishArray (p : Path) (i old : Nat) : Table K T :=
  { t with toTrie := t.toTrie.publishArray p i old }

/-- What follows a lost compare-and-exchange, which has reloaded `loc_ref_` and
frees the new node or array again. -/
def retry (m : Mutation K T) (level fail : Nat) (currArr : Option Path)
    (atomicPos : Path) : Table K T × Local K T :=
  (t, .attempt m level (fail + 1) (t.slots atomicPos) currArr atomicPos)

def attempt (m : Mutation K T) (level fail : Nat) (loc : Slot Nat)
    (currArr : Option Path) (atomicPos : Path) : Table K T × Local K T :=
  if fail < failLimit then
    match loc, m with
    | .null, .insert key mapped =>
        let tmp := newDataNode L t key mapped
        if t.slots atomicPos = .null then
          (setSlot tmp.2 atomicPos (.data tmp.1), .located m (.data tmp.1))
        else retry t m level fail currArr atomicPos
    | .null, m => (t, .located m .null)
    | .data old, .insert key _ =>
        if (t.heap old).hash = L.hasher key then (t, .located m .null)
        else
          match L.levelHash (t.heap old).hash (level + 1) with
          | none => (t, .fault)
          | some nextLevelHash =>
              if t.slots atomicPos = .data old then
                (publishArray t atomicPos nextLevelHash old,
                  .level m (level + 1) (.data old) (some atomicPos))
              else retry t m level fail currArr atomicPos
    | .data old, .update key mapped =>
        let tmp := newDataNode L t key mapped
        if t.slots atomicPos = .data old then
          (setSlot tmp.2 atomicPos (.data tmp.1), .located m (.data tmp.1))
        else retry t m level fail currArr atomicPos
    | .data old, .remove _ =>
        -- the exchange moves a null pointer into `loc_ref_` as well
        if t.slots atomicPos = .data old then (setSlot t atomicPos .null, .located m .null)
        else retry t m level fail currArr atomicPos
    | .array, .insert key mapped =>
        -- no break: the loop goes on until `fail` has reached the limit
        (t, .attempt (.insert key mapped) level (fail + 1) .array (some atomicPos) atomicPos)
    | .array, m => (t, .level m (level + 1) .array (some atomicPos))
  else (t, .level m (level + 1) .null currArr)

def getLocated (key : K) : Slot Nat → Local K T
  | .null => .done (.get key) .outOfRange
  | .data a => .done (.get key) (.pair (t.heap a).key (t.heap a).mapped)
  | .array => .fault

def step : Local K T → Table K T × Local K T
  | .level m level loc currArr =>
      if level < t.maxLevel then
        match slotAddress L (L.hasher m.key) level currArr with
        | none => (t, .fault)
        | some p => (t, .attempt m level 0 (t.slots p) currArr p)
      else (t, .located m loc)
  | .attempt m level fail loc currArr atomicPos => attempt L t m level fail loc currArr atomicPos
  | .located (.insert key mapped) loc =>
      if loc = .null then (t, .done (.mutate (.insert key mapped)) (.bool false))
      else ({ t with size := t.size + 1 }, .done (.mutate (.insert key mapped)) (.bool true))
  | .located m loc => (t, .done (.mutate m) (.bool (loc ≠ .null)))
  | .getLevel key level loc currArr =>
      if level < t.maxLevel then
        match slotAddress L (L.hasher key) level currArr with
        | none => (t, .fault)
        | some p =>
            match t.slots p with
            | .null => (t, getLocated t key .null)
            | .data a =>
                if (t.heap a).hash = L.hasher key then (t, getLocated t key (.data a))
                else (t, getLocated t key .null)
            | .array => (t, .getLevel key (level + 1) .array (some p))
      else (t, getLocated t key loc)
  | .done op result => (t, .done op result)
  | .fault => (t, .fault)

def begin : Op K T → Local K T
  | .get key => .getLevel key 0 .null none
  | .mutate m => .level m 0 .null none

end Table

section Program

variable {K T : Type*} (L : Layout K) (tid : Nat)

/-- The four operations as the program of a thread. -/
def program : Program (Table K T) (Local K T) (Op K T) (Result K T) where
  begin := begin
  step := fun _ => step L
  done := .done
  finished
    | .done op r => some (op, r)
    | _ => none
  finished_iff := by
    intro l op r
    cases l <;> simp
  rest := fun _ _ _ _ => rfl

/-- A call made by a thread that runs alone returns or throws `r`. -/
abbrev Returns (t : Table K T) (op : Op K T) (t' : Table K T) (r : Result K T) : Prop :=
  (program L).Returns tid t op t' r

/-- The tables between the calls of single-threaded runs. -/
abbrev Reached (t₀ : Table K T) : Table K T → Prop :=
  (program L).Reached tid t₀

/-- The table with the threads that call its operations. -/
abbrev State (K T : Type*) := System (Table K T) (Local K T) (Op K T) (Result K T)

theorem soloStep_eq (t : Table K T) (l : Local K T) :
    (program L).soloStep tid (t, l) = step L t l := rfl

@[simp] theorem program_begin (op : Op K T) : (program L).begin op = begin op := rfl

@[simp] theorem program_done (op : Op K T) (r : Result K T) :
    (program L).done op r = .done op r := rfl

end Program

end HashComp.Concurrent
