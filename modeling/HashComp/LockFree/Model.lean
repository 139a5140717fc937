import HashComp.Epoch.LightEpoch
import HashComp.Library.Threads
import HashComp.Mhash.HashTrie

/-!
`LockFreeHashTable` as a machine that performs one atomic access a step.
Assertions are compiled out.  Undefined behaviour (a null
`curr_arr_ptr`, a shift by 64 or more, an array taken for a data node) leads to
`fault`.
-/

namespace HashComp.LockFree

open HashComp.Epoch
open HashComp.HashTrie
open HashComp.LevelHash
open HashComp.Operations
open HashComp.SlotTrie
open HashComp.Threads

def kFailLimit : Nat := 20

def maxLevel : Nat := 20

/-- The shared state.  `dataPool` lists the queue of each thread in the order
its nodes will be popped, and `fresh` is the next address of the allocator. -/
structure Table (K T : Type*) extends Trie K T where
  dataPool : Nat → List Nat
  epoch : LightEpoch Nat
  fresh : Nat

inductive Local (K T : Type*) where
  | level (m : Mutation K T) (level : Nat) (currArr : Option Path)
  | attempt (m : Mutation K T) (level fail : Nat) (pos : Slot Nat)
      (currArr : Option Path) (atomicPos : Path)
  | miss (m : Mutation K T)
  | bump (m : Mutation K T) (old : Nat)
  | register (m : Mutation K T) (old priorEpoch i : Nat)
  | getEnter (key : K)
  | getLevel (key : K) (level : Nat) (currArr : Option Path)
  | getCheck (key : K) (level : Nat) (pos : Slot Nat) (atomicPos : Path)
  | getFound (key : K) (node : Nat)
  | getMiss (key : K)
  | done (op : Op K T) (result : Result K T)
  | fault

section Table

variable {K T : Type*} (L : Layout K) (tid : Nat) (t : Table K T)

/-- The constructor.  The pools are filled with memory as `malloc` returns it. -/
def new (expectedThreadCount expectedDataNum : Nat) (garbage : Nat → DataBlock K T) :
    Table K T :=
  let each := expectedDataNum / expectedThreadCount
  { toTrie := .empty garbage
    dataPool := fun i =>
      if i < expectedThreadCount then List.range' (i * each) each else []
    epoch := LightEpoch.new expectedThreadCount
    fresh := expectedThreadCount * each }

def newDataNode (key : K) (mapped : T) : Nat × Table K T :=
  match t.dataPool tid with
  | a :: rest =>
      (a, { t with
        dataPool := Function.update t.dataPool tid rest
        heap := Function.update t.heap a (block L key mapped) })
  | [] =>
      (t.fresh, { t with
        fresh := t.fresh + 1
        heap := Function.update t.heap t.fresh (block L key mapped) })

/-- `DataNodeDeleter` and `delete_callback` push to the running thread's queue. -/
def pushData (a : Nat) : Table K T :=
  { t with dataPool := Function.update t.dataPool tid (t.dataPool tid ++ [a]) }

def deleteCallbacks (executed : List (Nat × Nat)) : Table K T :=
  executed.foldl (fun t x => pushData tid t x.2) t

def setSlot (p : Path) (s : Slot Nat) : Table K T :=
  { t with toTrie := t.toTrie.setSlot p s }

def publishArray (p : Path) (i old : Nat) : Table K T :=
  { t with toTrie := t.toTrie.publishArray p i old }

/-- The locator is left with `pos == nullptr`. -/
def failed : Mutation K T → Local K T
  | .insert key mapped => .done (.mutate (.insert key mapped)) (.bool false)
  | m => .miss m

def retry (m : Mutation K T) (level fail : Nat) (pos : Slot Nat)
    (currArr : Option Path) (atomicPos : Path) : Local K T :=
  if fail + 1 = kFailLimit then failed m
  else .attempt m level (fail + 1) pos currArr atomicPos

def attempt (m : Mutation K T) (level fail : Nat) (pos : Slot Nat)
    (currArr : Option Path) (atomicPos : Path) : Table K T × Local K T :=
  match pos, m with
  | .null, .insert key mapped =>
      let tmp := newDataNode L tid t key mapped
      if t.slots atomicPos = .null then
        (setSlot tmp.2 atomicPos (.data tmp.1), .done (.mutate m) (.bool true))
      else (pushData tid tmp.2 tmp.1, retry m level fail (t.slots atomicPos) currArr atomicPos)
  | .null, m => (t, .miss m)
  | .data old, .insert key _ =>
      if (t.heap old).hash = L.hasher key then (t, .done (.mutate m) (.bool false))
      else
        match L.levelHash (t.heap old).hash (level + 1) with
        | none => (t, .fault)
        | some nextLevelHash =>
            if t.slots atomicPos = .data old then
              (publishArray t atomicPos nextLevelHash old,
                .level m (level + 1) (some atomicPos))
            else (t, retry m level fail (t.slots atomicPos) currArr atomicPos)
  | .data old, .update key mapped =>
      let tmp := newDataNode L tid t key mapped
      if t.slots atomicPos = .data old then
        (setSlot tmp.2 atomicPos (.data tmp.1), .bump m old)
      else (pushData tid tmp.2 tmp.1, retry m level fail (t.slots atomicPos) currArr atomicPos)
  | .data old, .remove _ =>
      if t.slots atomicPos = .data old then (setSlot t atomicPos .null, .bump m old)
      else (t, retry m level fail (t.slots atomicPos) currArr atomicPos)
  | .array, m => (t, .level m (level + 1) (some atomicPos))

def step : Local K T → Table K T × Local K T
  | .level m level currArr =>
      if level < maxLevel then
        match slotAddress L (L.hasher m.key) level currArr with
        | none => (t, .fault)
        | some p => (t, .attempt m level 0 (t.slots p) currArr p)
      else
        match m with
        | .insert key mapped => (t, .done (.mutate (.insert key mapped)) (.bool true))
        | _ => (t, .fault)
  | .attempt m level fail pos currArr atomicPos =>
      attempt L tid t m level fail pos currArr atomicPos
  | .miss m =>
      ({ t with epoch := t.epoch.reentrantProtect tid }, .done (.mutate m) (.bool false))
  | .bump m old =>
      let r := t.epoch.bumpCurrentEpoch
      (deleteCallbacks tid { t with epoch := r.1 } r.2,
        .register m old (r.1.currentEpoch - 1) 0)
  | .register m old priorEpoch i =>
      match t.epoch.tryRegister i priorEpoch old with
      | some r =>
          (deleteCallbacks tid { t with epoch := r.1 } r.2, .done (.mutate m) (.bool true))
      | none => (t, .register m old priorEpoch (nextIndex i))
  | .getEnter key =>
      ({ t with epoch := t.epoch.reentrantProtect tid }, .getLevel key 0 none)
  | .getLevel key level currArr =>
      if level < maxLevel then
        match slotAddress L (L.hasher key) level currArr with
        | none => (t, .fault)
        | some p => (t, .getCheck key level (t.slots p) p)
      else (t, .fault)
  | .getCheck key level pos atomicPos =>
      match pos with
      | .null => (t, .getMiss key)
      | .data a =>
          if (t.heap a).hash = L.hasher key then (t, .getFound key a) else (t, .getMiss key)
      | .array => (t, .getLevel key (level + 1) (some atomicPos))
  | .getFound key a =>
      ({ t with epoch := t.epoch.reentrantUnprotect tid },
        .done (.get key) (.pair (t.heap a).key (t.heap a).mapped))
  | .getMiss key =>
      ({ t with epoch := t.epoch.reentrantProtect tid }, .done (.get key) .outOfRange)
  | .done op result => (t, .done op result)
  | .fault => (t, .fault)

def begin : Op K T → Local K T
  | .get key => .getEnter key
  | .mutate m => .level m 0 none

end Table

section Program

variable {K T : Type*} (L : Layout K) (tid : Nat)

/-- The four operations as the program of a thread. -/
def program : Program (Table K T) (Local K T) (Op K T) (Result K T) where
  begin := begin
  step := step L
  done := .done
  finished
    | .done op r => some (op, r)
    | _ => none
  finished_iff := by
    intro l op r
    cases l <;> simp
  rest := fun _ _ _ _ => rfl

/-- A call made by a thread that runs alone returns or throws `r`. -/
abbrev Returns (t : Table K T) (op : Op K T) (t' : Table K T) (r : Result K T) : Prop :=
  (program L).Returns tid t op t' r

/-- The tables between the calls of single-threaded runs. -/
abbrev Reached (t₀ : Table K T) : Table K T → Prop :=
  (program L).Reached tid t₀

/-- The table with the threads that call its operations. -/
abbrev State (K T : Type*) := System (Table K T) (Local K T) (Op K T) (Result K T)

theorem soloStep_eq (t : Table K T) (l : Local K T) :
    (program L).soloStep tid (t, l) = step L tid t l := rfl

@[simp] theorem program_begin (op : Op K T) : (program L).begin op = begin op := rfl

@[simp] theorem program_done (op : Op K T) (r : Result K T) :
    (program L).done op r = .done op r := rfl

end Program

end HashComp.LockFree
