import HashComp.Faster.Effects
import HashComp.Faster.Session
import HashComp.Library.Histories

/-!
`Read`, `Upsert`, `Rmw` and `Delete` of any number of threads on a `FasterKv` in
phase `REST` whose records are all in memory, one access to a hash entry or to a
value at a time.  The keys and links of records are never changed, so that a
search of a chain is one step, as is the creation of a record that no entry
leads to yet.  The two read-only addresses move at any time.  A request that
goes pending is called again by `CompletePending`.
-/

namespace HashComp.Interleaved

open HashComp.Faster
open HashComp.Histories

inductive Request (K : Type) where
  | read (key : K)
  | upsert (key : K) (input : BitVec 64)
  | rmw (key : K) (incr : BitVec 64)
  /-- `input` is what memory happens to hold in the context of the call. -/
  | delete (key : K) (input : BitVec 64)
  deriving DecidableEq

def Request.key {K : Type} : Request K → K
  | .read key | .upsert key _ | .rmw key _ | .delete key _ => key

inductive Reply where
  | ok
  | value (v : BitVec 64)
  | notFound
  | pending
  deriving DecidableEq

inductive Pc where
  | idle
  /-- `InternalRead`: `FindEntry` at a slot, the load of the entry, the search of
  its chain, and `GetAtomic`. -/
  | finding (i : Nat)
  | loading (slot : Nat)
  | tracing (address : Nat)
  | getting (address : Nat)
  /-- `FindOrCreateEntry`: `FindTentativeEntry` at a slot with the first free slot
  before it, the exchange, `HasConflictingEntry`, and the two stores. -/
  | scanning (i : Nat) (atomicEntry : Option Nat)
  | installing (slot : Nat)
  | tagging (slot : Nat)
  | checking (slot : Nat) (tag : BitVec 14) (i : Nat)
  | backing (slot : Nat)
  | confirming (slot : Nat)
  /-- The search of the chain, and what the operation does with the address. -/
  | locating (slot : Nat) (expected : HashBucketEntry)
  | updating (address : Nat)
  | comparing (slot address : Nat)
  | erasing (slot : Nat)
  | creating (slot : Nat) (expected : HashBucketEntry) (address : Nat)
  | publishing (slot : Nat) (expected : HashBucketEntry) (newAddress : Nat)
  | done (reply : Reply)
  deriving DecidableEq

structure Write (K : Type) where
  key : K
  value : BitVec 64
  time : Nat

/-- The store and the threads.  `writes` and `history` record what has been
done and are read by no step, except that a thread knows its own request. -/
structure System (K : Type) where
  store : Store K
  pc : Nat → Pc
  writes : List (Write K)
  history : History (Request K) Reply

section Steps

variable {K : Type} [DecidableEq K] (L : Layout K)

def restContext : Context := ⟨.rest, 1⟩

/-- A new store and no thread inside a call. -/
def System.start : System K where
  store := Store.new
  pc := fun _ => .idle
  writes := []
  history := .start

def System.goto (x : System K) (t : Nat) (store : Store K) (pc : Pc) : System K :=
  { x with
    store := store
    pc := Function.update x.pc t pc
    history := x.history.tick }

def System.commit (x : System K) (t : Nat) (store : Store K) (key : K) (value : BitVec 64) :
    System K :=
  { x with
    store := store
    pc := Function.update x.pc t (.done .ok)
    writes := ⟨key, value, x.history.clock⟩ :: x.writes
    history := x.history.tick }

def Request.decide (s : Store K) (op : Request K) (slot : Nat) (expected : HashBucketEntry)
    (address : Nat) : Option Pc :=
  match op with
  | .read _ => none
  | .upsert _ _ =>
      if s.readOnlyAddress ≤ address then some (.updating address)
      else some (.creating slot expected address)
  | .rmw _ _ =>
      if s.readOnlyAddress ≤ address then some (.updating address)
      else if s.safeReadOnlyAddress ≤ address then some (.done .pending)
      else if s.headAddress ≤ address then some (.creating slot expected address)
      else if s.beginAddress ≤ address then none
      else some (.creating slot expected address)
  | .delete _ _ =>
      if s.readOnlyAddress ≤ address then some (.comparing slot address)
      else some (.creating slot expected address)

def Request.put (op : Request K) (old : BitVec 64) : Option (BitVec 64) :=
  match op with
  | .upsert _ input => some input
  | .rmw _ incr => some (old + incr)
  | _ => none

def Request.create (s : Store K) (op : Request K) (address : Nat) : Option (BitVec 64) :=
  match op with
  | .read _ => none
  | .upsert _ input | .delete _ input => some input
  | .rmw _ incr =>
      if address < s.beginAddress then some incr
      else if s.headAddress ≤ address then
        (s.log address).map fun oldRecord => oldRecord.value + incr
      else none

def invalidate (s : Store K) (address : Nat) : Store K :=
  { s with
    log := Function.update s.log address
      ((s.log address).map fun record => { record with invalid := true }) }

def System.step (x : System K) (t : Nat) (op : Request K) : Option (System K) :=
  let s := x.store
  let b := L.idx op.key
  let tag := L.tag op.key
  match x.pc t with
  | .idle => none
  | .finding i =>
      match (s.buckets b)[i]? with
      | none => some (x.goto t s (.done .notFound))
      | some none => some (x.goto t s (.finding (i + 1)))
      | some (some entry) =>
          if tag = entry.tag ∧ entry.tentative = false then some (x.goto t s (.loading i))
          else some (x.goto t s (.finding (i + 1)))
  | .loading slot =>
      match (s.buckets b)[slot]? with
      | some (some entry) => some (x.goto t s (.tracing entry.address))
      | _ => some (x.goto t s (.tracing 0))
  | .tracing address =>
      match findRecord s op.key address with
      | none => none
      | some (found, _) =>
          if s.headAddress ≤ found then some (x.goto t s (.getting found))
          else if s.beginAddress ≤ found then none
          else some (x.goto t s (.done .notFound))
  | .getting address =>
      match s.log address with
      | none => none
      | some record => some (x.goto t s (.done (.value record.value)))
  | .scanning i atomicEntry =>
      match (s.buckets b)[i]? with
      | none =>
          match atomicEntry with
          | some slot => some (x.goto t s (.installing slot))
          | none =>
              some (x.goto t
                (setBucket s b (s.buckets b ++ List.replicate kNumEntries none)) (.installing i))
      | some none => some (x.goto t s (.scanning (i + 1) (atomicEntry <|> some i)))
      | some (some entry) =>
          if tag = entry.tag ∧ entry.tentative = false then
            some (x.goto t s (.locating i entry))
          else some (x.goto t s (.scanning (i + 1) atomicEntry))
  | .installing slot =>
      if (s.buckets b)[slot]? = some none then
        some (x.goto t (replaceEntry s b slot (some ⟨kInvalidAddress, tag, true⟩)) (.tagging slot))
      else some (x.goto t s (.scanning 0 none))
  | .tagging slot =>
      match (s.buckets b)[slot]? with
      | some (some entry) => some (x.goto t s (.checking slot entry.tag 0))
      | _ => some (x.goto t s (.checking slot 0 0))
  | .checking slot tag i =>
      match (s.buckets b)[i]? with
      | none => some (x.goto t s (.confirming slot))
      | some none => some (x.goto t s (.checking slot tag (i + 1)))
      | some (some entry) =>
          if entry.tag = tag ∧ slot ≠ i then some (x.goto t s (.backing slot))
          else some (x.goto t s (.checking slot tag (i + 1)))
  | .backing slot => some (x.goto t (replaceEntry s b slot none) (.scanning 0 none))
  | .confirming slot =>
      some (x.goto t (replaceEntry s b slot (some (freshEntry tag)))
        (.locating slot (freshEntry tag)))
  | .locating slot expected =>
      match findRecord s op.key expected.address with
      | none => none
      | some (address, _) => (op.decide s slot expected address).map (x.goto t s)
  | .updating address =>
      match s.log address with
      | none => none
      | some record =>
          match op.put record.value with
          | none => none
          | some value => (setValue s address value).map fun s => x.commit t s op.key value
  | .comparing slot address =>
      match (s.buckets b)[slot]? with
      | some (some entry) =>
          if entry.address = address then some (x.goto t s (.erasing slot))
          else some (x.goto t s (.done .ok))
      | _ => some (x.goto t s (.done .ok))
  | .erasing slot => some (x.goto t (replaceEntry s b slot none) (.done .ok))
  | .creating slot expected address =>
      match op.create s address with
      | none => none
      | some value =>
          let newAddress := blockAllocate s
          some (x.goto t
            (constructRecord s newAddress (newRecord restContext op.key value expected))
            (.publishing slot expected newAddress))
  | .publishing slot expected newAddress =>
      match s.log newAddress with
      | none => none
      | some record =>
          if (s.buckets b)[slot]? = some (some expected) then
            some (x.commit t (replaceEntry s b slot (some ⟨newAddress, tag, false⟩))
              op.key record.value)
          else some (x.goto t (invalidate s newAddress) (.scanning 0 none))
  | .done _ => none

inductive Move (K : Type) where
  | call (t : Nat) (op : Request K)
  | run (t : Nat)
  | ret (t : Nat)
  | shiftReadOnly (address : Nat)
  | shiftSafeReadOnly (address : Nat)
  deriving DecidableEq

def Move.thread {K : Type} : Move K → Option Nat
  | .call t _ | .run t | .ret t => some t
  | .shiftReadOnly _ | .shiftSafeReadOnly _ => none

def Request.first : Request K → Pc
  | .read _ => .finding 0
  | _ => .scanning 0 none

def System.next (x : System K) : Move K → Option (System K)
  | .call t op =>
      match x.history.running t with
      | some _ => none
      | none =>
          some { x with
            pc := Function.update x.pc t op.first
            history := x.history.call t op }
  | .run t =>
      match x.history.running t with
      | none => none
      | some (op, _) => x.step L t op
  | .ret t =>
      match x.history.running t, x.pc t with
      | some (op, called), .done reply =>
          some { x with
            pc := Function.update x.pc t .idle
            history := x.history.ret t op called reply }
      | _, _ => none
  | .shiftReadOnly address =>
      if x.store.readOnlyAddress ≤ address ∧ address ≤ x.store.tailAddress then
        some { x with
          store := { x.store with readOnlyAddress := address }
          history := x.history.tick }
      else none
  | .shiftSafeReadOnly address =>
      if x.store.safeReadOnlyAddress ≤ address ∧ address ≤ x.store.readOnlyAddress then
        some { x with
          store := { x.store with safeReadOnlyAddress := address }
          history := x.history.tick }
      else none

end Steps

end HashComp.Interleaved
