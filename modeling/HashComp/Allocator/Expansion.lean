import HashComp.Allocator.Model
import HashComp.Library.Fairness

/-!
`MallocFixedPageSize` with any number of threads in `Allocate`, one access to shared memory
at a time.  Page arrays and pages are numbered as they are created.  Arrays that have been
replaced stay here; `Epochs` has the threads in their epochs, and deletes them.  Arrays and
pages that nobody has seen are freed at once.
-/

namespace HashComp.Expansion

open HashComp.Allocator (FreeAddress next_power_of_two)
open HashComp.Allocator.FixedPageAddress (kAddressBits kOffsetBits kPageBits)

/-- The page of the address with these control bits. -/
def page (control_ : Nat) : Nat :=
  control_ / 2 ^ kOffsetBits % 2 ^ kPageBits

def offset (control_ : Nat) : Nat :=
  control_ % 2 ^ kOffsetBits

structure FixedPageArray where
  size : Nat
  pages : Nat → Option Nat

def FixedPageArray.Full (array : FixedPageArray) : Prop :=
  ∀ idx < array.size, (array.pages idx).isSome

instance : DecidablePred FixedPageArray.Full := fun array =>
  inferInstanceAs (Decidable (∀ idx < array.size, (array.pages idx).isSome = true))

/-- Where a thread is in `Allocate`.  In `copying` it constructs `new_array` and has the page
`idx` of the array `expected` before it. -/
inductive Pc where
  | idle
  | drawn (addr : Nat)
  | copying (addr new_size expected new_array idx : Nat)
  | exchanging (addr new_size expected new_array : Nat)
  | early (addr page_array : Nat)
  | getting (addr page_array : Nat)
  | adding (addr page_array : Nat)
deriving Repr, DecidableEq

/-- The address that the call has drawn. -/
def Pc.addr : Pc → Option Nat
  | .idle => none
  | .drawn addr | .copying addr _ _ _ _ | .exchanging addr _ _ _ | .early addr _
  | .getting addr _ | .adding addr _ => some addr

def Pc.newArray : Pc → Option Nat
  | .copying _ _ _ new_array _ | .exchanging _ _ _ new_array => some new_array
  | _ => none

/-- The allocator and its threads.  `published` are the arrays that `page_array_` has pointed
to, `added` the pages that `AddPage` has put in, with their indices, and `returned` the
addresses from `count_` that calls have returned; no function reads the three. -/
structure System (τ : Type*) where
  arrays : Nat → FixedPageArray
  created : Nat
  made : Nat
  page_array_ : Nat
  count_ : Nat
  free_list_ : τ → List FreeAddress
  pc : τ → Pc
  published : List Nat
  added : List (Nat × Nat)
  returned : List Nat

inductive Action (τ : Type*) where
  | Allocate (t : τ) (safe_to_reclaim_epoch : Nat)
  | FreeAtEpoch (t : τ) (addr : FreeAddress)
  | proceed (t : τ)
deriving Repr, DecidableEq

def Action.thread {τ : Type*} : Action τ → τ
  | .Allocate t _ | .FreeAtEpoch t _ | .proceed t => t

namespace System

section Shared

variable {τ : Type*} (s : System τ)

def AddPage (array idx : Nat) : System τ :=
  match (s.arrays array).pages idx with
  | some _ => { s with made := s.made + 1 }
  | none =>
      { s with
        made := s.made + 1
        arrays := Function.update s.arrays array
          { s.arrays array with pages := Function.update (s.arrays array).pages idx (some s.made) }
        added := (idx, s.made) :: s.added }

def GetOrAdd (array idx : Nat) : System τ :=
  match (s.arrays array).pages idx with
  | some _ => s
  | none => s.AddPage array idx

def withArray (array : FixedPageArray) : System τ :=
  { s with arrays := Function.update s.arrays s.created array, created := s.created + 1 }

def copyPage (new_array idx p : Nat) : System τ :=
  { s with
    arrays := Function.update s.arrays new_array
      { s.arrays new_array with
        pages := Function.update (s.arrays new_array).pages idx (some p) } }

def publish (new_array : Nat) : System τ :=
  { s with page_array_ := new_array, published := new_array :: s.published }

def Get (control_ : Nat) : Option (Nat × Nat) :=
  ((s.arrays s.page_array_).pages (page control_)).map fun p => (p, offset control_)

def reusable (t : τ) (safe_to_reclaim_epoch : Nat) : Option (FreeAddress × List FreeAddress) :=
  match s.free_list_ t with
  | [] => none
  | front :: rest =>
      if front.removal_epoch ≤ safe_to_reclaim_epoch then some (front, rest) else none

end Shared

section Accesses

variable {τ : Type*} [DecidableEq τ] (s : System τ)

def goto (t : τ) (pc : Pc) : System τ :=
  { s with pc := Function.update s.pc t pc }

def Allocate (t : τ) (safe_to_reclaim_epoch : Nat) : System τ :=
  match s.reusable t safe_to_reclaim_epoch with
  | some (_, rest) => { s with free_list_ := Function.update s.free_list_ t rest }
  | none => { s with count_ := (s.count_ + 1) % 2 ^ 64 }.goto t (.drawn s.count_)

def Create (t : τ) (addr new_size expected : Nat) : System τ :=
  (s.withArray { size := new_size, pages := fun _ => none }).goto t
    (.copying addr new_size expected s.created 0)

def load (t : τ) (addr : Nat) : System τ :=
  if page addr ≥ (s.arrays s.page_array_).size then
    s.Create t addr (next_power_of_two (page addr + 1)) s.page_array_
  else s.goto t (.early addr s.page_array_)

def copy (t : τ) (addr new_size expected new_array idx : Nat) : System τ :=
  if idx < (s.arrays expected).size then
    match (s.arrays expected).pages idx with
    | none => s
    | some p =>
        (s.copyPage new_array idx p).goto t
          (.copying addr new_size expected new_array (idx + 1))
  else s.goto t (.exchanging addr new_size expected new_array)

/-- The exchange of `page_array_` and, where it fails, the look at the size that the array
has got. -/
def exchange (t : τ) (addr new_size expected new_array : Nat) : System τ :=
  if s.page_array_ = expected then
    (s.publish new_array).goto t (.early addr new_array)
  else if (s.arrays s.page_array_).size < new_size then
    s.Create t addr new_size s.page_array_
  else s.goto t (.early addr s.page_array_)

def addEarly (t : τ) (addr page_array : Nat) : System τ :=
  if offset addr = 0 ∧ page addr + 1 < (s.arrays page_array).size then
    (s.AddPage page_array (page addr + 1)).goto t (.getting addr page_array)
  else s.goto t (.getting addr page_array)

def finish (t : τ) (addr : Nat) : System τ :=
  { s with returned := addr :: s.returned }.goto t .idle

def get (t : τ) (addr page_array : Nat) : System τ :=
  match (s.arrays page_array).pages (page addr) with
  | some _ => s.finish t addr
  | none => s.goto t (.adding addr page_array)

/-- `AddPage` gives a page, its own or the one it has met. -/
def add (t : τ) (addr page_array : Nat) : System τ :=
  (s.AddPage page_array (page addr)).finish t addr

def proceed (t : τ) : Option (System τ) :=
  match s.pc t with
  | .idle => none
  | .drawn addr => some (s.load t addr)
  | .copying addr new_size expected new_array idx =>
      some (s.copy t addr new_size expected new_array idx)
  | .exchanging addr new_size expected new_array =>
      some (s.exchange t addr new_size expected new_array)
  | .early addr page_array => some (s.addEarly t addr page_array)
  | .getting addr page_array => some (s.get t addr page_array)
  | .adding addr page_array => some (s.add t addr page_array)

def next : Action τ → Option (System τ)
  | .Allocate t safe_to_reclaim_epoch =>
      if s.pc t = .idle then some (s.Allocate t safe_to_reclaim_epoch) else none
  | .FreeAtEpoch t addr =>
      if s.pc t = .idle then
        some { s with free_list_ := Function.update s.free_list_ t (s.free_list_ t ++ [addr]) }
      else none
  | .proceed t => s.proceed t

def Addressable : Action τ → Prop
  | .Allocate t safe_to_reclaim_epoch =>
      (s.reusable t safe_to_reclaim_epoch).isSome ∨ s.count_ < 2 ^ kAddressBits
  | _ => True

instance : DecidablePred (Addressable s)
  | .Allocate _ _ => inferInstanceAs (Decidable (_ ∨ _))
  | .FreeAtEpoch _ _ => .isTrue trivial
  | .proceed _ => .isTrue trivial

end Accesses

end System

namespace System

section Starts

variable {τ : Type*} [DecidableEq τ]

def withPage : System τ where
  arrays := fun _ => { size := 2, pages := fun idx => if idx = 0 then some 0 else none }
  created := 1
  made := 1
  page_array_ := 0
  count_ := 0
  free_list_ := fun _ => []
  pc := fun _ => .idle
  published := [0]
  added := [(0, 0)]
  returned := []

def Initialize (t : τ) (safe_to_reclaim_epoch : Nat) : Option (System τ) :=
  Runs.runActions next withPage
    [.Allocate t safe_to_reclaim_epoch, .proceed t, .proceed t, .proceed t]

/-- `ExpandArray` when no other thread is there.  Without a result the constructor waits for a
page of the old array forever. -/
def ExpandAlone (s : System τ) (new_size : Nat) : Option (System τ) :=
  let old := s.arrays s.page_array_
  if old.Full then
    let pages := fun idx => if idx < old.size then old.pages idx else none
    some ((s.withArray { size := new_size, pages }).publish s.created)
  else none

end Starts

end System

def levels (control_ : Nat) : Nat :=
  page control_ + if offset control_ > 0 then 1 else 0

/-- What `Recover` is called with, and the size of an item. -/
structure Recovery where
  sizeof_item : Nat
  file_size : Nat
  count : Nat
deriving Repr, DecidableEq

namespace Recovery

variable (r : Recovery)

def file_end_addr : Nat := r.file_size / r.sizeof_item

def num_file_levels : Nat := levels r.file_end_addr

def num_levels : Nat := levels r.count

/-- The assertions of `Recover`, on an address of 48 bits. -/
structure Asserts : Prop where
  whole : r.file_size % r.sizeof_item = 0
  reads : 0 < r.num_file_levels
  covers : r.file_end_addr ≤ r.count
  counts : 0 < r.num_levels
  address : r.count < 2 ^ kAddressBits

end Recovery

/-- `Recover` whose reads are all accepted. -/
def System.Recover {τ : Type*} [DecidableEq τ] (s : System τ) (r : Recovery) :
    Option (System τ) :=
  let expanded :=
    if (s.arrays s.page_array_).size < r.num_levels then
      s.ExpandAlone (next_power_of_two r.num_levels)
    else some s
  expanded.map fun s =>
    (List.range r.num_file_levels).foldl (fun s idx => s.GetOrAdd s.page_array_ idx)
      { s with count_ := r.count }

/-- An allocator that has been initialised and, where a recovery is given, recovered. -/
def Starts {τ : Type*} [DecidableEq τ] (recovery : Option Recovery) (s : System τ) : Prop :=
  ∃ t safe_to_reclaim_epoch initialized,
    System.Initialize t safe_to_reclaim_epoch = some initialized ∧
      match recovery with
      | none => s = initialized
      | some r => r.Asserts ∧ initialized.Recover r = some s

end HashComp.Expansion
