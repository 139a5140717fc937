import HashComp.Library.Ownership
import HashComp.Library.Runs
import Mathlib.Algebra.GroupWithZero.Nat

/-!
The allocator of overflow buckets, `MallocFixedPageSize`: a counter, an array of pages
that grows, and for each thread a list of the addresses that the thread gave back.
Its calls come from inserts that append a bucket to a chain, which give the bucket back
when another thread was first, and from index growth, which initialises one allocator
and uninitialises the other.
-/

namespace HashComp.Allocator

abbrev kMaxNumThreads : Nat := 96

abbrev ThreadId := Fin kMaxNumThreads

instance : NeZero kMaxNumThreads := ⟨by decide⟩

/-- An address in a fixed page.  The code stores `control_` only; `drawn` says which
`Initialize` had created the page array that the address was drawn from, and no
function reads it. -/
structure FixedPageAddress where
  control_ : Nat
  drawn : Nat
deriving Repr, DecidableEq

namespace FixedPageAddress

def kAddressBits : Nat := 48
def kOffsetBits : Nat := 20
def kPageBits : Nat := kAddressBits - kOffsetBits

def offset (address : FixedPageAddress) : Nat :=
  address.control_ % 2 ^ kOffsetBits

def page (address : FixedPageAddress) : Nat :=
  address.control_ / 2 ^ kOffsetBits % 2 ^ kPageBits

/-- The two addresses are the same item of the same page. -/
def Same (a b : FixedPageAddress) : Prop :=
  a.page = b.page ∧ a.offset = b.offset

instance : DecidableRel Same := fun _ _ => inferInstanceAs (Decidable (_ ∧ _))

end FixedPageAddress

structure FreeAddress where
  removed_addr : FixedPageAddress
  removal_epoch : Nat
deriving Repr, DecidableEq

structure FixedPageArray where
  alignment : Nat
  size : Nat
  pages : Nat → Bool

namespace FixedPageArray

/-- Without a result the constructor waits for a page of the old array forever, or fails
its assertion on the sizes. -/
def Create (alignment size : Nat) (old_array : Option FixedPageArray) : Option FixedPageArray :=
  match old_array with
  | none => some { alignment, size, pages := fun _ => false }
  | some old =>
      if old.size < size ∧ ∀ idx < old.size, old.pages idx = true then
        some { alignment, size, pages := fun idx => decide (idx < old.size) && old.pages idx }
      else none

def AddPage (array : FixedPageArray) (page_idx : Nat) : FixedPageArray :=
  { array with pages := Function.update array.pages page_idx true }

def GetOrAdd (array : FixedPageArray) (page_idx : Nat) : FixedPageArray :=
  if array.pages page_idx then array else array.AddPage page_idx

end FixedPageArray

def next_power_of_two (size : Nat) : Nat :=
  if size - 1 = 0 then 1 else 2 ^ ((size - 1).log2 + 1)

structure MallocFixedPageSize where
  alignment_ : Nat
  page_array_ : Option FixedPageArray
  count_ : Nat
  free_list_ : ThreadId → List FreeAddress
  initialized : Nat

namespace MallocFixedPageSize

def constructed : MallocFixedPageSize where
  alignment_ := 2 ^ 64 - 1
  page_array_ := none
  count_ := 0
  free_list_ := fun _ => []
  initialized := 0

def ExpandArray (allocator : MallocFixedPageSize) (expected : FixedPageArray) (new_size : Nat) :
    Option FixedPageArray :=
  FixedPageArray.Create allocator.alignment_ new_size (some expected)

def draw (allocator : MallocFixedPageSize) : Option (MallocFixedPageSize × FixedPageAddress) :=
  let addr : FixedPageAddress := ⟨allocator.count_, allocator.initialized⟩
  match allocator.page_array_ with
  | none => none
  | some page_array =>
      let resized :=
        if addr.page ≥ page_array.size then
          allocator.ExpandArray page_array (next_power_of_two (addr.page + 1))
        else some page_array
      resized.map fun page_array =>
        -- the next page is added early
        let page_array :=
          if addr.offset = 0 ∧ addr.page + 1 < page_array.size then
            page_array.AddPage (addr.page + 1)
          else page_array
        let page_array := page_array.GetOrAdd addr.page
        ({ allocator with
          count_ := (allocator.count_ + 1) % 2 ^ 64, page_array_ := some page_array }, addr)

/-- `Allocate` by the thread `tid`, with the value of `safe_to_reclaim_epoch` it loads. -/
def Allocate (allocator : MallocFixedPageSize) (tid : ThreadId) (safe_to_reclaim_epoch : Nat) :
    Option (MallocFixedPageSize × FixedPageAddress) :=
  match allocator.free_list_ tid with
  | [] => allocator.draw
  | front :: rest =>
      if front.removal_epoch ≤ safe_to_reclaim_epoch then
        some ({ allocator with free_list_ := Function.update allocator.free_list_ tid rest },
          front.removed_addr)
      else allocator.draw

def Initialize (allocator : MallocFixedPageSize) (tid : ThreadId) (safe_to_reclaim_epoch : Nat)
    (alignment : Nat) : Option MallocFixedPageSize := do
  let page_array ← FixedPageArray.Create alignment 2 none
  let page_array := page_array.AddPage 0
  -- the null pointer is allocated by `Allocate`, free list and all
  let (allocator, _) ← Allocate { allocator with
    alignment_ := alignment, count_ := 0, page_array_ := some page_array,
    initialized := allocator.initialized + 1 } tid safe_to_reclaim_epoch
  return allocator

def Uninitialize (allocator : MallocFixedPageSize) : MallocFixedPageSize :=
  { allocator with page_array_ := none }

def FreeAtEpoch (allocator : MallocFixedPageSize) (tid : ThreadId) (addr : FixedPageAddress)
    (removed_epoch : Nat) : MallocFixedPageSize :=
  { allocator with
    free_list_ := Function.update allocator.free_list_ tid
      (allocator.free_list_ tid ++ [⟨addr, removed_epoch⟩]) }

end MallocFixedPageSize

inductive Call where
  | Initialize (tid : ThreadId) (safe_to_reclaim_epoch alignment : Nat)
  | Allocate (tid : ThreadId) (safe_to_reclaim_epoch : Nat)
  | FreeAtEpoch (tid : ThreadId) (addr : FixedPageAddress) (removed_epoch : Nat)
  | Uninitialize
deriving Repr, DecidableEq

/-- An allocator, and the addresses of its present page array that are in use. -/
structure Books where
  allocator : MallocFixedPageSize
  inUse : List FixedPageAddress

namespace Books

def constructed : Books where
  allocator := MallocFixedPageSize.constructed
  inUse := []

/-- With its page array all the addresses of the allocator cease to be in use. -/
def next (books : Books) : Call → Option Books
  | .Initialize tid safe_to_reclaim_epoch alignment =>
      (books.allocator.Initialize tid safe_to_reclaim_epoch alignment).map fun allocator =>
        { allocator, inUse := [] }
  | .Allocate tid safe_to_reclaim_epoch =>
      (books.allocator.Allocate tid safe_to_reclaim_epoch).map fun (allocator, addr) =>
        { allocator, inUse := addr :: books.inUse }
  | .FreeAtEpoch tid addr removed_epoch =>
      some { allocator := books.allocator.FreeAtEpoch tid addr removed_epoch
             inUse := books.inUse.erase addr }
  | Call.Uninitialize => some { allocator := books.allocator.Uninitialize, inUse := [] }

/-- Callers allocate from an allocator that has pages, and give back what is in use. -/
def Allowed (books : Books) : Call → Prop
  | .Allocate _ _ => books.allocator.page_array_.isSome = true
  | .FreeAtEpoch _ addr _ => addr ∈ books.inUse
  | .Initialize _ _ _ | Call.Uninitialize => True

instance : (books : Books) → (call : Call) → Decidable (books.Allowed call)
  | _, .Allocate _ _ => inferInstanceAs (Decidable (_ = true))
  | _, .FreeAtEpoch _ _ _ => inferInstanceAs (Decidable (_ ∈ _))
  | _, .Initialize _ _ _ => .isTrue trivial
  | _, Call.Uninitialize => .isTrue trivial

/-- The address is not the null address, it is of the present page array and it is not
in use. -/
structure Fresh (books : Books) (addr : FixedPageAddress) : Prop where
  notNull : ¬(addr.page = 0 ∧ addr.offset = 0)
  present : addr.drawn = books.allocator.initialized
  unused : ∀ b ∈ books.inUse, ¬b.Same addr

end Books

end HashComp.Allocator
