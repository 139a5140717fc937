import HashComp.Allocator.Model
import Mathlib.Data.Multiset.Range

namespace HashComp.Allocator

open Ownership

/-- The addresses that the counter has passed since the last `Initialize`, less the null
address. -/
def drawn (initialized count : Nat) : Multiset FixedPageAddress :=
  (Multiset.range (count - 1)).map fun i => ⟨i + 1, initialized⟩

theorem mem_drawn_iff {initialized count : Nat} {a : FixedPageAddress} :
    a ∈ drawn initialized count ↔
      0 < a.control_ ∧ a.control_ < count ∧ a.drawn = initialized := by
  simp only [drawn, Multiset.mem_map, Multiset.mem_range]
  constructor
  · rintro ⟨i, hi, rfl⟩
    refine ⟨Nat.succ_pos i, ?_, rfl⟩
    show i + 1 < count
    omega
  · rintro ⟨hpos, hlt, rfl⟩
    refine ⟨a.control_ - 1, by omega, ?_⟩
    rw [Nat.sub_add_cancel hpos]

theorem nodup_drawn (initialized count : Nat) : (drawn initialized count).Nodup := by
  apply Multiset.Nodup.map _ (Multiset.nodup_range _)
  intro i j h
  have hcontrol := congrArg FixedPageAddress.control_ h
  exact Nat.succ.inj hcontrol

theorem drawn_succ (initialized : Nat) {count : Nat} (hpos : 0 < count) :
    drawn initialized (count + 1) = ⟨count, initialized⟩ ::ₘ drawn initialized count := by
  obtain ⟨n, rfl⟩ := Nat.exists_eq_succ_of_ne_zero hpos.ne'
  simp only [drawn, Nat.succ_eq_add_one, Nat.add_sub_cancel, Multiset.range_succ,
    Multiset.map_cons]

theorem FixedPageAddress.control_eq {a : FixedPageAddress} (h : a.control_ < 2 ^ kAddressBits) :
    a.control_ = a.page * 2 ^ kOffsetBits + a.offset := by
  simp only [page, offset, kAddressBits, kOffsetBits, kPageBits] at h ⊢
  omega

theorem FixedPageAddress.Same.control_eq {a b : FixedPageAddress} (h : a.Same b)
    (ha : a.control_ < 2 ^ kAddressBits) (hb : b.control_ < 2 ^ kAddressBits) :
    a.control_ = b.control_ := by
  rw [FixedPageAddress.control_eq ha, FixedPageAddress.control_eq hb, h.1, h.2]

section Pages

variable {array : FixedPageArray} {i p : Nat}

theorem pages_addPage :
    (array.AddPage i).pages p = true ↔ p = i ∨ array.pages p = true := by
  simp only [FixedPageArray.AddPage, Function.update_apply]
  split
  · rename_i h
    simp only [h, true_or]
  · rename_i h
    simp only [h, false_or]

theorem pages_getOrAdd :
    (array.GetOrAdd i).pages p = true ↔ p = i ∨ array.pages p = true := by
  rw [FixedPageArray.GetOrAdd]
  split
  · rename_i h
    constructor
    · exact Or.inr
    · rintro (rfl | hp)
      · exact h
      · exact hp
  · exact pages_addPage

theorem size_getOrAdd : (array.GetOrAdd i).size = array.size := by
  rw [FixedPageArray.GetOrAdd]
  split <;> rfl

theorem le_next_power_of_two (size : Nat) : size ≤ next_power_of_two size := by
  rw [next_power_of_two]
  split
  · omega
  · have hlt := Nat.lt_log2_self (n := size - 1)
    omega

def Paged (array : FixedPageArray) (count : Nat) : Prop :=
  ∀ p, p * 2 ^ FixedPageAddress.kOffsetBits < count → p < array.size ∧ array.pages p = true

theorem expandArray_eq (allocator : MallocFixedPageSize) {count : Nat} (h : Paged array count)
    (hfull : array.size ≤ count / 2 ^ FixedPageAddress.kOffsetBits) :
    ∃ array', allocator.ExpandArray array
        (next_power_of_two (count / 2 ^ FixedPageAddress.kOffsetBits + 1)) = some array' ∧
      count / 2 ^ FixedPageAddress.kOffsetBits < array'.size ∧ array.size ≤ array'.size ∧
      ∀ p < array.size, array.pages p = true → array'.pages p = true := by
  have hgrow := le_next_power_of_two (count / 2 ^ FixedPageAddress.kOffsetBits + 1)
  have hall : ∀ idx < array.size, array.pages idx = true := by
    intro idx hidx
    refine (h idx ?_).2
    have hle := Nat.div_mul_le_self count (2 ^ FixedPageAddress.kOffsetBits)
    have hlt := Nat.mul_lt_mul_of_pos_right (lt_of_lt_of_le hidx hfull)
      (Nat.two_pow_pos FixedPageAddress.kOffsetBits)
    exact lt_of_lt_of_le hlt hle
  refine ⟨_, if_pos ⟨by omega, hall⟩, Nat.lt_of_succ_le hgrow, ?_, fun p hp hpage => ?_⟩
  · exact hfull.trans (Nat.le_of_succ_le hgrow)
  · simp only [hp, hpage, decide_true, Bool.and_self]

theorem draw_eq {allocator : MallocFixedPageSize} (harray : allocator.page_array_ = some array)
    (hcount : allocator.count_ < 2 ^ FixedPageAddress.kAddressBits)
    (h : Paged array allocator.count_) :
    ∃ array', allocator.draw =
        some ({ allocator with count_ := allocator.count_ + 1, page_array_ := some array' },
          ⟨allocator.count_, allocator.initialized⟩) ∧
      Paged array' (allocator.count_ + 1) := by
  have hpage : FixedPageAddress.page ⟨allocator.count_, allocator.initialized⟩ =
      allocator.count_ / 2 ^ FixedPageAddress.kOffsetBits := by
    simp only [FixedPageAddress.page, FixedPageAddress.kPageBits, FixedPageAddress.kAddressBits,
      FixedPageAddress.kOffsetBits] at hcount ⊢
    omega
  have hnext : (allocator.count_ + 1) % 2 ^ 64 = allocator.count_ + 1 := by
    simp only [FixedPageAddress.kAddressBits] at hcount
    omega
  have hroom : ∃ array₁,
      (if allocator.count_ / 2 ^ FixedPageAddress.kOffsetBits ≥ array.size then
          allocator.ExpandArray array
            (next_power_of_two (allocator.count_ / 2 ^ FixedPageAddress.kOffsetBits + 1))
        else some array) = some array₁ ∧
      allocator.count_ / 2 ^ FixedPageAddress.kOffsetBits < array₁.size ∧
      Paged array₁ allocator.count_ := by
    by_cases hfull : allocator.count_ / 2 ^ FixedPageAddress.kOffsetBits ≥ array.size
    · obtain ⟨array₁, hexpand, hlt, hle, hkept⟩ := expandArray_eq allocator h hfull
      refine ⟨array₁, (if_pos hfull).trans hexpand, hlt, fun p hp => ?_⟩
      obtain ⟨hsize, hthere⟩ := h p hp
      exact ⟨lt_of_lt_of_le hsize hle, hkept p hsize hthere⟩
    · exact ⟨array, if_neg hfull, not_le.mp hfull, h⟩
  obtain ⟨array₁, hexpand, hlt, hpaged⟩ := hroom
  have hearly : ∃ array₂,
      (if FixedPageAddress.offset ⟨allocator.count_, allocator.initialized⟩ = 0 ∧
          allocator.count_ / 2 ^ FixedPageAddress.kOffsetBits + 1 < array₁.size then
          array₁.AddPage (allocator.count_ / 2 ^ FixedPageAddress.kOffsetBits + 1)
        else array₁) = array₂ ∧ array₂.size = array₁.size ∧
      ∀ p, array₁.pages p = true → array₂.pages p = true := by
    split
    · exact ⟨_, rfl, rfl, fun p hp => pages_addPage.mpr (.inr hp)⟩
    · exact ⟨_, rfl, rfl, fun p hp => hp⟩
  obtain ⟨array₂, hadd, hsize, hkept⟩ := hearly
  refine ⟨array₂.GetOrAdd (allocator.count_ / 2 ^ FixedPageAddress.kOffsetBits), ?_, ?_⟩
  · simp only [MallocFixedPageSize.draw, harray, hpage, hexpand, hnext, Option.map_some, hadd]
  · intro p hp
    rw [size_getOrAdd, hsize, pages_getOrAdd]
    have hle : p ≤ allocator.count_ / 2 ^ FixedPageAddress.kOffsetBits :=
      (Nat.le_div_iff_mul_le (Nat.two_pow_pos _)).mpr (Nat.le_of_lt_succ hp)
    rcases Nat.eq_or_lt_of_le hle with rfl | hearlier
    · exact ⟨hlt, .inl rfl⟩
    · have hbelow : p * 2 ^ FixedPageAddress.kOffsetBits < allocator.count_ := by
        have hstep := Nat.mul_lt_mul_of_pos_right hearlier
          (Nat.two_pow_pos FixedPageAddress.kOffsetBits)
        exact lt_of_lt_of_le hstep (Nat.div_mul_le_self _ _)
      obtain ⟨hpsize, hthere⟩ := hpaged p hbelow
      exact ⟨hpsize, .inr (hkept p hthere)⟩

end Pages

def MallocFixedPageSize.reclaims (allocator : MallocFixedPageSize) (tid : ThreadId)
    (safe_to_reclaim_epoch : Nat) : Bool :=
  match allocator.free_list_ tid with
  | [] => false
  | front :: _ => decide (front.removal_epoch ≤ safe_to_reclaim_epoch)

section Allocate

variable {allocator : MallocFixedPageSize} {tid : ThreadId} {safe_to_reclaim_epoch : Nat}

theorem allocate_eq_draw (h : allocator.reclaims tid safe_to_reclaim_epoch = false) :
    allocator.Allocate tid safe_to_reclaim_epoch = allocator.draw := by
  cases hlist : allocator.free_list_ tid with
  | nil => simp only [MallocFixedPageSize.Allocate, hlist]
  | cons front rest =>
      simp only [MallocFixedPageSize.reclaims, hlist, decide_eq_false_iff_not] at h
      simp only [MallocFixedPageSize.Allocate, hlist]
      exact if_neg h

theorem allocate_eq_pop (h : allocator.reclaims tid safe_to_reclaim_epoch = true) :
    ∃ front rest, allocator.free_list_ tid = front :: rest ∧
      allocator.Allocate tid safe_to_reclaim_epoch =
        some ({ allocator with free_list_ := Function.update allocator.free_list_ tid rest },
          front.removed_addr) := by
  cases hlist : allocator.free_list_ tid with
  | nil =>
      simp only [MallocFixedPageSize.reclaims, hlist] at h
      cases h
  | cons front rest =>
      simp only [MallocFixedPageSize.reclaims, hlist, decide_eq_true_eq] at h
      refine ⟨front, rest, rfl, ?_⟩
      simp only [MallocFixedPageSize.Allocate, hlist]
      exact if_pos h

end Allocate

/-- The addresses on the free lists. -/
def freed (allocator : MallocFixedPageSize) : Multiset FixedPageAddress :=
  (stock allocator.free_list_).map FreeAddress.removed_addr

structure Ready (books : Books) (array : FixedPageArray) : Prop where
  pos : 0 < books.allocator.count_
  le : books.allocator.count_ ≤ 2 ^ FixedPageAddress.kAddressBits
  accounts : (books.inUse : Multiset FixedPageAddress) + freed books.allocator =
    drawn books.allocator.initialized books.allocator.count_
  paged : Paged array books.allocator.count_

structure Inv (books : Books) : Prop where
  idle : books.allocator.page_array_ = none → books.inUse = []
  ready : ∀ array, books.allocator.page_array_ = some array → Ready books array

/-- No page array is created while a thread keeps addresses of an earlier one, and the
counter stays within the bits of an address. -/
def Clean (books : Books) : Call → Prop
  | .Initialize _ _ _ => ∀ tid, books.allocator.free_list_ tid = []
  | .Allocate tid safe_to_reclaim_epoch =>
      books.allocator.reclaims tid safe_to_reclaim_epoch = true ∨
        books.allocator.count_ < 2 ^ FixedPageAddress.kAddressBits
  | .FreeAtEpoch _ _ _ | Call.Uninitialize => True

section Steps

variable {books : Books} {array : FixedPageArray} {tid : ThreadId}
  {safe_to_reclaim_epoch : Nat}

theorem Ready.mem_drawn (h : Ready books array) {a : FixedPageAddress}
    (ha : a ∈ (books.inUse : Multiset FixedPageAddress) + freed books.allocator) :
    0 < a.control_ ∧ a.control_ < books.allocator.count_ ∧
      a.drawn = books.allocator.initialized := by
  rw [h.accounts] at ha
  exact mem_drawn_iff.mp ha

theorem notNull_of_pos {a : FixedPageAddress} (hpos : 0 < a.control_)
    (hlt : a.control_ < 2 ^ FixedPageAddress.kAddressBits) :
    ¬(a.page = 0 ∧ a.offset = 0) := by
  rintro ⟨hpage, hoffset⟩
  have hcontrol := FixedPageAddress.control_eq hlt
  rw [hpage, hoffset] at hcontrol
  omega

theorem Ready.fresh_of_freed (h : Ready books array) {a : FixedPageAddress}
    (ha : a ∈ freed books.allocator) : books.Fresh a := by
  obtain ⟨hpos, hlt, hdrawn⟩ := h.mem_drawn (Multiset.mem_add.mpr (.inr ha))
  have hbits := lt_of_lt_of_le hlt h.le
  refine ⟨notNull_of_pos hpos hbits, hdrawn, fun b hb hsame => ?_⟩
  have hb' : b ∈ (books.inUse : Multiset FixedPageAddress) := hb
  obtain ⟨-, hblt, hbdrawn⟩ := h.mem_drawn (Multiset.mem_add.mpr (.inl hb'))
  have hcontrol := hsame.control_eq (lt_of_lt_of_le hblt h.le) hbits
  have hequal : b = a := by
    obtain ⟨c, d⟩ := a
    obtain ⟨c', d'⟩ := b
    exact FixedPageAddress.mk.injEq _ _ _ _ ▸ ⟨hcontrol, hbdrawn.trans hdrawn.symm⟩
  have hnodup : ((books.inUse : Multiset FixedPageAddress) + freed books.allocator).Nodup := by
    rw [h.accounts]
    exact nodup_drawn _ _
  have hapart := (Multiset.nodup_add.mp hnodup).2.2
  exact Multiset.disjoint_left.mp hapart hb' (hequal ▸ ha)

theorem Ready.fresh_of_count (h : Ready books array)
    (hcount : books.allocator.count_ < 2 ^ FixedPageAddress.kAddressBits) :
    books.Fresh ⟨books.allocator.count_, books.allocator.initialized⟩ := by
  refine ⟨notNull_of_pos h.pos hcount, rfl, fun b hb hsame => ?_⟩
  have hb' : b ∈ (books.inUse : Multiset FixedPageAddress) := hb
  obtain ⟨-, hblt, -⟩ := h.mem_drawn (Multiset.mem_add.mpr (.inl hb'))
  have hcontrol := hsame.control_eq (hblt.trans hcount) hcount
  exact absurd hcontrol hblt.ne

theorem Ready.allocate (h : Ready books array)
    (harray : books.allocator.page_array_ = some array)
    (hclean : Clean books (.Allocate tid safe_to_reclaim_epoch)) :
    ∃ allocator addr array',
      books.allocator.Allocate tid safe_to_reclaim_epoch = some (allocator, addr) ∧
        books.Fresh addr ∧ allocator.page_array_ = some array' ∧
        Ready ⟨allocator, addr :: books.inUse⟩ array' := by
  cases hreclaims : books.allocator.reclaims tid safe_to_reclaim_epoch with
  | true =>
      obtain ⟨front, rest, hlist, hpop⟩ := allocate_eq_pop hreclaims
      have hfreed : freed books.allocator = front.removed_addr ::ₘ
          freed { books.allocator with
            free_list_ := Function.update books.allocator.free_list_ tid rest } := by
        rw [freed, ← stock_pop hlist, Multiset.map_cons]
        rfl
      have hmem : front.removed_addr ∈ freed books.allocator := by
        rw [hfreed]
        exact Multiset.mem_cons_self _ _
      refine ⟨_, _, array, hpop, h.fresh_of_freed hmem, harray, h.pos, h.le, ?_, h.paged⟩
      have haccounts := h.accounts
      rw [hfreed, Multiset.add_cons] at haccounts
      rw [← Multiset.cons_coe, Multiset.cons_add]
      exact haccounts
  | false =>
      have hcount : books.allocator.count_ < 2 ^ FixedPageAddress.kAddressBits := by
        rcases hclean with hpop | hcount
        · rw [hreclaims] at hpop
          cases hpop
        · exact hcount
      obtain ⟨array', hdraw, hpaged⟩ := draw_eq harray hcount h.paged
      refine ⟨_, _, array', (allocate_eq_draw hreclaims).trans hdraw, h.fresh_of_count hcount, rfl,
        Nat.succ_pos _, hcount, ?_, hpaged⟩
      have haccounts := h.accounts
      rw [← Multiset.cons_coe, Multiset.cons_add, drawn_succ _ h.pos, ← haccounts]
      rfl

theorem Ready.freeAtEpoch (h : Ready books array) {addr : FixedPageAddress}
    {removed_epoch : Nat} (hmem : addr ∈ books.inUse) :
    Ready ⟨books.allocator.FreeAtEpoch tid addr removed_epoch, books.inUse.erase addr⟩ array := by
  refine ⟨h.pos, h.le, ?_, h.paged⟩
  have hfreed : freed (books.allocator.FreeAtEpoch tid addr removed_epoch) =
      addr ::ₘ freed books.allocator := by
    simp only [freed, MallocFixedPageSize.FreeAtEpoch, stock_push, Multiset.map_cons]
  have hmem' : addr ∈ (books.inUse : Multiset FixedPageAddress) := hmem
  show ((books.inUse.erase addr : List _) : Multiset FixedPageAddress) + freed _ = _
  rw [hfreed, ← Multiset.coe_erase, Multiset.add_cons, ← Multiset.cons_add,
    Multiset.cons_erase hmem']
  exact h.accounts

def MallocFixedPageSize.restarted (allocator : MallocFixedPageSize) (alignment : Nat) :
    MallocFixedPageSize :=
  { allocator with
    alignment_ := alignment
    count_ := 0
    page_array_ := some (FixedPageArray.AddPage
      { alignment := alignment, size := 2, pages := fun _ => false } 0)
    initialized := allocator.initialized + 1 }

theorem initialize_eq (allocator : MallocFixedPageSize) (alignment : Nat) :
    allocator.Initialize tid safe_to_reclaim_epoch alignment =
      ((allocator.restarted alignment).Allocate tid safe_to_reclaim_epoch).map Prod.fst := by
  show (MallocFixedPageSize.Allocate (allocator.restarted alignment) _ _).bind _ = _
  cases (allocator.restarted alignment).Allocate tid safe_to_reclaim_epoch <;> rfl

/-- The null address is drawn from the counter when all free lists are empty. -/
theorem initialize_ready (tid : ThreadId) (safe_to_reclaim_epoch alignment : Nat)
    (hclean : ∀ tid, books.allocator.free_list_ tid = []) :
    ∃ allocator array,
      books.allocator.Initialize tid safe_to_reclaim_epoch alignment = some allocator ∧
        allocator.page_array_ = some array ∧ Ready ⟨allocator, []⟩ array := by
  have hreclaims :
      (books.allocator.restarted alignment).reclaims tid safe_to_reclaim_epoch = false := by
    simp only [MallocFixedPageSize.reclaims, MallocFixedPageSize.restarted, hclean tid]
  have hcount : (books.allocator.restarted alignment).count_ < 2 ^ FixedPageAddress.kAddressBits :=
    Nat.two_pow_pos FixedPageAddress.kAddressBits
  obtain ⟨array, hdraw, hpaged⟩ := draw_eq (rfl : _ = some _) hcount
    fun p hp => absurd hp (Nat.not_lt_zero _)
  refine ⟨{ books.allocator.restarted alignment with
      count_ := (books.allocator.restarted alignment).count_ + 1
      page_array_ := some array }, array, ?_, rfl, Nat.one_pos, ?_, ?_, hpaged⟩
  · rw [initialize_eq, allocate_eq_draw hreclaims, hdraw]
    rfl
  · exact Nat.one_le_two_pow
  · have hempty : freed (books.allocator.restarted alignment) = 0 := by
      rw [freed]
      show (stock books.allocator.free_list_).map _ = 0
      rw [stock_eq_zero hclean, Multiset.map_zero]
    exact congrArg (fun m => (0 : Multiset FixedPageAddress) + m) hempty

theorem Inv.step (h : Inv books) {call : Call} {books' : Books}
    (hallowed : books.Allowed call) (hclean : Clean books call)
    (hnext : books.next call = some books') : Inv books' := by
  cases call with
  | Initialize tid safe_to_reclaim_epoch alignment =>
      obtain ⟨allocator, array, hinit, harray, hready⟩ :=
        initialize_ready tid safe_to_reclaim_epoch alignment hclean
      simp only [Books.next, hinit, Option.map_some, Option.some.injEq] at hnext
      subst hnext
      refine ⟨fun hnone => rfl, fun array' harray' => ?_⟩
      rw [harray] at harray'
      cases harray'
      exact hready
  | Allocate tid safe_to_reclaim_epoch =>
      obtain ⟨array, harray⟩ := Option.isSome_iff_exists.mp hallowed
      obtain ⟨allocator, addr, array', hallocate, -, harray', hready⟩ :=
        (h.ready array harray).allocate harray hclean
      simp only [Books.next, hallocate, Option.map_some, Option.some.injEq] at hnext
      subst hnext
      refine ⟨fun hnone => ?_, fun array'' harray'' => ?_⟩
      · rw [harray'] at hnone
        cases hnone
      · rw [harray'] at harray''
        cases harray''
        exact hready
  | FreeAtEpoch tid addr removed_epoch =>
      cases hnext
      refine ⟨fun hnone => ?_, fun array harray => (h.ready array harray).freeAtEpoch hallowed⟩
      have hidle := h.idle hnone
      rw [Books.Allowed, hidle] at hallowed
      exact absurd hallowed List.not_mem_nil
  | Uninitialize =>
      cases hnext
      exact ⟨fun _ => rfl, fun _ harray => by cases harray⟩

end Steps

open Runs

/-- The callers keep to their contract and the allocator is initialised with empty free
lists. -/
def Disciplined (books : Books) (call : Call) : Prop :=
  books.Allowed call ∧ Clean books call

theorem inv_of_reaches {books : Books}
    (h : Reaches Books.next Disciplined Books.constructed books) : Inv books := by
  refine Reaches.invariant ?_ (fun _ _ _ hinv hok hnext => hinv.step hok.1 hok.2 hnext) h
  exact ⟨fun _ => rfl, fun _ harray => by cases harray⟩

/-- In every run in which no page array is created over used free lists, `Allocate`
returns an address, and an address that is fresh. -/
theorem allocate_fresh {books : Books}
    (h : Reaches Books.next Disciplined Books.constructed books) {tid : ThreadId}
    {safe_to_reclaim_epoch : Nat}
    (hok : Disciplined books (.Allocate tid safe_to_reclaim_epoch)) :
    ∃ allocator addr,
      books.allocator.Allocate tid safe_to_reclaim_epoch = some (allocator, addr) ∧
        books.Fresh addr := by
  obtain ⟨array, harray⟩ := Option.isSome_iff_exists.mp hok.1
  obtain ⟨allocator, addr, -, hallocate, hfresh, -⟩ :=
    ((inv_of_reaches h).ready array harray).allocate harray hok.2
  exact ⟨allocator, addr, hallocate, hfresh⟩

/-- Two threads append a bucket to one chain.  The second is late and gives its address
back, for its next bucket. -/
def lateBucket : List Call :=
  [.Initialize 0 0 512, .Allocate 0 0, .Allocate 1 0, .FreeAtEpoch 1 ⟨2, 1⟩ 0, .Allocate 0 0]

theorem allocate_fresh_lateBucket :
    ∃ books, Reaches Books.next Disciplined Books.constructed books ∧
      Disciplined books (.Allocate 1 0) ∧
      ∃ allocator addr, books.allocator.Allocate 1 0 = some (allocator, addr) ∧
        books.Fresh addr := by
  obtain ⟨books, hbooks⟩ :
      ∃ books, runActions Books.next Books.constructed lateBucket = some books := ⟨_, rfl⟩
  have hadmits : Admits Books.next Disciplined Books.constructed lateBucket := by
    refine ⟨⟨trivial, fun _ => rfl⟩, ⟨rfl, .inr (by decide)⟩, ⟨rfl, .inr (by decide)⟩,
      ⟨?_, trivial⟩, ⟨rfl, .inr (by decide)⟩, trivial⟩
    exact List.mem_cons_self
  have hreaches := reaches_of_runActions hadmits hbooks
  have hok : Disciplined books (.Allocate 1 0) := by
    cases hbooks
    exact ⟨rfl, .inl rfl⟩
  exact ⟨books, hreaches, hok, allocate_fresh hreaches hok⟩

/-- No address is lost: what the counter has passed is in use or on a free list. -/
theorem inUse_or_freed {books : Books}
    (h : Reaches Books.next Disciplined Books.constructed books)
    (hpages : books.allocator.page_array_.isSome = true) {control : Nat} (hpos : 0 < control)
    (hlt : control < books.allocator.count_) :
    ⟨control, books.allocator.initialized⟩ ∈ books.inUse ∨
      ∃ tid, ∃ entry ∈ books.allocator.free_list_ tid,
        entry.removed_addr = ⟨control, books.allocator.initialized⟩ := by
  obtain ⟨array, harray⟩ := Option.isSome_iff_exists.mp hpages
  have hready := (inv_of_reaches h).ready array harray
  have hmem : (⟨control, books.allocator.initialized⟩ : FixedPageAddress) ∈
      drawn books.allocator.initialized books.allocator.count_ :=
    mem_drawn_iff.mpr ⟨hpos, hlt, rfl⟩
  rw [← hready.accounts] at hmem
  rcases Multiset.mem_add.mp hmem with hinUse | hfreed
  · exact .inl hinUse
  · obtain ⟨entry, hentry, haddr⟩ := Multiset.mem_map.mp hfreed
    obtain ⟨tid, htid⟩ := mem_stock_iff.mp hentry
    exact .inr ⟨tid, entry, htid, haddr⟩

theorem page_of_inUse {books : Books}
    (h : Reaches Books.next Disciplined Books.constructed books) {addr : FixedPageAddress}
    (hmem : addr ∈ books.inUse) :
    ∃ array, books.allocator.page_array_ = some array ∧ addr.page < array.size ∧
      array.pages addr.page = true := by
  have hinv := inv_of_reaches h
  cases harray : books.allocator.page_array_ with
  | none =>
      rw [hinv.idle harray] at hmem
      exact absurd hmem List.not_mem_nil
  | some array =>
      have hready := hinv.ready array harray
      have hmem' : addr ∈ (books.inUse : Multiset FixedPageAddress) := hmem
      obtain ⟨-, hlt, -⟩ := hready.mem_drawn (Multiset.mem_add.mpr (.inl hmem'))
      have hcontrol := FixedPageAddress.control_eq (lt_of_lt_of_le hlt hready.le)
      exact ⟨array, rfl, hready.paged addr.page (by omega)⟩

end HashComp.Allocator
