import HashComp.Allocator.Accounts

namespace HashComp.Allocator

open Runs

section Draw

variable {allocator allocator' : MallocFixedPageSize} {addr : FixedPageAddress}
  {tid : ThreadId} {safe_to_reclaim_epoch : Nat}

theorem of_draw_eq (h : allocator.draw = some (allocator', addr)) :
    allocator'.free_list_ = allocator.free_list_ ∧
      allocator'.initialized = allocator.initialized ∧ addr.drawn = allocator.initialized := by
  simp only [MallocFixedPageSize.draw] at h
  split at h
  · cases h
  · obtain ⟨array, -, h⟩ := Option.map_eq_some_iff.mp h
    cases h
    exact ⟨rfl, rfl, rfl⟩

theorem of_allocate_eq
    (h : allocator.Allocate tid safe_to_reclaim_epoch = some (allocator', addr)) :
    (∀ o, ∀ e ∈ allocator'.free_list_ o, e ∈ allocator.free_list_ o) ∧
      allocator'.initialized = allocator.initialized ∧
      (addr.drawn = allocator.initialized ∨
        ∃ e ∈ allocator.free_list_ tid, e.removed_addr = addr) := by
  cases hreclaims : allocator.reclaims tid safe_to_reclaim_epoch with
  | false =>
      rw [allocate_eq_draw hreclaims] at h
      obtain ⟨hlists, hinitialized, hdrawn⟩ := of_draw_eq h
      refine ⟨fun o e he => ?_, hinitialized, .inl hdrawn⟩
      rw [hlists] at he
      exact he
  | true =>
      obtain ⟨front, rest, hlist, hpop⟩ := allocate_eq_pop hreclaims
      rw [hpop] at h
      cases h
      refine ⟨fun o e he => ?_, rfl, .inr ⟨front, ?_, rfl⟩⟩
      · have he : e ∈ Function.update allocator.free_list_ tid rest o := he
        by_cases ho : o = tid
        · subst ho
          rw [Function.update_self] at he
          rw [hlist]
          exact List.mem_cons_of_mem front he
        · rwa [Function.update_of_ne ho] at he
      · rw [hlist]
        exact List.mem_cons_self

end Draw

structure Past (books : Books) : Prop where
  lists : ∀ tid, ∀ e ∈ books.allocator.free_list_ tid,
    e.removed_addr.drawn ≤ books.allocator.initialized
  inUse : ∀ a ∈ books.inUse, a.drawn ≤ books.allocator.initialized

variable {books books' : Books}

theorem Past.step (h : Past books) {call : Call} (hallowed : books.Allowed call)
    (hnext : books.next call = some books') : Past books' := by
  cases call with
  | Initialize tid safe_to_reclaim_epoch alignment =>
      obtain ⟨allocator, hinit, rfl⟩ := Option.map_eq_some_iff.mp hnext
      rw [initialize_eq] at hinit
      obtain ⟨⟨allocator', addr⟩, hallocate, rfl⟩ := Option.map_eq_some_iff.mp hinit
      obtain ⟨hlists, hinitialized, -⟩ := of_allocate_eq hallocate
      refine ⟨fun o e he => ?_, fun a ha => absurd ha List.not_mem_nil⟩
      have hold := h.lists o e (hlists o e he)
      show _ ≤ allocator'.initialized
      rw [hinitialized]
      exact Nat.le_succ_of_le hold
  | Allocate tid safe_to_reclaim_epoch =>
      obtain ⟨⟨allocator, addr⟩, hallocate, rfl⟩ := Option.map_eq_some_iff.mp hnext
      obtain ⟨hlists, hinitialized, haddr⟩ := of_allocate_eq hallocate
      refine ⟨fun o e he => ?_, fun a ha => ?_⟩
      · show _ ≤ allocator.initialized
        rw [hinitialized]
        exact h.lists o e (hlists o e he)
      · show _ ≤ allocator.initialized
        rw [hinitialized]
        rcases List.mem_cons.mp ha with rfl | ha
        · rcases haddr with hdrawn | ⟨e, he, rfl⟩
          · exact hdrawn.le
          · exact h.lists tid e he
        · exact h.inUse a ha
  | FreeAtEpoch tid addr removed_epoch =>
      cases hnext
      refine ⟨fun o e he => ?_, fun a ha => h.inUse a (List.mem_of_mem_erase ha)⟩
      simp only [MallocFixedPageSize.FreeAtEpoch] at he
      by_cases ho : o = tid
      · subst ho
        rw [Function.update_self] at he
        rcases List.mem_append.mp he with he | he
        · exact h.lists o e he
        · rw [List.mem_singleton.mp he]
          exact h.inUse addr hallowed
      · rw [Function.update_of_ne ho] at he
        exact h.lists o e he
  | Uninitialize =>
      cases hnext
      exact ⟨h.lists, fun a ha => absurd ha List.not_mem_nil⟩

theorem past_of_reaches (h : Reaches Books.next Books.Allowed Books.constructed books) :
    Past books := by
  refine Reaches.invariant ?_ (fun _ _ _ hpast hok hnext => hpast.step hok hnext) h
  exact ⟨fun _ _ he => absurd he List.not_mem_nil, fun _ ha => absurd ha List.not_mem_nil⟩

/-- Wherever a run calls `Initialize` while a thread has an address on its free list,
that thread can next get an address that is not fresh. -/
theorem stale_of_initialize (h : Reaches Books.next Books.Allowed Books.constructed books)
    {tid tid' : ThreadId} {safe_to_reclaim_epoch alignment : Nat}
    (hlist : books.allocator.free_list_ tid ≠ [])
    (hnext : books.next (.Initialize tid' safe_to_reclaim_epoch alignment) = some books') :
    ∃ safe_to_reclaim_epoch' allocator addr,
      books'.allocator.Allocate tid safe_to_reclaim_epoch' = some (allocator, addr) ∧
        ¬books'.Fresh addr := by
  obtain ⟨allocator, hinit, rfl⟩ := Option.map_eq_some_iff.mp hnext
  rw [initialize_eq] at hinit
  obtain ⟨⟨allocator', null⟩, hallocate, rfl⟩ := Option.map_eq_some_iff.mp hinit
  obtain ⟨hlists, hinitialized, -⟩ := of_allocate_eq hallocate
  cases hrest : allocator'.free_list_ tid with
  | cons front rest =>
      -- an address that was freed before `Initialize`
      have hreclaims : allocator'.reclaims tid front.removal_epoch = true := by
        simp only [MallocFixedPageSize.reclaims, hrest, Nat.le_refl, decide_true]
      obtain ⟨front', rest', hlist', hpop⟩ := allocate_eq_pop hreclaims
      rw [hrest] at hlist'
      cases hlist'
      refine ⟨_, _, _, hpop, fun hfresh => ?_⟩
      have hmem : front ∈ allocator'.free_list_ tid := by
        rw [hrest]
        exact List.mem_cons_self
      have hpast := (past_of_reaches h).lists tid front (hlists tid front hmem)
      have hpresent := hfresh.present
      rw [hinitialized] at hpresent
      rw [hpresent] at hpast
      exact absurd hpast (Nat.not_succ_le_self _)
  | nil =>
      -- its only address was taken for the null address
      cases hreclaims : (books.allocator.restarted alignment).reclaims tid'
          safe_to_reclaim_epoch with
      | false =>
          rw [allocate_eq_draw hreclaims] at hallocate
          obtain ⟨hsame, -, -⟩ := of_draw_eq hallocate
          rw [hsame] at hrest
          exact absurd hrest hlist
      | true =>
          obtain ⟨front, rest, -, hpop⟩ := allocate_eq_pop hreclaims
          have hpopped := congrArg Prod.fst (Option.some.inj (hallocate.symm.trans hpop))
          have hcount : allocator'.count_ = 0 := congrArg MallocFixedPageSize.count_ hpopped
          have harray : allocator'.page_array_ = some _ :=
            congrArg MallocFixedPageSize.page_array_ hpopped
          have hnone : allocator'.reclaims tid 0 = false := by
            simp only [MallocFixedPageSize.reclaims, hrest]
          have hbits : allocator'.count_ < 2 ^ FixedPageAddress.kAddressBits := by
            rw [hcount]
            exact Nat.two_pow_pos _
          obtain ⟨array, hdraw, -⟩ := draw_eq harray hbits fun p hp => by
            rw [hcount] at hp
            exact absurd hp (Nat.not_lt_zero _)
          refine ⟨0, _, _, (allocate_eq_draw hnone).trans hdraw, fun hfresh => hfresh.notNull ?_⟩
          rw [hcount]
          simp only [FixedPageAddress.page, FixedPageAddress.offset, Nat.zero_div, Nat.zero_mod,
            and_self]

/-- A thread has lost the race for an overflow bucket before the index grows twice. -/
def grownTwice (tid : ThreadId) : List Call :=
  [.Initialize 0 0 512, .Allocate 1 0, .FreeAtEpoch 1 ⟨1, 1⟩ 0, Call.Uninitialize,
    .Initialize tid 0 512]

/-- When that thread starts the second growth, the next bucket of another thread is at
the null address.  When another thread starts it, the thread gets an address of the old
page array, which is that of a bucket in use. -/
theorem stale_addresses :
    (∃ books, runActions Books.next Books.constructed (grownTwice 1) = some books ∧
      Reaches Books.next Books.Allowed Books.constructed books ∧
      books.Allowed (.Allocate 0 0) ∧
      ∃ allocator addr, books.allocator.Allocate 0 0 = some (allocator, addr) ∧
        addr.page = 0 ∧ addr.offset = 0) ∧
    ∃ books, runActions Books.next Books.constructed (grownTwice 0 ++ [.Allocate 0 0]) =
        some books ∧
      Reaches Books.next Books.Allowed Books.constructed books ∧
      books.Allowed (.Allocate 1 0) ∧
      ∃ allocator addr, books.allocator.Allocate 1 0 = some (allocator, addr) ∧
        addr.drawn ≠ books.allocator.initialized ∧ ∃ b ∈ books.inUse, b.Same addr := by
  constructor
  · obtain ⟨books, hbooks⟩ :
        ∃ books, runActions Books.next Books.constructed (grownTwice 1) = some books := ⟨_, rfl⟩
    have hadmits : Admits Books.next Books.Allowed Books.constructed (grownTwice 1) :=
      ⟨trivial, rfl, List.mem_cons_self, trivial, trivial, trivial⟩
    refine ⟨books, hbooks, reaches_of_runActions hadmits hbooks, ?_⟩
    cases hbooks
    exact ⟨rfl, _, _, rfl, rfl, rfl⟩
  · obtain ⟨books, hbooks⟩ :
        ∃ books, runActions Books.next Books.constructed (grownTwice 0 ++ [.Allocate 0 0]) =
          some books := ⟨_, rfl⟩
    have hadmits : Admits Books.next Books.Allowed Books.constructed
        (grownTwice 0 ++ [.Allocate 0 0]) :=
      ⟨trivial, rfl, List.mem_cons_self, trivial, trivial, rfl, trivial⟩
    refine ⟨books, hbooks, reaches_of_runActions hadmits hbooks, ?_⟩
    cases hbooks
    refine ⟨rfl, _, _, rfl, ?_, ⟨1, 2⟩, List.mem_cons_self, rfl, rfl⟩
    decide

end HashComp.Allocator
