import HashComp.Hlog.Flushed
import HashComp.Hlog.TailWord
import HashComp.Library.Alignment
import Mathlib.Data.Finset.Card

namespace HashComp.Hlog

open HashComp.Alignment
open HashComp.Faster
open HashComp.Runs

def Pc.waitsFor : Pc → Option Nat
  | .full oldPage | .checking oldPage | .testing oldPage | .moving oldPage
  | .exchanging oldPage _ => some oldPage
  | .shiftingReadOnly tailPage false | .bumpingReadOnly _ tailPage false
  | .shiftingHead tailPage false | .updatingHead _ tailPage false
  | .bumpingHead _ tailPage false => some (tailPage - 1)
  | _ => none

/-- The page that `NewPage` has been called with, while it tries to leave it. -/
def Pc.leaves : Pc → Option Nat
  | .checking oldPage | .testing oldPage | .moving oldPage | .exchanging oldPage _ => some oldPage
  | _ => none

/-- Where a thread is when it has called an operation, or has begun a callback. -/
def Pc.Begins (x : System) : Pc → Prop
  | .full _ | .holding _ | .markingReadOnly _ | .movingSafeHead _ | .storing _ _ => True
  | .updatingToTail tailAddress =>
      tailAddress = pageStart x.tailPage + min (kPageSize - 1) x.tailOffset
  | _ => False

def System.waiting (c : Config) (x : System) : Finset Nat :=
  (Finset.range c.numThreads).filter fun t => (x.pc t).waitsFor = some x.tailPage

structure Allocations where
  system : System
  returned : List Range

def Allocations.next (c : Config) (a : Allocations) (m : Move) : Option Allocations :=
  (a.system.next c m).map fun y =>
    match m with
    | .allocate _ numSlots =>
        let address := pageStart a.system.tailPage + a.system.tailOffset
        if a.system.tailOffset + numSlots ≤ kPageSize then
          ⟨y, ⟨address, address + numSlots⟩ :: a.returned⟩
        else ⟨y, a.returned⟩
    | _ => ⟨y, a.returned⟩

/-- The assertion of `NewPage`, called with the page that is full. -/
def Pc.asserts : Pc → Bool
  | .full oldPage => decide (oldPage < kMaxPage)
  | _ => true

def Asserts (x : System) : Move → Prop
  | .newPage t => (x.pc t).asserts
  | _ => True

instance (x : System) : (m : Move) → Decidable (Asserts x m)
  | .newPage t => inferInstanceAs (Decidable ((x.pc t).asserts = true))
  | .allocate .. | .shiftReadOnlyToTail _ | .refresh _ | .unprotect _ | .drain .. | .complete ..
  | .run _ => .isTrue trivial

variable {c : Config} {x y : System} {a b : Allocations} {m : Move} {t u n : Nat}

section Steps

/-- What a step of a thread does to the tail, and to what the thread waits for. -/
theorem tail_of_step (hstep : x.step c t = some y) : (∀ u, u ≠ t → y.pc u = x.pc u) ∧
    (y.tailPage = x.tailPage ∧ y.tailOffset = x.tailOffset ∧
        ((x.pc t).waitsFor = some x.tailPage → (y.pc t).waitsFor = some x.tailPage) ∨
      y.tailPage = x.tailPage + 1 ∧ y.tailOffset = 0 ∧ ∃ o, x.pc t = .exchanging x.tailPage o) := by
  cases hpc : x.pc t <;> simp only [System.step, hpc] at hstep
  case idle => cases hstep
  case full => cases hstep
  case checking oldPage | testing oldPage =>
    all_goals
      split at hstep <;> cases hstep
      all_goals
        refine ⟨fun u hu => goto_pc_of_ne hu, Or.inl ⟨rfl, rfl, fun h => ?_⟩⟩
        rw [goto_pc_self]
        exact h
  case moving oldPage =>
    split at hstep <;> cases hstep
    · exact ⟨fun u hu => goto_pc_of_ne hu, Or.inl ⟨rfl, rfl, fun h => by rwa [goto_pc_self]⟩⟩
    · rename_i hne
      refine ⟨fun u hu => goto_pc_of_ne hu, Or.inl ⟨rfl, rfl, fun h => ?_⟩⟩
      exact absurd (Option.some.inj h).symm hne
  case exchanging oldPage expectedOffset =>
    split at hstep
    · rename_i hsame
      cases hstep
      obtain ⟨rfl, -⟩ := hsame
      exact ⟨fun u hu => goto_pc_of_ne hu, Or.inr ⟨rfl, rfl, _, rfl⟩⟩
    · split at hstep <;> cases hstep
      · rename_i hlt
        refine ⟨fun u hu => goto_pc_of_ne hu, Or.inl ⟨rfl, rfl, fun h => ?_⟩⟩
        exact absurd (Option.some.inj h) (Nat.ne_of_lt hlt)
      · exact ⟨fun u hu => goto_pc_of_ne hu, Or.inl ⟨rfl, rfl, fun h => by rwa [goto_pc_self]⟩⟩
  -- The thread goes on in `NewPage` and waits for the same page.
  case shiftingReadOnly tailPage wonCas | bumpingReadOnly desired tailPage wonCas
    | shiftingHead tailPage wonCas | updatingHead desired tailPage wonCas
    | bumpingHead desired tailPage wonCas =>
    all_goals
      repeat' split at hstep
      all_goals
        cases hstep
        refine ⟨fun u hu => goto_pc_of_ne hu, Or.inl ⟨rfl, rfl, fun h => ?_⟩⟩
        rw [goto_pc_self]
        cases wonCas
        · exact h
        · cases h
  -- The thread waits for no page.
  all_goals
    repeat' split at hstep
    all_goals
      cases hstep
      exact ⟨fun u hu => goto_pc_of_ne hu, Or.inl ⟨rfl, rfl, fun h => by cases h⟩⟩

theorem next_allocate (hnext : x.next c (.allocate t n) = some y) :
    t < c.numThreads ∧ x.pc t = .idle ∧ 0 < n ∧ n < kPageSize ∧
      y = { x with tailOffset := x.tailOffset + n }.goto t
        (if kPageSize < x.tailOffset + n then .full x.tailPage
          else .holding (pageStart x.tailPage + x.tailOffset)) := by
  simp only [System.next] at hnext
  split at hnext
  · rename_i hok
    obtain ⟨ht, hpc, -, hpos, hlt⟩ := hok
    refine ⟨ht, hpc, hpos, hlt, ?_⟩
    split at hnext <;> cases hnext
    · rename_i hfull
      rw [if_pos hfull]
    · rename_i hroom
      rw [if_neg hroom]
  · cases hnext

theorem tail_of_next (hnext : x.next c m = some y) :
    (y.tailPage = x.tailPage ∧ y.tailOffset = x.tailOffset ∧ x.waiting c ⊆ y.waiting c) ∨
    (y.tailPage = x.tailPage + 1 ∧ y.tailOffset = 0 ∧
      ∃ t o, x.pc t = .exchanging x.tailPage o) ∨
    ∃ t n, m = .allocate t n ∧ t < c.numThreads ∧ x.pc t = .idle ∧ 0 < n ∧ n < kPageSize ∧
      y = { x with tailOffset := x.tailOffset + n }.goto t
        (if kPageSize < x.tailOffset + n then .full x.tailPage
          else .holding (pageStart x.tailPage + x.tailOffset)) := by
  have hgo (t : Nat) (htail : y.tailPage = x.tailPage)
      (hothers : ∀ u, u ≠ t → y.pc u = x.pc u)
      (ht : (x.pc t).waitsFor = some x.tailPage → (y.pc t).waitsFor = some x.tailPage) :
      x.waiting c ⊆ y.waiting c := by
    intro u hu
    rw [System.waiting, Finset.mem_filter] at hu ⊢
    refine ⟨hu.1, ?_⟩
    rw [htail]
    by_cases hut : u = t
    · subst hut
      exact ht hu.2
    · rw [hothers u hut]
      exact hu.2
  have hidle (t : Nat) (hpc : x.pc t = .idle) :
      (x.pc t).waitsFor = some x.tailPage → (y.pc t).waitsFor = some x.tailPage := by
    rw [hpc]
    intro h
    cases h
  cases m with
  | allocate t n => exact Or.inr (Or.inr ⟨t, n, rfl, next_allocate hnext⟩)
  | newPage t =>
      simp only [System.next] at hnext
      split at hnext
      · rename_i oldPage hpc
        cases hnext
        refine Or.inl ⟨rfl, rfl, hgo t rfl (fun u hu => goto_pc_of_ne hu) fun h => ?_⟩
        rw [goto_pc_self]
        rw [hpc] at h
        exact h
      · cases hnext
  | shiftReadOnlyToTail t =>
      simp only [System.next] at hnext
      split at hnext <;> cases hnext
      rename_i hok
      exact Or.inl ⟨rfl, rfl, hgo t rfl (fun u hu => goto_pc_of_ne hu) (hidle t hok.2)⟩
  | refresh t =>
      simp only [System.next] at hnext
      split at hnext
      · split at hnext <;> cases hnext
        exact Or.inl ⟨rfl, rfl, hgo t rfl (fun _ _ => rfl) id⟩
      · split at hnext <;> cases hnext
        exact Or.inl ⟨rfl, rfl, hgo t rfl (fun _ _ => rfl) id⟩
      · cases hnext
  | unprotect t =>
      simp only [System.next] at hnext
      split at hnext <;> cases hnext
      exact Or.inl ⟨rfl, rfl, hgo t rfl (fun _ _ => rfl) id⟩
  | drain t i =>
      simp only [System.next] at hnext
      split at hnext
      · split at hnext <;> cases hnext
        rename_i hok
        exact Or.inl ⟨rfl, rfl, hgo t rfl (fun u hu => goto_pc_of_ne hu) (hidle t hok.2.1)⟩
      · cases hnext
  | complete t i =>
      simp only [System.next] at hnext
      split at hnext
      · split at hnext <;> cases hnext
        rename_i hok
        exact Or.inl ⟨rfl, rfl, hgo t rfl (fun u hu => goto_pc_of_ne hu) (hidle t hok.2)⟩
      · cases hnext
  | run t =>
      obtain ⟨hothers, h⟩ := tail_of_step hnext
      rcases h with ⟨htail, hoffset, hwaits⟩ | ⟨htail, hoffset, o, hpc⟩
      · exact Or.inl ⟨htail, hoffset, hgo t htail hothers hwaits⟩
      · exact Or.inr (Or.inl ⟨htail, hoffset, t, o, hpc⟩)

end Steps

section Invariant

structure Ranges (a : Allocations) : Prop where
  ascending : a.returned.Pairwise fun r s => s.stop ≤ r.start
  onePage : ∀ r ∈ a.returned, r.start < r.stop ∧ r.stop ≤ pageStart (pageOf r.start + 1)
  below : ∀ r ∈ a.returned,
    r.stop ≤ pageStart a.system.tailPage + min a.system.tailOffset kPageSize

/-- Each thread runs over the end of the page once at most, and `NewPage` is not called on
the last page. -/
structure Bounded (c : Config) (x : System) : Prop where
  offset : x.tailOffset ≤ kPageSize + (kPageSize - 1) * (x.waiting c).card
  page : x.tailPage ≤ kMaxPage
  asserted : ∀ t p, (x.pc t).leaves = some p → p < kMaxPage
  expected : ∀ t p o, x.pc t = .exchanging p o → o ≤ kPageSize + (kPageSize - 1) * c.numThreads

theorem ranges_start (x : System) : Ranges ⟨x, []⟩ := by
  constructor <;> simp

theorem Constructed.bounded (h : Constructed c x) : Bounded c x := by
  cases h with
  | startAddress a hpage =>
      have hlt : a % kPageSize ≤ kPageSize := Nat.le_of_lt (Nat.mod_lt _ (by decide))
      exact ⟨Nat.le_trans hlt (Nat.le_add_right ..), hpage, nofun, nofun⟩
  | invalidPage =>
      exact ⟨Nat.le_trans (by decide) (Nat.le_add_right ..), Nat.zero_le _, nofun, nofun⟩

theorem leaves_afterShifts {tailPage : Nat} {wonCas : Bool} :
    (afterShifts tailPage wonCas).leaves = none := by
  cases wonCas <;> rfl

theorem leaves_of_step (hstep : x.step c t = some y) {p : Nat}
    (hy : (y.pc t).leaves = some p) : (x.pc t).leaves = some p := by
  cases hpc : x.pc t <;> simp only [System.step, hpc] at hstep
  case idle => cases hstep
  case full => cases hstep
  all_goals
    repeat' split at hstep
    all_goals
      cases hstep
      rw [goto_pc_self] at hy
      first
        | exact hy
        | cases hy
        | cases leaves_afterShifts.symm.trans hy

theorem Pc.Begins.leaves {pc : Pc} (h : pc.Begins x) : pc.leaves = none := by
  cases pc <;> first | rfl | cases h

/-- A thread is where it was, has taken its step, has called `NewPage`, or has begun
something else. -/
theorem pc_of_next (hnext : x.next c m = some y) (u : Nat) :
    y.pc u = x.pc u ∨ m = .run u ∧ x.step c u = some y ∨
      (m = .newPage u ∧ ∃ p, x.pc u = .full p ∧ y.pc u = .checking p) ∨
        (y.pc u).Begins x := by
  have hgo {z : System} {t : Nat} {pc : Pc} (hyz : y = z.goto t pc) (hz : z.pc = x.pc)
      (hpc : pc.Begins x) : y.pc u = x.pc u ∨ (y.pc u).Begins x := by
    subst hyz
    by_cases hut : u = t
    · subst hut
      rw [goto_pc_self]
      exact Or.inr hpc
    · rw [goto_pc_of_ne hut, hz]
      exact Or.inl rfl
  have hquiet (h : y.pc u = x.pc u ∨ (y.pc u).Begins x) :
      y.pc u = x.pc u ∨ m = .run u ∧ x.step c u = some y ∨
        (m = .newPage u ∧ ∃ p, x.pc u = .full p ∧ y.pc u = .checking p) ∨
          (y.pc u).Begins x :=
    h.imp_right fun hbegins => Or.inr (Or.inr hbegins)
  cases m with
  | allocate t n =>
      obtain ⟨-, -, -, -, hy⟩ := next_allocate hnext
      apply hquiet
      refine hgo hy rfl ?_
      split <;> trivial
  | newPage t =>
      simp only [System.next] at hnext
      split at hnext
      · rename_i oldPage hpc
        cases hnext
        by_cases hut : u = t
        · subst hut
          exact Or.inr (Or.inr (Or.inl ⟨rfl, oldPage, hpc, goto_pc_self⟩))
        · exact Or.inl (goto_pc_of_ne hut)
      · cases hnext
  | shiftReadOnlyToTail t =>
      simp only [System.next] at hnext
      split at hnext <;> cases hnext
      exact hquiet (hgo rfl rfl rfl)
  | refresh t =>
      simp only [System.next] at hnext
      split at hnext
      · split at hnext <;> cases hnext
        exact Or.inl rfl
      · split at hnext <;> cases hnext
        exact Or.inl rfl
      · cases hnext
  | unprotect t =>
      simp only [System.next] at hnext
      split at hnext <;> cases hnext
      exact Or.inl rfl
  | drain t i =>
      simp only [System.next] at hnext
      split at hnext
      · rename_i action haction
        split at hnext <;> cases hnext
        apply hquiet
        refine hgo rfl rfl ?_
        cases action.callback <;> trivial
      · cases hnext
  | complete t i =>
      simp only [System.next] at hnext
      split at hnext
      · split at hnext <;> cases hnext
        exact hquiet (hgo rfl rfl trivial)
      · cases hnext
  | run t =>
      by_cases hut : u = t
      · subst hut
        exact Or.inr (Or.inl ⟨rfl, hnext⟩)
      · exact Or.inl ((tail_of_step hnext).1 u hut)

theorem leaves_of_next (hnext : x.next c m = some y) {p : Nat} (hy : (y.pc u).leaves = some p) :
    (x.pc u).leaves = some p ∨ m = .newPage u ∧ x.pc u = .full p := by
  rcases pc_of_next hnext u with hsame | ⟨-, hstep⟩ | ⟨hm, q, hfull, hchecking⟩ | hbegins
  · rw [hsame] at hy
    exact Or.inl hy
  · exact Or.inl (leaves_of_step hstep hy)
  · rw [hchecking] at hy
    cases hy
    exact Or.inr ⟨hm, hfull⟩
  · rw [hbegins.leaves] at hy
    cases hy

theorem expects_of_step (hstep : x.step c t = some y) {p o : Nat}
    (hy : y.pc t = .exchanging p o) : o = x.tailOffset := by
  cases hpc : x.pc t <;> simp only [System.step, hpc] at hstep
  case idle => cases hstep
  case full => cases hstep
  all_goals
    repeat' split at hstep
    all_goals
      cases hstep
      rw [goto_pc_self] at hy
      first
        | cases hy; done
        | cases hy; rfl
        | cases leaves_afterShifts.symm.trans (congrArg Pc.leaves hy)

theorem expects_of_next (hnext : x.next c m = some y) {p o : Nat}
    (hy : y.pc u = .exchanging p o) : x.pc u = .exchanging p o ∨ o = x.tailOffset := by
  rcases pc_of_next hnext u with hsame | ⟨-, hstep⟩ | ⟨-, q, -, hchecking⟩ | hbegins
  · rw [hsame] at hy
    exact Or.inl hy
  · exact Or.inr (expects_of_step hstep hy)
  · rw [hchecking] at hy
    cases hy
  · rw [hy] at hbegins
    cases hbegins

/-- A thread that is told that the page is full is one more that waits for it. -/
theorem card_waiting_full (ht : t < c.numThreads) (hpc : x.pc t = .idle) :
    ({ x with tailOffset := n }.goto t (.full x.tailPage)).waiting c =
      insert t (x.waiting c) ∧ t ∉ x.waiting c := by
  constructor
  · ext u
    rw [System.waiting, Finset.mem_filter, Finset.mem_insert, System.waiting, Finset.mem_filter]
    by_cases hut : u = t
    · subst hut
      rw [goto_pc_self]
      simp [Pc.waitsFor, System.goto, Finset.mem_range.mpr ht]
    · rw [goto_pc_of_ne hut]
      simp [hut, System.goto]
  · rw [System.waiting, Finset.mem_filter, hpc]
    rintro ⟨-, h⟩
    cases h

theorem card_waiting_le (c : Config) (x : System) : (x.waiting c).card ≤ c.numThreads := by
  have hle := Finset.card_filter_le (Finset.range c.numThreads)
    fun t => (x.pc t).waitsFor = some x.tailPage
  rwa [Finset.card_range] at hle

theorem Bounded.offset_le (h : Bounded c x) :
    x.tailOffset ≤ kPageSize + (kPageSize - 1) * c.numThreads :=
  Nat.le_trans h.offset
    (Nat.add_le_add_left (Nat.mul_le_mul_left _ (card_waiting_le c x)) _)

theorem Bounded.next (h : Bounded c x) (hassert : Asserts x m)
    (hnext : x.next c m = some y) : Bounded c y := by
  have hasserted : ∀ t p, (y.pc t).leaves = some p → p < kMaxPage := by
    intro t p hleaves
    rcases leaves_of_next hnext hleaves with hx | ⟨hm, hfull⟩
    · exact h.asserted t p hx
    · subst hm
      rw [Asserts, hfull] at hassert
      exact of_decide_eq_true hassert
  have hexpected : ∀ t p o, y.pc t = .exchanging p o →
      o ≤ kPageSize + (kPageSize - 1) * c.numThreads := by
    intro t p o hpc
    rcases expects_of_next hnext hpc with hx | rfl
    · exact h.expected t p o hx
    · exact h.offset_le
  have hoffset := h.offset
  have hpage := h.page
  rcases tail_of_next hnext with ⟨htail, hsame, hwaits⟩ | ⟨htail, hzero, t, o, hpc⟩ |
    ⟨t, n, rfl, ht, hpc, hpos, hlt, rfl⟩
  · have hcard := Nat.mul_le_mul_left (kPageSize - 1) (Finset.card_le_card hwaits)
    exact ⟨by omega, by omega, hasserted, hexpected⟩
  · have hlast := h.asserted t x.tailPage (by rw [hpc]; rfl)
    refine ⟨?_, by omega, hasserted, hexpected⟩
    rw [hzero]
    exact Nat.zero_le _
  · refine ⟨?_, hpage, hasserted, hexpected⟩
    by_cases hfull : kPageSize < x.tailOffset + n
    · obtain ⟨hwaiting, hnot⟩ := card_waiting_full (n := x.tailOffset + n) ht hpc
      rw [if_pos hfull, hwaiting, Finset.card_insert_of_notMem hnot]
      change x.tailOffset + n ≤ _
      rw [Nat.mul_add, Nat.mul_one]
      omega
    · refine Nat.le_trans (Nat.not_lt.mp hfull) (Nat.le_add_right ..)

theorem fits_of_le {o : Nat} (hthreads : c.numThreads ≤ kMaxNumThreads)
    (ho : o ≤ kPageSize + (kPageSize - 1) * c.numThreads) : o < 2 ^ 32 := by
  have hmul : (kPageSize - 1) * c.numThreads ≤ (kPageSize - 1) * 96 :=
    Nat.mul_le_mul_left _ hthreads
  have hsize : kPageSize = 2 ^ 25 := rfl
  omega

theorem Bounded.tailFits (h : Bounded c x) (hthreads : c.numThreads ≤ kMaxNumThreads) :
    x.TailFits :=
  ⟨h.page, fits_of_le hthreads h.offset_le⟩

theorem pageOf_lt_of_lt {p : Nat} {r : Range} (hstart : pageStart p ≤ r.start)
    (hlt : r.start < pageStart p + kPageSize) : pageOf r.start = p := by
  rw [pageOf, Nat.div_eq_of_lt_le]
  · exact hstart
  · rw [Nat.add_mul, Nat.one_mul]
    exact hlt

theorem Ranges.allocate (h : Ranges a) (hpos : 0 < n)
    (hroom : a.system.tailOffset + n ≤ kPageSize)
    (hpage : y.tailPage = a.system.tailPage) (hoffset : y.tailOffset = a.system.tailOffset + n) :
    Ranges ⟨y, ⟨pageStart a.system.tailPage + a.system.tailOffset,
      pageStart a.system.tailPage + a.system.tailOffset + n⟩ :: a.returned⟩ := by
  have hbelow := h.below
  refine ⟨List.pairwise_cons.mpr ⟨fun r hr => ?_, h.ascending⟩,
    List.forall_mem_cons.mpr ⟨?_, h.onePage⟩, List.forall_mem_cons.mpr ⟨?_, fun r hr => ?_⟩⟩
  · have hr := hbelow r hr
    dsimp only
    omega
  · have hpageOf : pageOf (pageStart a.system.tailPage + a.system.tailOffset) =
        a.system.tailPage :=
      pageOf_lt_of_lt (r := ⟨_, 0⟩) (Nat.le_add_right ..) (by dsimp only; omega)
    dsimp only
    rw [hpageOf, pageStart_succ]
    omega
  · dsimp only
    rw [hpage, hoffset]
    omega
  · have hr := hbelow r hr
    dsimp only
    rw [hpage, hoffset]
    omega

theorem Ranges.keep (h : Ranges a) (hnext : a.system.next c m = some y)
    (hm : ∀ t n, m ≠ .allocate t n) : Ranges ⟨y, a.returned⟩ := by
  have hle : pageStart a.system.tailPage + min a.system.tailOffset kPageSize ≤
      pageStart y.tailPage + min y.tailOffset kPageSize := by
    rcases tail_of_next hnext with ⟨htail, hoffset, -⟩ | ⟨htail, hzero, -⟩ | ⟨t, n, hallocate, -⟩
    · rw [htail, hoffset]
    · rw [htail, pageStart_succ]
      omega
    · exact absurd hallocate (hm t n)
  exact ⟨h.ascending, h.onePage, fun r hr => Nat.le_trans (h.below r hr) hle⟩

theorem Ranges.next (h : Ranges a) (hnext : a.next c m = some b) : Ranges b := by
  rw [Allocations.next, Option.map_eq_some_iff] at hnext
  obtain ⟨y, hy, rfl⟩ := hnext
  cases m with
  | allocate t n =>
      obtain ⟨-, -, hpos, -, rfl⟩ := next_allocate hy
      dsimp only
      split
      · rename_i hroom
        exact h.allocate hpos hroom rfl rfl
      · refine ⟨h.ascending, h.onePage, fun r hr => Nat.le_trans (h.below r hr) ?_⟩
        change _ ≤ pageStart a.system.tailPage + min (a.system.tailOffset + n) kPageSize
        omega
  | newPage | shiftReadOnlyToTail | refresh | unprotect | drain | complete | run =>
      exact h.keep hy nofun

end Invariant

section Words

/-- What `Allocate` has given out is apart, ascending and within the pages; the fields of
the tail's word do not run over; and the word does what the page and the offset do. -/
structure HandsOut (c : Config) (a : Allocations) : Prop where
  apart : a.returned.Pairwise Range.Disjoint
  ascending : a.returned.Pairwise fun r s => s.stop ≤ r.start
  onePage : ∀ r ∈ a.returned, r.start < r.stop ∧ r.stop ≤ pageStart (pageOf r.start + 1)
  fields : (PageOffset.page a.system.tailWord).toNat = a.system.tailPage ∧
    (PageOffset.offset a.system.tailWord).toNat = a.system.tailOffset
  noCarry : ∀ n < kPageSize,
    PageOffset.page (PageOffset.reserve a.system.tailWord (BitVec.ofNat 32 n)) =
      PageOffset.page a.system.tailWord
  allocate : ∀ t n y, a.system.next c (.allocate t n) = some y →
    y.tailWord = PageOffset.reserve a.system.tailWord (BitVec.ofNat 32 n) ∧
      match allocate a.system.tailWord (BitVec.ofNat 32 n) with
      | .error closedPage => y.pc t = .full closedPage.toNat
      | .ok address => y.pc t = .holding address.toNat
  newPage : ∀ t oldPage expectedOffset y, a.system.pc t = .exchanging oldPage expectedOffset →
    a.system.next c (.run t) = some y →
    y.tailWord =
      if a.system.tailWord =
          PageOffset.make (BitVec.ofNat 32 oldPage) (BitVec.ofNat 64 expectedOffset) then
        PageOffset.newPage (BitVec.ofNat 32 oldPage)
      else a.system.tailWord
  tail : ∀ r ∈ a.returned, pageOf r.start = a.system.tailPage →
    r.stop ≤ (getTailAddress a.system.tailWord).toNat ∨
      (getTailAddress a.system.tailWord).toNat =
        pageStart a.system.tailPage + (kPageSize - 1)

theorem exchange_tailWord (h : x.TailFits) {p o : Nat} (hp : p < kMaxPage) (ho : o < 2 ^ 32)
    (hpc : x.pc t = .exchanging p o) (hstep : x.step c t = some y) :
    y.tailWord =
      if x.tailWord = PageOffset.make (BitVec.ofNat 32 p) (BitVec.ofNat 64 o) then
        PageOffset.newPage (BitVec.ofNat 32 p)
      else x.tailWord := by
  have hsame : x.tailWord = PageOffset.make (BitVec.ofNat 32 p) (BitVec.ofNat 64 o) ↔
      x.tailPage = p ∧ x.tailOffset = o := by
    rw [← BitVec.toNat_inj, h.toNat_tailWord, toNat_make (Nat.le_of_lt hp) (by omega)]
    have hoffset := h.offset
    omega
  simp only [System.step, hpc] at hstep
  split at hstep
  · rename_i heq
    cases hstep
    rw [if_pos (hsame.mpr heq)]
    change PageOffset.make (BitVec.ofNat 32 (p + 1)) (BitVec.ofNat 64 0) = _
    rw [PageOffset.newPage, BitVec.ofNat_add]
    rfl
  · rename_i hne
    rw [if_neg fun heq => hne (hsame.mp heq)]
    split at hstep <;> cases hstep <;> rfl

theorem page_reserve (h : x.TailFits) (hn : n < kPageSize) :
    PageOffset.page (PageOffset.reserve x.tailWord (BitVec.ofNat 32 n)) =
      PageOffset.page x.tailWord := by
  have hoffset := h.offset
  rw [h.reserve_tailWord hn]
  rw [kPageSize] at hn
  apply BitVec.eq_of_toNat_eq
  rw [toNat_page, toNat_page, h.toNat_tailWord]
  have hword : ({ x with tailOffset := x.tailOffset + n }.tailWord).toNat =
      x.tailPage * 2 ^ 41 + (x.tailOffset + n) :=
    toNat_make (p := x.tailPage) (o := x.tailOffset + n) h.page (by omega)
  rw [hword]
  omega

theorem reservation_tailWord (h : x.TailFits) (hnext : x.next c (.allocate t n) = some y) :
    y.tailWord = PageOffset.reserve x.tailWord (BitVec.ofNat 32 n) ∧
      match allocate x.tailWord (BitVec.ofNat 32 n) with
      | .error closedPage => y.pc t = .full closedPage.toNat
      | .ok address => y.pc t = .holding address.toNat := by
  obtain ⟨-, -, hpos, hlt, rfl⟩ := next_allocate hnext
  obtain ⟨hclosed, hfound⟩ := h.allocate_tailWord hlt
  refine ⟨(h.reserve_tailWord hlt).symm, ?_⟩
  by_cases hfull : kPageSize < x.tailOffset + n
  · have hpage := h.page
    rw [kMaxPage] at hpage
    have hnat : (BitVec.ofNat 32 x.tailPage).toNat = x.tailPage := by
      rw [BitVec.toNat_ofNat]
      omega
    rw [hclosed hfull, if_pos hfull]
    dsimp only
    rw [goto_pc_self, hnat]
  · obtain ⟨address, hok, haddress⟩ := hfound (Nat.not_lt.mp hfull) hpos
    rw [hok, if_neg hfull]
    dsimp only
    rw [goto_pc_self, haddress]

theorem handsOut (hranges : Ranges a) (hbounded : Bounded c a.system)
    (hthreads : c.numThreads ≤ kMaxNumThreads) : HandsOut c a where
  apart := hranges.ascending.imp fun {r s} hle => (disjoint_of_le hle).symm
  ascending := hranges.ascending
  onePage := hranges.onePage
  fields := by
    have hfits := hbounded.tailFits hthreads
    refine ⟨?_, hfits.offset_tailWord⟩
    rw [toNat_page, hfits.toNat_tailWord]
    have hoffset := hfits.offset
    omega
  noCarry := fun _ hn => page_reserve (hbounded.tailFits hthreads) hn
  allocate := fun _ _ _ hnext => reservation_tailWord (hbounded.tailFits hthreads) hnext
  newPage := by
    intro t p o y hpc hnext
    exact exchange_tailWord (hbounded.tailFits hthreads)
      (hbounded.asserted t p (by rw [hpc]; rfl))
      (fits_of_le hthreads (hbounded.expected t p o hpc)) hpc hnext
  tail := by
    intro r hr hpage
    rw [(hbounded.tailFits hthreads).getTailAddress_tailWord]
    have hbelow := hranges.below r hr
    omega

theorem Allocations.system_of_next (hnext : a.next c m = some b) :
    a.system.next c m = some b.system := by
  rw [Allocations.next, Option.map_eq_some_iff] at hnext
  obtain ⟨y, hy, rfl⟩ := hnext
  rw [hy]
  split
  · split <;> rfl
  · rfl

theorem handsOut_of_reaches (hthreads : c.numThreads ≤ kMaxNumThreads) (hstart : Constructed c x)
    (h : Reaches (Allocations.next c) (fun a => Asserts a.system) ⟨x, []⟩ a) : HandsOut c a := by
  obtain ⟨hranges, hbounded⟩ := h.invariant (I := fun a => Ranges a ∧ Bounded c a.system)
    ⟨ranges_start x, hstart.bounded⟩ fun a m b hinv hassert hnext =>
      ⟨hinv.1.next hnext, hinv.2.next hassert (Allocations.system_of_next hnext)⟩
  exact handsOut hranges hbounded hthreads

def overshootRun : List Move :=
  [.refresh 0, .refresh 1, .allocate 0 (kPageSize - 100), .run 0, .run 0, .allocate 0 80,
    .allocate 1 (kPageSize - 1)] ++ openPage 0 7 ++ [.newPage 1] ++ steps 1 3 ++
    [.allocate 1 100, .allocate 0 40]

theorem handsOut_overshootRun : ∃ a,
    runActions (Allocations.next sixPages) ⟨.start, []⟩ overshootRun = some a ∧
      a.returned.length = 3 ∧ HandsOut sixPages a := by
  have hview : (runActions (Allocations.next sixPages) ⟨.start, []⟩ overshootRun).map
      (fun a => a.returned.length) = some 3 := by
    decide +kernel
  obtain ⟨a, ha, hlength⟩ := Option.map_eq_some_iff.mp hview
  have hadmits : Admits (Allocations.next sixPages) (fun a => Asserts a.system) ⟨.start, []⟩
      overshootRun := by
    decide +kernel
  exact ⟨a, ha, hlength,
    handsOut_of_reaches (by decide) .invalidPage (reaches_of_runActions hadmits ha)⟩

end Words

end HashComp.Hlog
