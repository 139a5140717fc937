import HashComp.Hlog.Reservations
import Mathlib.Order.Interval.Finset.Nat

namespace HashComp.Hlog

open HashComp.Faster
open HashComp.Runs

def System.tailAddress (x : System) : Nat :=
  pageStart x.tailPage + min (kPageSize - 1) x.tailOffset

structure Shifts (x y : System) : Prop where
  readOnly : y.readOnlyAddress = x.readOnlyAddress ∨ x.readOnlyAddress < y.readOnlyAddress ∧
    (y.readOnlyAddress ≤ pageStart x.tailPage ∨ ∃ t, x.pc t = .updatingToTail y.readOnlyAddress)
  head : y.headAddress = x.headAddress ∨
    x.headAddress < y.headAddress ∧ y.headAddress ≤ x.flushedUntilAddress
  safeReadOnly : x.safeReadOnlyAddress ≤ y.safeReadOnlyAddress
  safeHead : x.safeHeadAddress ≤ y.safeHeadAddress

structure Follows (x : System) : Prop where
  readOnly_le : x.readOnlyAddress ≤ x.tailAddress
  head_le : x.headAddress ≤ x.safeReadOnlyAddress
  loaded : ∀ t a, x.pc t = .updatingToTail a → a ≤ x.tailAddress

variable {c : Config} {x y : System} {m : Move} {t u : Nat}

section Steps

theorem shifts_of_eq (hreadOnly : y.readOnlyAddress = x.readOnlyAddress)
    (hhead : y.headAddress = x.headAddress)
    (hsafe : y.safeReadOnlyAddress = x.safeReadOnlyAddress)
    (hsafeHead : y.safeHeadAddress = x.safeHeadAddress) : Shifts x y :=
  ⟨Or.inl hreadOnly, Or.inl hhead, hsafe.ge, hsafeHead.ge⟩

theorem shifts_of_step (h : Ordered c x) (hstep : x.step c t = some y) : Shifts x y := by
  have ht := h.threads t
  cases hpc : x.pc t <;> simp only [System.step, hpc] at hstep
  case idle => cases hstep
  case full => cases hstep
  case shiftingReadOnly tailPage wonCas =>
    rw [hpc] at ht
    split at hstep
    · cases hstep
      exact shifts_of_eq rfl rfl rfl rfl
    · split at hstep <;> cases hstep
      · rename_i hlt
        refine ⟨Or.inr ⟨hlt, Or.inl (pageStart_le_pageStart ?_)⟩, Or.inl rfl, le_rfl, le_rfl⟩
        have hmutable := c.numMutablePages_gt
        have hpage : tailPage ≤ x.tailPage + 1 := ht
        omega
      · exact shifts_of_eq rfl rfl rfl rfl
  case updatingHead desired tailPage wonCas =>
    rw [hpc] at ht
    split at hstep <;> cases hstep
    · rename_i hlt
      exact ⟨Or.inl rfl, Or.inr ⟨hlt, ht.2⟩, le_rfl, le_rfl⟩
    · exact shifts_of_eq rfl rfl rfl rfl
  case updatingToTail tailAddress =>
    split at hstep <;> cases hstep
    · rename_i hlt
      exact ⟨Or.inr ⟨hlt, Or.inr ⟨t, hpc⟩⟩, Or.inl rfl, le_rfl, le_rfl⟩
    · exact shifts_of_eq rfl rfl rfl rfl
  case markingReadOnly newAddress =>
    split at hstep <;> cases hstep
    · rename_i hlt
      exact ⟨Or.inl rfl, Or.inl rfl, Nat.le_of_lt hlt, le_rfl⟩
    · exact shifts_of_eq rfl rfl rfl rfl
  case movingSafeHead newAddress =>
    split at hstep <;> cases hstep
    · rename_i hlt
      exact ⟨Or.inl rfl, Or.inl rfl, le_rfl, Nat.le_of_lt hlt⟩
    · exact shifts_of_eq rfl rfl rfl rfl
  all_goals
    repeat' split at hstep
    all_goals
      cases hstep
      exact shifts_of_eq rfl rfl rfl rfl

theorem shifts_of_next (h : Ordered c x) (hnext : x.next c m = some y) : Shifts x y := by
  cases m with
  | run t => exact shifts_of_step h hnext
  | allocate | newPage | shiftReadOnlyToTail | refresh | unprotect | drain | complete =>
      simp only [System.next] at hnext
      repeat' split at hnext
      all_goals
        cases hnext
        try exact shifts_of_eq rfl rfl rfl rfl

theorem Shifts.grows (h : Shifts x y) (hnext : x.next c m = some y) : Grows x y := by
  obtain ⟨htail, hflushed, hcompleted⟩ := grows_of_next hnext
  refine ⟨htail, ?_, h.safeReadOnly, ?_, h.safeHead, hflushed, hcompleted⟩
  · rcases h.readOnly with hsame | ⟨hlt, -⟩
    · exact hsame.ge
    · exact Nat.le_of_lt hlt
  · rcases h.head with hsame | ⟨hlt, -⟩
    · exact hsame.ge
    · exact Nat.le_of_lt hlt

theorem tailAddress_le_of_next (hnext : x.next c m = some y) : x.tailAddress ≤ y.tailAddress := by
  rw [System.tailAddress, System.tailAddress]
  rcases tail_of_next hnext with ⟨hpage, hoffset, -⟩ | ⟨hpage, hoffset, -⟩ |
    ⟨t, n, -, -, -, -, -, rfl⟩
  · rw [hpage, hoffset]
  · rw [hpage, pageStart_succ]
    omega
  · change _ ≤ pageStart x.tailPage + min (kPageSize - 1) (x.tailOffset + n)
    omega

theorem loaded_of_next (hnext : x.next c m = some y) {a : Nat}
    (hy : y.pc u = .updatingToTail a) : x.pc u = .updatingToTail a ∨ a = x.tailAddress := by
  rcases pc_of_next hnext u with hsame | ⟨-, hstep⟩ | ⟨-, q, -, hchecking⟩ | hbegins
  · rw [hsame] at hy
    exact Or.inl hy
  · cases hpc : x.pc u <;> simp only [System.step, hpc] at hstep
    case idle => cases hstep
    case full => cases hstep
    all_goals
      repeat' split at hstep
      all_goals
        cases hstep
        rw [goto_pc_self] at hy
        first
          | cases hy
          | rw [afterShifts] at hy; split at hy <;> cases hy
  · rw [hchecking] at hy
    cases hy
  · rw [hy] at hbegins
    exact Or.inr hbegins

theorem Constructed.follows (h : Constructed c x) : Follows x := by
  cases h with
  | startAddress a _ =>
      refine ⟨?_, le_rfl, nofun⟩
      have hdiv := Nat.div_add_mod a kPageSize
      have hlt := Nat.mod_lt a (show 0 < kPageSize by decide)
      change a ≤ a / kPageSize * kPageSize + min (kPageSize - 1) (a % kPageSize)
      rw [Nat.mul_comm] at hdiv
      omega
  | invalidPage => exact ⟨by decide, le_rfl, nofun⟩

theorem Follows.next (h : Follows x) (ho : Ordered c x) (hnext : x.next c m = some y) :
    Follows y := by
  have hshifts := shifts_of_next ho hnext
  have htail := tailAddress_le_of_next hnext
  have hstart : pageStart x.tailPage ≤ x.tailAddress := Nat.le_add_right ..
  refine ⟨?_, ?_, ?_⟩
  · have hle := h.readOnly_le
    rcases hshifts.readOnly with hsame | ⟨-, hpage | ⟨t, hpc⟩⟩
    · omega
    · omega
    · exact Nat.le_trans (h.loaded t _ hpc) htail
  · have hle := h.head_le
    have hflushed := ho.flushed_le
    have hsafe := hshifts.safeReadOnly
    rcases hshifts.head with hsame | ⟨-, hhead⟩ <;> omega
  · intro u a hpc
    rcases loaded_of_next hnext hpc with hloaded | rfl
    · exact Nat.le_trans (h.loaded u a hloaded) htail
    · exact htail

end Steps

section Runs

structure Settled (c : Config) (x : System) : Prop where
  ordered : Ordered c x
  follows : Follows x
  bounded : Bounded c x

theorem Constructed.settled (h : Constructed c x) : Settled c x :=
  ⟨h.ordered, h.follows, h.bounded⟩

theorem Settled.next (h : Settled c x) (hassert : Asserts x m) (hnext : x.next c m = some y) :
    Settled c y :=
  ⟨h.ordered.next hnext, h.follows.next h.ordered hnext, h.bounded.next hassert hnext⟩

theorem Settled.reaches (h : Settled c x) (hreach : Reaches (System.next c) Asserts x y) :
    Settled c y :=
  hreach.invariant h fun _ _ _ hs hassert hnext => hs.next hassert hnext

theorem Grows.trans {z : System} (h : Grows x y) (h' : Grows y z) : Grows x z :=
  ⟨Nat.le_trans h.tailPage h'.tailPage, Nat.le_trans h.readOnlyAddress h'.readOnlyAddress,
    Nat.le_trans h.safeReadOnlyAddress h'.safeReadOnlyAddress,
    Nat.le_trans h.headAddress h'.headAddress, Nat.le_trans h.safeHeadAddress h'.safeHeadAddress,
    Nat.le_trans h.flushedUntilAddress h'.flushedUntilAddress,
    fun w hw => h'.completed w (h.completed w hw)⟩

theorem Settled.grows (h : Settled c x) (hreach : Reaches (System.next c) Asserts x y) :
    Grows x y ∧ x.tailAddress ≤ y.tailAddress := by
  have hinv := hreach.invariant
    (I := fun s => Settled c s ∧ Grows x s ∧ x.tailAddress ≤ s.tailAddress)
    ⟨h, grows_of_eq rfl rfl rfl rfl rfl rfl fun _ => id, le_rfl⟩
    fun s m s' hs hassert hnext => by
      obtain ⟨hsettled, hgrows, htail⟩ := hs
      refine ⟨hsettled.next hassert hnext, ?_,
        Nat.le_trans htail (tailAddress_le_of_next hnext)⟩
      exact hgrows.trans ((shifts_of_next hsettled.ordered hnext).grows hnext)
  exact hinv.2

def System.livePages (x : System) : Finset Nat :=
  Finset.Icc (pageOf x.safeHeadAddress) (x.tailPage + 1)

/-- The addresses stand in their order, below the tail that `GetTailAddress` returns; they
only grow; and each live page has a buffer of its own. -/
structure AddressesOrdered (c : Config) (x : System) : Prop where
  safeHead_le : x.safeHeadAddress ≤ x.headAddress
  head_le : x.headAddress ≤ x.safeReadOnlyAddress
  safeReadOnly_le : x.safeReadOnlyAddress ≤ x.readOnlyAddress
  readOnly_le : x.readOnlyAddress ≤ (getTailAddress x.tailWord).toNat
  flushed_le : x.flushedUntilAddress ≤ x.safeReadOnlyAddress
  grows : ∀ y, Reaches (System.next c) Asserts x y →
    Grows x y ∧ (getTailAddress x.tailWord).toNat ≤ (getTailAddress y.tailWord).toNat
  room : x.livePages.card ≤ c.bufferSize
  apart : ∀ p ∈ x.livePages, ∀ q ∈ x.livePages, c.slot p = c.slot q → p = q

theorem Ordered.slots_apart (h : Ordered c x) {p q : Nat} (hp : p ∈ x.livePages)
    (hq : q ∈ x.livePages) (hslot : c.slot p = c.slot q) : p = q := by
  have hroom := h.room
  rw [System.livePages, Finset.mem_Icc] at hp hq
  rcases Nat.le_total p q with hle | hle
  · exact c.eq_of_slot hslot hle (by omega)
  · exact (c.eq_of_slot hslot.symm hle (by omega)).symm

theorem addressesOrdered_of_reaches (hthreads : c.numThreads ≤ kMaxNumThreads)
    (hstart : Constructed c x) (hreach : Reaches (System.next c) Asserts x y) :
    AddressesOrdered c y := by
  have hsettled := hstart.settled.reaches hreach
  have htail {z : System} (hz : Settled c z) : (getTailAddress z.tailWord).toNat = z.tailAddress :=
    (hz.bounded.tailFits hthreads).getTailAddress_tailWord
  refine ⟨hsettled.ordered.safeHead_le, hsettled.follows.head_le, hsettled.ordered.safe_le, ?_,
    hsettled.ordered.flushed_le, ?_, ?_, ?_⟩
  · rw [htail hsettled]
    exact hsettled.follows.readOnly_le
  · intro z hz
    rw [htail hsettled, htail (hsettled.reaches hz)]
    exact hsettled.grows hz
  · have hroom := hsettled.ordered.room
    rw [System.livePages, Nat.card_Icc]
    omega
  · intro p hp q hq hslot
    exact hsettled.ordered.slots_apart hp hq hslot

/-- A thread makes the log read-only up to the tail, and one of two writes completes. -/
theorem addressesOrdered_twoWritesRun : ∃ x,
    runActions (System.next sixPages) .start (twoWritesRun ++ [.shiftReadOnlyToTail 0] ++
      steps 0 2 ++ [.complete 1 0] ++ steps 1 6) = some x ∧
    kPageSize < x.readOnlyAddress ∧ AddressesOrdered sixPages x := by
  have hview : (runActions (System.next sixPages) .start (twoWritesRun ++
      [.shiftReadOnlyToTail 0] ++ steps 0 2 ++ [.complete 1 0] ++ steps 1 6)).map
      (fun x => decide (kPageSize < x.readOnlyAddress)) = some true := by
    decide +kernel
  obtain ⟨x, hx, hreadOnly⟩ := Option.map_eq_some_iff.mp hview
  have hadmits : Admits (System.next sixPages) Asserts .start (twoWritesRun ++
      [.shiftReadOnlyToTail 0] ++ steps 0 2 ++ [.complete 1 0] ++ steps 1 6) := by
    decide +kernel
  exact ⟨x, hx, of_decide_eq_true hreadOnly, addressesOrdered_of_reaches (by decide) .invalidPage
    (reaches_of_runActions hadmits hx)⟩

end Runs

end HashComp.Hlog
