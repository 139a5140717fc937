import HashComp.Hlog.Model
import Mathlib.Order.MinMax

namespace HashComp.Hlog

open HashComp.Faster
open HashComp.Runs

variable {c : Config} {x y : System} {t u i p : Nat} {pc : Pc} {m : Move}

section Pages

theorem pageOf_pageStart (p : Nat) : pageOf (pageStart p) = p :=
  Nat.mul_div_cancel p (by decide)

theorem pageStart_pageOf_le (a : Nat) : pageStart (pageOf a) ≤ a :=
  Nat.div_mul_le_self a kPageSize

theorem pageOf_le_of_le {a b : Nat} (h : a ≤ b) : pageOf a ≤ pageOf b :=
  Nat.div_le_div_right h

theorem pageStart_le_pageStart {p q : Nat} (h : p ≤ q) : pageStart p ≤ pageStart q :=
  Nat.mul_le_mul_right _ h

theorem pageStart_succ (p : Nat) : pageStart (p + 1) = pageStart p + kPageSize := by
  rw [pageStart, pageStart, Nat.add_mul, Nat.one_mul]

theorem le_pageOf_iff {a : Nat} : p ≤ pageOf a ↔ pageStart p ≤ a :=
  Nat.le_div_iff_mul_le (by decide)

theorem pageStart_lt_of_lt_flushStop {a : Nat} (h : p < flushStop a) : pageStart p < a := by
  rw [flushStop] at h
  have hdiv := Nat.div_add_mod a kPageSize
  rw [Nat.mul_comm] at hdiv
  split at h
  · rename_i hoffset
    have hle := pageStart_le_pageStart (Nat.le_of_lt_succ h)
    rw [pageStart, pageStart, pageOf] at hle
    rw [pageStart]
    omega
  · have hle := pageStart_le_pageStart (Nat.succ_le_of_lt h)
    rw [pageStart_succ] at hle
    have hpos : 0 < kPageSize := by decide
    have hstart := pageStart_pageOf_le a
    omega

end Pages

section Bounds

/-- What the addresses that a thread has loaded or computed are below. -/
def Pc.Bounded (c : Config) (x : System) : Pc → Prop
  | .holding address | .recording address | .updatingToTail address =>
      pageOf address ≤ x.tailPage
  | .full oldPage | .checking oldPage => oldPage ≤ x.tailPage
  | .testing oldPage | .moving oldPage | .exchanging oldPage _ =>
      oldPage ≤ x.tailPage ∧ oldPage + 2 < pageOf x.safeHeadAddress + c.bufferSize
  | .shiftingReadOnly tailPage _ | .shiftingHead tailPage _ => tailPage ≤ x.tailPage + 1
  | .bumpingReadOnly desired tailPage _ =>
      tailPage ≤ x.tailPage + 1 ∧ desired ≤ x.readOnlyAddress
  | .updatingHead desired tailPage _ =>
      tailPage ≤ x.tailPage + 1 ∧ desired ≤ x.flushedUntilAddress
  | .bumpingHead desired tailPage _ => tailPage ≤ x.tailPage + 1 ∧ desired ≤ x.headAddress
  | .allocating page => page ≤ x.tailPage + 2
  | .bumpingToTail address | .markingReadOnly address => address ≤ x.readOnlyAddress
  | .flushing _ stop untilAddress =>
      untilAddress ≤ x.safeReadOnlyAddress ∧ stop = flushStop untilAddress
  | .resetting page stop untilAddress | .issuing page stop untilAddress =>
      untilAddress ≤ x.safeReadOnlyAddress ∧ stop = flushStop untilAddress ∧ page < stop
  | .movingSafeHead address => address ≤ x.headAddress
  | .closing _ stop => stop ≤ pageOf x.safeHeadAddress
  | .clearing idx stop | .reopening idx stop => idx < stop ∧ stop ≤ pageOf x.safeHeadAddress
  | .storing page untilAddress => ⟨page, untilAddress⟩ ∈ x.completed
  | .walking _ _ current _ | .publishing current => current ≤ x.safeReadOnlyAddress
  | _ => True

def Callback.Bounded (x : System) : Callback → Prop
  | .onPagesClosed address => address ≤ x.headAddress
  | .onPagesMarkedReadOnly address => address ≤ x.readOnlyAddress

/-- A write that covers something of its page, and nothing that is not safe. -/
def Write.Bounded (x : System) (w : Write) : Prop :=
  pageStart w.page < w.untilAddress ∧ w.untilAddress ≤ pageStart (w.page + 1) ∧
    w.untilAddress ≤ x.safeReadOnlyAddress

structure Ordered (c : Config) (x : System) : Prop where
  flushed_le : x.flushedUntilAddress ≤ x.safeReadOnlyAddress
  safe_le : x.safeReadOnlyAddress ≤ x.readOnlyAddress
  readOnly_le : pageOf x.readOnlyAddress ≤ x.tailPage
  head_le : x.headAddress ≤ max kCacheLineBytes x.flushedUntilAddress
  safeHead_le : x.safeHeadAddress ≤ x.headAddress
  room : x.tailPage + 2 ≤ pageOf x.safeHeadAddress + c.bufferSize
  lastFlushed : ∀ b, x.lastFlushed b = 0 ∨
    ∃ w ∈ x.completed, c.slot w.page = b ∧ w.untilAddress = x.lastFlushed b
  writes : ∀ w, w ∈ x.issued ∨ w ∈ x.completed → w.Bounded x
  actions : ∀ a ∈ x.actions, a.callback.Bounded x
  threads : ∀ t, (x.pc t).Bounded c x

structure Grows (x y : System) : Prop where
  tailPage : x.tailPage ≤ y.tailPage
  readOnlyAddress : x.readOnlyAddress ≤ y.readOnlyAddress
  safeReadOnlyAddress : x.safeReadOnlyAddress ≤ y.safeReadOnlyAddress
  headAddress : x.headAddress ≤ y.headAddress
  safeHeadAddress : x.safeHeadAddress ≤ y.safeHeadAddress
  flushedUntilAddress : x.flushedUntilAddress ≤ y.flushedUntilAddress
  completed : ∀ w ∈ x.completed, w ∈ y.completed

theorem Pc.Bounded.mono (h : pc.Bounded c x) (hg : Grows x y) : pc.Bounded c y := by
  have htail := hg.tailPage
  have hreadOnly := hg.readOnlyAddress
  have hsafe := hg.safeReadOnlyAddress
  have hhead := hg.headAddress
  have hsafeHead := pageOf_le_of_le hg.safeHeadAddress
  have hflushed := hg.flushedUntilAddress
  cases pc <;> simp only [Pc.Bounded] at h ⊢
  case storing => exact hg.completed _ h
  all_goals omega

theorem Callback.Bounded.mono {callback : Callback} (h : callback.Bounded x) (hg : Grows x y) :
    callback.Bounded y := by
  cases callback with
  | onPagesClosed => exact Nat.le_trans h hg.headAddress
  | onPagesMarkedReadOnly => exact Nat.le_trans h hg.readOnlyAddress

theorem Write.Bounded.mono {w : Write} (h : w.Bounded x) (hg : Grows x y) : w.Bounded y :=
  ⟨h.1, h.2.1, Nat.le_trans h.2.2 hg.safeReadOnlyAddress⟩

end Bounds

section Updates

@[simp] theorem goto_pc_self : (x.goto t pc).pc t = pc :=
  Function.update_self ..

theorem goto_pc_of_ne (h : u ≠ t) : (x.goto t pc).pc u = x.pc u :=
  Function.update_of_ne h ..

theorem grows_of_eq (htail : y.tailPage = x.tailPage)
    (hreadOnly : y.readOnlyAddress = x.readOnlyAddress)
    (hsafe : y.safeReadOnlyAddress = x.safeReadOnlyAddress)
    (hhead : y.headAddress = x.headAddress) (hsafeHead : y.safeHeadAddress = x.safeHeadAddress)
    (hflushed : y.flushedUntilAddress = x.flushedUntilAddress)
    (hcompleted : ∀ w ∈ x.completed, w ∈ y.completed) : Grows x y :=
  ⟨htail.ge, hreadOnly.ge, hsafe.ge, hhead.ge, hsafeHead.ge, hflushed.ge, hcompleted⟩

theorem Ordered.grow (h : Ordered c x) (hg : Grows x y) (hactions : y.actions = x.actions)
    (hlast : y.lastFlushed = x.lastFlushed) (hissued : y.issued = x.issued)
    (hcompleted : y.completed = x.completed) (hpc : y.pc = x.pc)
    (hflushed : y.flushedUntilAddress ≤ y.safeReadOnlyAddress)
    (hsafe : y.safeReadOnlyAddress ≤ y.readOnlyAddress)
    (hreadOnly : pageOf y.readOnlyAddress ≤ y.tailPage)
    (hhead : y.headAddress ≤ max kCacheLineBytes y.flushedUntilAddress)
    (hsafeHead : y.safeHeadAddress ≤ y.headAddress)
    (hroom : y.tailPage + 2 ≤ pageOf y.safeHeadAddress + c.bufferSize) : Ordered c y where
  flushed_le := hflushed
  safe_le := hsafe
  readOnly_le := hreadOnly
  head_le := hhead
  safeHead_le := hsafeHead
  room := hroom
  lastFlushed := by
    rw [hlast, hcompleted]
    exact h.lastFlushed
  writes := by
    rw [hissued, hcompleted]
    exact fun w hw => (h.writes w hw).mono hg
  actions := by
    rw [hactions]
    exact fun a ha => (h.actions a ha).mono hg
  threads := by
    rw [hpc]
    exact fun u => (h.threads u).mono hg

theorem Ordered.goto (h : Ordered c x) (hpc : pc.Bounded c x) : Ordered c (x.goto t pc) where
  flushed_le := h.flushed_le
  safe_le := h.safe_le
  readOnly_le := h.readOnly_le
  head_le := h.head_le
  safeHead_le := h.safeHead_le
  room := h.room
  lastFlushed := h.lastFlushed
  writes := h.writes
  actions := h.actions
  threads := by
    intro u
    have hg : Grows x (x.goto t pc) := grows_of_eq rfl rfl rfl rfl rfl rfl fun _ => id
    by_cases hu : u = t
    · subst u
      rw [goto_pc_self]
      exact hpc.mono hg
    · rw [goto_pc_of_ne hu]
      exact (h.threads u).mono hg

/-- The statuses, the records, the epochs and the offset of the tail do not matter. -/
theorem Ordered.congr (h : Ordered c x) (htail : y.tailPage = x.tailPage)
    (hreadOnly : y.readOnlyAddress = x.readOnlyAddress)
    (hsafe : y.safeReadOnlyAddress = x.safeReadOnlyAddress)
    (hhead : y.headAddress = x.headAddress) (hsafeHead : y.safeHeadAddress = x.safeHeadAddress)
    (hflushed : y.flushedUntilAddress = x.flushedUntilAddress)
    (hlast : y.lastFlushed = x.lastFlushed) (hissued : y.issued = x.issued)
    (hcompleted : y.completed = x.completed) (hactions : y.actions = x.actions)
    (hpc : y.pc = x.pc) : Ordered c y := by
  refine h.grow (grows_of_eq htail hreadOnly hsafe hhead hsafeHead hflushed ?_) hactions hlast
    hissued hcompleted hpc ?_ ?_ ?_ ?_ ?_ ?_
  · rw [hcompleted]
    exact fun _ => id
  · rw [hflushed, hsafe]
    exact h.flushed_le
  · rw [hsafe, hreadOnly]
    exact h.safe_le
  · rw [hreadOnly, htail]
    exact h.readOnly_le
  · rw [hhead, hflushed]
    exact h.head_le
  · rw [hsafeHead, hhead]
    exact h.safeHead_le
  · rw [htail, hsafeHead]
    exact h.room

theorem Ordered.setStatus (h : Ordered c x) (status : FlushCloseStatus) :
    Ordered c (x.setStatus c p status) :=
  h.congr rfl rfl rfl rfl rfl rfl rfl rfl rfl rfl rfl

theorem Ordered.setRecords (h : Ordered c x) (records : List Nat) :
    Ordered c (x.setRecords c p records) :=
  h.congr rfl rfl rfl rfl rfl rfl rfl rfl rfl rfl rfl

theorem Ordered.allocatePage (h : Ordered c x) : Ordered c (x.allocatePage c p) :=
  h.congr rfl rfl rfl rfl rfl rfl rfl rfl rfl rfl rfl

theorem Ordered.setLastFlushed (h : Ordered c x) {address : Nat}
    (haddress : address = 0 ∨ ⟨p, address⟩ ∈ x.completed) :
    Ordered c (x.setLastFlushed c p address) where
  flushed_le := h.flushed_le
  safe_le := h.safe_le
  readOnly_le := h.readOnly_le
  head_le := h.head_le
  safeHead_le := h.safeHead_le
  room := h.room
  lastFlushed := by
    intro b
    change Function.update x.lastFlushed (c.slot p) address b = 0 ∨ ∃ w ∈ x.completed,
      c.slot w.page = b ∧ w.untilAddress = Function.update x.lastFlushed (c.slot p) address b
    by_cases hb : b = c.slot p
    · subst b
      rw [Function.update_self]
      refine haddress.imp_right fun hw => ?_
      exact ⟨_, hw, rfl, rfl⟩
    · rw [Function.update_of_ne hb]
      exact h.lastFlushed b
  writes := h.writes
  actions := h.actions
  threads := fun u =>
    (h.threads u).mono (grows_of_eq rfl rfl rfl rfl rfl rfl fun _ => id)

theorem Ordered.bump (h : Ordered c x) (callback : Callback) (hcallback : callback.Bounded x) :
    Ordered c (x.bump callback) where
  flushed_le := h.flushed_le
  safe_le := h.safe_le
  readOnly_le := h.readOnly_le
  head_le := h.head_le
  safeHead_le := h.safeHead_le
  room := h.room
  lastFlushed := h.lastFlushed
  writes := h.writes
  actions := by
    have hg : Grows x (x.bump callback) := grows_of_eq rfl rfl rfl rfl rfl rfl fun _ => id
    intro a ha
    rcases List.mem_append.mp ha with ha | ha
    · exact (h.actions a ha).mono hg
    · rw [List.mem_singleton.mp ha]
      exact hcallback.mono hg
  threads := fun u =>
    (h.threads u).mono (grows_of_eq rfl rfl rfl rfl rfl rfl fun _ => id)

theorem Ordered.turnPage (h : Ordered c x)
    (hroom : x.tailPage + 2 < pageOf x.safeHeadAddress + c.bufferSize) :
    Ordered c { x with tailPage := x.tailPage + 1, tailOffset := 0 } := by
  refine h.grow ?_ rfl rfl rfl rfl rfl h.flushed_le h.safe_le ?_ h.head_le h.safeHead_le ?_
  · exact ⟨Nat.le_succ _, le_rfl, le_rfl, le_rfl, le_rfl, le_rfl, fun _ => id⟩
  · exact Nat.le_succ_of_le h.readOnly_le
  · exact hroom

theorem Ordered.moveReadOnly (h : Ordered c x) {address : Nat} (hlt : x.readOnlyAddress < address)
    (hpage : pageOf address ≤ x.tailPage) : Ordered c { x with readOnlyAddress := address } := by
  refine h.grow ?_ rfl rfl rfl rfl rfl h.flushed_le ?_ hpage h.head_le h.safeHead_le h.room
  · exact ⟨le_rfl, Nat.le_of_lt hlt, le_rfl, le_rfl, le_rfl, le_rfl, fun _ => id⟩
  · exact Nat.le_trans h.safe_le (Nat.le_of_lt hlt)

theorem Ordered.moveSafeReadOnly (h : Ordered c x) {address : Nat}
    (hlt : x.safeReadOnlyAddress < address) (hle : address ≤ x.readOnlyAddress) :
    Ordered c { x with safeReadOnlyAddress := address } := by
  refine h.grow ?_ rfl rfl rfl rfl rfl ?_ hle h.readOnly_le h.head_le h.safeHead_le h.room
  · exact ⟨le_rfl, le_rfl, Nat.le_of_lt hlt, le_rfl, le_rfl, le_rfl, fun _ => id⟩
  · exact Nat.le_trans h.flushed_le (Nat.le_of_lt hlt)

theorem Ordered.moveHead (h : Ordered c x) {address : Nat} (hlt : x.headAddress < address)
    (hle : address ≤ x.flushedUntilAddress) : Ordered c { x with headAddress := address } := by
  refine h.grow ?_ rfl rfl rfl rfl rfl h.flushed_le h.safe_le h.readOnly_le ?_ ?_ h.room
  · exact ⟨le_rfl, le_rfl, le_rfl, Nat.le_of_lt hlt, le_rfl, le_rfl, fun _ => id⟩
  · exact Nat.le_trans hle (Nat.le_max_right ..)
  · exact Nat.le_trans h.safeHead_le (Nat.le_of_lt hlt)

theorem Ordered.moveSafeHead (h : Ordered c x) {address : Nat} (hlt : x.safeHeadAddress < address)
    (hle : address ≤ x.headAddress) : Ordered c { x with safeHeadAddress := address } := by
  refine h.grow ?_ rfl rfl rfl rfl rfl h.flushed_le h.safe_le h.readOnly_le h.head_le hle ?_
  · exact ⟨le_rfl, le_rfl, le_rfl, le_rfl, Nat.le_of_lt hlt, le_rfl, fun _ => id⟩
  · exact Nat.le_trans h.room (Nat.add_le_add_right (pageOf_le_of_le (Nat.le_of_lt hlt)) _)

theorem Ordered.moveFlushed (h : Ordered c x) {address : Nat}
    (hle : address ≤ x.safeReadOnlyAddress) :
    Ordered c { x with flushedUntilAddress := max x.flushedUntilAddress address } := by
  refine h.grow ?_ rfl rfl rfl rfl rfl ?_ h.safe_le h.readOnly_le ?_ h.safeHead_le h.room
  · exact ⟨le_rfl, le_rfl, le_rfl, le_rfl, le_rfl, Nat.le_max_left .., fun _ => id⟩
  · exact Nat.max_le.mpr ⟨h.flushed_le, hle⟩
  · exact Nat.le_trans h.head_le (max_le_max le_rfl (Nat.le_max_left ..))

theorem Ordered.issue (h : Ordered c x) {w : Write} (hw : w.Bounded x) :
    Ordered c (x.issue w) where
  flushed_le := h.flushed_le
  safe_le := h.safe_le
  readOnly_le := h.readOnly_le
  head_le := h.head_le
  safeHead_le := h.safeHead_le
  room := h.room
  lastFlushed := h.lastFlushed
  writes := by
    rintro v (hv | hv)
    · rcases List.mem_append.mp hv with hv | hv
      · exact h.writes v (Or.inl hv)
      · rw [List.mem_singleton.mp hv]
        exact hw
    · exact h.writes v (Or.inr hv)
  actions := h.actions
  threads := fun u =>
    (h.threads u).mono (grows_of_eq rfl rfl rfl rfl rfl rfl fun _ => id)

end Updates

section Steps

theorem bounded_afterShifts {tailPage : Nat} {wonCas : Bool} (h : tailPage ≤ x.tailPage + 1) :
    (afterShifts tailPage wonCas).Bounded c x := by
  cases wonCas
  · exact Nat.sub_le_of_le_add h
  · exact Nat.succ_le_succ h

theorem desiredHead_le (tailPage flushedUntil : Nat) :
    desiredHead c tailPage flushedUntil ≤ flushedUntil := by
  rw [desiredHead]
  split
  · exact pageStart_pageOf_le flushedUntil
  · rename_i h
    exact Nat.not_lt.mp h

theorem Ordered.step (h : Ordered c x) (hstep : x.step c t = some y) : Ordered c y := by
  have ht := h.threads t
  unfold System.step at hstep
  cases hpc : x.pc t <;> simp only [hpc, Pc.Bounded] at hstep ht
  case idle | full => cases hstep
  case holding address =>
    split at hstep <;> cases hstep
    · exact h.goto trivial
    · exact h.goto ht
  case recording address =>
    cases hstep
    exact (h.setRecords _).goto trivial
  case checking oldPage =>
    split at hstep <;> cases hstep
    · exact h.goto (Nat.succ_le_succ ht)
    · rename_i hlt
      exact h.goto ⟨ht, Nat.not_le.mp hlt⟩
  case testing oldPage =>
    split at hstep <;> cases hstep
    · exact h.goto ht
    · exact h.goto (Nat.succ_le_succ ht.1)
  case moving oldPage =>
    split at hstep <;> cases hstep
    · exact h.goto ht
    · exact h.goto trivial
  case exchanging oldPage expectedOffset =>
    split at hstep
    · rename_i htail
      obtain ⟨rfl, -⟩ := htail
      cases hstep
      exact (h.turnPage ht.2).goto (Nat.le_succ _)
    · split at hstep <;> cases hstep
      · exact h.goto trivial
      · exact h.goto ht.1
  case shiftingReadOnly tailPage wonCas =>
    split at hstep
    · cases hstep
      exact h.goto ht
    · rename_i hmutable
      split at hstep
      · rename_i hlt
        have hpage : tailPage - c.numMutablePages ≤ x.tailPage := by
          have hgt := c.numMutablePages_gt
          omega
        cases hstep
        exact (h.moveReadOnly hlt ((pageOf_pageStart _).symm ▸ hpage)).goto ⟨ht, le_rfl⟩
      · cases hstep
        exact h.goto ht
  case bumpingReadOnly desired tailPage wonCas =>
    cases hstep
    exact (h.bump (.onPagesMarkedReadOnly desired) ht.2).goto ht.1
  case shiftingHead tailPage wonCas =>
    split at hstep <;> cases hstep
    · exact h.goto (bounded_afterShifts ht)
    · exact h.goto ⟨ht, desiredHead_le ..⟩
  case updatingHead desired tailPage wonCas =>
    split at hstep
    · rename_i hlt
      cases hstep
      exact (h.moveHead hlt ht.2).goto ⟨ht.1, le_rfl⟩
    · cases hstep
      exact h.goto (bounded_afterShifts ht.1)
  case bumpingHead desired tailPage wonCas =>
    cases hstep
    exact (h.bump (.onPagesClosed desired) ht.2).goto (bounded_afterShifts ht.1)
  case allocating page =>
    have hpage : page - 2 ≤ x.tailPage := Nat.sub_le_of_le_add ht
    split at hstep <;> cases hstep
    · exact h.goto hpage
    · exact h.allocatePage.goto hpage
  case updatingToTail address =>
    split at hstep
    · rename_i hlt
      cases hstep
      exact (h.moveReadOnly hlt ht).goto (le_refl address)
    · cases hstep
      exact h.goto trivial
  case bumpingToTail address =>
    cases hstep
    exact (h.bump (.onPagesMarkedReadOnly address) ht).goto trivial
  case markingReadOnly address =>
    split at hstep
    · rename_i hlt
      cases hstep
      exact (h.moveSafeReadOnly hlt ht).goto ⟨le_refl address, rfl⟩
    · cases hstep
      exact h.goto trivial
  case flushing page stop untilAddress =>
    split at hstep <;> cases hstep
    · rename_i hlt
      exact (h.setStatus _).goto ⟨ht.1, ht.2, hlt⟩
    · exact h.goto trivial
  case resetting page stop untilAddress =>
    cases hstep
    exact (h.setLastFlushed (Or.inl rfl)).goto ht
  case issuing page stop untilAddress =>
    obtain ⟨hle, rfl, hlt⟩ := ht
    cases hstep
    have hstart : pageStart page < pageStart (page + 1) := by
      rw [pageStart_succ]
      exact Nat.lt_add_of_pos_right (by decide)
    have hw : Write.Bounded x ⟨page, min (pageStart (page + 1)) untilAddress⟩ :=
      ⟨Nat.lt_min.mpr ⟨hstart, pageStart_lt_of_lt_flushStop hlt⟩, Nat.min_le_left ..,
        Nat.le_trans (Nat.min_le_right ..) hle⟩
    exact (h.issue hw).goto ⟨hle, rfl⟩
  case movingSafeHead address =>
    split at hstep
    · rename_i hlt
      cases hstep
      exact (h.moveSafeHead hlt ht).goto (le_refl (pageOf address))
    · cases hstep
      exact h.goto trivial
  case closing idx stop =>
    split at hstep
    · rename_i hlt
      split at hstep <;> cases hstep
      · exact (h.setStatus _).goto ⟨hlt, ht⟩
      · exact (h.setStatus _).goto ht
    · cases hstep
      exact h.goto trivial
  case clearing idx stop =>
    cases hstep
    exact (h.setRecords _).goto ht
  case reopening idx stop =>
    cases hstep
    exact (h.setStatus _).goto ht.2
  case storing page untilAddress =>
    cases hstep
    exact (h.setLastFlushed (Or.inr ht)).goto trivial
  case settling page =>
    split at hstep <;> cases hstep
    · exact (h.setStatus _).goto trivial
    · exact (h.setStatus _).goto trivial
  case wiping page =>
    cases hstep
    exact (h.setRecords _).goto trivial
  case opening page =>
    cases hstep
    exact (h.setStatus _).goto trivial
  case loading =>
    cases hstep
    exact h.goto h.flushed_le
  case walking start page current update =>
    split at hstep
    · cases hstep
      refine h.goto ?_
      rcases h.lastFlushed (c.slot page) with hzero | ⟨w, hw, -, huntil⟩
      · rw [Pc.Bounded, hzero]
        exact Nat.zero_le _
      · rw [Pc.Bounded, ← huntil]
        exact (h.writes w (Or.inr hw)).2.2
    · split at hstep <;> cases hstep
      · exact h.goto ht
      · exact h.goto trivial
  case publishing current =>
    cases hstep
    exact (h.moveFlushed ht).goto trivial

theorem Ordered.complete (h : Ordered c x) {w : Write} (hw : w ∈ x.issued) :
    Ordered c { x with issued := x.issued.eraseIdx i, completed := w :: x.completed } where
  flushed_le := h.flushed_le
  safe_le := h.safe_le
  readOnly_le := h.readOnly_le
  head_le := h.head_le
  safeHead_le := h.safeHead_le
  room := h.room
  lastFlushed := by
    intro b
    refine (h.lastFlushed b).imp_right ?_
    rintro ⟨v, hv, hrest⟩
    exact ⟨v, List.mem_cons_of_mem _ hv, hrest⟩
  writes := by
    rintro v (hv | hv)
    · exact h.writes v (Or.inl (List.mem_of_mem_eraseIdx hv))
    · rcases List.mem_cons.mp hv with rfl | hv
      · exact h.writes v (Or.inl hw)
      · exact h.writes v (Or.inr hv)
  actions := h.actions
  threads := fun u => (h.threads u).mono
    (grows_of_eq rfl rfl rfl rfl rfl rfl fun _ hv => List.mem_cons_of_mem _ hv)

theorem Ordered.drain (h : Ordered c x) : Ordered c { x with actions := x.actions.eraseIdx i } where
  flushed_le := h.flushed_le
  safe_le := h.safe_le
  readOnly_le := h.readOnly_le
  head_le := h.head_le
  safeHead_le := h.safeHead_le
  room := h.room
  lastFlushed := h.lastFlushed
  writes := h.writes
  actions := fun a ha => h.actions a (List.mem_of_mem_eraseIdx ha)
  threads := fun u => (h.threads u).mono (grows_of_eq rfl rfl rfl rfl rfl rfl fun _ => id)

theorem pageOf_add {a : Nat} (h : a < kPageSize) : pageOf (pageStart p + a) = p := by
  rw [pageOf, pageStart, Nat.mul_comm, Nat.mul_add_div (by decide), Nat.div_eq_of_lt h]
  rfl

theorem Ordered.next (h : Ordered c x) (hnext : x.next c m = some y) : Ordered c y := by
  cases m with
  | run t => exact h.step hnext
  | allocate t numSlots =>
      have hy : Ordered c { x with tailOffset := x.tailOffset + numSlots } :=
        h.congr rfl rfl rfl rfl rfl rfl rfl rfl rfl rfl rfl
      simp only [System.next] at hnext
      split at hnext
      · rename_i hguard
        obtain ⟨-, -, -, hpos, -⟩ := hguard
        split at hnext <;> cases hnext
        · exact hy.goto (le_refl x.tailPage)
        · rename_i hfits
          refine hy.goto (Nat.le_of_eq (pageOf_add ?_))
          omega
      · cases hnext
  | newPage t =>
      have ht := h.threads t
      simp only [System.next] at hnext
      split at hnext <;> cases hnext
      rename_i hfull
      rw [hfull] at ht
      exact h.goto ht
  | shiftReadOnlyToTail t =>
      simp only [System.next] at hnext
      split at hnext <;> cases hnext
      refine h.goto (Nat.le_of_eq (pageOf_add ?_))
      exact Nat.lt_of_le_of_lt (Nat.min_le_left ..) (by decide)
  | refresh t =>
      simp only [System.next] at hnext
      split at hnext
      · split at hnext <;> cases hnext
        exact h.congr rfl rfl rfl rfl rfl rfl rfl rfl rfl rfl rfl
      · split at hnext <;> cases hnext
        exact h.congr rfl rfl rfl rfl rfl rfl rfl rfl rfl rfl rfl
      · cases hnext
  | unprotect t =>
      simp only [System.next] at hnext
      split at hnext <;> cases hnext
      exact h.congr rfl rfl rfl rfl rfl rfl rfl rfl rfl rfl rfl
  | drain t i =>
      simp only [System.next] at hnext
      split at hnext
      · rename_i action haction
        have hbounded := h.actions action (List.mem_of_getElem? haction)
        split at hnext <;> cases hnext
        refine h.drain.goto ?_
        cases hcallback : action.callback <;> rw [hcallback] at hbounded
        · exact hbounded
        · exact hbounded
      · cases hnext
  | complete t i =>
      simp only [System.next] at hnext
      split at hnext
      · rename_i write hwrite
        split at hnext <;> cases hnext
        exact (h.complete (List.mem_of_getElem? hwrite)).goto (List.mem_cons_self ..)
      · cases hnext

theorem ordered_start : Ordered c System.start where
  flushed_le := Nat.zero_le _
  safe_le := le_rfl
  readOnly_le := Nat.zero_le _
  head_le := Nat.le_max_left ..
  safeHead_le := le_rfl
  room := by
    have hgt := c.bufferSize_gt
    change 0 + 2 ≤ pageOf kCacheLineBytes + c.bufferSize
    rw [kNumHeadPages] at hgt
    omega
  lastFlushed := fun _ => Or.inl rfl
  writes := by
    intro w hw
    rcases hw with hw | hw <;> cases hw
  actions := by
    rintro a ⟨⟩
  threads := fun _ => trivial

theorem ordered_construct (a : Nat) : Ordered c (System.construct c a) where
  flushed_le := le_rfl
  safe_le := le_rfl
  readOnly_le := le_rfl
  head_le := Nat.le_max_right ..
  safeHead_le := le_rfl
  room := by
    have hgt := c.bufferSize_gt
    change pageOf a + 2 ≤ pageOf a + c.bufferSize
    omega
  lastFlushed := fun _ => Or.inl rfl
  writes := by
    intro w hw
    rcases hw with hw | hw <;> cases hw
  actions := by
    rintro a ⟨⟩
  threads := fun _ => trivial

theorem start_eq (c : Config) : System.start =
    { System.construct c 0 with
      tailOffset := kCacheLineBytes
      readOnlyAddress := kCacheLineBytes
      safeReadOnlyAddress := kCacheLineBytes
      headAddress := kCacheLineBytes
      safeHeadAddress := kCacheLineBytes } := by
  have hgt := c.bufferSize_gt
  have hslots (b : Nat) : (b = c.slot 0 ∨ b = c.slot (0 + 1)) ↔ b < 2 := by
    change (b = 0 % c.bufferSize ∨ b = 1 % c.bufferSize) ↔ b < 2
    rw [Nat.zero_mod, Nat.mod_eq_of_lt (by omega)]
    omega
  simp only [System.start, System.construct, pageOf, Nat.zero_div, hslots]

end Steps

end HashComp.Hlog
