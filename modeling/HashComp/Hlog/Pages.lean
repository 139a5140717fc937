import HashComp.Hlog.Flushed
import Mathlib.Data.List.Perm.Basic

/-!
The life of a page in its buffer.  While it is open, one write at a time may be
in flight.  It is closed by `OnPagesClosed`, and cleared there if no write is in
flight, and else by the callback of the write.  `NewPage` takes the buffer for
the next page when it finds it open again.
-/

namespace HashComp.Hlog

open HashComp.Faster
open HashComp.Runs

variable {c : Config} {x y : System} {t u i p q : Nat} {pc : Pc} {m : Move}

section Stages

inductive Stage where
  | unmarked
  | marked
  | cleared
  deriving DecidableEq

/-- `OnPagesClosed` from the page `idx` on, and the callback that clears a page. -/
def Pc.stage (p : Nat) : Pc → Option Stage
  | .closing idx stop => if idx ≤ p ∧ p < stop then some .unmarked else none
  | .clearing idx stop =>
      if p = idx then some .marked else if idx < p ∧ p < stop then some .unmarked else none
  | .reopening idx stop =>
      if p = idx then some .cleared else if idx < p ∧ p < stop then some .unmarked else none
  | .wiping page => if p = page then some .marked else none
  | .opening page => if p = page then some .cleared else none
  | _ => none

/-- A thread has set the status of the page to `InProgress` and not issued the
write yet, or it is in the callback of the write and has not set it back. -/
def Pc.Flies (p : Nat) : Pc → Prop
  | .resetting page _ _ | .issuing page _ _ | .storing page _ | .settling page => page = p
  | _ => False

def System.writesOf (x : System) (p : Nat) : Nat :=
  x.issued.countP fun w => w.page = p

def Handled (x : System) (p : Nat) : Option Stage → Prop
  | none => ∀ t, (x.pc t).stage p = none
  | some s => ∃ t, (x.pc t).stage p = some s ∧ ∀ u, u ≠ t → (x.pc u).stage p = none

def Flight (x : System) (p : Nat) : Bool → Prop
  | false => (∀ t, ¬ (x.pc t).Flies p) ∧ x.writesOf p = 0
  | true => (∃ t, (x.pc t).Flies p ∧ (∀ u, u ≠ t → ¬ (x.pc u).Flies p) ∧ x.writesOf p = 0) ∨
      (∀ t, ¬ (x.pc t).Flies p) ∧ x.writesOf p = 1

theorem Handled.eq {o : Option Stage} {s : Stage} (h : Handled x p o)
    (hs : (x.pc t).stage p = some s) : o = some s := by
  cases o with
  | none =>
      rw [h t] at hs
      cases hs
  | some s' =>
      obtain ⟨u, hu, hothers⟩ := h
      by_cases htu : t = u
      · rw [← hu, ← htu, hs]
      · rw [hothers t htu] at hs
        cases hs

theorem Handled.same {o : Option Stage} (h : Handled x p o)
    (hothers : ∀ u, u ≠ t → y.pc u = x.pc u)
    (hsame : (y.pc t).stage p = (x.pc t).stage p) : Handled y p o := by
  have hall : ∀ u, (y.pc u).stage p = (x.pc u).stage p := by
    intro u
    by_cases hu : u = t
    · rw [hu, hsame]
    · rw [hothers u hu]
  cases o with
  | none => exact fun u => (hall u).trans (h u)
  | some s =>
      obtain ⟨u, hu, hrest⟩ := h
      exact ⟨u, (hall u).trans hu, fun v hv => (hall v).trans (hrest v hv)⟩

theorem Handled.own (h : Handled x p ((x.pc t).stage p))
    (hothers : ∀ u, u ≠ t → y.pc u = x.pc u) : Handled y p ((y.pc t).stage p) := by
  have hnone : ∀ u, u ≠ t → (y.pc u).stage p = none := by
    intro u hu
    rw [hothers u hu]
    cases hs : (x.pc t).stage p with
    | none =>
        rw [hs] at h
        exact h u
    | some s =>
        rw [hs] at h
        obtain ⟨v, hv, hrest⟩ := h
        have htv : t = v := by
          by_contra htv
          rw [hrest t htv] at hs
          cases hs
        exact hrest u (htv ▸ hu)
  cases hs : (y.pc t).stage p with
  | none =>
      intro u
      by_cases hu : u = t
      · rw [hu, hs]
      · exact hnone u hu
  | some s => exact ⟨t, hs, hnone⟩

theorem Flight.same {f : Bool} (h : Flight x p f) (hothers : ∀ u, u ≠ t → y.pc u = x.pc u)
    (hsame : (y.pc t).Flies p ↔ (x.pc t).Flies p) (hwrites : y.writesOf p = x.writesOf p) :
    Flight y p f := by
  have hall : ∀ u, (y.pc u).Flies p ↔ (x.pc u).Flies p := by
    intro u
    by_cases hu : u = t
    · rw [hu, hsame]
    · rw [hothers u hu]
  cases f with
  | false => exact ⟨fun u hu => h.1 u ((hall u).mp hu), hwrites.trans h.2⟩
  | true =>
      refine h.imp ?_ ?_
      · rintro ⟨u, hu, hrest, hzero⟩
        exact ⟨u, (hall u).mpr hu, fun v hv hf => hrest v hv ((hall v).mp hf), hwrites.trans hzero⟩
      · rintro ⟨hnone, hone⟩
        exact ⟨fun u hu => hnone u ((hall u).mp hu), hwrites.trans hone⟩

theorem Flight.alone {f : Bool} (h : Flight x p f) (ht : (x.pc t).Flies p) :
    f = true ∧ (∀ u, u ≠ t → ¬ (x.pc u).Flies p) ∧ x.writesOf p = 0 := by
  cases f with
  | false => exact absurd ht (h.1 t)
  | true =>
      rcases h with ⟨u, -, hrest, hzero⟩ | ⟨hnone, -⟩
      · have htu : t = u := by
          by_contra htu
          exact hrest t htu ht
        exact ⟨rfl, htu ▸ hrest, hzero⟩
      · exact absurd ht (hnone t)

theorem Flight.takeOff (h : Flight x p false) (hothers : ∀ u, u ≠ t → y.pc u = x.pc u)
    (ht : (y.pc t).Flies p) (hwrites : y.writesOf p = x.writesOf p) : Flight y p true := by
  refine Or.inl ⟨t, ht, fun u hu => ?_, hwrites.trans h.2⟩
  rw [hothers u hu]
  exact h.1 u

theorem Flight.land {f : Bool} (h : Flight x p f) (hx : (x.pc t).Flies p)
    (hothers : ∀ u, u ≠ t → y.pc u = x.pc u) (hy : ¬ (y.pc t).Flies p)
    (hwrites : y.writesOf p = x.writesOf p) : Flight y p false := by
  obtain ⟨-, hrest, hzero⟩ := h.alone hx
  refine ⟨fun u => ?_, hwrites.trans hzero⟩
  by_cases hu : u = t
  · rw [hu]
    exact hy
  · rw [hothers u hu]
    exact hrest u hu

theorem Flight.issue {f : Bool} (h : Flight x p f) (hx : (x.pc t).Flies p)
    (hothers : ∀ u, u ≠ t → y.pc u = x.pc u) (hy : ¬ (y.pc t).Flies p)
    (hwrites : y.writesOf p = x.writesOf p + 1) : Flight y p true := by
  obtain ⟨-, hrest, hzero⟩ := h.alone hx
  refine Or.inr ⟨fun u => ?_, by rw [hwrites, hzero]⟩
  by_cases hu : u = t
  · rw [hu]
    exact hy
  · rw [hothers u hu]
    exact hrest u hu

theorem Flight.complete {f : Bool} (h : Flight x p f)
    (hothers : ∀ u, u ≠ t → y.pc u = x.pc u) (hy : (y.pc t).Flies p)
    (hwrites : x.writesOf p = y.writesOf p + 1) : f = true ∧ Flight y p true := by
  cases f with
  | false =>
      have hzero := h.2
      omega
  | true =>
      rcases h with ⟨u, -, -, hzero⟩ | ⟨hnone, hone⟩
      · omega
      · refine ⟨rfl, Or.inl ⟨t, hy, fun u hu => ?_, by omega⟩⟩
        rw [hothers u hu]
        exact hnone u

end Stages

section Life

/-- What the status and the records of a page say, by the threads that handle it
and the write in flight. -/
def Fits (isBelowHead : Prop) (o : Option Stage) (f : Bool) (status : FlushCloseStatus)
    (records : List Nat) : Prop :=
  (status.flush = .inProgress ↔ f = true) ∧
    match o with
    | some .unmarked => isBelowHead ∧ status.close = .isOpen
    | some .marked => isBelowHead ∧ status = ⟨.flushed, .closed⟩
    | some .cleared => isBelowHead ∧ status = ⟨.flushed, .closed⟩ ∧ records = []
    | none =>
        ¬ isBelowHead ∧ status.close = .isOpen ∨
          isBelowHead ∧ status = ⟨.inProgress, .closed⟩ ∨
          isBelowHead ∧ status = ⟨.flushed, .isOpen⟩ ∧ records = []

def BelowHead (x : System) (p : Nat) : Prop :=
  p < pageOf x.safeHeadAddress

structure PageOk (c : Config) (x : System) (p : Nat) (o : Option Stage) (f : Bool) : Prop where
  handled : Handled x p o
  flight : Flight x p f
  fits : Fits (BelowHead x p) o f (x.status (c.slot p)) (x.records (c.slot p))

def Entered (c : Config) (x : System) (p : Nat) : Prop :=
  p ≤ x.tailPage ∧ x.tailPage < p + c.bufferSize

structure Pages (c : Config) (x : System) : Prop where
  entered : ∀ p, Entered c x p → ∃ o f, PageOk c x p o f
  handles : ∀ t p, (x.pc t).stage p ≠ none → Entered c x p
  flies : ∀ t p, (x.pc t).Flies p → Entered c x p
  writes : ∀ w ∈ x.issued, Entered c x w.page
  allocated : ∀ b < c.bufferSize, b ≤ x.tailPage → x.allocated b = true
  fresh : ∀ b < c.bufferSize, x.tailPage < b →
    x.allocated b = true ∧ x.status b = ⟨.flushed, .isOpen⟩ ∧ x.records b = [] ∨
      x.allocated b = false ∧ (x.status b).close = .closed

theorem Entered.slot_ne (hp : Entered c x p) (hq : Entered c x q) (hne : p ≠ q) :
    c.slot p ≠ c.slot q := by
  intro heq
  obtain ⟨hp, hp'⟩ := hp
  obtain ⟨hq, hq'⟩ := hq
  rcases Nat.le_total p q with hle | hle
  · exact hne (c.eq_of_slot heq hle (by omega))
  · exact hne (c.eq_of_slot heq.symm hle (by omega)).symm

theorem Entered.slot_ne_fresh {b : Nat} (hp : Entered c x p) (hb : b < c.bufferSize)
    (hfresh : x.tailPage < b) : c.slot p ≠ b := by
  have hlt : p < c.bufferSize := Nat.lt_of_le_of_lt hp.1 (Nat.lt_trans hfresh hb)
  rw [Config.slot, Nat.mod_eq_of_lt hlt]
  have hle := hp.1
  omega

theorem Pages.touch (h : Pages c x) {o : Option Stage} {f : Bool} (hq : Entered c x q)
    (htail : y.tailPage = x.tailPage) (hsafe : y.safeHeadAddress = x.safeHeadAddress)
    (hallocated : y.allocated = x.allocated)
    (hstatus : ∀ b, b ≠ c.slot q → y.status b = x.status b)
    (hrecords : ∀ b, b ≠ c.slot q → y.records b = x.records b)
    (hothers : ∀ u, u ≠ t → y.pc u = x.pc u)
    (hstage : ∀ p, p ≠ q → (y.pc t).stage p = (x.pc t).stage p)
    (hflies : ∀ p, p ≠ q → ((y.pc t).Flies p ↔ (x.pc t).Flies p))
    (hwrites : ∀ p, p ≠ q → y.writesOf p = x.writesOf p)
    (hissued : ∀ w ∈ y.issued, w ∈ x.issued ∨ w.page = q)
    (hpage : PageOk c y q o f) : Pages c y := by
  have hentered : ∀ p, Entered c y p ↔ Entered c x p := by
    intro p
    rw [Entered, Entered, htail]
  constructor
  · intro p hp
    rw [hentered] at hp
    by_cases hpq : p = q
    · rw [hpq]
      exact ⟨o, f, hpage⟩
    · obtain ⟨o', f', hok⟩ := h.entered p hp
      refine ⟨o', f', hok.handled.same hothers (hstage p hpq),
        hok.flight.same hothers (hflies p hpq) (hwrites p hpq), ?_⟩
      rw [hstatus _ (hp.slot_ne hq hpq), hrecords _ (hp.slot_ne hq hpq), BelowHead, hsafe]
      exact hok.fits
  · intro u p hu
    rw [hentered]
    by_cases hpq : p = q
    · rw [hpq]
      exact hq
    · by_cases hut : u = t
      · rw [hut, hstage p hpq] at hu
        exact h.handles t p hu
      · rw [hothers u hut] at hu
        exact h.handles u p hu
  · intro u p hu
    rw [hentered]
    by_cases hpq : p = q
    · rw [hpq]
      exact hq
    · by_cases hut : u = t
      · rw [hut, hflies p hpq] at hu
        exact h.flies t p hu
      · rw [hothers u hut] at hu
        exact h.flies u p hu
  · intro w hw
    rw [hentered]
    rcases hissued w hw with hw | hw
    · exact h.writes w hw
    · rw [hw]
      exact hq
  · rw [htail, hallocated]
    exact h.allocated
  · intro b hb hfresh
    rw [htail] at hfresh
    have hne := hq.slot_ne_fresh hb hfresh
    rw [hallocated, hstatus b (Ne.symm hne), hrecords b (Ne.symm hne)]
    exact h.fresh b hb hfresh

/-- The pages of the buffer, the tail's page and the writes are the same. -/
structure SameBuffer (x y : System) : Prop where
  tailPage : y.tailPage = x.tailPage := by rfl
  safeHeadAddress : y.safeHeadAddress = x.safeHeadAddress := by rfl
  allocated : y.allocated = x.allocated := by rfl
  status : y.status = x.status := by rfl
  records : y.records = x.records := by rfl
  issued : y.issued = x.issued := by rfl

theorem Pages.plain (h : Pages c x) (hsame : SameBuffer x y)
    (hothers : ∀ u, u ≠ t → y.pc u = x.pc u)
    (hstage : ∀ p, (y.pc t).stage p = (x.pc t).stage p)
    (hflies : ∀ p, (y.pc t).Flies p ↔ (x.pc t).Flies p) : Pages c y := by
  obtain ⟨htail, hsafe, hallocated, hstatus, hrecords, hissued⟩ := hsame
  -- the page of the tail is one of the pages, and stays as it is
  have hpos := c.bufferSize_gt
  have htailEntered : Entered c x x.tailPage := ⟨le_rfl, by omega⟩
  have hwrites : ∀ p, y.writesOf p = x.writesOf p := by
    intro p
    rw [System.writesOf, hissued]
    rfl
  obtain ⟨o, f, hok⟩ := h.entered _ htailEntered
  refine h.touch htailEntered htail hsafe hallocated (fun b _ => congrFun hstatus b)
    (fun b _ => congrFun hrecords b) hothers (fun p _ => hstage p) (fun p _ => hflies p)
    (fun p _ => hwrites p) (fun w hw => Or.inl (hissued ▸ hw)) (o := o) (f := f)
    ⟨hok.handled.same hothers (hstage _), hok.flight.same hothers (hflies _) (hwrites _), ?_⟩
  rw [hstatus, hrecords, BelowHead, hsafe]
  exact hok.fits

end Life

section Discipline

def Pc.Closes (p : Nat) : Pc → Prop
  | .closing idx stop | .clearing idx stop | .reopening idx stop => idx ≤ p ∧ p < stop
  | _ => False

instance decidableCloses : (pc : Pc) → Decidable (pc.Closes p)
  | .closing _ _ | .clearing _ _ | .reopening _ _ => inferInstanceAs (Decidable (_ ≤ _ ∧ _ < _))
  | .idle | .holding _ | .recording _ | .full _ | .checking _ | .testing _ | .moving _
  | .exchanging _ _ | .shiftingReadOnly _ _ | .bumpingReadOnly _ _ _ | .shiftingHead _ _
  | .updatingHead _ _ _ | .bumpingHead _ _ _ | .allocating _ | .updatingToTail _
  | .bumpingToTail _ | .markingReadOnly _ | .flushing _ _ _ | .resetting _ _ _
  | .issuing _ _ _ | .movingSafeHead _ | .storing _ _ | .settling _ | .wiping _ | .opening _
  | .loading | .walking _ _ _ _ | .publishing _ => .isFalse id

/-- When `NewPage` takes a buffer, the buffer is still ready and the page that it
had before has been closed and opened again; and `AsyncFlushPages` comes to no
page of which a write is in progress. -/
def Pc.Recycles (c : Config) (x : System) : Pc → Prop
  | .exchanging oldPage expectedOffset =>
      x.tailPage = oldPage → x.tailOffset = expectedOffset →
        (x.status (c.slot (oldPage + 1))).Ready ∧
          (c.bufferSize ≤ oldPage + 1 →
            ∀ u < c.numFrames, ¬ (x.pc u).Closes (oldPage + 1 - c.bufferSize))
  | .flushing flushPage stop _ =>
      flushPage < stop → (x.status (c.slot flushPage)).flush ≠ .inProgress
  | _ => True

instance decidablePcRecycles : (pc : Pc) → Decidable (pc.Recycles c x)
  | .exchanging _ _ =>
      inferInstanceAs (Decidable (_ = _ → _ = _ → FlushCloseStatus.Ready _ ∧
        (_ ≤ _ → ∀ u < c.numFrames, ¬ (x.pc u).Closes _)))
  | .flushing _ _ _ => inferInstanceAs (Decidable (_ < _ → _ ≠ _))
  | .idle | .holding _ | .recording _ | .full _ | .checking _ | .testing _ | .moving _
  | .shiftingReadOnly _ _ | .bumpingReadOnly _ _ _ | .shiftingHead _ _ | .updatingHead _ _ _
  | .bumpingHead _ _ _ | .allocating _ | .updatingToTail _ | .bumpingToTail _
  | .markingReadOnly _ | .resetting _ _ _ | .issuing _ _ _ | .movingSafeHead _
  | .closing _ _ | .clearing _ _ | .reopening _ _ | .storing _ _ | .settling _ | .wiping _
  | .opening _ | .loading | .walking _ _ _ _ | .publishing _ => .isTrue trivial

def Recycles (c : Config) (x : System) : Move → Prop
  | .run t => (x.pc t).Recycles c x
  | _ => True

instance decidableRecycles : (m : Move) → Decidable (Recycles c x m)
  | .run t => decidablePcRecycles (x.pc t)
  | .allocate _ _ | .newPage _ | .shiftReadOnlyToTail _ | .refresh _ | .unprotect _
  | .drain _ _ | .complete _ _ => .isTrue trivial

end Discipline

section Steps

theorem Ordered.belowHead_tail (h : Ordered c x) : ¬ BelowHead x x.tailPage := by
  refine Nat.not_lt.mpr (Nat.le_trans (pageOf_le_of_le h.safeHead_le) ?_)
  exact Nat.le_trans h.head_page_le h.flushed_page_le

theorem closes_of_unmarked (h : pc.stage p = some .unmarked) : pc.Closes p := by
  cases pc <;> simp only [Pc.stage, reduceCtorEq] at h
  case closing =>
    split at h
    · rename_i hrange
      exact hrange
    · cases h
  case clearing | reopening =>
    split at h
    · cases h
    · split at h
      · rename_i hrange
        exact ⟨Nat.le_of_lt hrange.1, hrange.2⟩
      · cases h
  case wiping | opening => split at h <;> cases h

theorem Pages.open_of_le (h : Pages c x) (ho : Ordered c x) (hp : ¬ BelowHead x p)
    (htail : p ≤ x.tailPage) :
    ∃ f, PageOk c x p none f ∧ (x.status (c.slot p)).close = .isOpen := by
  have hroom := ho.room
  have hle : pageOf x.safeHeadAddress ≤ p := Nat.not_lt.mp hp
  obtain ⟨o, f, hok⟩ := h.entered p ⟨htail, by omega⟩
  have hfits := hok.fits.2
  cases o with
  | none =>
      rcases hfits with ⟨-, hopen⟩ | ⟨hbelow, -⟩ | ⟨hbelow, -⟩
      · exact ⟨f, hok, hopen⟩
      · exact absurd hbelow hp
      · exact absurd hbelow hp
  | some s => cases s <;> exact absurd hfits.1 hp

theorem Pages.empty_of_ready (h : Pages c x) (hroom : x.tailPage + 2 < pageOf x.safeHeadAddress +
      c.bufferSize) (hready : (x.status (c.slot (x.tailPage + 1))).Ready)
    (hclosed : c.bufferSize ≤ x.tailPage + 1 → ∀ u,
      ¬ (x.pc u).Closes (x.tailPage + 1 - c.bufferSize)) :
    x.records (c.slot (x.tailPage + 1)) = [] ∧ (x.status (c.slot (x.tailPage + 1))).flush =
      .flushed ∧ (c.bufferSize ≤ x.tailPage + 1 →
        ∃ o, PageOk c x (x.tailPage + 1 - c.bufferSize) o false ∧ o = none) := by
  have hsize := c.bufferSize_gt
  by_cases hround : c.bufferSize ≤ x.tailPage + 1
  · -- the page that had the buffer before
    have hslot : c.slot (x.tailPage + 1) = c.slot (x.tailPage + 1 - c.bufferSize) := by
      rw [Config.slot, Config.slot, Nat.mod_eq_sub_mod hround]
    have hbelow : BelowHead x (x.tailPage + 1 - c.bufferSize) := by
      rw [BelowHead]
      omega
    rw [hslot] at hready ⊢
    obtain ⟨o, f, hok⟩ := h.entered (x.tailPage + 1 - c.bufferSize) ⟨by omega, by omega⟩
    obtain ⟨hflush, hstage⟩ := hok.fits
    have hf : f = false := by
      rw [Bool.eq_false_iff]
      intro hf
      have hin := hflush.mpr hf
      rw [hready.1] at hin
      cases hin
    subst hf
    cases o with
    | none =>
        rcases hstage with ⟨hnot, -⟩ | ⟨-, hstatus⟩ | ⟨-, -, hrecords⟩
        · exact absurd hbelow hnot
        · rw [hstatus] at hready
          cases hready.1
        · exact ⟨hrecords, hready.1, fun _ => ⟨none, hok, rfl⟩⟩
    | some s =>
        obtain ⟨u, hu, -⟩ := hok.handled
        cases s with
        | unmarked => exact absurd (closes_of_unmarked hu) (hclosed hround u)
        | marked =>
            rw [hstage.2] at hready
            cases hready.2
        | cleared =>
            rw [hstage.2.1] at hready
            cases hready.2
  · obtain ⟨-, hstatus, hrecords⟩ | ⟨-, hclose⟩ := h.fresh (x.tailPage + 1) (by omega) (by omega)
    · have hslot : c.slot (x.tailPage + 1) = x.tailPage + 1 := Nat.mod_eq_of_lt (by omega)
      rw [hslot]
      exact ⟨hrecords, congrArg FlushCloseStatus.flush hstatus, fun hle => absurd hle hround⟩
    · have hslot : c.slot (x.tailPage + 1) = x.tailPage + 1 := Nat.mod_eq_of_lt (by omega)
      rw [hslot] at hready
      rw [hready.2] at hclose
      cases hclose

theorem PageOk.congr {o : Option Stage} {f : Bool} (h : PageOk c x p o f)
    (hsafe : y.safeHeadAddress = x.safeHeadAddress)
    (hstatus : y.status (c.slot p) = x.status (c.slot p))
    (hrecords : y.records (c.slot p) = x.records (c.slot p))
    (hothers : ∀ u, u ≠ t → y.pc u = x.pc u)
    (hstage : (y.pc t).stage p = (x.pc t).stage p)
    (hflies : (y.pc t).Flies p ↔ (x.pc t).Flies p) (hwrites : y.writesOf p = x.writesOf p) :
    PageOk c y p o f where
  handled := h.handled.same hothers hstage
  flight := h.flight.same hothers hflies hwrites
  fits := by
    rw [hstatus, hrecords, BelowHead, hsafe]
    exact h.fits

theorem writesOf_eq_zero_iff : x.writesOf p = 0 ↔ ∀ w ∈ x.issued, w.page ≠ p := by
  simp [System.writesOf, List.countP_eq_zero]

theorem Pages.enter (h : Pages c x) (ho : Ordered c x) (hroom : x.tailPage + 2 <
      pageOf x.safeHeadAddress + c.bufferSize)
    (hready : (x.status (c.slot (x.tailPage + 1))).Ready)
    (hclosed : c.bufferSize ≤ x.tailPage + 1 → ∀ u,
      ¬ (x.pc u).Closes (x.tailPage + 1 - c.bufferSize))
    (hsame : SameBuffer { x with tailPage := x.tailPage + 1 } y)
    (hothers : ∀ u, u ≠ t → y.pc u = x.pc u)
    (hstage : ∀ p, (y.pc t).stage p = (x.pc t).stage p)
    (hflies : ∀ p, (y.pc t).Flies p ↔ (x.pc t).Flies p) : Pages c y := by
  obtain ⟨htail, hsafe, hallocated, hstatus, hrecords, hissued⟩ := hsame
  dsimp only at htail hsafe hallocated hstatus hrecords hissued
  obtain ⟨-, hflush, hold⟩ := h.empty_of_ready hroom hready hclosed
  have hsize := c.bufferSize_gt
  have hwrites : ∀ p, y.writesOf p = x.writesOf p := by
    intro p
    rw [System.writesOf, hissued]
    rfl
  -- only the page that had the buffer before is gone
  have hkeep : ∀ p, Entered c x p → (c.bufferSize ≤ x.tailPage + 1 →
      p ≠ x.tailPage + 1 - c.bufferSize) → Entered c y p := by
    intro p hp hne
    rw [Entered, htail]
    refine ⟨Nat.le_succ_of_le hp.1, ?_⟩
    have hlt := hp.2
    by_cases hround : c.bufferSize ≤ x.tailPage + 1
    · have hne' := hne hround
      omega
    · omega
  have hstages : ∀ u p, (y.pc u).stage p = (x.pc u).stage p := by
    intro u p
    by_cases hu : u = t
    · rw [hu, hstage]
    · rw [hothers u hu]
  have hfly : ∀ u p, (y.pc u).Flies p ↔ (x.pc u).Flies p := by
    intro u p
    by_cases hu : u = t
    · rw [hu, hflies]
    · rw [hothers u hu]
  constructor
  · intro p hp
    rw [Entered, htail] at hp
    by_cases hpt : p ≤ x.tailPage
    · obtain ⟨o, f, hok⟩ := h.entered p ⟨hpt, by omega⟩
      exact ⟨o, f, hok.congr hsafe (by rw [hstatus]) (by rw [hrecords]) hothers (hstage p)
        (hflies p) (hwrites p)⟩
    · have heq : p = x.tailPage + 1 := by omega
      subst heq
      refine ⟨none, false, ?_, ⟨?_, ?_⟩, ?_, ?_⟩
      · intro u
        by_contra hne
        rw [hstages] at hne
        exact hpt (h.handles u _ hne).1
      · intro u hu
        rw [hfly] at hu
        exact hpt (h.flies u _ hu).1
      · rw [hwrites, writesOf_eq_zero_iff]
        rintro w hw hpage
        exact hpt (hpage ▸ (h.writes w hw).1)
      · rw [hstatus, hflush]
        simp
      · left
        refine ⟨fun hbelow => ?_, by rw [hstatus]; exact hready.2⟩
        rw [BelowHead, hsafe] at hbelow
        exact ho.belowHead_tail (Nat.lt_of_succ_lt hbelow)
  · intro u p hu
    rw [hstages] at hu
    refine hkeep p (h.handles u p hu) fun hround heq => ?_
    obtain ⟨o, hok, rfl⟩ := hold hround
    exact hu (heq ▸ hok.handled u)
  · intro u p hu
    rw [hfly] at hu
    refine hkeep p (h.flies u p hu) fun hround heq => ?_
    obtain ⟨o, hok, -⟩ := hold hround
    exact hok.flight.1 u (heq ▸ hu)
  · intro w hw
    rw [hissued] at hw
    refine hkeep _ (h.writes w hw) fun hround heq => ?_
    obtain ⟨o, hok, -⟩ := hold hround
    exact writesOf_eq_zero_iff.mp hok.flight.2 w hw heq
  · intro b hb hle
    rw [htail] at hle
    rw [hallocated]
    by_cases hbt : b ≤ x.tailPage
    · exact h.allocated b hb hbt
    · have heq : x.tailPage + 1 = b := by omega
      have hslot : c.slot (x.tailPage + 1) = b := by
        rw [Config.slot, heq, Nat.mod_eq_of_lt hb]
      rw [hslot] at hready
      rcases h.fresh b hb (by omega) with ⟨hb', -⟩ | ⟨-, hclose⟩
      · exact hb'
      · rw [hready.2] at hclose
        cases hclose
  · intro b hb hlt
    rw [htail] at hlt
    rw [hallocated, hstatus, hrecords]
    exact h.fresh b hb (Nat.lt_of_succ_lt hlt)

theorem Pages.allocate (h : Pages c x) (hnot : x.allocated (c.slot p) = false) :
    Pages c (x.allocatePage c p) := by
  have hsize := c.bufferSize_gt
  have hlt : c.slot p < c.bufferSize := Nat.mod_lt p (by omega)
  have hfresh : x.tailPage < c.slot p := by
    by_contra hle
    rw [h.allocated _ hlt (Nat.not_lt.mp hle)] at hnot
    cases hnot
  have hne : ∀ q, Entered c x q → c.slot q ≠ c.slot p := fun q hq => hq.slot_ne_fresh hlt hfresh
  constructor
  · intro q hq
    obtain ⟨o, f, hok⟩ := h.entered q hq
    refine ⟨o, f, hok.handled, hok.flight, ?_⟩
    simp only [System.allocatePage, Function.update_of_ne (hne q hq)]
    exact hok.fits
  · exact h.handles
  · exact h.flies
  · exact h.writes
  · intro b hb hle
    have hb' : b ≠ c.slot p := fun heq => Nat.not_lt.mpr hle (heq ▸ hfresh)
    simp only [System.allocatePage, Function.update_of_ne hb']
    exact h.allocated b hb hle
  · intro b hb hb'
    by_cases heq : b = c.slot p
    · subst heq
      simp [System.allocatePage]
    · simp only [System.allocatePage, Function.update_of_ne heq]
      exact h.fresh b hb hb'

theorem Pages.moveSafeHead (h : Pages c x) (ho : Ordered c x) {address : Nat}
    (hle : address ≤ x.headAddress) (hlt : x.safeHeadAddress < address)
    (hstage : ∀ p, (x.pc t).stage p = none) (hflies : ∀ p, ¬ (x.pc t).Flies p) :
    Pages c ({ x with safeHeadAddress := address }.goto t
      (.closing (pageOf x.safeHeadAddress) (pageOf address))) := by
  have hstage' : ∀ p, Pc.stage p (.closing (pageOf x.safeHeadAddress) (pageOf address)) =
      if pageOf x.safeHeadAddress ≤ p ∧ p < pageOf address then some .unmarked else none :=
    fun _ => rfl
  have htail : pageOf address ≤ x.tailPage :=
    Nat.le_trans (pageOf_le_of_le hle) (Nat.le_trans ho.head_page_le ho.flushed_page_le)
  have hroom := ho.room
  have hflight : ∀ {p f}, Flight x p f → Flight ({ x with safeHeadAddress := address }.goto t
      (.closing (pageOf x.safeHeadAddress) (pageOf address))) p f := by
    intro p f hf
    refine hf.same (t := t) (fun u hu => goto_pc_of_ne hu) ?_ rfl
    rw [goto_pc_self]
    exact iff_of_false id (hflies p)
  constructor
  · intro p hp
    obtain ⟨o, f, hok⟩ := h.entered p hp
    by_cases hrange : pageOf x.safeHeadAddress ≤ p ∧ p < pageOf address
    · -- it was open, and this thread is the first to handle it
      obtain ⟨f', hok', hopen⟩ := h.open_of_le ho (Nat.not_lt.mpr hrange.1) hp.1
      refine ⟨some .unmarked, f', ?_, hflight hok'.flight, hok'.fits.1, hrange.2, hopen⟩
      have hown := (show Handled x p ((x.pc t).stage p) from hstage p ▸ hok'.handled).own
        (y := { x with safeHeadAddress := address }.goto t
          (.closing (pageOf x.safeHeadAddress) (pageOf address)))
        fun u hu => goto_pc_of_ne hu
      rwa [goto_pc_self, hstage', if_pos hrange] at hown
    · refine ⟨o, f, ?_, hflight hok.flight, ?_⟩
      · refine hok.handled.same (t := t) (fun u hu => goto_pc_of_ne hu) ?_
        rw [goto_pc_self, hstage', if_neg hrange, hstage]
      · have hiff : p < pageOf address ↔ BelowHead x p := by
          have hmono := pageOf_le_of_le (Nat.le_of_lt hlt)
          rw [BelowHead]
          omega
        have hfits := hok.fits
        rw [← hiff] at hfits
        exact hfits
  · intro u p hu
    by_cases hut : u = t
    · rw [hut, goto_pc_self, hstage'] at hu
      split at hu
      · rename_i hrange
        refine ⟨Nat.le_trans (Nat.le_of_lt hrange.2) htail, ?_⟩
        change x.tailPage < p + c.bufferSize
        omega
      · exact absurd rfl hu
    · rw [goto_pc_of_ne hut] at hu
      exact h.handles u p hu
  · intro u p hu
    by_cases hut : u = t
    · rw [hut, goto_pc_self] at hu
      exact hu.elim
    · rw [goto_pc_of_ne hut] at hu
      exact h.flies u p hu
  · exact h.writes
  · exact h.allocated
  · exact h.fresh

theorem writesOf_eraseIdx {w : Write} (hw : x.issued[i]? = some w) :
    x.writesOf p = (x.issued.eraseIdx i).countP (fun w => w.page = p) +
      if w.page = p then 1 else 0 := by
  obtain ⟨hi, rfl⟩ := List.getElem?_eq_some_iff.mp hw
  rw [System.writesOf, ← (List.getElem_cons_eraseIdx_perm hi).countP_eq, List.countP_cons]
  simp

theorem status_setStatus {status : FlushCloseStatus} :
    ((x.setStatus c p status).goto t pc).status (c.slot p) = status :=
  Function.update_self ..

structure SlotOnly (c : Config) (q : Nat) (x z : System) : Prop where
  tailPage : z.tailPage = x.tailPage
  safeHeadAddress : z.safeHeadAddress = x.safeHeadAddress
  allocated : z.allocated = x.allocated
  status : ∀ b, b ≠ c.slot q → z.status b = x.status b
  records : ∀ b, b ≠ c.slot q → z.records b = x.records b
  issued : z.issued = x.issued
  pc : z.pc = x.pc

theorem slotOnly_setStatus (status : FlushCloseStatus) :
    SlotOnly c p x (x.setStatus c p status) :=
  ⟨rfl, rfl, rfl, fun _ hb => Function.update_of_ne hb .., fun _ _ => rfl, rfl, rfl⟩

theorem slotOnly_setRecords (records : List Nat) :
    SlotOnly c p x (x.setRecords c p records) :=
  ⟨rfl, rfl, rfl, fun _ _ => rfl, fun _ hb => Function.update_of_ne hb .., rfl, rfl⟩

theorem Pages.touchSlot (h : Pages c x) {z : System} {o : Option Stage} {f : Bool}
    (hq : Entered c x q) (hz : SlotOnly c q x z)
    (hstage : ∀ p, p ≠ q → pc.stage p = (x.pc t).stage p)
    (hflies : ∀ p, p ≠ q → (pc.Flies p ↔ (x.pc t).Flies p))
    (hpage : PageOk c (z.goto t pc) q o f) : Pages c (z.goto t pc) := by
  refine h.touch (t := t) hq hz.tailPage hz.safeHeadAddress hz.allocated hz.status hz.records
    (fun u hu => ?_) (fun p hp => ?_) (fun p hp => ?_) (fun p _ => ?_) (fun w hw => ?_) hpage
  · rw [goto_pc_of_ne hu, hz.pc]
  · rw [goto_pc_self]
    exact hstage p hp
  · rw [goto_pc_self]
    exact hflies p hp
  · exact congrArg (List.countP fun w : Write => decide (w.page = p)) hz.issued
  · exact Or.inl (hz.issued ▸ hw)

/-- The thread that handles a page takes it to its next stage, or is done with it. -/
theorem Pages.handle (h : Pages c x) {z : System} {s : Stage} {o : Option Stage}
    {status : FlushCloseStatus} {records : List Nat} (hs : (x.pc t).stage q = some s)
    (hz : SlotOnly c q x z) (hstatus : z.status (c.slot q) = status)
    (hrecords : z.records (c.slot q) = records) (hpc : pc.stage q = o)
    (hstage : ∀ p, p ≠ q → pc.stage p = (x.pc t).stage p)
    (hflies : ∀ p, pc.Flies p ↔ (x.pc t).Flies p)
    (hfits : ∀ f, Fits (BelowHead x q) (some s) f (x.status (c.slot q)) (x.records (c.slot q)) →
      Fits (BelowHead x q) o f status records) : Pages c (z.goto t pc) := by
  have hentered := h.handles t q (by rw [hs]; nofun)
  obtain ⟨o', f, hpage⟩ := h.entered q hentered
  have ho := hpage.handled.eq hs
  subst ho
  have hothers : ∀ u, u ≠ t → (z.goto t pc).pc u = x.pc u := by
    intro u hu
    rw [goto_pc_of_ne hu, hz.pc]
  have hown : Handled x q ((x.pc t).stage q) := by
    rw [hs]
    exact hpage.handled
  have hwrites : (z.goto t pc).writesOf q = x.writesOf q :=
    congrArg (List.countP fun w : Write => decide (w.page = q)) hz.issued
  refine h.touchSlot (o := o) (f := f) hentered hz hstage (fun p _ => hflies p) ⟨?_, ?_, ?_⟩
  · have hown' := hown.own hothers
    rwa [goto_pc_self, hpc] at hown'
  · refine hpage.flight.same hothers ?_ hwrites
    rw [goto_pc_self]
    exact hflies q
  · have hbelow : BelowHead (z.goto t pc) q = BelowHead x q := by
      rw [BelowHead, BelowHead]
      exact congrArg (fun a => q < pageOf a) hz.safeHeadAddress
    rw [hbelow]
    change Fits _ _ _ (z.status (c.slot q)) (z.records (c.slot q))
    rw [hstatus, hrecords]
    exact hfits f hpage.fits

/-- The callback of the write has found that the page is closed, and is going to
clear it, or has left it open. -/
theorem Pages.settle (h : Pages c x) (hpc : x.pc t = .settling q) :
    Pages c ((x.setStatus c q ⟨.flushed, (x.status (c.slot q)).close⟩).goto t
      (if (x.status (c.slot q)).close = .closed then .wiping q else .loading)) := by
  have hfly : (x.pc t).Flies q := by
    rw [hpc]
    rfl
  have hentered := h.flies t q hfly
  obtain ⟨o, f, hpage⟩ := h.entered q hentered
  obtain ⟨rfl, -, -⟩ := hpage.flight.alone hfly
  obtain ⟨hflush, hfits⟩ := hpage.fits
  have hprogress := hflush.mpr rfl
  have hnone : (x.pc t).stage q = none := by
    rw [hpc]
    rfl
  by_cases hclosed : (x.status (c.slot q)).close = .closed
  · -- nobody handles it, since the status would be another
    have ho : o = none ∧ BelowHead x q := by
      cases o with
      | none =>
          rcases hfits with ⟨-, hopen⟩ | ⟨hbelow, -⟩ | ⟨-, hstatus, -⟩
          · rw [hopen] at hclosed
            cases hclosed
          · exact ⟨rfl, hbelow⟩
          · rw [hstatus] at hprogress
            cases hprogress
      | some s =>
          cases s with
          | unmarked =>
              rw [hfits.2] at hclosed
              cases hclosed
          | marked =>
              rw [hfits.2] at hprogress
              cases hprogress
          | cleared =>
              rw [hfits.2.1] at hprogress
              cases hprogress
    obtain ⟨rfl, hbelow⟩ := ho
    rw [if_pos hclosed]
    refine h.touchSlot (o := some .marked) (f := false) hentered (slotOnly_setStatus _) ?_ ?_ ?_
    · intro p hp
      rw [hpc]
      exact if_neg hp
    · intro p hp
      rw [hpc]
      exact iff_of_false id fun heq => hp heq.symm
    · refine ⟨?_, hpage.flight.land (t := t) hfly (fun u hu => goto_pc_of_ne hu) ?_ rfl, ?_⟩
      · have hown := (show Handled x q ((x.pc t).stage q) from hnone ▸ hpage.handled).own
          (y := (x.setStatus c q ⟨.flushed, (x.status (c.slot q)).close⟩).goto t (.wiping q))
          fun u hu => goto_pc_of_ne hu
        rw [goto_pc_self] at hown
        exact (show Pc.stage q (.wiping q) = some .marked from if_pos rfl) ▸ hown
      · rw [goto_pc_self]
        exact id
      · rw [status_setStatus, hclosed]
        exact ⟨by simp, hbelow, rfl⟩
  · have hopen : (x.status (c.slot q)).close = .isOpen := by
      cases hclose : (x.status (c.slot q)).close
      · exact absurd hclose hclosed
      · rfl
    rw [if_neg hclosed]
    refine h.touchSlot (o := o) (f := false) hentered (slotOnly_setStatus _) ?_ ?_ ?_
    · intro p _
      rw [hpc]
      rfl
    · intro p hp
      rw [hpc]
      exact iff_of_false id fun heq => hp heq.symm
    · refine ⟨hpage.handled.same (t := t) (fun u hu => goto_pc_of_ne hu) ?_,
        hpage.flight.land (t := t) hfly (fun u hu => goto_pc_of_ne hu) ?_ rfl, ?_⟩
      · rw [goto_pc_self, hnone]
        rfl
      · rw [goto_pc_self]
        exact id
      · rw [status_setStatus, hopen]
        refine ⟨by simp, ?_⟩
        cases o with
        | none =>
            rcases hfits with ⟨hnot, -⟩ | ⟨-, hstatus⟩ | ⟨-, hstatus, -⟩
            · exact Or.inl ⟨hnot, rfl⟩
            · rw [hstatus] at hopen
              cases hopen
            · rw [hstatus] at hprogress
              cases hprogress
        | some s =>
            cases s with
            | unmarked => exact ⟨hfits.1, rfl⟩
            | marked =>
                rw [hfits.2] at hopen
                cases hopen
            | cleared =>
                rw [hfits.2.1] at hopen
                cases hopen

def Pc.Apart (pc : Pc) : Prop :=
  (∀ p, pc.stage p = none) ∧ ∀ p, ¬ pc.Flies p

theorem apart_afterShifts {tailPage : Nat} {wonCas : Bool} :
    (afterShifts tailPage wonCas).Apart := by
  cases wonCas <;> exact ⟨fun _ => rfl, fun _ => id⟩

theorem Pages.clear (h : Pages c x) (hstage : (x.pc t).stage q = some .marked)
    (hnext : pc.stage q = some .cleared) (hrest : ∀ p, p ≠ q → pc.stage p = (x.pc t).stage p)
    (hflies : ∀ p, pc.Flies p ↔ (x.pc t).Flies p) :
    Pages c ((x.setRecords c q []).goto t pc) := by
  refine h.handle hstage (slotOnly_setRecords _) rfl (Function.update_self ..) hnext hrest hflies ?_
  rintro f ⟨hflush, hbelow, hstatus⟩
  exact ⟨hflush, hbelow, hstatus, rfl⟩

theorem Pages.reopen (h : Pages c x) (hstage : (x.pc t).stage q = some .cleared)
    (hnext : pc.stage q = none) (hrest : ∀ p, p ≠ q → pc.stage p = (x.pc t).stage p)
    (hflies : ∀ p, pc.Flies p ↔ (x.pc t).Flies p) :
    Pages c ((x.setStatus c q ⟨.flushed, .isOpen⟩).goto t pc) := by
  refine h.handle hstage (slotOnly_setStatus _) (Function.update_self ..) rfl hnext hrest hflies ?_
  rintro f ⟨hflush, hbelow, hstatus, hrecords⟩
  rw [hstatus] at hflush
  exact ⟨hflush, Or.inr (Or.inr ⟨hbelow, rfl, hrecords⟩)⟩

theorem Pages.close (h : Pages c x) {stop : Nat} (hpc : x.pc t = .closing q stop)
    (hlt : q < stop) :
    Pages c ((x.setStatus c q ⟨(x.status (c.slot q)).flush, .closed⟩).goto t
      (if (x.status (c.slot q)).flush = .flushed then .clearing q stop
        else .closing (q + 1) stop)) := by
  have hstage : (x.pc t).stage q = some .unmarked := by
    rw [hpc]
    exact if_pos ⟨le_rfl, hlt⟩
  by_cases hflushed : (x.status (c.slot q)).flush = .flushed
  · rw [if_pos hflushed]
    refine h.handle hstage (slotOnly_setStatus _) (Function.update_self ..) rfl
      (o := some .marked) (if_pos rfl) ?_ ?_ ?_
    · intro p hne
      rw [hpc]
      simp only [Pc.stage, if_neg hne]
      exact if_congr (by omega) rfl rfl
    · rw [hpc]
      exact fun _ => Iff.rfl
    · rintro f ⟨hflush, hbelow, -⟩
      exact ⟨hflush, hbelow, by rw [hflushed]⟩
  · have hprogress : (x.status (c.slot q)).flush = .inProgress := by
      cases hf : (x.status (c.slot q)).flush
      · exact absurd hf hflushed
      · rfl
    rw [if_neg hflushed]
    refine h.handle hstage (slotOnly_setStatus _) (Function.update_self ..) rfl
      (o := none) (if_neg (by omega)) ?_ ?_ ?_
    · intro p hne
      rw [hpc]
      exact if_congr (by omega) rfl rfl
    · rw [hpc]
      exact fun _ => Iff.rfl
    · rintro f ⟨hflush, hbelow, -⟩
      exact ⟨hflush, Or.inr (Or.inl ⟨hbelow, by rw [hprogress]⟩)⟩

theorem Pages.record (h : Pages c x) (ho : Ordered c x) {address : Nat} {records : List Nat}
    (hpc : x.pc t = .recording address) (hpin : ¬ BelowHead x (pageOf address))
    (htail : pageOf address ≤ x.tailPage) :
    Pages c ((x.setRecords c (pageOf address) records).goto t .idle) := by
  obtain ⟨f, hpage, hopen⟩ := h.open_of_le ho hpin htail
  have hroom := ho.room
  have hentered : Entered c x (pageOf address) := by
    rw [BelowHead] at hpin
    exact ⟨htail, by omega⟩
  refine h.touchSlot (o := none) (f := f) hentered (slotOnly_setRecords _) (fun p _ => ?_)
    (fun p _ => ?_) ?_
  · rw [hpc]
    rfl
  · rw [hpc]
    exact Iff.rfl
  refine ⟨hpage.handled.same (t := t) (fun u hu => goto_pc_of_ne hu) ?_,
    hpage.flight.same (t := t) (fun u hu => goto_pc_of_ne hu) ?_ rfl, hpage.fits.1,
    Or.inl ⟨hpin, hopen⟩⟩
  · rw [goto_pc_self, hpc]
    rfl
  · rw [goto_pc_self, hpc]
    exact Iff.rfl

theorem Pages.takeOff (h : Pages c x) (ho : Ordered c x) {stop untilAddress : Nat}
    (hpc : x.pc t = .flushing q stop untilAddress) (hpin : ¬ BelowHead x q)
    (htail : q ≤ x.tailPage) (hnot : (x.status (c.slot q)).flush ≠ .inProgress) :
    Pages c ((x.setStatus c q ⟨.inProgress, (x.status (c.slot q)).close⟩).goto t
      (.resetting q stop untilAddress)) := by
  obtain ⟨f, hpage, hopen⟩ := h.open_of_le ho hpin htail
  have hf : f = false := Bool.eq_false_iff.mpr fun hf => hnot (hpage.fits.1.mpr hf)
  subst hf
  have hroom := ho.room
  have hentered : Entered c x q := by
    rw [BelowHead] at hpin
    exact ⟨htail, by omega⟩
  refine h.touchSlot (o := none) (f := true) hentered (slotOnly_setStatus _) ?_ ?_ ?_
  · intro p _
    rw [hpc]
    rfl
  · intro p hne
    rw [hpc]
    exact iff_of_false (fun heq => hne heq.symm) id
  · refine ⟨hpage.handled.same (t := t) (fun u hu => goto_pc_of_ne hu) ?_,
      hpage.flight.takeOff (t := t) (fun u hu => goto_pc_of_ne hu) ?_ rfl, ?_⟩
    · rw [goto_pc_self, hpc]
      rfl
    · rw [goto_pc_self]
      rfl
    · rw [status_setStatus]
      exact ⟨iff_of_true rfl rfl, Or.inl ⟨hpin, hopen⟩⟩

theorem Pages.issue (h : Pages c x) {stop untilAddress address : Nat}
    (hpc : x.pc t = .issuing q stop untilAddress) :
    Pages c ((x.issue ⟨q, address⟩).goto t (.flushing (q + 1) stop untilAddress)) := by
  have hfly : (x.pc t).Flies q := by
    rw [hpc]
    rfl
  have hentered := h.flies t q hfly
  obtain ⟨o, f, hpage⟩ := h.entered q hentered
  obtain ⟨rfl, -, -⟩ := hpage.flight.alone hfly
  refine h.touch (t := t) (o := o) (f := true) hentered rfl rfl rfl (fun _ _ => rfl)
    (fun _ _ => rfl) (fun u hu => goto_pc_of_ne hu) ?_ ?_ ?_ ?_ ?_
  · intro p _
    rw [goto_pc_self, hpc]
    rfl
  · intro p hne
    rw [goto_pc_self, hpc]
    exact iff_of_false id fun heq => hne heq.symm
  · intro p hne
    simp [System.writesOf, System.goto, System.issue, Ne.symm hne]
  · intro w hw
    refine (List.mem_append.mp hw).imp_right fun hw => ?_
    rw [List.mem_singleton.mp hw]
  · refine ⟨hpage.handled.same (t := t) (fun u hu => goto_pc_of_ne hu) ?_,
      hpage.flight.issue (t := t) hfly (fun u hu => goto_pc_of_ne hu) ?_ ?_, hpage.fits⟩
    · rw [goto_pc_self, hpc]
      rfl
    · rw [goto_pc_self]
      exact id
    · simp [System.writesOf, System.goto, System.issue]

theorem Pages.step (h : Pages c x) (ho : Ordered c x) (hp : Protected c x)
    (hok : Recycles c x (.run t)) (hstep : x.step c t = some y) : Pages c y := by
  have ht := ho.threads t
  have hothers : ∀ {z : System} {pc : Pc}, z.pc = x.pc → ∀ u, u ≠ t →
      (z.goto t pc).pc u = x.pc u := by
    intro z pc hpc u hu
    rw [goto_pc_of_ne hu, hpc]
  -- a step of a thread that has to do with no page, before and after
  have hplain : ∀ {z : System} {pc : Pc}, (x.pc t).Apart → pc.Apart →
      SameBuffer x z → z.pc = x.pc → Pages c (z.goto t pc) := by
    intro z pc hx hy hsame hpc
    refine h.plain (t := t) { hsame with } (hothers hpc) ?_ ?_
    · intro p
      rw [goto_pc_self, hx.1, hy.1]
    · intro p
      rw [goto_pc_self]
      exact iff_of_false (hy.2 p) (hx.2 p)
  have hcondition : (x.pc t).Recycles c x := hok
  unfold System.step at hstep
  cases hpc : x.pc t <;> simp only [hpc] at hstep <;>
    rw [hpc] at hplain hcondition <;> simp only [hpc, Pc.Bounded] at ht
  case idle | full => cases hstep
  case recording address =>
    cases hstep
    exact h.record ho hpc (Nat.not_lt.mpr (hp.safe t _ (by rw [hpc]; rfl))) ht
  case exchanging oldPage expectedOffset =>
    split at hstep
    · rename_i htail
      obtain ⟨rfl, rfl⟩ := htail
      obtain ⟨hready, hclosed⟩ := hcondition rfl rfl
      have hclosed' : c.bufferSize ≤ x.tailPage + 1 → ∀ u,
          ¬ (x.pc u).Closes (x.tailPage + 1 - c.bufferSize) := by
        intro hround u hu
        by_cases hidle : x.pc u = .idle
        · rw [hidle] at hu
          exact hu
        · exact hclosed hround u (hp.active u hidle).1 hu
      cases hstep
      refine h.enter (t := t) ho ht.2 hready hclosed' {} (hothers rfl) ?_ ?_
      · intro p
        rw [goto_pc_self, hpc]
        rfl
      · intro p
        rw [goto_pc_self, hpc]
        exact Iff.rfl
    · split at hstep <;> cases hstep
      · exact hplain ⟨fun _ => rfl, fun _ => id⟩ ⟨fun _ => rfl, fun _ => id⟩ {} rfl
      · exact hplain ⟨fun _ => rfl, fun _ => id⟩ ⟨fun _ => rfl, fun _ => id⟩ {} rfl
  case allocating page =>
    split at hstep
    · cases hstep
      exact hplain ⟨fun _ => rfl, fun _ => id⟩ ⟨fun _ => rfl, fun _ => id⟩ {} rfl
    · rename_i hnot
      cases hstep
      refine (h.allocate (Bool.eq_false_iff.mpr hnot)).plain (t := t) {}
        (fun u hu => goto_pc_of_ne hu) ?_ ?_
      · intro p
        change ((System.goto _ t (.full (page - 2))).pc t).stage p = (x.pc t).stage p
        rw [goto_pc_self, hpc]
        rfl
      · intro p
        change ((System.goto _ t (.full (page - 2))).pc t).Flies p ↔ (x.pc t).Flies p
        rw [goto_pc_self, hpc]
        exact Iff.rfl
  case flushing page stop untilAddress =>
    split at hstep
    · rename_i hlt
      obtain ⟨hle, rfl⟩ := ht
      have hpin : ¬ BelowHead x page := Nat.not_lt.mpr (hp.safe t _ (by rw [hpc]; rfl))
      have htail : page ≤ x.tailPage := by
        have hstart := Nat.le_of_lt (pageStart_lt_of_lt_flushStop hlt)
        refine Nat.le_trans (le_pageOf_iff.mpr ?_) ho.readOnly_le
        exact Nat.le_trans hstart (Nat.le_trans hle ho.safe_le)
      cases hstep
      exact h.takeOff ho hpc hpin htail (hcondition hlt)
    · cases hstep
      exact hplain ⟨fun _ => rfl, fun _ => id⟩ ⟨fun _ => rfl, fun _ => id⟩ {} rfl
  case resetting page stop untilAddress =>
    cases hstep
    refine h.plain (t := t) {} (hothers rfl) ?_ ?_
    · intro p
      rw [goto_pc_self, hpc]
      rfl
    · intro p
      rw [goto_pc_self, hpc]
      exact Iff.rfl
  case issuing page stop untilAddress =>
    cases hstep
    exact h.issue hpc
  case movingSafeHead address =>
    split at hstep
    · rename_i hlt
      cases hstep
      refine h.moveSafeHead ho ht hlt ?_ ?_ <;> rw [hpc]
      · exact fun _ => rfl
      · exact fun _ => id
    · cases hstep
      exact hplain ⟨fun _ => rfl, fun _ => id⟩ ⟨fun _ => rfl, fun _ => id⟩ {} rfl
  case closing idx stop =>
    split at hstep
    · rename_i hlt
      have hclose := h.close hpc hlt
      split at hstep <;> cases hstep
      · rename_i hflushed
        rwa [if_pos hflushed] at hclose
      · rename_i hflying
        rwa [if_neg hflying] at hclose
    · rename_i hend
      cases hstep
      refine hplain ⟨fun p => if_neg ?_, fun _ => id⟩ ⟨fun _ => rfl, fun _ => id⟩ {} rfl
      omega
  case clearing idx stop =>
    cases hstep
    refine h.clear (by rw [hpc]; exact if_pos rfl) (if_pos rfl) ?_ ?_ <;> rw [hpc]
    · intro p hne
      simp only [Pc.stage, if_neg hne]
    · exact fun _ => Iff.rfl
  case reopening idx stop =>
    cases hstep
    refine h.reopen (by rw [hpc]; exact if_pos rfl) (if_neg (by omega)) ?_ ?_ <;> rw [hpc]
    · intro p hne
      simp only [Pc.stage, if_neg hne]
      exact if_congr (by omega) rfl rfl
    · exact fun _ => Iff.rfl
  case settling page =>
    have hsettled := h.settle hpc
    split at hstep <;> cases hstep
    · rename_i hclosed
      rwa [if_pos hclosed] at hsettled
    · rename_i hopen
      rwa [if_neg hopen] at hsettled
  case wiping page =>
    cases hstep
    refine h.clear (by rw [hpc]; exact if_pos rfl) (if_pos rfl) ?_ ?_ <;> rw [hpc]
    · intro p hne
      simp only [Pc.stage, if_neg hne]
    · exact fun _ => Iff.rfl
  case opening page =>
    cases hstep
    refine h.reopen (by rw [hpc]; exact if_pos rfl) rfl ?_ ?_ <;> rw [hpc]
    · intro p hne
      simp only [Pc.stage, if_neg hne]
    · exact fun _ => Iff.rfl
  case storing page untilAddress =>
    cases hstep
    refine h.plain (t := t) {} (hothers rfl) ?_ ?_
    · intro p
      rw [goto_pc_self, hpc]
      rfl
    · intro p
      rw [goto_pc_self, hpc]
      exact Iff.rfl
  case shiftingHead tailPage wonCas =>
    split at hstep <;> cases hstep
    · exact hplain ⟨fun _ => rfl, fun _ => id⟩ apart_afterShifts {} rfl
    · exact hplain ⟨fun _ => rfl, fun _ => id⟩ ⟨fun _ => rfl, fun _ => id⟩ {} rfl
  case updatingHead desired tailPage wonCas =>
    split at hstep <;> cases hstep
    · exact hplain ⟨fun _ => rfl, fun _ => id⟩ ⟨fun _ => rfl, fun _ => id⟩ {} rfl
    · exact hplain ⟨fun _ => rfl, fun _ => id⟩ apart_afterShifts {} rfl
  case bumpingHead desired tailPage wonCas =>
    cases hstep
    exact hplain ⟨fun _ => rfl, fun _ => id⟩ apart_afterShifts {} rfl
  all_goals
    repeat' split at hstep
    all_goals
      cases hstep
      exact hplain ⟨fun _ => rfl, fun _ => id⟩ ⟨fun _ => rfl, fun _ => id⟩ {} rfl

theorem Pages.complete (h : Pages c x) {w : Write} (hw : x.issued[i]? = some w)
    (hidle : x.pc t = .idle) (hpc : y.pc t = .storing w.page w.untilAddress)
    (hsame : SameBuffer { x with issued := x.issued.eraseIdx i } y)
    (hothers : ∀ u, u ≠ t → y.pc u = x.pc u) : Pages c y := by
  obtain ⟨htail, hsafe, hallocated, hstatus, hrecords, hissued⟩ := hsame
  dsimp only at htail hsafe hallocated hstatus hrecords hissued
  have hentered := h.writes w (List.mem_of_getElem? hw)
  obtain ⟨o, f, hpage⟩ := h.entered w.page hentered
  have hwrites : ∀ p, x.writesOf p = y.writesOf p + if w.page = p then 1 else 0 := by
    intro p
    rw [writesOf_eraseIdx hw, System.writesOf, hissued]
  obtain ⟨rfl, hflight⟩ := hpage.flight.complete hothers (by rw [hpc]; rfl)
    ((hwrites w.page).trans (by rw [if_pos rfl]))
  refine h.touch (t := t) (o := o) (f := true) hentered htail hsafe hallocated
    (fun b _ => congrFun hstatus b) (fun b _ => congrFun hrecords b) hothers ?_ ?_ ?_ ?_
    ⟨hpage.handled.same hothers ?_, hflight, ?_⟩
  · intro p _
    rw [hpc, hidle]
    rfl
  · intro p hne
    rw [hpc, hidle]
    exact iff_of_false (fun heq => hne heq.symm) id
  · intro p hne
    have heq := hwrites p
    rw [if_neg (Ne.symm hne)] at heq
    exact heq.symm
  · intro v hv
    rw [hissued] at hv
    exact Or.inl (List.mem_of_mem_eraseIdx hv)
  · rw [hpc, hidle]
    rfl
  · rw [hstatus, hrecords, BelowHead, hsafe]
    exact hpage.fits

theorem Pages.next (h : Pages c x) (ho : Ordered c x) (hp : Protected c x)
    (hok : Recycles c x m) (hnext : x.next c m = some y) : Pages c y := by
  have hplain : ∀ {z : System} {t : Nat} {pc : Pc}, (x.pc t).Apart → pc.Apart →
      SameBuffer x z → z.pc = x.pc → Pages c (z.goto t pc) := by
    intro z t pc hx hy hsame hpc
    refine h.plain (t := t) { hsame with } (fun u hu => ?_) (fun p => ?_) fun p => ?_
    · rw [goto_pc_of_ne hu, hpc]
    · rw [goto_pc_self, hx.1, hy.1]
    · rw [goto_pc_self]
      exact iff_of_false (hy.2 p) (hx.2 p)
  have hidle : ∀ {t}, x.pc t = .idle → (x.pc t).Apart := by
    intro t hpc
    rw [hpc]
    exact ⟨fun _ => rfl, fun _ => id⟩
  cases m with
  | run t => exact h.step ho hp hok hnext
  | allocate t numSlots =>
      simp only [System.next] at hnext
      split at hnext
      · rename_i hguard
        split at hnext <;> cases hnext
        · exact hplain (hidle hguard.2.1) ⟨fun _ => rfl, fun _ => id⟩ {} rfl
        · exact hplain (hidle hguard.2.1) ⟨fun _ => rfl, fun _ => id⟩ {} rfl
      · cases hnext
  | newPage t =>
      simp only [System.next] at hnext
      split at hnext <;> cases hnext
      rename_i hfull
      refine hplain ?_ ⟨fun _ => rfl, fun _ => id⟩ {} rfl
      rw [hfull]
      exact ⟨fun _ => rfl, fun _ => id⟩
  | shiftReadOnlyToTail t =>
      simp only [System.next] at hnext
      split at hnext <;> cases hnext
      rename_i hguard
      exact hplain (hidle hguard.2) ⟨fun _ => rfl, fun _ => id⟩ {} rfl
  | refresh t =>
      simp only [System.next] at hnext
      split at hnext
      · split at hnext <;> cases hnext
        exact h.plain (t := t) {} (fun _ _ => rfl) (fun _ => rfl)
          fun _ => Iff.rfl
      · split at hnext <;> cases hnext
        exact h.plain (t := t) {} (fun _ _ => rfl) (fun _ => rfl)
          fun _ => Iff.rfl
      · cases hnext
  | unprotect t =>
      simp only [System.next] at hnext
      split at hnext <;> cases hnext
      exact h.plain (t := t) {} (fun _ _ => rfl) (fun _ => rfl)
        fun _ => Iff.rfl
  | drain t i =>
      simp only [System.next] at hnext
      split at hnext
      · rename_i action haction
        split at hnext <;> cases hnext
        rename_i hguard
        refine hplain (hidle hguard.2.1) ?_ {} rfl
        cases action.callback <;> exact ⟨fun _ => rfl, fun _ => id⟩
      · cases hnext
  | complete t i =>
      simp only [System.next] at hnext
      split at hnext
      · rename_i write hwrite
        split at hnext <;> cases hnext
        rename_i hguard
        exact h.complete hwrite hguard.2 goto_pc_self {} fun u hu => goto_pc_of_ne hu
      · cases hnext

theorem pages_start : Pages c System.start where
  entered := by
    intro p hp
    have hzero : p = 0 := Nat.le_zero.mp hp.1
    have hslot : c.slot p = 0 := by
      rw [hzero]
      exact Nat.zero_mod _
    refine ⟨none, false, fun _ => rfl, ⟨fun _ => id, rfl⟩, ?_⟩
    rw [hslot]
    exact ⟨by simp [System.start], Or.inl ⟨Nat.not_lt_zero p, rfl⟩⟩
  handles := fun t p hne => absurd rfl hne
  flies := fun t p hf => hf.elim
  writes := by
    rintro w ⟨⟩
  allocated := by
    intro b _ hle
    rw [Nat.le_zero.mp hle]
    rfl
  fresh := by
    intro b _ hlt
    by_cases hb : b < 2
    · exact Or.inl ⟨decide_eq_true hb, if_pos hb, rfl⟩
    · refine Or.inr ⟨decide_eq_false hb, ?_⟩
      exact congrArg FlushCloseStatus.close (if_neg hb)

end Steps

section Recycling

def Pc.Clears (p : Nat) : Pc → Prop
  | .clearing idx _ => idx = p
  | .wiping page => page = p
  | _ => False

/-- A step of the allocator.  A page is cleared when none of its writes is under
way any more, and before the tail is in the page that reuses the buffer; and the
tail enters no page of which the buffer is not empty. -/
structure RecycledSafely (c : Config) (x : System) (m : Move) (y : System) : Prop where
  written : ∀ t p, m = .run t → (x.pc t).Clears p →
    (∀ w ∈ x.issued, w.page ≠ p) ∧ ∀ u, ¬ (x.pc u).Flies p
  unused : ∀ t p, m = .run t → (x.pc t).Clears p → x.tailPage < p + c.bufferSize
  empty : y.tailPage ≠ x.tailPage →
    y.tailPage = x.tailPage + 1 ∧ y.records (c.slot y.tailPage) = []

theorem stage_of_clears (h : pc.Clears p) : pc.stage p = some .marked := by
  cases pc
  case clearing | wiping => exact if_pos (Eq.symm h)
  all_goals exact h.elim

theorem Pages.landed (h : Pages c x) (hs : (x.pc t).stage p = some .marked) :
    (∀ w ∈ x.issued, w.page ≠ p) ∧ ∀ u, ¬ (x.pc u).Flies p := by
  obtain ⟨o, f, hpage⟩ := h.entered p (h.handles t p (by rw [hs]; nofun))
  have ho := hpage.handled.eq hs
  subst ho
  obtain ⟨hflush, -, hstatus⟩ := hpage.fits
  have hf : f = false := by
    rw [Bool.eq_false_iff]
    intro hf
    have hprogress := hflush.mpr hf
    rw [hstatus] at hprogress
    cases hprogress
  subst hf
  exact ⟨writesOf_eq_zero_iff.mp hpage.flight.2, hpage.flight.1⟩

theorem exchanging_of_tailPage (hnext : x.next c m = some y) (hne : y.tailPage ≠ x.tailPage) :
    ∃ t oldPage expectedOffset, m = .run t ∧ x.pc t = .exchanging oldPage expectedOffset := by
  cases m with
  | run t =>
      simp only [System.next, System.step] at hnext
      cases hpc : x.pc t <;> simp only [hpc] at hnext
      case exchanging oldPage expectedOffset => exact ⟨t, oldPage, expectedOffset, rfl, hpc⟩
      case idle | full => cases hnext
      all_goals
        repeat' split at hnext
        all_goals
          cases hnext
          exact absurd rfl hne
  | allocate | newPage | shiftReadOnlyToTail | refresh | unprotect | drain | complete =>
      simp only [System.next] at hnext
      repeat' split at hnext
      all_goals
        cases hnext
        try exact absurd rfl hne

theorem recycledSafely_of_recycles
    (hreach : Reaches (System.next c) (fun s m => Recycles c s m ∧ ZeroLeft s m) System.start x)
    (hok : Recycles c x m) (hnext : x.next c m = some y) : RecycledSafely c x m y := by
  obtain ⟨ho, hp, hpages⟩ := hreach.invariant
    (I := fun s => Ordered c s ∧ Protected c s ∧ Pages c s)
    ⟨ordered_start, protected_start, pages_start⟩ fun s m s' hs hok hnext =>
      ⟨hs.1.next hnext, hs.2.1.next hs.1 hok.2 hnext, hs.2.2.next hs.1 hs.2.1 hok.1 hnext⟩
  constructor
  · intro t p _ hclears
    exact hpages.landed (stage_of_clears hclears)
  · intro t p _ hclears
    exact (hpages.handles t p (by rw [stage_of_clears hclears]; nofun)).2
  · intro hne
    obtain ⟨t, oldPage, expectedOffset, rfl, hpc⟩ := exchanging_of_tailPage hnext hne
    have hbounded := ho.threads t
    have hcondition : (x.pc t).Recycles c x := hok
    rw [hpc] at hbounded hcondition
    simp only [System.next, System.step, hpc] at hnext
    split at hnext
    · rename_i htail
      obtain ⟨rfl, rfl⟩ := htail
      obtain ⟨hready, hclosed⟩ := hcondition rfl rfl
      cases hnext
      refine ⟨rfl, (hpages.empty_of_ready hbounded.2 hready fun hround u hu => ?_).1⟩
      by_cases hidle : x.pc u = .idle
      · rw [hidle] at hu
        exact hu
      · exact hclosed hround u (hp.active u hidle).1 hu
    · split at hnext <;> cases hnext <;> exact absurd rfl hne

end Recycling

section Run

/-- The tail gets to page 5, and a thread that closes the first two pages has
published the safe head address. -/
def twoClosingRun : List Move :=
  twoWritesRun ++ [.complete 1 0] ++ steps 1 6 ++ [.complete 1 0] ++ steps 1 6 ++
    fillPage 0 ++ [.newPage 0] ++ steps 0 6 ++ [.refresh 0, .refresh 1, .drain 1 1] ++ steps 1 1

def turnPage : List Move :=
  openPage 0 8 ++ fillPage 0 ++ [.newPage 0] ++ steps 0 3

/-- The pages are cleared before the tail goes on. -/
theorem recycledSafely_turnPage : ∃ x y,
    runActions (System.next sixPages) System.start (twoClosingRun ++ steps 1 7 ++ turnPage) =
      some x ∧
    x.next sixPages (.run 0) = some y ∧ y.tailPage = 6 ∧
    RecycledSafely sixPages x (.run 0) y := by
  have hview : (runActions (System.next sixPages) System.start
      (twoClosingRun ++ steps 1 7 ++ turnPage)).map (fun x =>
        (decide (Recycles sixPages x (.run 0)),
          (x.next sixPages (.run 0)).map System.tailPage)) = some (true, some 6) := by
    decide +kernel
  obtain ⟨x, hx, hx'⟩ := Option.map_eq_some_iff.mp hview
  simp only [Prod.mk.injEq, decide_eq_true_eq] at hx'
  obtain ⟨hok, hnext⟩ := hx'
  obtain ⟨y, hy, htail⟩ := Option.map_eq_some_iff.mp hnext
  have hadmits : Admits (System.next sixPages)
      (fun s m => Recycles sixPages s m ∧ ZeroLeft s m) System.start
      (twoClosingRun ++ steps 1 7 ++ turnPage) := by
    decide +kernel
  exact ⟨x, y, hx, hy, htail,
    recycledSafely_of_recycles (reaches_of_runActions hadmits hx) hok hy⟩

/-- The tail goes on while the pages are still to be cleared. -/
theorem entered_before_cleared :
    ¬ ∀ x m y, Reaches (System.next sixPages) (fun _ _ => True) System.start x →
      x.next sixPages m = some y → RecycledSafely sixPages x m y := by
  intro hall
  have hview : (runActions (System.next sixPages) System.start (twoClosingRun ++ turnPage)).map
      (fun x => (x.tailPage, (x.next sixPages (.run 0)).map fun y =>
        (y.tailPage, y.records (sixPages.slot y.tailPage)))) = some (5, some (6, [64])) := by
    decide +kernel
  obtain ⟨x, hx, hx'⟩ := Option.map_eq_some_iff.mp hview
  simp only [Prod.mk.injEq] at hx'
  obtain ⟨htail, hnext⟩ := hx'
  obtain ⟨y, hy, hy'⟩ := Option.map_eq_some_iff.mp hnext
  simp only [Prod.mk.injEq] at hy'
  have hreach := reaches_of_runActions (admits_of_forall fun _ _ _ => trivial) hx
  have hempty := ((hall x (.run 0) y hreach hy).empty (by rw [hy'.1, htail]; decide)).2
  rw [hy'.2] at hempty
  cases hempty

end Run

end HashComp.Hlog
