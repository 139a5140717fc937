import HashComp.Hlog.Addresses
import HashComp.Library.EpochGuard

namespace HashComp.Hlog

open HashComp.EpochGuard
open HashComp.Faster
open HashComp.Runs

variable {c : Config} {x y : System} {t u i p : Nat} {pc : Pc} {m : Move}

def Pc.pin : Pc → Option Nat
  | .holding address | .recording address => some (pageOf address)
  | .flushing page _ _ | .resetting page _ _ | .issuing page _ _ => some page
  | .walking start _ _ _ => some start
  | _ => none

def Callback.Closes (page : Nat) : Callback → Prop
  | .onPagesClosed newSafeHeadAddress => page < pageOf newSafeHeadAddress
  | .onPagesMarkedReadOnly _ => False

structure Protected (c : Config) (x : System) : Prop where
  positive : 0 < x.currentEpoch
  active : ∀ t, x.pc t ≠ .idle → x.Inside c t
  guarded : Guarded (fun a p => Callback.Closes p a) (fun t => x.localEpoch (c.thread t))
    x.currentEpoch (fun e a => ⟨e, a⟩ ∈ x.actions) (fun t => (x.pc t).pin)
  moving : ∀ t p u address, (x.pc t).pin = some p → x.pc u = .movingSafeHead address →
    pageOf address ≤ p
  safe : ∀ t p, (x.pc t).pin = some p → pageOf x.safeHeadAddress ≤ p

def EpochAction.ZeroLeft (x : System) (action : EpochAction) : Prop :=
  match action.callback with
  | .onPagesClosed _ => x.localEpoch 0 = 0 ∨ action.epoch < x.localEpoch 0
  | .onPagesMarkedReadOnly _ => True

instance (x : System) (action : EpochAction) : Decidable (action.ZeroLeft x) := by
  unfold EpochAction.ZeroLeft
  split <;> infer_instance

/-- When pages are closed, thread id 0 has left the epoch in which the head was shifted. -/
def ZeroLeft (x : System) : Move → Prop
  | .drain _ i => ∀ action ∈ x.actions[i]?, action.ZeroLeft x
  | _ => True

instance decidableZeroLeft : (m : Move) → Decidable (ZeroLeft x m)
  | .drain _ i => inferInstanceAs (Decidable (∀ action ∈ x.actions[i]?, _))
  | .allocate _ _ | .newPage _ | .shiftReadOnlyToTail _ | .refresh _ | .unprotect _
  | .complete _ _ | .run _ => .isTrue trivial

theorem Config.thread_eq (ht : t < c.numThreads) : c.thread t = t :=
  Nat.mod_eq_of_lt ht

theorem inside_of_lt (ht : t < c.numThreads) (hlocal : x.localEpoch t ≠ 0) : x.Inside c t :=
  ⟨Nat.lt_of_lt_of_le ht c.numThreads_le, by rwa [Config.thread_eq ht]⟩

theorem SafeToReclaim.all {epoch : Nat} (h : x.SafeToReclaim c epoch)
    (hzero : x.localEpoch 0 = 0 ∨ epoch < x.localEpoch 0) (u : Nat) :
    x.localEpoch (c.thread u) = 0 ∨ epoch < x.localEpoch (c.thread u) := by
  by_cases hu : c.thread u = 0
  · rwa [hu]
  · exact h (c.thread u) (Nat.mod_lt u c.numThreads_pos) hu

theorem pin_goto : (fun u => ((x.goto t pc).pc u).pin) =
    Function.update (fun u => (x.pc u).pin) t pc.pin := by
  funext u
  by_cases hu : u = t
  · subst u
    rw [goto_pc_self, Function.update_self]
  · rw [goto_pc_of_ne hu, Function.update_of_ne hu]

theorem Ordered.head_page_le (h : Ordered c x) :
    pageOf x.headAddress ≤ pageOf x.flushedUntilAddress := by
  rcases Nat.le_total kCacheLineBytes x.flushedUntilAddress with hle | hle
  · refine pageOf_le_of_le (Nat.le_trans h.head_le ?_)
    rw [Nat.max_eq_right hle]
  · have hhead := h.head_le
    rw [Nat.max_eq_left hle] at hhead
    exact Nat.le_trans (pageOf_le_of_le hhead) (Nat.zero_le _)

theorem Ordered.flushed_page_le (h : Ordered c x) :
    pageOf x.flushedUntilAddress ≤ x.tailPage :=
  Nat.le_trans (pageOf_le_of_le (Nat.le_trans h.flushed_le h.safe_le)) h.readOnly_le

section Updates

/-- A thread goes on relying on its page, or on a later one, or begins to rely on
a page that is not below the head. -/
theorem Protected.goto (h : Protected c x) (ho : Ordered c x)
    (hactive : pc = .idle ∨ x.Inside c t)
    (hpin : ∀ p, pc.pin = some p → (∃ q, (x.pc t).pin = some q ∧ q ≤ p) ∨
      pageOf x.headAddress ≤ p)
    (hmoving : ∀ address, pc = .movingSafeHead address → ∀ u p, (x.pc u).pin = some p →
      pageOf address ≤ p) : Protected c (x.goto t pc) := by
  have hold : ∀ u p, u ≠ t → ((x.goto t pc).pc u).pin = some p → (x.pc u).pin = some p := by
    intro u p hu hp
    rw [goto_pc_of_ne hu] at hp
    exact hp
  -- what the thread relies on itself
  have hbelow : ∀ p, pc.pin = some p → ∀ a, (∀ q, (x.pc t).pin = some q → a ≤ q) →
      a ≤ pageOf x.headAddress → a ≤ p := by
    intro p hp a hall hhead
    rcases hpin p hp with ⟨q, hq, hle⟩ | hle
    · exact Nat.le_trans (hall q hq) hle
    · exact Nat.le_trans hhead hle
  constructor
  · exact h.positive
  · intro u hu
    by_cases hut : u = t
    · subst u
      rw [goto_pc_self] at hu
      exact hactive.resolve_left hu
    · rw [goto_pc_of_ne hut] at hu
      exact h.active u hu
  · rw [pin_goto]
    cases hpc : pc.pin with
    | none =>
        refine h.guarded.mono (fun _ _ => id) fun u p hp => ?_
        by_cases hut : u = t
        · subst u
          rw [Function.update_self] at hp
          cases hp
        · rw [Function.update_of_ne hut] at hp
          exact ⟨p, hp, fun _ => id⟩
    | some p =>
        have hidle : pc ≠ .idle := by
          rintro rfl
          cases hpc
        rcases hpin p hpc with ⟨q, hq, hle⟩ | hle
        · refine h.guarded.mono (fun _ _ => id) fun u p' hp' => ?_
          by_cases hut : u = t
          · subst u
            rw [Function.update_self] at hp'
            cases hp'
            refine ⟨q, hq, fun a ha => ?_⟩
            cases a
            · exact Nat.lt_of_le_of_lt hle ha
            · exact ha
          · rw [Function.update_of_ne hut] at hp'
            exact ⟨p', hp', fun _ => id⟩
        · refine h.guarded.rely (hactive.resolve_left hidle).2 fun e a ha hcloses => ?_
          have hbounded := ho.actions _ ha
          cases a
          · have hpage := pageOf_le_of_le hbounded
            exact Nat.not_lt.mpr (Nat.le_trans hpage hle) hcloses
          · exact hcloses
  · intro u p v address hp hv
    have hle : ∀ w q, (x.pc w).pin = some q → pageOf address ≤ q := by
      intro w q hq
      by_cases hvt : v = t
      · subst v
        rw [goto_pc_self] at hv
        exact hmoving address hv w q hq
      · rw [goto_pc_of_ne hvt] at hv
        exact h.moving w q v address hq hv
    by_cases hut : u = t
    · subst u
      rw [goto_pc_self] at hp
      by_cases hvt : v = t
      · subst v
        rw [goto_pc_self] at hv
        rw [hv] at hp
        cases hp
      · rw [goto_pc_of_ne hvt] at hv
        have hbounded := ho.threads v
        rw [hv] at hbounded
        exact hbelow p hp _ (hle t) (pageOf_le_of_le hbounded)
    · exact hle u p (hold u p hut hp)
  · intro u p hp
    by_cases hut : u = t
    · subst u
      rw [goto_pc_self] at hp
      exact hbelow p hp _ (h.safe t) (pageOf_le_of_le ho.safeHead_le)
    · exact h.safe u p (hold u p hut hp)

theorem Protected.congr (h : Protected c x) (hepoch : y.currentEpoch = x.currentEpoch)
    (hlocal : y.localEpoch = x.localEpoch) (hactions : ∀ a ∈ y.actions, a ∈ x.actions)
    (hsafe : y.safeHeadAddress = x.safeHeadAddress) (hpc : y.pc = x.pc) : Protected c y where
  positive := hepoch ▸ h.positive
  active := by
    intro t ht
    rw [hpc] at ht
    rw [System.Inside, hlocal]
    exact h.active t ht
  guarded := by
    rw [hepoch, hlocal, hpc]
    exact h.guarded.mono (fun e a => hactions ⟨e, a⟩) fun t p hp => ⟨p, hp, fun _ => id⟩
  moving := by
    rw [hpc]
    exact h.moving
  safe := by
    rw [hpc, hsafe]
    exact h.safe

theorem Protected.bump (h : Protected c x) (callback : Callback) :
    Protected c (x.bump callback) where
  positive := Nat.succ_pos _
  active := h.active
  guarded := h.guarded.bump fun e a ha => by
    refine (List.mem_append.mp ha).imp id fun ha => ?_
    exact congrArg EpochAction.epoch (List.mem_singleton.mp ha)
  moving := h.moving
  safe := h.safe

end Updates

section Steps

theorem pin_afterShifts {tailPage : Nat} {wonCas : Bool} :
    (afterShifts tailPage wonCas).pin = none := by
  cases wonCas <;> rfl

theorem afterShifts_ne {tailPage address : Nat} {wonCas : Bool} :
    afterShifts tailPage wonCas ≠ .movingSafeHead address := by
  cases wonCas <;> nofun

theorem Protected.step (h : Protected c x) (ho : Ordered c x) (hstep : x.step c t = some y) :
    Protected c y := by
  have hact : x.Inside c t := by
    refine h.active t fun hidle => ?_
    rw [System.step, hidle] at hstep
    cases hstep
  -- a step to a place where the thread relies on nothing
  have hplain : ∀ {z : System} {pc : Pc}, z.currentEpoch = x.currentEpoch →
      z.localEpoch = x.localEpoch → z.actions = x.actions →
      z.safeHeadAddress = x.safeHeadAddress → z.pc = x.pc → pc.pin = none →
      (∀ address, pc ≠ .movingSafeHead address) → Protected c (z.goto t pc) := by
    intro z pc hepoch hlocal hactions hsafe hpc hnone hmoving
    have hgoto : Protected c (x.goto t pc) := by
      refine h.goto ho (Or.inr hact) ?_ fun address heq => absurd heq (hmoving address)
      intro p hp
      rw [hnone] at hp
      cases hp
    refine hgoto.congr hepoch hlocal (fun a ha => ?_) hsafe ?_
    · have hz : a ∈ z.actions := ha
      rw [hactions] at hz
      exact hz
    · rw [System.goto, System.goto, hpc]
  -- one where it goes on relying on its page, or on a later one
  have hkeep : ∀ {z : System} {pc : Pc} {p q : Nat}, z.currentEpoch = x.currentEpoch →
      z.localEpoch = x.localEpoch → z.actions = x.actions →
      z.safeHeadAddress = x.safeHeadAddress → z.pc = x.pc → pc.pin = some p →
      (x.pc t).pin = some q ∧ q ≤ p ∨ pageOf x.headAddress ≤ p → Protected c (z.goto t pc) := by
    intro z pc p q hepoch hlocal hactions hsafe hpc hsome hpin
    have hgoto : Protected c (x.goto t pc) := by
      refine h.goto ho (Or.inr hact) ?_ fun address heq => ?_
      · intro p' hp'
        rw [hsome] at hp'
        cases hp'
        exact hpin.imp_left fun hq => ⟨q, hq⟩
      · rw [heq] at hsome
        cases hsome
    refine hgoto.congr hepoch hlocal (fun a ha => ?_) hsafe ?_
    · have hz : a ∈ z.actions := ha
      rw [hactions] at hz
      exact hz
    · rw [System.goto, System.goto, hpc]
  unfold System.step at hstep
  cases hpc : x.pc t <;> simp only [hpc] at hstep <;> rw [hpc] at hkeep
  case idle | full => cases hstep
  case holding address =>
    split at hstep <;> cases hstep
    · exact hplain rfl rfl rfl rfl rfl rfl nofun
    · exact hkeep rfl rfl rfl rfl rfl rfl (Or.inl ⟨rfl, le_rfl⟩)
  case bumpingReadOnly desired tailPage wonCas =>
    cases hstep
    have hz : Protected c (x.goto t (.shiftingHead tailPage wonCas)) :=
      hplain rfl rfl rfl rfl rfl rfl nofun
    exact hz.bump (.onPagesMarkedReadOnly desired)
  case bumpingHead desired tailPage wonCas =>
    cases hstep
    have hz : Protected c (x.goto t (afterShifts tailPage wonCas)) :=
      hplain rfl rfl rfl rfl rfl pin_afterShifts fun _ => afterShifts_ne
    exact hz.bump (.onPagesClosed desired)
  case bumpingToTail address =>
    cases hstep
    have hz : Protected c (x.goto t .idle) := hplain rfl rfl rfl rfl rfl rfl nofun
    exact hz.bump (.onPagesMarkedReadOnly address)
  case shiftingHead tailPage wonCas =>
    split at hstep <;> cases hstep
    · exact hplain rfl rfl rfl rfl rfl pin_afterShifts fun _ => afterShifts_ne
    · exact hplain rfl rfl rfl rfl rfl rfl nofun
  case updatingHead desired tailPage wonCas =>
    split at hstep <;> cases hstep
    · exact hplain rfl rfl rfl rfl rfl rfl nofun
    · exact hplain rfl rfl rfl rfl rfl pin_afterShifts fun _ => afterShifts_ne
  case markingReadOnly address =>
    split at hstep <;> cases hstep
    · refine hkeep (q := 0) rfl rfl rfl rfl rfl rfl (Or.inr ?_)
      exact Nat.le_trans ho.head_page_le (pageOf_le_of_le ho.flushed_le)
    · exact hplain rfl rfl rfl rfl rfl rfl nofun
  case flushing page stop untilAddress =>
    split at hstep <;> cases hstep
    · exact hkeep rfl rfl rfl rfl rfl rfl (Or.inl ⟨rfl, le_rfl⟩)
    · exact hplain rfl rfl rfl rfl rfl rfl nofun
  case resetting page stop untilAddress =>
    cases hstep
    exact hkeep rfl rfl rfl rfl rfl rfl (Or.inl ⟨rfl, le_rfl⟩)
  case issuing page stop untilAddress =>
    cases hstep
    exact hkeep rfl rfl rfl rfl rfl rfl (Or.inl ⟨rfl, Nat.le_succ page⟩)
  case movingSafeHead address =>
    split at hstep <;> cases hstep
    · have hz : Protected c (x.goto t (.closing (pageOf x.safeHeadAddress) (pageOf address))) :=
        hplain rfl rfl rfl rfl rfl rfl nofun
      refine ⟨hz.positive, hz.active, hz.guarded, hz.moving, fun u p hp => ?_⟩
      by_cases hu : u = t
      · subst u
        rw [goto_pc_self] at hp
        cases hp
      · rw [goto_pc_of_ne hu] at hp
        exact h.moving u p t address hp hpc
    · exact hplain rfl rfl rfl rfl rfl rfl nofun
  case loading =>
    cases hstep
    exact hkeep (q := 0) rfl rfl rfl rfl rfl rfl (Or.inr ho.head_page_le)
  case walking start page current update =>
    split at hstep
    · cases hstep
      exact hkeep rfl rfl rfl rfl rfl rfl (Or.inl ⟨rfl, le_rfl⟩)
    · split at hstep <;> cases hstep <;> exact hplain rfl rfl rfl rfl rfl rfl nofun
  -- the other places are not relied on anything in
  all_goals
    repeat' split at hstep
    all_goals
      cases hstep
      exact hplain rfl rfl rfl rfl rfl rfl nofun

/-- A thread of which every frame relies on nothing enters another epoch, or leaves. -/
theorem Protected.enter (h : Protected c x) {e : Nat} (ht : t < c.numThreads)
    (halone : x.Alone c t) (hnone : (x.pc t).pin = none) (hle : e ≤ x.currentEpoch)
    (hactive : x.pc t ≠ .idle → e ≠ 0) :
    Protected c { x with localEpoch := Function.update x.localEpoch t e } := by
  have hothers : ∀ u, x.pc u ≠ .idle → u ≠ t → c.thread u ≠ t := by
    intro u hu hne heq
    exact hu (halone u (h.active u hu).1 heq hne)
  refine ⟨h.positive, fun u hu => ?_, h.guarded.enter (fun u => ?_) fun u p hp => ?_, h.moving,
    h.safe⟩
  · refine ⟨(h.active u hu).1, ?_⟩
    change Function.update x.localEpoch t e (c.thread u) ≠ 0
    by_cases hut : u = t
    · subst u
      rw [Config.thread_eq ht, Function.update_self]
      exact hactive hu
    · rw [Function.update_of_ne (hothers u hu hut)]
      exact (h.active u hu).2
  · change Function.update x.localEpoch t e (c.thread u) ≤ x.currentEpoch
    by_cases hut : c.thread u = t
    · rw [hut, Function.update_self]
      exact hle
    · rw [Function.update_of_ne hut]
      exact h.guarded.entered u
  · have hne : u ≠ t := by
      rintro rfl
      rw [hnone] at hp
      cases hp
    refine Function.update_of_ne (hothers u (fun hidle => ?_) hne) e x.localEpoch
    rw [hidle] at hp
    cases hp

theorem Protected.next (h : Protected c x) (ho : Ordered c x) (hzero : ZeroLeft x m)
    (hnext : x.next c m = some y) : Protected c y := by
  cases m with
  | run t => exact h.step ho hnext
  | allocate t numSlots =>
      simp only [System.next] at hnext
      split at hnext
      · rename_i hguard
        obtain ⟨ht, hidle, hlocal, hpos, -⟩ := hguard
        split at hnext <;> cases hnext
        · have hgoto : Protected c (x.goto t (.full x.tailPage)) :=
            h.goto ho (Or.inr (inside_of_lt ht hlocal)) (by rintro _ ⟨⟩) (by rintro _ ⟨⟩)
          exact hgoto.congr rfl rfl (fun _ => id) rfl rfl
        · rename_i hfits
          have hpage : pageOf (pageStart x.tailPage + x.tailOffset) = x.tailPage :=
            pageOf_add (by omega)
          have hgoto : Protected c
              (x.goto t (.holding (pageStart x.tailPage + x.tailOffset))) := by
            refine h.goto ho (Or.inr (inside_of_lt ht hlocal)) (fun p hp => Or.inr ?_)
              (by rintro _ ⟨⟩)
            have heq : pageOf (pageStart x.tailPage + x.tailOffset) = p := Option.some.inj hp
            rw [← heq, hpage]
            exact Nat.le_trans ho.head_page_le ho.flushed_page_le
          exact hgoto.congr rfl rfl (fun _ => id) rfl rfl
      · cases hnext
  | newPage t =>
      simp only [System.next] at hnext
      split at hnext <;> cases hnext
      rename_i hfull
      refine h.goto ho (Or.inr (h.active t ?_)) (by rintro _ ⟨⟩) (by rintro _ ⟨⟩)
      rw [hfull]
      rintro ⟨⟩
  | shiftReadOnlyToTail t =>
      simp only [System.next] at hnext
      split at hnext <;> cases hnext
      rename_i hguard
      exact h.goto ho (Or.inr hguard.1) (by rintro _ ⟨⟩) (by rintro _ ⟨⟩)
  | refresh t =>
      simp only [System.next] at hnext
      split at hnext
      · rename_i hidle
        split at hnext <;> cases hnext
        rename_i hguard
        refine h.enter hguard.1 hguard.2 ?_ le_rfl fun _ => Nat.pos_iff_ne_zero.mp h.positive
        rw [hidle]
        rfl
      · rename_i hfull
        split at hnext <;> cases hnext
        rename_i hguard
        refine h.enter hguard.1 hguard.2 ?_ le_rfl fun _ => Nat.pos_iff_ne_zero.mp h.positive
        rw [hfull]
        rfl
      · cases hnext
  | unprotect t =>
      simp only [System.next] at hnext
      split at hnext <;> cases hnext
      rename_i hguard
      obtain ⟨ht, hidle, halone⟩ := hguard
      refine h.enter ht halone ?_ (Nat.zero_le _) fun hne => absurd hidle hne
      rw [hidle]
      rfl
  | drain t i =>
      simp only [System.next] at hnext
      split at hnext
      · rename_i action haction
        split at hnext <;> cases hnext
        rename_i hguard
        obtain ⟨hinside, -, hsafe⟩ := hguard
        have hmem := List.mem_of_getElem? haction
        have hgoto : Protected c (x.goto t action.callback.start) := by
          refine h.goto ho (Or.inr hinside) (fun p hp => ?_) fun address heq u p hp => ?_
          · cases hcallback : action.callback <;> rw [hcallback] at hp <;> cases hp
          · have hcallback : action.callback = .onPagesClosed address := by
              cases hcallback : action.callback <;> rw [hcallback] at heq <;> cases heq
              rfl
            have hleft : x.localEpoch 0 = 0 ∨ action.epoch < x.localEpoch 0 := by
              have hzero := hzero action haction
              rwa [EpochAction.ZeroLeft, hcallback] at hzero
            have hnot := h.guarded.not_breaks hp hmem (SafeToReclaim.all hsafe hleft u)
            rw [hcallback] at hnot
            exact Nat.not_lt.mp hnot
        exact hgoto.congr rfl rfl (fun a ha => List.mem_of_mem_eraseIdx ha) rfl rfl
      · cases hnext
  | complete t i =>
      simp only [System.next] at hnext
      split at hnext
      · rename_i write _
        split at hnext <;> cases hnext
        rename_i hguard
        have hgoto : Protected c (x.goto t (.storing write.page write.untilAddress)) :=
          h.goto ho (Or.inr hguard.1) (by rintro _ ⟨⟩) (by rintro _ ⟨⟩)
        exact hgoto.congr rfl rfl (fun _ => id) rfl rfl
      · cases hnext

theorem protected_start : Protected c System.start where
  positive := Nat.one_pos
  active := fun _ ht => absurd rfl ht
  guarded := ⟨fun _ => Nat.zero_le _, nofun, nofun⟩
  moving := nofun
  safe := nofun

end Steps

end HashComp.Hlog
