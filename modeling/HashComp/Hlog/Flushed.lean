import HashComp.Hlog.Epochs

namespace HashComp.Hlog

open HashComp.Faster
open HashComp.Runs

variable {c : Config} {x y : System} {t u p : Nat} {pc : Pc} {m : Move}

def Covered (x : System) (address : Nat) : Prop :=
  ∃ w ∈ x.completed, pageStart w.page ≤ address ∧ address < w.untilAddress

/-- Where the loop of `ShiftFlushedUntilAddress` goes on, it has read an address,
and it comes from the end of the page before. -/
def Pc.Contiguous (c : Config) (x : System) : Pc → Prop
  | .walking _ page current _ =>
      current ≤ x.lastFlushed (c.slot page) →
        x.lastFlushed (c.slot page) ≠ 0 ∧ pageStart page ≤ current
  | _ => True

instance decidablePcContiguous : (pc : Pc) → Decidable (pc.Contiguous c x)
  | .walking _ _ _ _ => inferInstanceAs (Decidable (_ → _ ≠ _ ∧ _ ≤ _))
  | .idle | .holding _ | .recording _ | .full _ | .checking _ | .testing _ | .moving _
  | .exchanging _ _ | .shiftingReadOnly _ _ | .bumpingReadOnly _ _ _ | .shiftingHead _ _
  | .updatingHead _ _ _ | .bumpingHead _ _ _ | .allocating _ | .updatingToTail _
  | .bumpingToTail _ | .markingReadOnly _ | .flushing _ _ _ | .resetting _ _ _
  | .issuing _ _ _ | .movingSafeHead _ | .closing _ _ | .clearing _ _ | .reopening _ _
  | .storing _ _ | .settling _ | .wiping _ | .opening _ | .loading | .publishing _ => .isTrue trivial

def Contiguous (c : Config) (x : System) : Move → Prop
  | .run t => (x.pc t).Contiguous c x
  | _ => True

instance decidableContiguous : (m : Move) → Decidable (Contiguous c x m)
  | .run t => decidablePcContiguous (x.pc t)
  | .allocate _ _ | .newPage _ | .shiftReadOnlyToTail _ | .refresh _ | .unprotect _
  | .drain _ _ | .complete _ _ => .isTrue trivial

def Pc.Walked (x : System) : Pc → Prop
  | .walking start page current _ =>
      start ≤ page ∧ page ≤ x.tailPage + 1 ∧ ∀ a < current, Covered x a
  | .publishing current => ∀ a < current, Covered x a
  | _ => True

structure Flushed (x : System) : Prop where
  below : ∀ a < x.flushedUntilAddress, Covered x a
  threads : ∀ t, (x.pc t).Walked x

theorem Covered.mono {a : Nat} (h : Covered x a) (hg : ∀ w ∈ x.completed, w ∈ y.completed) :
    Covered y a := by
  obtain ⟨w, hw, hrest⟩ := h
  exact ⟨w, hg w hw, hrest⟩

theorem Pc.Walked.mono (h : pc.Walked x) (htail : x.tailPage ≤ y.tailPage)
    (hg : ∀ w ∈ x.completed, w ∈ y.completed) : pc.Walked y := by
  cases pc
  case walking start page current update =>
    obtain ⟨hstart, hpage, hcovered⟩ := h
    refine ⟨hstart, ?_, fun a ha => (hcovered a ha).mono hg⟩
    exact Nat.le_trans hpage (Nat.succ_le_succ htail)
  case publishing current => exact fun a ha => (h a ha).mono hg
  all_goals trivial

theorem Config.eq_of_slot {q : Nat} (h : c.slot p = c.slot q) (hle : p ≤ q)
    (hlt : q < p + c.bufferSize) : p = q := by
  have hdvd : c.bufferSize ∣ q - p := Nat.dvd_of_mod_eq_zero (Nat.sub_mod_eq_zero_of_mod_eq h.symm)
  have hzero := Nat.eq_zero_of_dvd_of_lt hdvd (by omega)
  omega

theorem Ordered.write_page_le (h : Ordered c x) {w : Write} (hw : w ∈ x.issued ∨ w ∈ x.completed) :
    w.page ≤ x.tailPage := by
  obtain ⟨hstart, -, hsafe⟩ := h.writes w hw
  have hle : pageStart w.page ≤ x.readOnlyAddress :=
    Nat.le_trans (Nat.le_of_lt hstart) (Nat.le_trans hsafe h.safe_le)
  exact Nat.le_trans (le_pageOf_iff.mpr hle) h.readOnly_le

theorem Flushed.round {start page current : Nat} {update : Bool} (h : Flushed x)
    (ho : Ordered c x) (hp : Protected c x) (hpc : x.pc t = .walking start page current update)
    (hle : current ≤ x.lastFlushed (c.slot page)) (hne : x.lastFlushed (c.slot page) ≠ 0)
    (hstart : pageStart page ≤ current) : page ≤ x.tailPage ∧
      ∀ a < x.lastFlushed (c.slot page), Covered x a := by
  have ht := h.threads t
  rw [hpc] at ht
  obtain ⟨hbegan, -, hcovered⟩ := ht
  obtain ⟨w, hw, hslot, huntil⟩ := (ho.lastFlushed (c.slot page)).resolve_left hne
  have hpin : pageOf x.safeHeadAddress ≤ start := hp.safe t start (by rw [hpc]; rfl)
  have hroom := ho.room
  have htail := ho.write_page_le (Or.inr hw)
  obtain ⟨-, hend, -⟩ := ho.writes w (Or.inr hw)
  -- the write is not of an earlier page, and the buffer has no later one
  have hpage : w.page = page := by
    have hbefore : page ≤ w.page + 1 := by
      have hle' : pageStart page ≤ pageStart (w.page + 1) :=
        Nat.le_trans hstart (Nat.le_trans hle (huntil ▸ hend))
      have hmono := pageOf_le_of_le hle'
      rwa [pageOf_pageStart, pageOf_pageStart] at hmono
    have hsize := c.bufferSize_gt
    rcases Nat.lt_or_ge w.page page with hlt | hge
    · exact c.eq_of_slot hslot (Nat.le_of_lt hlt) (by omega)
    · exact (c.eq_of_slot hslot.symm hge (by omega)).symm
  rw [hpage] at htail
  refine ⟨htail, fun a ha => ?_⟩
  rcases Nat.lt_or_ge a current with hlt | hge
  · exact hcovered a hlt
  · refine ⟨w, hw, ?_, huntil ▸ ha⟩
    rw [hpage]
    exact Nat.le_trans hstart hge

/-- The tail and the flushed address only grow, and what has completed stays so. -/
theorem grows_of_next (hnext : x.next c m = some y) : x.tailPage ≤ y.tailPage ∧
    x.flushedUntilAddress ≤ y.flushedUntilAddress ∧ ∀ w ∈ x.completed, w ∈ y.completed := by
  have hsame : ∀ {z : System}, z.tailPage = x.tailPage →
      z.flushedUntilAddress = x.flushedUntilAddress → z.completed = x.completed →
      x.tailPage ≤ z.tailPage ∧ x.flushedUntilAddress ≤ z.flushedUntilAddress ∧
        ∀ w ∈ x.completed, w ∈ z.completed := by
    intro z htail hflushed hcompleted
    exact ⟨htail.ge, hflushed.ge, fun w hw => hcompleted ▸ hw⟩
  cases m with
  | run t =>
      simp only [System.next, System.step] at hnext
      cases hpc : x.pc t <;> simp only [hpc] at hnext
      case idle | full => cases hnext
      case exchanging oldPage expectedOffset =>
        split at hnext
        · rename_i htail
          cases hnext
          exact ⟨Nat.le_succ_of_le (Nat.le_of_eq htail.1), le_rfl, fun _ => id⟩
        · split at hnext <;> cases hnext <;> exact hsame rfl rfl rfl
      case publishing current =>
        cases hnext
        exact ⟨le_rfl, Nat.le_max_left .., fun _ => id⟩
      all_goals
        repeat' split at hnext
        all_goals
          cases hnext
          exact hsame rfl rfl rfl
  | complete t i =>
      simp only [System.next] at hnext
      split at hnext
      · split at hnext <;> cases hnext
        exact ⟨le_rfl, le_rfl, fun _ hw => List.mem_cons_of_mem _ hw⟩
      · cases hnext
  | allocate | newPage | shiftReadOnlyToTail | refresh | unprotect | drain =>
      simp only [System.next] at hnext
      repeat' split at hnext
      all_goals
        cases hnext
        try exact hsame rfl rfl rfl

theorem Flushed.move (h : Flushed x) (hnext : x.next c m = some y)
    (hflushed : y.flushedUntilAddress = x.flushedUntilAddress)
    (hothers : ∀ u, u ≠ t → y.pc u = x.pc u) (ht : (y.pc t).Walked x) : Flushed y := by
  obtain ⟨htail, -, hcompleted⟩ := grows_of_next hnext
  constructor
  · rw [hflushed]
    exact fun a ha => (h.below a ha).mono hcompleted
  · intro u
    by_cases hu : u = t
    · subst u
      exact ht.mono htail hcompleted
    · rw [hothers u hu]
      exact (h.threads u).mono htail hcompleted

theorem walked_afterShifts {tailPage : Nat} {wonCas : Bool} :
    (afterShifts tailPage wonCas).Walked x := by
  cases wonCas <;> trivial

theorem Flushed.step (h : Flushed x) (ho : Ordered c x) (hp : Protected c x)
    (hok : Contiguous c x (.run t)) (hstep : x.step c t = some y) : Flushed y := by
  have hnext : x.next c (.run t) = some y := hstep
  have ht := h.threads t
  have hplain : ∀ {z : System} {pc : Pc}, y = z.goto t pc → z.pc = x.pc →
      z.flushedUntilAddress = x.flushedUntilAddress → pc.Walked x → Flushed y := by
    rintro z pc rfl hpc hflushed hwalked
    refine h.move (t := t) hnext hflushed (fun u hu => ?_) ?_
    · rw [goto_pc_of_ne hu, hpc]
    · rwa [goto_pc_self]
  unfold System.step at hstep
  cases hpc : x.pc t <;> simp only [hpc] at hstep ht
  case idle | full => cases hstep
  case shiftingHead tailPage wonCas =>
    split at hstep <;> cases hstep
    · exact hplain rfl rfl rfl walked_afterShifts
    · exact hplain rfl rfl rfl trivial
  case updatingHead desired tailPage wonCas =>
    split at hstep <;> cases hstep
    · exact hplain rfl rfl rfl trivial
    · exact hplain rfl rfl rfl walked_afterShifts
  case bumpingHead desired tailPage wonCas =>
    cases hstep
    exact hplain rfl rfl rfl walked_afterShifts
  case loading =>
    cases hstep
    refine hplain rfl rfl rfl ⟨le_rfl, ?_, h.below⟩
    exact Nat.le_succ_of_le ho.flushed_page_le
  case walking start page current update =>
    split at hstep
    · rename_i hle
      cases hstep
      have hcont : x.lastFlushed (c.slot page) ≠ 0 ∧ pageStart page ≤ current := by
        change (x.pc t).Contiguous c x at hok
        rw [hpc] at hok
        exact hok hle
      obtain ⟨hpage, hcovered⟩ := h.round ho hp hpc hle hcont.1 hcont.2
      refine hplain rfl rfl rfl ⟨Nat.le_succ_of_le ht.1, Nat.succ_le_succ hpage, hcovered⟩
    · split at hstep <;> cases hstep
      · exact hplain rfl rfl rfl ht.2.2
      · exact hplain rfl rfl rfl trivial
  case publishing current =>
    obtain ⟨htail, -, hcompleted⟩ := grows_of_next hnext
    cases hstep
    constructor
    · intro a ha
      rcases lt_max_iff.mp ha with ha | ha
      · exact (h.below a ha).mono hcompleted
      · exact (ht a ha).mono hcompleted
    · intro u
      by_cases hu : u = t
      · subst u
        rw [goto_pc_self]
        trivial
      · rw [goto_pc_of_ne hu]
        exact (h.threads u).mono htail hcompleted
  all_goals
    repeat' split at hstep
    all_goals
      cases hstep
      exact hplain rfl rfl rfl trivial

theorem Flushed.next (h : Flushed x) (ho : Ordered c x) (hp : Protected c x)
    (hok : Contiguous c x m) (hnext : x.next c m = some y) : Flushed y := by
  have hplain : ∀ {z : System} {t : Nat} {pc : Pc}, y = z.goto t pc → z.pc = x.pc →
      z.flushedUntilAddress = x.flushedUntilAddress → pc.Walked x → Flushed y := by
    rintro z t pc rfl hpc hflushed hwalked
    refine h.move (t := t) hnext hflushed (fun u hu => ?_) ?_
    · rw [goto_pc_of_ne hu, hpc]
    · rwa [goto_pc_self]
  have hkeep := hnext
  cases m with
  | run t => exact h.step ho hp hok hnext
  | allocate t numSlots =>
      simp only [System.next] at hnext
      split at hnext
      · split at hnext <;> cases hnext <;> exact hplain rfl rfl rfl trivial
      · cases hnext
  | newPage t | shiftReadOnlyToTail t =>
      simp only [System.next] at hnext
      split at hnext <;> cases hnext
      exact hplain rfl rfl rfl trivial
  | refresh t =>
      have hpc : y.pc = x.pc ∧ y.flushedUntilAddress = x.flushedUntilAddress := by
        simp only [System.next] at hnext
        split at hnext
        · split at hnext <;> cases hnext
          exact ⟨rfl, rfl⟩
        · split at hnext <;> cases hnext
          exact ⟨rfl, rfl⟩
        · cases hnext
      exact h.move (t := t) hkeep hpc.2 (fun u _ => congrFun hpc.1 u) (hpc.1 ▸ h.threads t)
  | unprotect t =>
      simp only [System.next] at hnext
      split at hnext <;> cases hnext
      exact h.move (t := t) hkeep rfl (fun _ _ => rfl) (h.threads t)
  | drain t i =>
      simp only [System.next] at hnext
      split at hnext
      · rename_i action haction
        split at hnext <;> cases hnext
        refine hplain rfl rfl rfl ?_
        cases action.callback <;> trivial
      · cases hnext
  | complete t i =>
      simp only [System.next] at hnext
      split at hnext
      · split at hnext <;> cases hnext
        exact hplain rfl rfl rfl trivial
      · cases hnext

theorem flushed_start : Flushed System.start where
  below := fun a ha => absurd ha (Nat.not_lt_zero a)
  threads := fun _ => trivial

/-- `flushed_until_address` covers what has been written, and leads the head; it
never falls; and the loop ends before it has gone round the buffer. -/
structure FlushedSafely (c : Config) (x : System) : Prop where
  flushed : ∀ a < x.flushedUntilAddress, Covered x a
  head : ∀ a, kCacheLineBytes ≤ a → a < x.headAddress → Covered x a
  monotone : ∀ m y, x.next c m = some y → x.flushedUntilAddress ≤ y.flushedUntilAddress
  ends : ∀ t start page current update, x.pc t = .walking start page current update →
    page < start + c.bufferSize
  goesOn : ∀ t start page current update y, x.pc t = .walking start page current update →
    x.next c (.run t) = some y → y.pc t = .idle ∨ y.pc t = .publishing current ∨
      ∃ current', y.pc t = .walking start (page + 1) current' true

section Run

/-- Six pages, of which two are mutable, and two threads with a frame for callbacks each. -/
def sixPages : Config where
  bufferSize := 6
  numMutablePages := 2
  numThreads := 2
  numFrames := 4
  bufferSize_gt := by decide
  numMutablePages_gt := by decide
  numThreads_pos := by decide
  numThreads_le := by decide

def steps (t n : Nat) : List Move :=
  List.replicate n (.run t)

def fillPage (t : Nat) : List Move :=
  [.allocate t (kPageSize - 1)] ++ steps t 2 ++ [.allocate t (kPageSize - 1)]

/-- A thread moves the tail in `n` steps, and finds out that it has moved. -/
def openPage (t n : Nat) : List Move :=
  [.newPage t] ++ steps t n ++ [.newPage t] ++ steps t 3

def twoWritesRun : List Move :=
  [.refresh 0, .refresh 1, .allocate 0 100] ++ steps 0 2 ++
    [.allocate 0 (kPageSize - 1)] ++ openPage 0 7 ++ fillPage 0 ++ openPage 0 7 ++
    fillPage 0 ++ openPage 0 9 ++ fillPage 0 ++ openPage 0 9 ++
    [.refresh 0, .refresh 1, .drain 2 0] ++ steps 2 5 ++ [.drain 2 0] ++ steps 2 5

end Run

end HashComp.Hlog
