import HashComp.Phases.Model

namespace HashComp.Phases

open HashComp.Faster (Phase)

variable {n t u i : Nat} {x y : System} {a : Action} {v : BitVec 32}
  {f c p s : SystemState} {pc : Pc}

def Protected (x : System) (t : Nat) : Prop :=
  x.epoch t ≠ 0

instance (x : System) (t : Nat) : Decidable (Protected x t) :=
  inferInstanceAs (Decidable (_ ≠ _))

def within : Nat → SystemState → SystemState → Bool
  | 0, s, s' => s = s'
  | k + 1, s, s' =>
      s = s' ||
        match s.getNextState with
        | none => false
        | some q => within k q s'

/-- A thread gets from where it stands to the state it has loaded without
going through `REST` twice. -/
def InStep (x : System) (t : Nat) : Prop :=
  within (x.state.action.phases.idxOf x.state.phase + 2)
    ⟨x.state.action, (x.ctx t).phase, (x.ctx t).version⟩ x.state

instance (x : System) (t : Nat) : Decidable (InStep x t) :=
  inferInstanceAs (Decidable (_ = true))

section Invariant

inductive Mode where
  | rest
  | underway (a : Action) (v : BitVec 32) (i : Nat)

def Mode.At : Mode → SystemState → Prop
  | .rest, s => s.phase = .rest
  | .underway a v i, s => 1 ≤ i ∧ i ≤ a.phases.length ∧ s = stage a v i

/-- The final state of the call of `HandleSpecialPhases` that a thread is in, and
the state that its iteration is about or, at the head of the loop, the one
before. -/
def Pc.call : Pc → Option (SystemState × SystemState)
  | .iterating final previous => some (final, previous)
  | .ending final current => some (final, current)
  | .finishing final current => some (final, current)
  | .scanning final current _ _ => some (final, current)
  | .moving final current _ => some (final, current)
  | .resting final current _ => some (final, current)
  | .spinning final current => some (final, current)
  | _ => none

/-- The thread is not in the loop of `HandleSpecialPhases`, but may get there. -/
def Pc.Between : Pc → Prop
  | .idle | .entering | .refreshing | .handling | .opening _ _ => True
  | _ => False

structure Settled (x : System) (t : Nat) : Prop where
  flag : x.phaseFinished t = .rest ∨ IsLast (x.phaseFinished t)
  call : ∀ f c, (x.pc t).call = some (f, c) → c = f ∧ IsLast f.phase

def Pc.Joins (first : SystemState) : Pc → Prop
  | .iterating f p => f = first ∧ within 2 p f
  | .finishing f c => f = first ∧ c = f
  | .ending f c => f = first ∧ within 1 c f
  | _ => False

structure Behind (x : System) (a : Action) (v : BitVec 32) (t : Nat) : Prop where
  first : (stage a v 1).phase ∉ x.acked t
  flag : x.phaseFinished t = .rest ∨ IsLast (x.phaseFinished t)
  call : ∀ f c, (x.pc t).call = some (f, c) →
    c = f ∧ IsLast f.phase ∨ (x.pc t).Joins (stage a v 1)

/-- The thread has finished the phase of stage `j`, and is at no earlier one. -/
structure Arrived (x : System) (a : Action) (v : BitVec 32) (i j t : Nat) : Prop where
  pos : 1 ≤ j
  le : j ≤ i
  isProtected : Protected x t
  flag : x.phaseFinished t = (stage a v j).phase
  acked : (stage a v j).phase ∈ x.acked t
  ctx : (x.pc t).Between →
    ∃ k, j ≤ k ∧ k ≤ i ∧ x.ctx t = ⟨(stage a v k).phase, (stage a v k).version⟩
  call : ∀ f c, (x.pc t).call = some (f, c) →
    ∃ k l, j ≤ k ∧ k ≤ l ∧ l ≤ i ∧ c = stage a v k ∧ f = stage a v l

def Mode.Status (x : System) (t : Nat) : Mode → Prop
  | .rest => Settled x t
  | .underway a v i =>
      (∃ j, Arrived x a v i j t) ∨ ((Protected x t → i = 1) ∧ Behind x a v t)

/-- What a thread knows about the state and the transition it is to make.  The
last three places belong to a thread that has shut out every other transition. -/
def Pc.Knows (s : SystemState) : Pc → Prop
  | .opening a _ => a.phases ≠ []
  | .moving _ c false => c.phase = .indexChkpt ∧ c.action ≠ .checkpointIndex
  | .resetting a v _ => s = ⟨a, .rest, v⟩ ∧ a.phases ≠ []
  | .publishing a v => s = ⟨a, .rest, v⟩ ∧ a.phases ≠ []
  | .resting _ _ _ => s.phase = .rest ∧ s.action ≠ .none
  | _ => True

def Pc.IsOwner : Pc → Prop
  | .resetting _ _ _ | .publishing _ _ | .resting _ _ _ => True
  | _ => False

def Passes (x : System) (phase : Phase) (u : Nat) : Prop :=
  Protected x u → x.phaseFinished u = phase

instance (x : System) (phase : Phase) (u : Nat) : Decidable (Passes x phase u) :=
  inferInstanceAs (Decidable (_ → _))

def Pc.Scans (n : Nat) (x : System) : Pc → Prop
  | .scanning _ c idx entryPhase =>
      c = x.state → (∀ u, 1 ≤ u → u < idx → Passes x c.phase u) ∧
        (entryPhase = some c.phase → Passes x c.phase idx)
  | .moving _ c true => c = x.state → ∀ u, 1 ≤ u → u ≤ n → Passes x c.phase u
  | _ => True

structure Good (n : Nat) (mode : Mode) (x : System) (t : Nat) : Prop where
  range : n ≤ t → x.pc t = .out ∧ ¬ Protected x t
  inside : x.pc t = .out ∨ x.pc t = .entering ∨ Protected x t
  knows : (x.pc t).Knows x.state
  status : mode.Status x t
  scans : (x.pc t).Scans n x

structure Inv (n : Nat) (mode : Mode) (x : System) : Prop where
  epoch : x.currentEpoch ≠ 0
  state : mode.At x.state
  good : ∀ t, Good n mode x t
  owner : ∀ t u, (x.pc t).IsOwner → (x.pc u).IsOwner → t = u
  published : ∀ t a v, x.pc t = .publishing a v → ∀ u, ∀ phase ∈ x.acked u, IsLast phase

end Invariant

section Frame

structure SameFor (x y : System) (u : Nat) : Prop where
  epoch : y.epoch u = x.epoch u
  flag : y.phaseFinished u = x.phaseFinished u
  acked : y.acked u = x.acked u
  ctx : y.ctx u = x.ctx u
  pc : y.pc u = x.pc u

theorem Settled.congr (h : Settled x u) (hs : SameFor x y u) : Settled y u where
  flag := by
    rw [hs.flag]
    exact h.flag
  call := by
    rw [hs.pc]
    exact h.call

theorem Behind.congr (h : Behind x a v u) (hs : SameFor x y u) : Behind y a v u where
  first := by
    rw [hs.acked]
    exact h.first
  flag := by
    rw [hs.flag]
    exact h.flag
  call := by
    rw [hs.pc]
    exact h.call

theorem Protected.congr (h : Protected x u) (hs : SameFor x y u) : Protected y u := by
  rw [Protected, hs.epoch]
  exact h

theorem Arrived.congr {j : Nat} (h : Arrived x a v i j u) (hs : SameFor x y u) :
    Arrived y a v i j u where
  pos := h.pos
  le := h.le
  isProtected := h.isProtected.congr hs
  flag := by
    rw [hs.flag]
    exact h.flag
  acked := by
    rw [hs.acked]
    exact h.acked
  ctx := by
    rw [hs.pc, hs.ctx]
    exact h.ctx
  call := by
    rw [hs.pc]
    exact h.call

theorem Mode.Status.congr {mode : Mode} (h : mode.Status x u) (hs : SameFor x y u) :
    mode.Status y u := by
  cases mode with
  | rest => exact Settled.congr h hs
  | underway a v i =>
      rcases h with ⟨j, h⟩ | ⟨hi, h⟩
      · exact Or.inl ⟨j, h.congr hs⟩
      · refine Or.inr ⟨fun hp => hi ?_, h.congr hs⟩
        rw [Protected, ← hs.epoch]
        exact hp

theorem Pc.Scans.mono (h : pc.Scans n x) (hstate : y.state = x.state)
    (hpass : ∀ u, Passes x x.state.phase u → Passes y x.state.phase u) : pc.Scans n y := by
  cases pc
  case scanning f c idx entryPhase =>
    intro hc
    rw [hstate] at hc
    subst hc
    obtain ⟨hseen, hhere⟩ := h rfl
    exact ⟨fun u hpos hlt => hpass u (hseen u hpos hlt), fun he => hpass idx (hhere he)⟩
  case moving f c finished =>
    cases finished
    · trivial
    · intro hc
      rw [hstate] at hc
      subst hc
      exact fun u hpos hle => hpass u (h rfl u hpos hle)
  all_goals trivial

theorem Pc.Scans.of_ne (hne : ∀ f c, pc.call = some (f, c) → c ≠ x.state) : pc.Scans n x := by
  cases pc
  case scanning f c idx entryPhase => exact fun hc => absurd hc (hne f c rfl)
  case moving f c finished =>
    cases finished
    · trivial
    · exact fun hc => absurd hc (hne f c rfl)
  all_goals trivial

theorem Pc.Knows.of_not_isOwner {s' : SystemState} (howner : ¬ pc.IsOwner) (h : pc.Knows s) :
    pc.Knows s' := by
  cases pc
  case resetting => exact absurd trivial howner
  case publishing => exact absurd trivial howner
  case resting => exact absurd trivial howner
  case moving f c finished =>
    cases finished
    · exact h
    · trivial
  all_goals exact h

variable {mode mode' : Mode} {ctx : ExecutionContext}

theorem Good.of_sameFor (h : Good n mode x u) (hs : SameFor x y u)
    (hknows : (x.pc u).Knows y.state) (hstatus : mode'.Status y u)
    (hscans : (x.pc u).Scans n y) : Good n mode' y u where
  range := by
    rw [hs.pc, Protected, hs.epoch]
    exact h.range
  inside := by
    rw [hs.pc, Protected, hs.epoch]
    exact h.inside
  knows := by
    rw [hs.pc]
    exact hknows
  status := hstatus
  scans := by
    rw [hs.pc]
    exact hscans

theorem Good.lt (h : Good n mode x t) (hpc : x.pc t ≠ .out) : t < n := by
  by_contra hle
  exact hpc (h.range (Nat.not_lt.mp hle)).1

theorem Good.protected_of_call (h : Good n mode x t) (hcall : (x.pc t).call = some (f, c)) :
    Protected x t := by
  rcases h.inside with hpc | hpc | hp
  · rw [hpc] at hcall
    cases hcall
  · rw [hpc] at hcall
    cases hcall
  · exact hp

theorem Settled.scans (h : Settled x u) (hrest : y.state.phase = .rest) :
    (x.pc u).Scans n y := by
  apply Pc.Scans.of_ne
  intro f c hcall heq
  obtain ⟨rfl, hlast⟩ := h.call f c hcall
  rw [heq, hrest] at hlast
  exact absurd hlast (by decide)

theorem Inv.of_step (h : Inv n mode x) (hpc : y.pc = Function.update x.pc t pc)
    (hepoch : y.currentEpoch = x.currentEpoch) (hstate : mode'.At y.state)
    (hself : Good n mode' y t) (hothers : ∀ u, u ≠ t → Good n mode' y u)
    (howner : pc.IsOwner → ∀ u, u ≠ t → ¬ (x.pc u).IsOwner)
    (hpub : ∀ u a v, y.pc u = .publishing a v → ∀ w, ∀ phase ∈ y.acked w, IsLast phase) :
    Inv n mode' y where
  epoch := by
    rw [hepoch]
    exact h.epoch
  state := hstate
  good := by
    intro u
    by_cases hu : u = t
    · subst u
      exact hself
    · exact hothers u hu
  owner := by
    rw [hpc]
    intro u u' hu hu'
    by_cases hut : u = t
    · by_cases hut' : u' = t
      · rw [hut, hut']
      · rw [hut, Function.update_self] at hu
        rw [Function.update_of_ne hut'] at hu'
        exact absurd hu' (howner hu u' hut')
    · rw [Function.update_of_ne hut] at hu
      by_cases hut' : u' = t
      · rw [hut', Function.update_self] at hu'
        exact absurd hu (howner hu' u hut)
      · rw [Function.update_of_ne hut'] at hu'
        exact h.owner u u' hu hu'
  published := hpub

theorem Inv.published_of_step (h : Inv n mode x) (hpc : y.pc = Function.update x.pc t pc)
    (hpub : ∀ a v, pc ≠ .publishing a v)
    (hacked : ∀ u a v, x.pc u = .publishing a v → ∀ w, ∀ phase ∈ y.acked w,
      phase ∈ x.acked w ∨ IsLast phase) (u : Nat) (a : Action) (v : BitVec 32)
    (hu : y.pc u = .publishing a v) : ∀ w, ∀ phase ∈ y.acked w, IsLast phase := by
  intro w phase hphase
  rw [hpc] at hu
  by_cases hut : u = t
  · subst u
    rw [Function.update_self] at hu
    exact absurd hu (hpub a v)
  · rw [Function.update_of_ne hut] at hu
    rcases hacked u a v hu w phase hphase with hold | hlast
    · exact h.published u a v hu w phase hold
    · exact hlast

theorem Inv.goto (h : Inv n mode x) (hpc : x.pc t ≠ .out) (hin : pc = .entering ∨ Protected x t)
    (hknows : pc.Knows x.state) (hstatus : mode.Status ((x.setCtx t ctx).setPc t pc) t)
    (hscans : pc.Scans n x)
    (howner : pc.IsOwner → (∀ a v, pc ≠ .publishing a v) ∧ ∀ u, u ≠ t → ¬ (x.pc u).IsOwner) :
    Inv n mode ((x.setCtx t ctx).setPc t pc) := by
  refine h.of_step rfl rfl h.state ?_ (fun u hu => ?_) (fun ho => (howner ho).2)
    (h.published_of_step rfl ?_ fun _ _ _ _ _ _ hold => Or.inl hold)
  · refine ⟨fun hle => absurd ((h.good t).lt hpc) (Nat.not_lt.mpr hle), ?_, ?_, hstatus, ?_⟩
    · rw [setPc_self]
      exact Or.inr hin
    · rw [setPc_self]
      exact hknows
    · rw [setPc_self]
      exact hscans.mono rfl fun _ hp => hp
  · have hsame : SameFor x ((x.setCtx t ctx).setPc t pc) u :=
      ⟨rfl, rfl, rfl, Function.update_of_ne hu .., setPc_of_ne _ _ _ _ hu⟩
    exact (h.good u).of_sameFor hsame (h.good u).knows ((h.good u).status.congr hsame)
      ((h.good u).scans.mono rfl fun _ hp => hp)
  · rintro a v rfl
    exact (howner trivial).1 a v rfl

theorem setCtx_eq_self (x : System) (t : Nat) : x.setCtx t (x.ctx t) = x := by
  unfold System.setCtx
  rw [Function.update_eq_self]

theorem Inv.goto' (h : Inv n mode x) (hpc : x.pc t ≠ .out) (hin : pc = .entering ∨ Protected x t)
    (hknows : pc.Knows x.state) (hstatus : mode.Status ((x.setCtx t (x.ctx t)).setPc t pc) t)
    (hscans : pc.Scans n x)
    (howner : pc.IsOwner → (∀ a v, pc ≠ .publishing a v) ∧ ∀ u, u ≠ t → ¬ (x.pc u).IsOwner) :
    Inv n mode (x.setPc t pc) := by
  have hinv := h.goto hpc hin hknows hstatus hscans howner
  rwa [setCtx_eq_self] at hinv

theorem Inv.setState (h : Inv n mode x) (hmode : mode'.At s) (hknows : ∀ u, (x.pc u).Knows s)
    (hstatus : ∀ u, mode'.Status x u) (hscans : ∀ u, (x.pc u).Scans n (x.setState s)) :
    Inv n mode' (x.setState s) where
  epoch := h.epoch
  state := hmode
  good := fun u =>
    (h.good u).of_sameFor (y := x.setState s) ⟨rfl, rfl, rfl, rfl, rfl⟩ (hknows u)
      ((hstatus u).congr ⟨rfl, rfl, rfl, rfl, rfl⟩) (hscans u)
  owner := h.owner
  published := h.published

theorem Inv.protected (h : Inv n mode x) (hout : x.pc t ≠ .out) (henter : x.pc t ≠ .entering) :
    Protected x t := by
  rcases (h.good t).inside with hpc | hpc | hp
  · exact absurd hpc hout
  · exact absurd hpc henter
  · exact hp

end Frame

section Local

variable {mode : Mode} {ctx : ExecutionContext} {k : Nat} {first : SystemState}

theorem within_refl (k : Nat) (s : SystemState) : within k s s := by
  cases k <;> simp [within]

theorem within_succ_iff {s' : SystemState} :
    within (k + 1) s s' ↔ s = s' ∨ ∃ q, s.getNextState = some q ∧ within k q s' := by
  rw [within, Bool.or_eq_true, decide_eq_true_iff]
  cases s.getNextState <;> simp

theorem within_succ {s' : SystemState} (h : within k s s') : within (k + 1) s s' := by
  induction k generalizing s with
  | zero => exact within_succ_iff.mpr (Or.inl (of_decide_eq_true h))
  | succ k ih =>
      rcases within_succ_iff.mp h with rfl | ⟨q, hq, h⟩
      · exact within_refl _ _
      · exact within_succ_iff.mpr (Or.inr ⟨q, hq, ih h⟩)

theorem within_next (h : within (k + 1) p f) (hnext : currentState f p = some c) :
    within k c f := by
  unfold currentState at hnext
  rcases within_succ_iff.mp h with rfl | ⟨q, hq, h⟩
  · rw [if_pos rfl] at hnext
    cases hnext
    exact within_refl k c
  · split at hnext
    · cases hnext
      exact within_refl k f
    · rw [hq] at hnext
      cases hnext
      exact h

theorem call_of_none {P : SystemState → SystemState → Prop} (h : pc.call = none) :
    ∀ f c, pc.call = some (f, c) → P f c := by
  intro f c hfc
  rw [h] at hfc
  cases hfc

theorem stage_length_pos (hpos : 1 ≤ i) (hle : i ≤ a.phases.length) : 1 ≤ a.phases.length :=
  Nat.le_trans hpos hle

/-- A thread that has not finished the first phase shows none of this action. -/
theorem first_ne_of_flag {flag : Phase} (hlen : 1 ≤ a.phases.length)
    (hflag : flag = .rest ∨ IsLast flag) : flag ≠ (stage a v 1).phase := by
  rintro rfl
  rcases hflag with hrest | hlast
  · exact stage_phase_ne_rest (Nat.le_refl 1) hlen hrest
  · exact not_isLast_first hlen hlast

theorem Mode.Status.goto (h : mode.Status x t) (hcall : pc.call = none ∨ pc.call = (x.pc t).call)
    (hjoins : ∀ first, (x.pc t).Joins first → pc.call = none ∨ pc.Joins first)
    (hbetween : pc.Between → (x.pc t).Between ∧ ctx = x.ctx t) :
    mode.Status ((x.setCtx t ctx).setPc t pc) t := by
  have hold : ∀ f c, pc.call = some (f, c) → (x.pc t).call = some (f, c) := by
    intro f c hfc
    rcases hcall with hnone | hsame
    · rw [hnone] at hfc
      cases hfc
    · rwa [← hsame]
  cases mode with
  | rest =>
      refine ⟨h.flag, ?_⟩
      rw [setPc_self]
      exact fun f c hfc => h.call f c (hold f c hfc)
  | underway a v i =>
      rcases h with ⟨j, h⟩ | ⟨hi, h⟩
      · refine Or.inl ⟨j, h.pos, h.le, h.isProtected, h.flag, h.acked, ?_, ?_⟩
        · rw [setPc_self]
          intro hb
          obtain ⟨hb', rfl⟩ := hbetween hb
          obtain ⟨k, hjk, hki, hk⟩ := h.ctx hb'
          refine ⟨k, hjk, hki, ?_⟩
          rw [← hk]
          exact Function.update_self ..
        · rw [setPc_self]
          exact fun f c hfc => h.call f c (hold f c hfc)
      · refine Or.inr ⟨hi, h.first, h.flag, ?_⟩
        rw [setPc_self]
        intro f c hfc
        rcases h.call f c (hold f c hfc) with hstale | hjoin
        · exact Or.inl hstale
        · rcases hjoins _ hjoin with hnone | hjoin'
          · rw [hnone] at hfc
            cases hfc
          · exact Or.inr hjoin'

theorem work_of_rest {flag : Phase} {ready : Bool} (h : c.phase = .rest) :
    work p c flag ready = .nothing := by
  unfold work
  rw [h]
  cases c.action <;> rfl

theorem phase_of_work_move {flag : Phase} {ready : Bool} (h : work p c flag ready = .move) :
    c.phase = .indexChkpt ∧ c.action ≠ .checkpointIndex := by
  have hphase : c.phase = .indexChkpt := by
    unfold work at h
    split at h
    case h_6 => cases h
    all_goals
      split at h
      all_goals first
        | assumption
        | cases h
        | split at h <;> cases h
  refine ⟨hphase, fun haction => ?_⟩
  simp only [work, haction, hphase, if_true] at h
  split at h <;> cases h

theorem Mode.Status.iterate (h : mode.Status x t) (hmode : mode.At x.state)
    (hpc : x.pc t = .iterating f p) (hcur : currentState f p = some c)
    (hcall : pc.call = some (f, c)) (hbetween : ¬ pc.Between)
    (hjoins : ∀ a v, 1 ≤ a.phases.length → f = stage a v 1 → within 1 c f →
      pc.Joins (stage a v 1)) :
    mode.Status ((x.setCtx t ctx).setPc t pc) t := by
  have hhead : (x.pc t).call = some (f, p) := by
    rw [hpc]
    rfl
  have hsame : p = f → c = f := by
    intro heq
    unfold currentState at hcur
    rw [if_pos heq] at hcur
    exact (Option.some.inj hcur).symm
  cases mode with
  | rest =>
      refine ⟨h.flag, ?_⟩
      rw [setPc_self, hcall]
      intro f' c' hfc
      cases hfc
      obtain ⟨hpf, hlast⟩ := h.call f p hhead
      exact ⟨hsame hpf, hlast⟩
  | underway a v i =>
      obtain ⟨hpos, hle, -⟩ := hmode
      have hlen := stage_length_pos hpos hle
      rcases h with ⟨j, h⟩ | ⟨hi, h⟩
      · refine Or.inl ⟨j, h.pos, h.le, h.isProtected, h.flag, h.acked, ?_, ?_⟩
        · rw [setPc_self]
          exact fun hb => absurd hb hbetween
        · rw [setPc_self, hcall]
          intro f' c' hfc
          cases hfc
          obtain ⟨k, l, hjk, hkl, hli, rfl, rfl⟩ := h.call f p hhead
          by_cases hkl' : k = l
          · subst hkl'
            exact ⟨k, k, hjk, Nat.le_refl k, hli, hsame rfl, rfl⟩
          · have hne : stage a v k ≠ stage a v l :=
              fun heq => hkl' (stage_inj (by omega) (by omega) heq)
            unfold currentState at hcur
            rw [if_neg hne, next_stage (by omega)] at hcur
            cases hcur
            exact ⟨k + 1, l, by omega, by omega, hli, rfl, rfl⟩
      · refine Or.inr ⟨hi, h.first, h.flag, ?_⟩
        rw [setPc_self, hcall]
        intro f' c' hfc
        cases hfc
        rcases h.call f p hhead with ⟨hpf, hlast⟩ | hjoin
        · exact Or.inl ⟨hsame hpf, hlast⟩
        · rw [hpc] at hjoin
          obtain ⟨hf, hwithin⟩ := hjoin
          exact Or.inr (hjoins a v hlen hf (within_next hwithin hcur))

theorem eq_of_within_one (hw : within 1 c f) (hf : f = stage a v 1) (hrest : c.phase ≠ .rest) :
    c = f := by
  rcases within_succ_iff.mp hw with heq | ⟨q, hq, h⟩
  · exact heq
  · have heq : q = f := of_decide_eq_true h
    rw [heq, hf] at hq
    exact absurd (phase_of_next_first hq) hrest

theorem Inv.iterating {ready : Bool} (h : Inv n mode x) (hpc : x.pc t = .iterating f p)
    (hrun : x.run n t ready = some y) : Inv n mode y := by
  have hout : x.pc t ≠ .out := by
    rw [hpc]
    nofun
  have hin : ∀ pc : Pc, pc = .entering ∨ Protected x t := fun pc =>
    Or.inr ((h.good t).protected_of_call (by rw [hpc]; rfl))
  have hstatus := (h.good t).status
  simp only [System.run, hpc] at hrun
  split at hrun
  · cases hrun
    refine h.goto' hout (hin _) trivial (hstatus.goto (Or.inl rfl) (fun _ _ => Or.inl rfl) ?_)
      trivial False.elim
    exact fun hb => hb.elim
  · rename_i c hcur
    split at hrun
    · cases hrun
      refine h.goto' hout (hin _) trivial
        (hstatus.iterate h.state hpc hcur rfl id fun a v hlen hf hw => ?_) trivial False.elim
      exact ⟨hf, hw⟩
    · rename_i hwork
      have hrest : c.phase ≠ .rest := by
        intro heq
        rw [work_of_rest heq] at hwork
        cases hwork
      have hgoal : ∀ ctx, Inv n mode ((x.setCtx t ctx).setPc t (.finishing f c)) := by
        intro ctx
        refine h.goto hout (hin _) trivial
          (hstatus.iterate h.state hpc hcur rfl id fun a v hlen hf hw => ?_) trivial False.elim
        exact ⟨hf, eq_of_within_one hw hf hrest⟩
      split at hrun
      · cases hrun
        exact hgoal _
      · cases hrun
        have hinv := hgoal (x.ctx t)
        rwa [setCtx_eq_self] at hinv
    · rename_i hwork
      cases hrun
      have hmove := phase_of_work_move hwork
      refine h.goto' hout (hin _) hmove
        (hstatus.iterate h.state hpc hcur rfl id fun a v hlen hf hw => ?_) trivial False.elim
      have heq := eq_of_within_one hw hf (by rw [hmove.1]; decide)
      have hlast : IsLast (stage a v 1).phase := by
        rw [← hf, ← heq, hmove.1]
        decide
      exact absurd hlast (not_isLast_first hlen)

theorem Inv.ending (h : Inv n mode x) (hpc : x.pc t = .ending f c) :
    Inv n mode ((x.setCtx t ⟨c.phase, c.version⟩).setPc t
      (if c = f then .idle else .iterating f c)) := by
  have hhead : (x.pc t).call = some (f, c) := by
    rw [hpc]
    rfl
  have hin := (h.good t).protected_of_call hhead
  have hout : x.pc t ≠ .out := by
    rw [hpc]
    nofun
  have hstatus := (h.good t).status
  have hmode := h.state
  by_cases hcf : c = f
  · subst hcf
    rw [if_pos rfl]
    refine h.goto hout (Or.inr hin) trivial ?_ trivial False.elim
    cases mode with
    | rest => exact ⟨hstatus.flag, call_of_none (by rw [setPc_self]; rfl)⟩
    | underway a v i =>
        rcases hstatus with ⟨j, hj⟩ | ⟨hi, hb⟩
        · refine Or.inl ⟨j, hj.pos, hj.le, hj.isProtected, hj.flag, hj.acked, fun _ => ?_, ?_⟩
          · obtain ⟨k, l, hjk, hkl, hli, rfl, -⟩ := hj.call c c hhead
            exact ⟨k, hjk, Nat.le_trans hkl hli, Function.update_self ..⟩
          · exact call_of_none (by rw [setPc_self]; rfl)
        · exact Or.inr ⟨hi, hb.first, hb.flag, call_of_none (by rw [setPc_self]; rfl)⟩
  · rw [if_neg hcf]
    refine h.goto hout (Or.inr hin) trivial ?_ trivial False.elim
    refine hstatus.goto (Or.inr hhead.symm) (fun first hjoin => Or.inr ?_) fun hb => hb.elim
    rw [hpc] at hjoin
    exact ⟨hjoin.1, within_succ hjoin.2⟩

theorem Inv.handling (h : Inv n mode x) (hpc : x.pc t = .handling)
    (hstep : x.state.phase ≠ .rest → InStep x t) {ready : Bool}
    (hrun : x.run n t ready = some y) : Inv n mode y := by
  have hout : x.pc t ≠ .out := by
    rw [hpc]
    nofun
  have hin : Protected x t := h.protected hout (by rw [hpc]; nofun)
  have hstatus := (h.good t).status
  have hmode := h.state
  simp only [System.run, hpc] at hrun
  split at hrun
  · rename_i hrest
    cases hrun
    refine h.goto hout (Or.inr hin) trivial ?_ trivial False.elim
    cases mode with
    | rest => exact ⟨hstatus.flag, call_of_none (by rw [setPc_self]; rfl)⟩
    | underway a v i =>
        obtain ⟨hpos, hle, hstate⟩ := hmode
        rw [hstate] at hrest
        exact absurd hrest (stage_phase_ne_rest hpos hle)
  · rename_i hrest
    cases hrun
    refine h.goto' hout (Or.inr hin) trivial ?_ trivial False.elim
    cases mode with
    | rest => exact absurd hmode hrest
    | underway a v i =>
        obtain ⟨hpos, hle, hstate⟩ := hmode
        rcases hstatus with ⟨j, hj⟩ | ⟨hi, hb⟩
        · refine Or.inl ⟨j, hj.pos, hj.le, hj.isProtected, hj.flag, hj.acked, ?_, ?_⟩
          · rw [setPc_self]
            exact fun hb => hb.elim
          · rw [setPc_self]
            intro f c hfc
            cases hfc
            obtain ⟨k, hjk, hki, hctx⟩ := hj.ctx (by rw [hpc]; trivial)
            refine ⟨k, i, hjk, hki, Nat.le_refl i, ?_, hstate⟩
            rw [hctx, hstate]
            rfl
        · refine Or.inr ⟨hi, hb.first, hb.flag, ?_⟩
          rw [setPc_self]
          intro f c hfc
          cases hfc
          have hone := hi hin
          subst hone
          refine Or.inr ⟨hstate, ?_⟩
          have hidx : (stage a v 1).action.phases.idxOf (stage a v 1).phase = 0 := by
            cases a <;> rfl
          have hstep := hstep hrest
          rw [InStep, hstate, hidx] at hstep
          rw [hstate]
          exact hstep

theorem Inv.scanning {idx : Nat} {entryPhase : Option Phase} {ready : Bool} (h : Inv n mode x)
    (hpc : x.pc t = .scanning f c idx entryPhase) (hrun : x.run n t ready = some y) :
    Inv n mode y := by
  have hout : x.pc t ≠ .out := by
    rw [hpc]
    nofun
  have hin : ∀ pc : Pc, pc = .entering ∨ Protected x t := fun pc =>
    Or.inr ((h.good t).protected_of_call (by rw [hpc]; rfl))
  have hgoto : ∀ pc : Pc, pc.call = some (f, c) → ¬ pc.Between →
      mode.Status ((x.setCtx t (x.ctx t)).setPc t pc) t := by
    intro pc hcall hb
    refine (h.good t).status.goto (Or.inr ?_) (fun first hjoin => ?_) fun hb' => absurd hb' hb
    · rw [hcall, hpc]
      rfl
    · rw [hpc] at hjoin
      exact hjoin.elim
  have hscans := (h.good t).scans
  rw [hpc] at hscans
  cases entryPhase with
  | none =>
      simp only [System.run, hpc] at hrun
      split at hrun
      · cases hrun
        refine h.goto' hout (hin _) trivial (hgoto _ rfl id) (fun hc => ?_) False.elim
        refine ⟨(hscans hc).1, fun he _ => Option.some.inj he⟩
      · rename_i hdone
        cases hrun
        refine h.goto' hout (hin _) trivial (hgoto _ rfl id) (fun hc u hpos hle => ?_) False.elim
        exact (hscans hc).1 u hpos (by omega)
  | some entryPhase =>
      simp only [System.run, hpc] at hrun
      split at hrun
      · cases hrun
        unfold afterFinish
        split
        · exact h.goto' hout (hin _) trivial (hgoto _ rfl id) trivial False.elim
        · exact h.goto' hout (hin _) trivial (hgoto _ rfl id) trivial False.elim
      · rename_i hpass
        cases hrun
        refine h.goto' hout (hin _) trivial (hgoto _ rfl id) (fun hc => ?_) False.elim
        obtain ⟨hseen, hhere⟩ := hscans hc
        refine ⟨fun u hpos hlt hu => ?_, nofun⟩
        by_cases hidx : u = idx
        · subst u
          have heq : entryPhase = c.phase := by
            by_contra hne
            exact hpass ⟨hu, hne⟩
          exact hhere (congrArg some heq) hu
        · exact hseen u hpos (by omega) hu

end Local

end HashComp.Phases
