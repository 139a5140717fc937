import HashComp.Library.Runs
import HashComp.Phases.Invariant

/-!
The barrier between two phases.  `FinishThreadPhase` reads the entries from one
on, while thread ids start at zero; a session that has been let in at `REST` may
enter the table in a later phase; and a thread that goes around the phases of an
action it has not seen the end of may move the state of the next action.
-/

namespace HashComp.Phases

open HashComp.Faster (Phase)
open HashComp.Runs

variable {n t u i : Nat} {x y : System} {m : Move} {a : Action} {v : BitVec 32}
  {f c p s : SystemState} {pc : Pc} {mode mode' : Mode}

/-- The phase that a move leaves because `FinishThreadPhase` has returned true. -/
def leaves (x : System) : Move → Option Phase
  | .run t _ =>
      match x.pc t with
      | .moving _ current true => if x.state = current then some current.phase else none
      | _ => none
  | _ => none

/-- Every thread that is protected when a phase is left has finished it. -/
def BarrierHolds (n : Nat) (x : System) (m : Move) : Prop :=
  ∀ phase, leaves x m = some phase → ∀ t < n, Protected x t → phase ∈ x.acked t

/-- What an orderly run asks of a step from this place. -/
def Pc.Orderly (x : System) (t : Nat) : Pc → Prop
  | .entering => ¬ Protected x t → x.state.phase = .rest
  | .handling => x.state.phase ≠ .rest → InStep x t
  | .moving _ current true => x.state = current → Passes x current.phase 0
  | _ => True

/-- A session enters the table only at `REST`, a thread catches up with the
action under way only in step, and entry zero, if it is protected, would not have
stopped the scan of a thread that leaves a phase. -/
def Orderly (x : System) : Move → Prop
  | .run t _ => (x.pc t).Orderly x t
  | _ => True

instance decidablePcOrderly (x : System) (t : Nat) : (pc : Pc) → Decidable (pc.Orderly x t)
  | .entering => inferInstanceAs (Decidable (_ → _))
  | .handling => inferInstanceAs (Decidable (_ → _))
  | .moving _ _ true => inferInstanceAs (Decidable (_ → _))
  | .moving _ _ false => .isTrue trivial
  | .out | .idle | .refreshing | .iterating _ _ | .ending _ _ | .lost | .finishing _ _
  | .scanning _ _ _ _ | .resting _ _ _ | .spinning _ _ | .opening _ _ | .resetting _ _ _
  | .publishing _ _ => .isTrue trivial

instance decidableOrderly (x : System) : (m : Move) → Decidable (Orderly x m)
  | .run t _ => decidablePcOrderly x t (x.pc t)
  | .startSession _ | .refresh _ | .stopSession _ | .begin _ _ | .bumpCurrentEpoch =>
      .isTrue trivial

section Sessions

theorem Inv.scans_of_rest (h : Inv n .rest x) (hrest : y.state.phase = .rest) (u : Nat) :
    (x.pc u).Scans n y :=
  Settled.scans (h.good u).status hrest

theorem Inv.mode_of_rest (h : Inv n mode x) (hrest : x.state.phase = .rest) : mode = .rest := by
  have hmode := h.state
  cases mode with
  | rest => rfl
  | underway a v i =>
      obtain ⟨hpos, hle, hstate⟩ := hmode
      rw [hstate] at hrest
      exact absurd hrest (stage_phase_ne_rest hpos hle)

theorem Inv.entering (h : Inv n mode x) (hpc : x.pc t = .entering)
    (hrest : ¬ Protected x t → x.state.phase = .rest) :
    Inv n mode ((x.setEpoch t x.currentEpoch).setPc t .refreshing) := by
  have hin : Protected ((x.setEpoch t x.currentEpoch).setPc t .refreshing) t := by
    change Function.update x.epoch t x.currentEpoch t ≠ 0
    rw [Function.update_self]
    exact h.epoch
  have hscans : ∀ u, (x.pc u).Scans n ((x.setEpoch t x.currentEpoch).setPc t .refreshing) := by
    intro u
    by_cases hp : Protected x t
    · refine (h.good u).scans.mono rfl fun w hw hw' => ?_
      by_cases hwt : w = t
      · subst w
        exact hw hp
      · apply hw
        change Function.update x.epoch t x.currentEpoch w ≠ 0 at hw'
        rwa [Function.update_of_ne hwt] at hw'
    · have hmode := h.mode_of_rest (hrest hp)
      subst hmode
      exact h.scans_of_rest (y := (x.setEpoch t x.currentEpoch).setPc t .refreshing) (hrest hp) u
  refine h.of_step rfl rfl h.state ?_ (fun u hu => ?_) (fun ho => ho.elim)
    (h.published_of_step rfl (fun _ _ => nofun) fun _ _ _ _ _ _ hold => Or.inl hold)
  · have hlt := (h.good t).lt (by rw [hpc]; nofun)
    refine ⟨fun hle => absurd hlt (Nat.not_lt.mpr hle), Or.inr (Or.inr hin), ?_, ?_, ?_⟩
    · rw [setPc_self]
      trivial
    · have hstatus := (h.good t).status
      cases mode with
      | rest => exact ⟨hstatus.flag, call_of_none (by rw [setPc_self]; rfl)⟩
      | underway a v i =>
          rcases hstatus with ⟨j, hj⟩ | ⟨hi, hb⟩
          · refine Or.inl ⟨j, hj.pos, hj.le, hin, hj.flag, hj.acked, fun _ => ?_,
              call_of_none (by rw [setPc_self]; rfl)⟩
            exact hj.ctx (by rw [hpc]; trivial)
          · refine Or.inr
              ⟨fun _ => hi ?_, hb.first, hb.flag, call_of_none (by rw [setPc_self]; rfl)⟩
            by_contra hp
            cases h.mode_of_rest (hrest hp)
    · rw [setPc_self]
      trivial
  · have hsame : SameFor x ((x.setEpoch t x.currentEpoch).setPc t .refreshing) u :=
      ⟨Function.update_of_ne hu .., rfl, rfl, rfl, setPc_of_ne _ _ _ _ hu⟩
    exact (h.good u).of_sameFor hsame (h.good u).knows ((h.good u).status.congr hsame) (hscans u)

theorem Inv.stopSession (h : Inv n mode x) (hpc : x.pc t = .idle) (hctx : (x.ctx t).phase = .rest) :
    Inv n mode ((x.setEpoch t 0).setPc t .out) := by
  have hout : ¬ Protected ((x.setEpoch t 0).setPc t .out) t := by
    change ¬ Function.update x.epoch t 0 t ≠ 0
    rw [Function.update_self]
    exact fun hne => hne rfl
  refine h.of_step rfl rfl h.state ?_ (fun u hu => ?_) (fun ho => ho.elim)
    (h.published_of_step rfl (fun _ _ => nofun) fun _ _ _ _ _ _ hold => Or.inl hold)
  · refine ⟨fun _ => ⟨setPc_self .., hout⟩, Or.inl (setPc_self ..), ?_, ?_, ?_⟩
    · rw [setPc_self]
      trivial
    · have hstatus := (h.good t).status
      have hmode := h.state
      cases mode with
      | rest => exact ⟨hstatus.flag, call_of_none (by rw [setPc_self]; rfl)⟩
      | underway a v i =>
          obtain ⟨hpos, hle, -⟩ := hmode
          rcases hstatus with ⟨j, hj⟩ | ⟨-, hb⟩
          · obtain ⟨k, hjk, hki, hk⟩ := hj.ctx (by rw [hpc]; trivial)
            rw [hk] at hctx
            exact absurd hctx
              (stage_phase_ne_rest (v := v) (Nat.le_trans hj.pos hjk) (Nat.le_trans hki hle))
          · exact Or.inr ⟨fun hp => absurd hp hout, hb.first, hb.flag,
              call_of_none (by rw [setPc_self]; rfl)⟩
    · rw [setPc_self]
      trivial
  · have hsame : SameFor x ((x.setEpoch t 0).setPc t .out) u :=
      ⟨Function.update_of_ne hu .., rfl, rfl, rfl, setPc_of_ne _ _ _ _ hu⟩
    refine (h.good u).of_sameFor hsame (h.good u).knows ((h.good u).status.congr hsame)
      ((h.good u).scans.mono rfl fun w hw hw' => hw ?_)
    by_cases hwt : w = t
    · subst w
      exact absurd hw' hout
    · change Function.update x.epoch t 0 w ≠ 0 at hw'
      rwa [Function.update_of_ne hwt] at hw'

theorem Inv.startSession (h : Inv n mode x) (hlt : t < n) (hrest : x.state.phase = .rest)
    (ctx : ExecutionContext) :
    Inv n mode (((x.setCtx t ctx).setAcked t []).setPc t .entering) := by
  have hmode := h.mode_of_rest hrest
  subst hmode
  refine h.of_step rfl rfl h.state ?_ (fun u hu => ?_) (fun ho => ho.elim)
    (h.published_of_step rfl (fun _ _ => nofun) fun _ _ _ _ w phase hw => Or.inl ?_)
  · refine ⟨fun hle => absurd hlt (Nat.not_lt.mpr hle), Or.inr (Or.inl (setPc_self ..)), ?_,
      ⟨(h.good t).status.flag, call_of_none (by rw [setPc_self]; rfl)⟩, ?_⟩
    · rw [setPc_self]
      trivial
    · rw [setPc_self]
      trivial
  · have hsame : SameFor x (((x.setCtx t ctx).setAcked t []).setPc t .entering) u :=
      ⟨rfl, rfl, Function.update_of_ne hu .., Function.update_of_ne hu .., setPc_of_ne _ _ _ _ hu⟩
    exact (h.good u).of_sameFor hsame (h.good u).knows ((h.good u).status.congr hsame)
      ((h.good u).scans.mono rfl fun _ hw => hw)
  · by_cases hwt : w = t
    · subst w
      change phase ∈ Function.update x.acked t [] t at hw
      rw [Function.update_self] at hw
      cases hw
    · change phase ∈ Function.update x.acked t [] w at hw
      rwa [Function.update_of_ne hwt] at hw

end Sessions

section Finish

theorem Inv.finishing (h : Inv n mode x) (hpc : x.pc t = .finishing f c) :
    Inv n mode (((x.setPhaseFinished t c.phase).setAcked t (c.phase :: x.acked t)).setPc t
      (.scanning f c 1 none)) := by
  generalize hy : ((x.setPhaseFinished t c.phase).setAcked t (c.phase :: x.acked t)).setPc t
    (.scanning f c 1 none) = y
  have hhead : (x.pc t).call = some (f, c) := by
    rw [hpc]
    rfl
  have hin := (h.good t).protected_of_call hhead
  have hypc : y.pc t = .scanning f c 1 none := by
    rw [← hy]
    exact setPc_self ..
  have hflag : y.phaseFinished t = c.phase := by
    rw [← hy]
    exact Function.update_self ..
  have hacked : y.acked t = c.phase :: x.acked t := by
    rw [← hy]
    exact Function.update_self ..
  have hsame : ∀ u, u ≠ t → SameFor x y u := by
    intro u hu
    rw [← hy]
    exact ⟨rfl, Function.update_of_ne hu .., Function.update_of_ne hu .., rfl,
      setPc_of_ne _ _ _ _ hu⟩
  have hstate : y.state = x.state := by
    rw [← hy]
    rfl
  -- an entry that a scan for the current phase has passed keeps its phase
  have hkey : mode.Status y t ∧ (x.state.phase ≠ .rest →
      x.phaseFinished t = x.state.phase → c.phase = x.state.phase) := by
    have hstatus := (h.good t).status
    have hmode := h.state
    cases mode with
    | rest =>
        obtain ⟨rfl, hlast⟩ := hstatus.call f c hhead
        refine ⟨⟨Or.inr (by rwa [hflag]), ?_⟩, fun hne => absurd hmode hne⟩
        rw [hypc]
        rintro _ _ ⟨⟩
        exact ⟨rfl, hlast⟩
    | underway a v i =>
        obtain ⟨hpos, hle, hst⟩ := hmode
        have hlen := stage_length_pos hpos hle
        rcases hstatus with ⟨j, hj⟩ | ⟨hi, hb⟩
        · obtain ⟨k, l, hjk, hkl, hli, rfl, rfl⟩ := hj.call f c hhead
          refine ⟨Or.inl ⟨k, Nat.le_trans hj.pos hjk, by omega, ?_, hflag, ?_, ?_, ?_⟩, ?_⟩
          · rw [← hy]
            exact hin
          · rw [hacked]
            exact List.mem_cons_self
          · rw [hypc]
            exact fun hb => hb.elim
          · rw [hypc]
            rintro _ _ ⟨⟩
            exact ⟨k, l, Nat.le_refl k, hkl, hli, rfl, rfl⟩
          · intro _ heq
            rw [hj.flag, hst] at heq
            have hji := stage_phase_inj (by omega) hle heq
            rw [hst, show k = i by omega]
        · have hone := hi hin
          subst hone
          refine ⟨?_, fun _ heq => absurd (heq.trans (by rw [hst])) (first_ne_of_flag hlen hb.flag)⟩
          rcases hb.call f c hhead with ⟨rfl, hlast⟩ | hjoin
          · refine Or.inr ⟨fun _ => rfl, ?_, Or.inr (by rwa [hflag]), ?_⟩
            · rw [hacked, List.mem_cons, not_or]
              exact ⟨fun heq => not_isLast_first hlen (heq ▸ hlast), hb.first⟩
            · rw [hypc]
              rintro _ _ ⟨⟩
              exact Or.inl ⟨rfl, hlast⟩
          · rw [hpc] at hjoin
            obtain ⟨rfl, rfl⟩ := hjoin
            refine Or.inl ⟨1, Nat.le_refl 1, Nat.le_refl 1, ?_, hflag, ?_, ?_, ?_⟩
            · rw [← hy]
              exact hin
            · rw [hacked]
              exact List.mem_cons_self
            · rw [hypc]
              exact fun hb => hb.elim
            · rw [hypc]
              rintro _ _ ⟨⟩
              exact ⟨1, 1, Nat.le_refl 1, Nat.le_refl 1, Nat.le_refl 1, rfl, rfl⟩
  obtain ⟨hstatus, hkeep⟩ := hkey
  have hscans : ∀ u, (x.pc u).Scans n y := by
    intro u
    by_cases hrest : x.state.phase = .rest
    · have hmode := h.mode_of_rest hrest
      subst hmode
      exact h.scans_of_rest (by rw [hstate]; exact hrest) u
    · refine (h.good u).scans.mono hstate fun w hw hw' => ?_
      by_cases hwt : w = t
      · subst w
        rw [hflag]
        exact hkeep hrest (hw hin)
      · rw [(hsame w hwt).flag]
        apply hw
        rw [Protected, ← (hsame w hwt).epoch]
        exact hw'
  have hupdate : y.pc = Function.update x.pc t (.scanning f c 1 none) := by
    rw [← hy]
    rfl
  refine h.of_step hupdate (by rw [← hy]; rfl) (by rw [hstate]; exact h.state) ?_
    (fun u hu => ?_) (fun ho => ho.elim) (h.published_of_step hupdate (fun _ _ => by rintro ⟨⟩) ?_)
  · have hlt := (h.good t).lt (by rw [hpc]; rintro ⟨⟩)
    refine ⟨fun hle => absurd hlt (Nat.not_lt.mpr hle), Or.inr (Or.inr ?_), ?_, hstatus, ?_⟩
    · rw [← hy]
      exact hin
    · rw [hypc]
      trivial
    · rw [hypc]
      exact fun _ => ⟨fun u hpos hlt => absurd hlt (Nat.not_lt.mpr hpos), fun he => by cases he⟩
  · refine (h.good u).of_sameFor (hsame u hu) ?_ ((h.good u).status.congr (hsame u hu)) (hscans u)
    rw [hstate]
    exact (h.good u).knows
  · intro u a v hu w phase hw
    by_cases hwt : w = t
    · subst w
      rw [hacked] at hw
      rcases List.mem_cons.mp hw with rfl | hw
      · have hknows := (h.good u).knows
        rw [hu] at hknows
        have hmode := h.mode_of_rest (by rw [hknows.1])
        subst hmode
        obtain ⟨rfl, hlast⟩ := (h.good t).status.call f c hhead
        exact Or.inr hlast
      · exact Or.inl hw
    · rw [(hsame w hwt).acked] at hw
      exact Or.inl hw

end Finish

section Transitions

theorem Inv.owner_state (h : Inv n mode x) (ho : (x.pc u).IsOwner) :
    x.state.phase = .rest ∧ x.state.action ≠ .none := by
  have hknows := (h.good u).knows
  have hne : ∀ {a : Action}, a.phases ≠ [] → a ≠ .none := by
    rintro a ha rfl
    exact ha rfl
  cases hpc : x.pc u <;> rw [hpc] at ho hknows
  case resetting a v idx =>
    rw [hknows.1]
    exact ⟨rfl, hne hknows.2⟩
  case publishing a v =>
    rw [hknows.1]
    exact ⟨rfl, hne hknows.2⟩
  case resting f c v => exact hknows
  all_goals exact ho.elim

theorem Inv.setState_rest (h : Inv n .rest x) (hs : s.phase = .rest)
    (hfree : ∀ u, ¬ (x.pc u).IsOwner) : Inv n .rest (x.setState s) :=
  h.setState hs (fun u => (h.good u).knows.of_not_isOwner (hfree u)) (fun u => (h.good u).status)
    (h.scans_of_rest hs)

theorem Inv.opening (h : Inv n mode x) (hpc : x.pc t = .opening a v)
    (hstate : x.state = ⟨.none, .rest, v⟩) :
    Inv n .rest ((x.setState ⟨a, .rest, v⟩).setPc t (.resetting a v 1)) := by
  have hmode := h.mode_of_rest (by rw [hstate])
  subst hmode
  have hknows := (h.good t).knows
  rw [hpc] at hknows
  have hout : x.pc t ≠ .out := by
    rw [hpc]
    nofun
  have hin := h.protected hout (by rw [hpc]; nofun)
  have hfree : ∀ u, ¬ (x.pc u).IsOwner := by
    intro u ho
    exact (h.owner_state ho).2 (by rw [hstate])
  have hinv := h.setState_rest (s := ⟨a, .rest, v⟩) rfl hfree
  refine hinv.goto' hout (Or.inr hin) ⟨rfl, hknows⟩ ?_ trivial
    fun _ => ⟨fun _ _ => nofun, fun u _ => hfree u⟩
  exact (hinv.good t).status.goto (Or.inl rfl) (fun _ _ => Or.inl rfl) fun hb => hb.elim

theorem Inv.resting (h : Inv n mode x) (hpc : x.pc t = .resting f c v) :
    Inv n .rest ((x.setPc t (.ending f c)).setState ⟨.none, .rest, v⟩) := by
  have ho : (x.pc t).IsOwner := by
    rw [hpc]
    trivial
  have hhead : (x.pc t).call = some (f, c) := by
    rw [hpc]
    rfl
  have hmode := h.mode_of_rest (h.owner_state ho).1
  subst hmode
  have hinv : Inv n .rest (x.setPc t (.ending f c)) := by
    refine h.goto' (by rw [hpc]; nofun) (Or.inr ((h.good t).protected_of_call hhead)) trivial ?_
      trivial False.elim
    refine (h.good t).status.goto (Or.inr hhead.symm) (fun first hjoin => ?_) fun hb => hb.elim
    rw [hpc] at hjoin
    exact hjoin.elim
  refine hinv.setState_rest rfl fun u hou => ?_
  by_cases hu : u = t
  · subst u
    rw [setPc_self] at hou
    exact hou
  · rw [setPc_of_ne _ _ _ _ hu] at hou
    exact hu (h.owner u t hou ho)

theorem Inv.resetting {idx : Nat} {ready : Bool} (h : Inv n mode x)
    (hpc : x.pc t = .resetting a v idx) (hrun : x.run n t ready = some y) : Inv n mode y := by
  have ho : (x.pc t).IsOwner := by
    rw [hpc]
    trivial
  have hout : x.pc t ≠ .out := by
    rw [hpc]
    rintro ⟨⟩
  have hin := h.protected hout (by rw [hpc]; rintro ⟨⟩)
  have hlt := (h.good t).lt hout
  have hknows := (h.good t).knows
  rw [hpc] at hknows
  have hrest := (h.owner_state ho).1
  have hmode := h.mode_of_rest hrest
  subst hmode
  have hfree : ∀ u, u ≠ t → ¬ (x.pc u).IsOwner := fun u hu hou => hu (h.owner u t hou ho)
  -- both steps go on to a place that is in no call, and leave `REST` in the flags at most
  have hgoal : ∀ {z : System} {pc : Pc}, z.pc = Function.update x.pc t pc → z.epoch = x.epoch →
      z.currentEpoch = x.currentEpoch → z.state = x.state →
      (∀ u, z.phaseFinished u = .rest ∨ z.phaseFinished u = x.phaseFinished u) →
      (∀ u a v, z.pc u = .publishing a v → ∀ w, ∀ phase ∈ z.acked w, IsLast phase) →
      pc.call = none → pc.Knows x.state → Inv n .rest z := by
    intro z pc hzpc hzepoch hzcurrent hzstate hzflag hzpub hcall hzknows
    have hsettled : ∀ u, Settled z u := by
      intro u
      constructor
      · rcases hzflag u with hr | hsame
        · exact Or.inl hr
        · rw [hsame]
          exact (h.good u).status.flag
      · rw [hzpc]
        by_cases hut : u = t
        · subst u
          rw [Function.update_self]
          exact call_of_none hcall
        · rw [Function.update_of_ne hut]
          exact (h.good u).status.call
    refine h.of_step hzpc hzcurrent (by rw [hzstate]; exact hrest) ?_ (fun u hu => ?_)
      (fun _ => hfree) hzpub
    · refine ⟨fun hle => absurd hlt (Nat.not_lt.mpr hle), ?_, ?_, hsettled t, ?_⟩
      · rw [Protected, hzepoch]
        exact Or.inr (Or.inr hin)
      · rw [hzpc, Function.update_self, hzstate]
        exact hzknows
      · exact (hsettled t).scans (by rw [hzstate]; exact hrest)
    · have hpcu : z.pc u = x.pc u := by
        rw [hzpc, Function.update_of_ne hu]
      refine ⟨?_, ?_, ?_, hsettled u, (hsettled u).scans (by rw [hzstate]; exact hrest)⟩
      · rw [hpcu, Protected, hzepoch]
        exact (h.good u).range
      · rw [hpcu, Protected, hzepoch]
        exact (h.good u).inside
      · rw [hpcu, hzstate]
        exact (h.good u).knows
  simp only [System.run, hpc] at hrun
  split at hrun
  · cases hrun
    refine hgoal rfl rfl rfl rfl (fun u => ?_)
      (h.published_of_step rfl (fun _ _ => by rintro ⟨⟩) fun _ _ _ _ _ _ hold => Or.inl hold) rfl hknows
    by_cases hu : u = idx
    · subst u
      exact Or.inl (Function.update_self ..)
    · exact Or.inr (Function.update_of_ne hu ..)
  · cases hrun
    exact hgoal rfl rfl rfl rfl (fun u => Or.inr rfl)
      (fun _ _ _ _ _ phase hphase => absurd hphase List.not_mem_nil) rfl hknows

theorem Inv.publishing (h : Inv n mode x) (hpc : x.pc t = .publishing a v)
    (hcall : pc = .entering ∨ pc = .idle) :
    Inv n (.underway a v 1) ((x.setPc t pc).setState (stage a v 1)) := by
  have ho : (x.pc t).IsOwner := by
    rw [hpc]
    trivial
  have hout : x.pc t ≠ .out := by
    rw [hpc]
    nofun
  have hin := h.protected hout (by rw [hpc]; nofun)
  have hknows := (h.good t).knows
  rw [hpc] at hknows
  have hlen : 1 ≤ a.phases.length := List.length_pos_iff.mpr hknows.2
  have hmode := h.mode_of_rest (h.owner_state ho).1
  subst hmode
  have hnone : pc.call = none := by
    rcases hcall with rfl | rfl <;> rfl
  have hinv : Inv n .rest (x.setPc t pc) := by
    refine h.goto' hout (Or.inr hin) ?_
      ⟨(h.good t).status.flag, call_of_none (by rw [setPc_self]; exact hnone)⟩ ?_ ?_
    · rcases hcall with rfl | rfl <;> trivial
    · rcases hcall with rfl | rfl <;> trivial
    · rcases hcall with rfl | rfl <;> exact False.elim
  refine hinv.setState ⟨Nat.le_refl 1, hlen, rfl⟩ (fun u => ?_) (fun u => ?_) fun u => ?_
  · refine (hinv.good u).knows.of_not_isOwner fun hou => ?_
    by_cases hu : u = t
    · subst u
      rw [setPc_self] at hou
      rcases hcall with rfl | rfl <;> exact hou
    · rw [setPc_of_ne _ _ _ _ hu] at hou
      exact hu (h.owner u t hou ho)
  · refine Or.inr ⟨fun _ => rfl, fun hu => ?_, (hinv.good u).status.flag, fun f c hfc => ?_⟩
    · exact not_isLast_first hlen (h.published t a v hpc u _ hu)
    · exact Or.inl ((hinv.good u).status.call f c hfc)
  · refine Pc.Scans.of_ne fun f c hfc heq => ?_
    obtain ⟨rfl, hlast⟩ := (hinv.good u).status.call f c hfc
    rw [heq] at hlast
    exact not_isLast_first hlen hlast

theorem stage_indexChkpt (hle : i ≤ a.phases.length)
    (hphase : (stage a v i).phase = .indexChkpt) (haction : a ≠ .checkpointIndex) :
    i = 2 ∧ i < a.phases.length := by
  have hmem : Phase.indexChkpt ∈ a.phases := by
    have hlt : i < (Phase.rest :: a.phases).length := Nat.lt_succ_of_le hle
    have hget : (Phase.rest :: a.phases)[i] = .indexChkpt := by
      rw [← List.getD_eq_getElem _ .rest hlt]
      exact hphase
    have hmem := hget ▸ List.getElem_mem hlt
    rcases List.mem_cons.mp hmem with heq | hmem
    · cases heq
    · exact hmem
  cases a
  case checkpointFull =>
    have heq : i = 2 :=
      stage_phase_inj (a := .checkpointFull) (w := v) hle (by decide) hphase
    exact ⟨heq, by rw [heq]; decide⟩
  case checkpointIndex => exact absurd rfl haction
  all_goals exact absurd hmem (by decide)

/-- Every protected thread has finished the phase that a thread leaves, or the
phase is left without its being asked. -/
theorem Inv.arrived_of_exchange {finished : Bool} (h : Inv n (.underway a v i) x)
    (hpc : x.pc t = .moving f (stage a v i) finished)
    (hzero : finished = true → Passes x (stage a v i).phase 0) (hu : Protected x u) :
    ∃ j, Arrived x a v i j u ∧ (finished = true → j = i) := by
  obtain ⟨hpos, hle, hstate⟩ := h.state
  have hlen := stage_length_pos hpos hle
  have hgood := h.good t
  cases finished with
  | true =>
      have hscans := hgood.scans
      rw [hpc] at hscans
      have hflag : x.phaseFinished u = (stage a v i).phase := by
        rcases Nat.eq_zero_or_pos u with rfl | hupos
        · exact hzero rfl hu
        · refine hscans hstate.symm u hupos ?_ hu
          by_contra hgt
          exact ((h.good u).range (by omega)).2 hu
      rcases (h.good u).status with ⟨j, hj⟩ | ⟨hi, hb⟩
      · refine ⟨j, hj, fun _ => ?_⟩
        rw [hj.flag] at hflag
        exact stage_phase_inj (Nat.le_trans hj.le hle) hle hflag
      · have hone := hi hu
        subst hone
        exact absurd hflag (first_ne_of_flag hlen hb.flag)
  | false =>
      have hknows := hgood.knows
      rw [hpc] at hknows
      obtain ⟨htwo, -⟩ := stage_indexChkpt hle hknows.1 hknows.2
      rcases (h.good u).status with ⟨j, hj⟩ | ⟨hi, -⟩
      · exact ⟨j, hj, nofun⟩
      · exact absurd (hi hu) (by omega)

theorem Inv.not_isOwner_of_underway (h : Inv n (.underway a v i) x) : ¬ (x.pc u).IsOwner := by
  intro ho
  obtain ⟨hpos, hle, hstate⟩ := h.state
  have hrest := (h.owner_state ho).1
  rw [hstate] at hrest
  exact stage_phase_ne_rest hpos hle hrest

theorem Inv.advance (h : Inv n (.underway a v i) x) (hnext : i < a.phases.length)
    (harrived : ∀ u, Protected x u → ∃ j, Arrived x a v i j u) :
    Inv n (.underway a v (i + 1)) (x.setState (stage a v (i + 1))) := by
  refine h.setState ⟨Nat.succ_pos i, hnext, rfl⟩
    (fun u => (h.good u).knows.of_not_isOwner h.not_isOwner_of_underway) (fun u => ?_) fun u => ?_
  · by_cases hu : Protected x u
    · obtain ⟨j, hj⟩ := harrived u hu
      refine Or.inl ⟨j, hj.pos, Nat.le_succ_of_le hj.le, hj.isProtected, hj.flag, hj.acked, ?_, ?_⟩
      · intro hb
        obtain ⟨k, hjk, hki, hk⟩ := hj.ctx hb
        exact ⟨k, hjk, Nat.le_succ_of_le hki, hk⟩
      · intro f c hfc
        obtain ⟨k, l, hjk, hkl, hli, hc, hf⟩ := hj.call f c hfc
        exact ⟨k, l, hjk, hkl, Nat.le_succ_of_le hli, hc, hf⟩
    · rcases (h.good u).status with ⟨j, hj⟩ | ⟨-, hb⟩
      · exact absurd hj.isProtected hu
      · exact Or.inr ⟨fun hu' => absurd hu' hu, hb⟩
  · refine Pc.Scans.of_ne fun f c hfc heq => ?_
    obtain ⟨j, hj⟩ := harrived u ((h.good u).protected_of_call hfc)
    obtain ⟨k, l, hjk, hkl, hli, rfl, -⟩ := hj.call f c hfc
    have := stage_inj (by omega) hnext heq
    omega

theorem Inv.retire (h : Inv n (.underway a v a.phases.length) x) (hs : s.phase = .rest)
    (harrived : ∀ u, Protected x u → Arrived x a v a.phases.length a.phases.length u) :
    Inv n .rest (x.setState s) := by
  obtain ⟨hlen, -, -⟩ := h.state
  have hlast := isLast_stage_length (v := v) hlen
  have hsettled : ∀ u, Settled x u := by
    intro u
    by_cases hu : Protected x u
    · have hj := harrived u hu
      refine ⟨Or.inr (by rw [hj.flag]; exact hlast), fun f c hfc => ?_⟩
      obtain ⟨k, l, hjk, hkl, hli, rfl, rfl⟩ := hj.call f c hfc
      have hk : k = a.phases.length := by omega
      have hl : l = a.phases.length := by omega
      rw [hk, hl]
      exact ⟨rfl, hlast⟩
    · rcases (h.good u).status with ⟨j, hj⟩ | ⟨-, hb⟩
      · exact absurd hj.isProtected hu
      · exact ⟨hb.flag, fun f c hfc => absurd ((h.good u).protected_of_call hfc) hu⟩
  exact h.setState hs (fun u => (h.good u).knows.of_not_isOwner h.not_isOwner_of_underway) hsettled
    fun u => (hsettled u).scans hs

theorem Inv.moving {finished ready : Bool} (h : Inv n mode x) (hpc : x.pc t = .moving f c finished)
    (hzero : finished = true → x.state = c → Passes x c.phase 0)
    (hrun : x.run n t ready = some y) : ∃ mode', Inv n mode' y := by
  have hhead : (x.pc t).call = some (f, c) := by
    rw [hpc]
    rfl
  have hout : x.pc t ≠ .out := by
    rw [hpc]
    rintro ⟨⟩
  have hin := (h.good t).protected_of_call hhead
  have hends : ∀ {z : System} {mode' : Mode}, Inv n mode' z → z.pc = x.pc →
      z.epoch = x.epoch → Inv n mode' (z.setPc t (.ending f c)) := by
    intro z mode' hz hzpc hzepoch
    refine hz.goto' (by rw [hzpc]; exact hout) (Or.inr (by rw [Protected, hzepoch]; exact hin))
      trivial ?_ trivial False.elim
    refine (hz.good t).status.goto (Or.inr (by rw [hzpc]; exact hhead.symm)) (fun first hjoin => ?_)
      fun hb => hb.elim
    rw [hzpc, hpc] at hjoin
    exact hjoin.elim
  simp only [System.run, hpc] at hrun
  split at hrun
  · rename_i hcur
    subst hcur
    have hmode := h.state
    cases mode with
    | rest =>
        obtain ⟨rfl, hlast⟩ := (h.good t).status.call f x.state hhead
        rw [show x.state.phase = .rest from hmode] at hlast
        exact absurd hlast (by decide)
    | underway a v i =>
        obtain ⟨hpos, hle, hstate⟩ := hmode
        have harrived := fun u (hu : Protected x u) =>
          h.arrived_of_exchange (hstate ▸ hpc) (fun hf => hstate ▸ hzero hf rfl) hu
        rcases Nat.lt_or_eq_of_le hle with hnext | hend
        · rw [hstate, next_stage hnext] at hrun
          simp only [if_neg (stage_phase_ne_rest (a := a) (v := v) (Nat.succ_pos i) hnext)] at hrun
          cases hrun
          refine ⟨.underway a v (i + 1), ?_⟩
          rw [← hstate]
          exact hends (h.advance hnext fun u hu => (harrived u hu).imp fun j hj => hj.1) rfl rfl
        · subst hend
          have hfin : finished = true := by
            by_contra hf
            rw [Bool.not_eq_true] at hf
            subst hf
            have hknows := (h.good t).knows
            rw [hpc, hstate] at hknows
            have := (stage_indexChkpt hle hknows.1 hknows.2).2
            omega
          rw [hstate, next_stage_last hpos] at hrun
          simp only [if_true] at hrun
          cases hrun
          have hinv := h.retire (s := ⟨a, .rest, (stage a v a.phases.length).version⟩) rfl
            fun u hu => by
              obtain ⟨j, hj, hji⟩ := harrived u hu
              exact hji hfin ▸ hj
          refine ⟨.rest, hinv.goto' hout (Or.inr hin) ⟨rfl, ?_⟩ ?_ trivial
            fun _ => ⟨fun _ _ => (by rintro ⟨⟩), fun u _ => h.not_isOwner_of_underway⟩⟩
          · rintro rfl
            exact absurd hpos (by decide)
          · refine (hinv.good t).status.goto (Or.inr ?_) (fun first hjoin => ?_) fun hb => hb.elim
            · rw [← hstate]
              exact hhead.symm
            · change (x.pc t).Joins first at hjoin
              rw [hpc] at hjoin
              exact hjoin.elim
  · cases hrun
    exact ⟨mode, hends h rfl rfl⟩

end Transitions

section Run

theorem inv_start : Inv n .rest System.start where
  epoch := Nat.one_ne_zero
  state := rfl
  good := fun t =>
    { range := fun _ => ⟨rfl, fun hp => hp rfl⟩
      inside := Or.inl rfl
      knows := trivial
      status := ⟨Or.inl rfl, call_of_none rfl⟩
      scans := trivial }
  owner := fun _ _ ho => ho.elim
  published := fun _ _ _ hpc => by cases hpc

theorem Inv.step_between (h : Inv n mode x) (hb : (x.pc t).Between)
    (hin : pc = .entering ∨ Protected x t)
    (hcall : pc.call = none) (hknows : pc.Knows x.state) (hscans : pc.Scans n x)
    (howner : ¬ pc.IsOwner) : Inv n mode (x.setPc t pc) := by
  have hout : x.pc t ≠ .out := by
    intro hpc
    rw [hpc] at hb
    exact hb
  refine h.goto' hout hin hknows ?_ hscans fun ho => absurd ho howner
  exact (h.good t).status.goto (Or.inl hcall) (fun _ _ => Or.inl hcall) fun _ => ⟨hb, rfl⟩

theorem Inv.run {ready : Bool} (h : Inv n mode x) (hok : Orderly x (.run t ready))
    (hrun : x.run n t ready = some y) : ∃ mode', Inv n mode' y := by
  cases hpc : x.pc t <;> simp only [Orderly, hpc, Pc.Orderly] at hok
  case out =>
    simp only [System.run, hpc] at hrun
    cases hrun
  case idle =>
    simp only [System.run, hpc] at hrun
    cases hrun
  case entering =>
    simp only [System.run, hpc] at hrun
    cases hrun
    exact ⟨mode, h.entering hpc hok⟩
  case refreshing =>
    have hin := h.protected (by rw [hpc]; rintro ⟨⟩) (by rw [hpc]; rintro ⟨⟩)
    have hb : (x.pc t).Between := by
      rw [hpc]
      trivial
    simp only [System.run, hpc] at hrun
    split at hrun
    · cases hrun
      exact ⟨mode, h.step_between hb (Or.inr hin) rfl trivial trivial id⟩
    · cases hrun
      exact ⟨mode, h.step_between hb (Or.inr hin) rfl trivial trivial id⟩
  case handling => exact ⟨mode, h.handling hpc hok hrun⟩
  case iterating f p => exact ⟨mode, h.iterating hpc hrun⟩
  case ending f c =>
    simp only [System.run, hpc] at hrun
    cases hrun
    exact ⟨mode, h.ending hpc⟩
  case lost =>
    simp only [System.run, hpc] at hrun
    cases hrun
    exact ⟨mode, h⟩
  case finishing f c =>
    simp only [System.run, hpc] at hrun
    cases hrun
    exact ⟨mode, h.finishing hpc⟩
  case scanning f c idx entryPhase => exact ⟨mode, h.scanning hpc hrun⟩
  case moving f c finished =>
    refine h.moving hpc (fun hf hc => ?_) hrun
    subst hf
    exact hok hc
  case resting f c v =>
    simp only [System.run, hpc] at hrun
    cases hrun
    exact ⟨.rest, h.resting hpc⟩
  case spinning f c =>
    have hhead : (x.pc t).call = some (f, c) := by
      rw [hpc]
      rfl
    simp only [System.run, hpc] at hrun
    split at hrun
    · cases hrun
      exact ⟨mode, h⟩
    · cases hrun
      refine ⟨mode, h.goto' (by rw [hpc]; rintro ⟨⟩) (Or.inr ((h.good t).protected_of_call hhead))
        trivial ?_ trivial False.elim⟩
      refine (h.good t).status.goto (Or.inr hhead.symm) (fun first hjoin => ?_) fun hb => hb.elim
      rw [hpc] at hjoin
      exact hjoin.elim
  case opening a v =>
    simp only [System.run, hpc] at hrun
    split at hrun
    · rename_i hstate
      cases hrun
      exact ⟨.rest, h.opening hpc hstate⟩
    · cases hrun
      have hin := h.protected (by rw [hpc]; rintro ⟨⟩) (by rw [hpc]; rintro ⟨⟩)
      exact ⟨mode, h.step_between (by rw [hpc]; trivial) (Or.inr hin) rfl trivial trivial id⟩
  case resetting a v idx => exact ⟨mode, h.resetting hpc hrun⟩
  case publishing a v =>
    have hknows := (h.good t).knows
    rw [hpc] at hknows
    have hfirst := next_stage (v := v) (List.length_pos_iff.mpr hknows.2)
    rw [stage_zero] at hfirst
    simp only [System.run, hpc, hfirst] at hrun
    cases hrun
    refine ⟨_, h.publishing hpc ?_⟩
    split
    · exact Or.inl rfl
    · exact Or.inr rfl

theorem Inv.next (h : Inv n mode x) (hok : Orderly x m) (hnext : x.next n m = some y) :
    ∃ mode', Inv n mode' y := by
  cases m with
  | startSession t =>
      simp only [System.next] at hnext
      split at hnext
      · rename_i hstart
        cases hnext
        have hmode := h.mode_of_rest hstart.2.2
        subst hmode
        exact ⟨.rest, h.startSession hstart.1 hstart.2.2 _⟩
      · cases hnext
  | refresh t =>
      simp only [System.next] at hnext
      split at hnext
      · rename_i hpc
        cases hnext
        exact ⟨mode, h.step_between (by rw [hpc]; trivial) (Or.inl rfl) rfl trivial trivial id⟩
      · cases hnext
  | stopSession t =>
      simp only [System.next] at hnext
      split at hnext
      · rename_i hstop
        cases hnext
        exact ⟨mode, h.stopSession hstop.1 hstop.2⟩
      · cases hnext
  | begin t action =>
      simp only [System.next] at hnext
      split at hnext
      · rename_i hbegin
        cases hnext
        have hin := h.protected (by rw [hbegin.1]; nofun) (by rw [hbegin.1]; nofun)
        exact ⟨mode, h.step_between (by rw [hbegin.1]; trivial) (Or.inr hin) rfl hbegin.2 trivial
          id⟩
      · cases hnext
  | run t ready => exact h.run hok hnext
  | bumpCurrentEpoch =>
      simp only [System.next] at hnext
      cases hnext
      exact ⟨mode, Nat.succ_ne_zero _, h.state, fun t => (h.good t).of_sameFor
        ⟨rfl, rfl, rfl, rfl, rfl⟩ (h.good t).knows
          ((h.good t).status.congr ⟨rfl, rfl, rfl, rfl, rfl⟩)
        ((h.good t).scans.mono rfl fun _ hp => hp), h.owner, h.published⟩

/-- In an orderly run every thread that is protected when a phase is left has
finished it. -/
theorem barrierHolds_of_orderly (hreach : Reaches (System.next n) Orderly System.start x)
    (hok : Orderly x m) : BarrierHolds n x m := by
  have hinv : ∃ mode, Inv n mode x := by
    refine hreach.invariant (I := fun x => ∃ mode, Inv n mode x) ⟨.rest, inv_start⟩ ?_
    rintro s a t ⟨mode, hs⟩ hoks hstep
    exact hs.next hoks hstep
  obtain ⟨mode, h⟩ := hinv
  intro phase hleave u hu hprotected
  cases m with
  | run t ready =>
      cases hpc : x.pc t
      case moving f c finished =>
        cases finished with
        | false =>
            simp only [leaves, hpc] at hleave
            cases hleave
        | true =>
            simp only [leaves, hpc] at hleave
            split at hleave
            · rename_i hcur
              cases hleave
              subst hcur
              simp only [Orderly, hpc, Pc.Orderly] at hok
              have hmode := h.state
              cases mode with
              | rest =>
                  obtain ⟨rfl, hlast⟩ := (h.good t).status.call f x.state (by rw [hpc]; rfl)
                  rw [show x.state.phase = .rest from hmode] at hlast
                  exact absurd hlast (by decide)
              | underway a v i =>
                  obtain ⟨hpos, hle, hstate⟩ := hmode
                  obtain ⟨j, hj, hji⟩ := h.arrived_of_exchange (hstate ▸ hpc)
                    (fun _ => hstate ▸ hok trivial) hprotected
                  have hji := hji rfl
                  subst hji
                  rw [hstate]
                  exact hj.acked
            · cases hleave
      all_goals
        simp only [leaves, hpc] at hleave
        cases hleave
  | _ => cases hleave

def joinedRun : List Move :=
  [.startSession 1, .startSession 2] ++ steps 1 2 ++ steps 2 2 ++ [.begin 1 .gc] ++ steps 1 6 ++
    [.refresh 1] ++ steps 1 10 ++ [.refresh 2] ++ steps 2 12

theorem barrierHolds_joinedRun :
    ∃ x, runActions (System.next 3) System.start joinedRun = some x ∧
      leaves x (.run 2 true) = some .gcIoPending ∧ BarrierHolds 3 x (.run 2 true) := by
  have hadmits : Admits (System.next 3) Orderly System.start joinedRun := by
    decide +kernel
  have hview : (runActions (System.next 3) System.start joinedRun).map (fun x =>
      (leaves x (.run 2 true), decide (Orderly x (.run 2 true)))) =
        some (some .gcIoPending, true) := by
    decide +kernel
  obtain ⟨x, hx, hx'⟩ := Option.map_eq_some_iff.mp hview
  simp only [Prod.mk.injEq, decide_eq_true_eq] at hx'
  exact ⟨x, hx, hx'.1, barrierHolds_of_orderly (reaches_of_runActions hadmits hx) hx'.2⟩

/-- No phase is ever left without a protected thread. -/
def BarrierSafe (n : Nat) : Prop :=
  ∀ x, Reaches (System.next n) (fun _ _ => True) System.start x → ∀ m, BarrierHolds n x m

/-- The thread with id one finishes its requests while the thread with id zero,
which is protected, has not called `Refresh`. -/
def skippedRun : List Move :=
  [.startSession 0, .startSession 1] ++ steps 0 2 ++ steps 1 2 ++ [.begin 1 .gc] ++
    steps 1 (kMaxNumThreads + 3) ++ [.refresh 1] ++ steps 1 (2 * kMaxNumThreads + 6)

theorem barrierSafe_false : ¬ BarrierSafe kMaxNumThreads := by
  intro hsafe
  have hview : (runActions (System.next kMaxNumThreads) System.start skippedRun).map (fun x =>
      (leaves x (.run 1 true), decide (Protected x 0), x.acked 0)) =
        some (some .gcIoPending, true, []) := by
    decide +kernel
  obtain ⟨x, hx, hx'⟩ := Option.map_eq_some_iff.mp hview
  simp only [Prod.mk.injEq, decide_eq_true_eq] at hx'
  obtain ⟨hleaves, hzero, hacked⟩ := hx'
  have hmem := hsafe x (reaches_of_runActions (admits_of_forall fun _ _ _ => trivial) hx)
    (.run 1 true) _ hleaves 0 (by decide) hzero
  rw [hacked] at hmem
  cases hmem

end Run

end HashComp.Phases
