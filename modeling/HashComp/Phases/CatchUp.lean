import HashComp.Library.Runs
import HashComp.Phases.Invariant

/-!
`HandleSpecialPhases` takes a thread from the phase it last wrote to the state
it has loaded, one transition after the other.  The phase it last wrote may stem
from another action, since the end of an iteration overwrites the `REST` of a
thread that is done.
-/

namespace HashComp.Phases

open HashComp.Faster (Phase)
open HashComp.Runs

variable {n t u k : Nat} {x y z : System} {m : Move} {a : Action} {v w : BitVec 32}
  {f c p q s : SystemState} {pc : Pc}

section Transitions

def Transitions : Nat → SystemState → SystemState → Prop
  | 0, s, s' => s = s'
  | k + 1, s, s' => ∃ q, s.getNextState = some q ∧ Transitions k q s'

def OnCycle (s : SystemState) : Prop :=
  s.phase ∈ Phase.rest :: s.action.phases ∧ s.action.phases ≠ []

def ShiftsVersion (a : Action) : Prop :=
  a = .checkpointFull ∨ a = .checkpointHybridLog

def CanCatchUp (s : SystemState) (ctx : ExecutionContext) : Prop :=
  ctx.phase ∈ Phase.rest :: s.action.phases ∧ (ShiftsVersion s.action ∨ ctx.version = s.version)

theorem Transitions.trans {j : Nat} (h : Transitions j s p) (h' : Transitions k p q) :
    Transitions (j + k) s q := by
  induction j generalizing s with
  | zero =>
      rw [Nat.zero_add, show s = p from h]
      exact h'
  | succ j ih =>
      obtain ⟨r, hr, h⟩ := h
      rw [Nat.succ_add]
      exact ⟨r, hr, ih h⟩

theorem transitions_stage {i j : Nat} (hij : i ≤ j) (hj : j ≤ a.phases.length) :
    Transitions (j - i) (stage a v i) (stage a v j) := by
  induction hd : j - i generalizing i with
  | zero =>
      rw [show i = j by omega]
      rfl
  | succ d ih => exact ⟨_, next_stage (by omega), ih (by omega) (by omega)⟩

theorem OnCycle.stage (h : OnCycle s) :
    ∃ v i, i ≤ s.action.phases.length ∧ s = stage s.action v i := by
  obtain ⟨i, hi, hphase⟩ := List.mem_iff_getElem.mp h.1
  have hget : (Phase.rest :: s.action.phases).getD i .rest = s.phase := by
    rw [List.getD_eq_getElem _ _ hi, hphase]
  rcases s with ⟨act, ph, ver⟩
  by_cases hshift : Phase.inProgress ∈ act.phases.take i
  · refine ⟨ver - 1, i, Nat.le_of_lt_succ hi, ?_⟩
    simp only [Phases.stage, if_pos hshift]
    rw [hget, BitVec.sub_add_cancel]
  · refine ⟨ver, i, Nat.le_of_lt_succ hi, ?_⟩
    simp only [Phases.stage, if_neg hshift]
    rw [hget]

theorem OnCycle.next (h : OnCycle s) : ∃ q, s.getNextState = some q ∧ OnCycle q := by
  obtain ⟨v, i, hi, hs⟩ := h.stage
  have hlen : 1 ≤ s.action.phases.length := List.length_pos_iff.mpr h.2
  rw [hs]
  rcases Nat.lt_or_eq_of_le hi with hlt | heq
  · refine ⟨_, next_stage hlt, ?_, h.2⟩
    have hget := List.getD_eq_getElem (Phase.rest :: s.action.phases) .rest (Nat.succ_lt_succ hlt)
    simp only [Phases.stage]
    rw [hget]
    exact List.getElem_mem _
  · rw [heq]
    exact ⟨_, next_stage_last hlen, List.mem_cons_self, h.2⟩

theorem transitions_rest (hpos : a.phases ≠ []) {i : Nat} (hi : i ≤ a.phases.length) :
    ∃ k, Transitions k (stage a v i) ⟨a, .rest, (stage a v a.phases.length).version⟩ := by
  have hlen : 1 ≤ a.phases.length := List.length_pos_iff.mpr hpos
  have hlast : Transitions 1 (stage a v a.phases.length)
      ⟨a, .rest, (stage a v a.phases.length).version⟩ := ⟨_, next_stage_last hlen, rfl⟩
  exact ⟨_, (transitions_stage hi (Nat.le_refl _)).trans hlast⟩

theorem transitions_add (hshift : ShiftsVersion a) (v : BitVec 32) (j : Nat) :
    ∃ k, Transitions k ⟨a, .rest, v⟩ ⟨a, .rest, v + BitVec.ofNat 32 j⟩ := by
  induction j with
  | zero => exact ⟨0, by rw [BitVec.add_zero]; rfl⟩
  | succ j ih =>
      obtain ⟨k, hk⟩ := ih
      have hround : ∀ w, ∃ k, Transitions k ⟨a, .rest, w⟩ ⟨a, .rest, w + 1⟩ := by
        intro w
        rcases hshift with rfl | rfl
        · exact transitions_rest (a := .checkpointFull) (v := w) (nofun) (Nat.zero_le _)
        · exact transitions_rest (a := .checkpointHybridLog) (v := w) (nofun) (Nat.zero_le _)
      obtain ⟨k', hk'⟩ := hround (v + BitVec.ofNat 32 j)
      refine ⟨k + k', hk.trans ?_⟩
      have heq : v + BitVec.ofNat 32 (j + 1) = v + BitVec.ofNat 32 j + 1 := by
        rw [BitVec.ofNat_add, ← BitVec.add_assoc]
        rfl
      rw [heq]
      exact hk'

theorem version_of_not_shiftsVersion (h : ¬ ShiftsVersion a) (i : Nat) :
    (stage a v i).version = v := by
  have hmem : Phase.inProgress ∉ a.phases := by
    cases a
    case checkpointFull => exact absurd (Or.inl rfl) h
    case checkpointHybridLog => exact absurd (Or.inr rfl) h
    all_goals decide
  exact if_neg fun htake => hmem (List.mem_of_mem_take htake)

theorem exists_transitions (hc : OnCycle c) (hf : OnCycle f) (haction : c.action = f.action)
    (hversion : ShiftsVersion f.action ∨ c.version = f.version) : ∃ k, Transitions k c f := by
  obtain ⟨v, i, hi, hcs⟩ := hc.stage
  obtain ⟨w, j, hj, hfs⟩ := hf.stage
  rw [haction] at hi hcs
  generalize f.action = a at hi hcs hj hfs hversion
  have hpos : a.phases ≠ [] := by
    have hne := hf.2
    rw [hfs] at hne
    exact hne
  subst hcs hfs
  obtain ⟨k₁, h₁⟩ := transitions_rest (v := v) hpos hi
  have h₃ : Transitions (j - 0) ⟨a, .rest, w⟩ (stage a w j) := by
    rw [← stage_zero]
    exact transitions_stage (Nat.zero_le j) hj
  by_cases hshift : ShiftsVersion a
  · obtain ⟨k₂, h₂⟩ := transitions_add hshift (stage a v a.phases.length).version
      (w - (stage a v a.phases.length).version).toNat
    rw [BitVec.ofNat_toNat, BitVec.setWidth_eq, BitVec.add_comm, BitVec.sub_add_cancel] at h₂
    exact ⟨_, (h₁.trans h₂).trans h₃⟩
  · have heq : v = w := by
      rcases hversion with h | h
      · exact absurd h hshift
      · rwa [version_of_not_shiftsVersion hshift, version_of_not_shiftsVersion hshift] at h
    subst heq
    rw [version_of_not_shiftsVersion hshift] at h₁
    exact ⟨_, h₁.trans h₃⟩

end Transitions

section Returns

def Move.By (t : Nat) : Move → Prop
  | .run u _ => u = t
  | _ => False

def Others (n t : Nat) : System → System → Prop :=
  Reaches (System.next n) fun _ m => ¬ m.By t

def Waiting (x : System) (t : Nat) : Prop :=
  ∃ f c, x.pc t = .spinning f c ∧ x.state.phase = .growInProgress

/-- However the other threads move in between and whatever the I/O is like, the
call of the thread is over after finitely many steps of its own besides those it
waits in, and the phase and the version of the thread are those of `final`. -/
inductive Returns (n t : Nat) (final : SystemState) : System → Prop where
  | done {x : System} (hpc : x.pc t = .idle) (hctx : x.ctx t = ⟨final.phase, final.version⟩) :
      Returns n t final x
  | step {x : System}
      (hnext : ∀ y, Others n t x y → ¬ Waiting y t → ∀ ready, ∃ z, y.run n t ready = some z)
      (h : ∀ y, Others n t x y → ¬ Waiting y t → ∀ ready z, y.run n t ready = some z →
        Returns n t final z) : Returns n t final x

theorem run_pc_of_ne {ready : Bool} (hne : t ≠ u) (h : x.run n u ready = some y) :
    y.pc t = x.pc t := by
  have hset : ∀ (z : System) (pc : Pc), (z.setPc u pc).pc t = z.pc t := fun z pc =>
    setPc_of_ne z u t pc hne
  unfold System.run at h
  repeat' split at h
  all_goals first
    | cases h; done
    | cases h; rfl
    | cases h; exact hset _ _

theorem next_pc_of_ne (hnot : ¬ m.By t) (hidle : x.pc t ≠ .idle) (hout : x.pc t ≠ .out)
    (h : x.next n m = some y) : y.pc t = x.pc t := by
  have hset : ∀ (z : System) (u : Nat) (pc : Pc), x.pc u = .idle ∨ x.pc u = .out →
      z.pc = x.pc → (z.setPc u pc).pc t = x.pc t := by
    intro z u pc hu hz
    rw [← hz]
    apply setPc_of_ne
    rintro rfl
    exact hu.elim hidle hout
  cases m with
  | run u ready => exact run_pc_of_ne (fun heq => hnot heq.symm) h
  | bumpCurrentEpoch =>
      cases h
      rfl
  | startSession u =>
      simp only [System.next] at h
      split at h
      · rename_i hstart
        cases h
        exact hset _ u _ (Or.inr hstart.2.1) rfl
      · cases h
  | refresh u =>
      simp only [System.next] at h
      split at h
      · rename_i hu
        cases h
        exact hset _ u _ (Or.inl hu) rfl
      · cases h
  | stopSession u =>
      simp only [System.next] at h
      split at h
      · rename_i hu
        cases h
        exact hset _ u _ (Or.inl hu.1) rfl
      · cases h
  | begin u action =>
      simp only [System.next] at h
      split at h
      · rename_i hu
        cases h
        exact hset _ u _ (Or.inl hu.1) rfl
      · cases h

theorem Others.same_pc (h : Others n t x y) (hidle : x.pc t ≠ .idle) (hout : x.pc t ≠ .out) :
    y.pc t = x.pc t := by
  refine Reaches.invariant (I := fun z => z.pc t = x.pc t) rfl ?_ h
  intro z m z' hz hnot hnext
  rw [next_pc_of_ne hnot (hz ▸ hidle) (hz ▸ hout) hnext, hz]

def ReturnsFrom (n t : Nat) (final : SystemState) (pc : Pc) : Prop :=
  ∀ x : System, x.pc t = pc → Returns n t final x

theorem ReturnsFrom.of_step (hidle : pc ≠ .idle) (hout : pc ≠ .out)
    (h : ∀ y ready, y.pc t = pc → ¬ Waiting y t → ∃ z, y.run n t ready = some z ∧
      Returns n t f z) : ReturnsFrom n t f pc := by
  intro x hpc
  have hsame : ∀ y, Others n t x y → y.pc t = pc := by
    intro y hy
    rw [hy.same_pc (hpc ▸ hidle) (hpc ▸ hout), hpc]
  refine .step (fun y hy hw ready => ?_) fun y hy hw ready z hz => ?_
  · obtain ⟨z, hz, -⟩ := h y ready (hsame y hy) hw
    exact ⟨z, hz⟩
  · obtain ⟨z', hz', hreturns⟩ := h y ready (hsame y hy) hw
    rw [hz] at hz'
    cases hz'
    exact hreturns

theorem ReturnsFrom.setPc (h : ReturnsFrom n t f pc) (x : System) : Returns n t f (x.setPc t pc) :=
  h _ (setPc_self ..)

theorem returnsFrom_ending (h : c ≠ f → ReturnsFrom n t f (.iterating f c)) :
    ReturnsFrom n t f (.ending f c) := by
  refine .of_step nofun nofun fun y ready hpc _ => ?_
  simp only [System.run, hpc]
  refine ⟨_, rfl, ?_⟩
  by_cases hcf : c = f
  · subst hcf
    rw [if_pos rfl]
    exact .done (setPc_self ..) (Function.update_self ..)
  · rw [if_neg hcf]
    exact (h hcf).setPc _

theorem returnsFrom_spinning (h : ReturnsFrom n t f (.ending f c)) :
    ReturnsFrom n t f (.spinning f c) := by
  refine .of_step nofun nofun fun y ready hpc hwait => ?_
  have hphase : y.state.phase ≠ .growInProgress := fun hp => hwait ⟨f, c, hpc, hp⟩
  simp only [System.run, hpc, if_neg hphase]
  exact ⟨_, rfl, h.setPc _⟩

theorem returnsFrom_resting (h : ReturnsFrom n t f (.ending f c)) (v : BitVec 32) :
    ReturnsFrom n t f (.resting f c v) := by
  refine .of_step nofun nofun fun y ready hpc _ => ?_
  simp only [System.run, hpc]
  exact ⟨_, rfl, h.setPc _⟩

theorem returnsFrom_moving (h : ReturnsFrom n t f (.ending f c)) (hc : OnCycle c)
    (finished : Bool) : ReturnsFrom n t f (.moving f c finished) := by
  refine .of_step nofun nofun fun y ready hpc _ => ?_
  obtain ⟨q, hq, -⟩ := hc.next
  simp only [System.run, hpc, hq]
  by_cases hcur : y.state = c
  · rw [if_pos hcur]
    refine ⟨_, rfl, ?_⟩
    split
    · exact (returnsFrom_resting h _).setPc _
    · exact h.setPc _
  · rw [if_neg hcur]
    exact ⟨_, rfl, h.setPc _⟩

theorem returnsFrom_scanning (h : ReturnsFrom n t f (.ending f c)) (hc : OnCycle c) (idx : Nat) :
    ReturnsFrom n t f (.scanning f c idx none) := by
  induction hleft : n + 1 - idx generalizing idx with
  | zero =>
      refine .of_step (by rintro ⟨⟩) (by rintro ⟨⟩) fun y ready hpc _ => ?_
      simp only [System.run, hpc, if_neg (show ¬ idx ≤ n by omega)]
      exact ⟨_, rfl, (returnsFrom_moving h hc true).setPc _⟩
  | succ left ih =>
      have hread : ∀ entryPhase, ReturnsFrom n t f (.scanning f c idx (some entryPhase)) := by
        intro entryPhase
        refine .of_step (by rintro ⟨⟩) (by rintro ⟨⟩) fun y ready hpc _ => ?_
        simp only [System.run, hpc]
        by_cases hstop : y.epoch idx ≠ 0 ∧ entryPhase ≠ c.phase
        · rw [if_pos hstop]
          refine ⟨_, rfl, ?_⟩
          unfold afterFinish
          split
          · exact (returnsFrom_spinning h).setPc _
          · exact h.setPc _
        · rw [if_neg hstop]
          exact ⟨_, rfl, (ih (idx + 1) (by omega)).setPc _⟩
      refine .of_step (by rintro ⟨⟩) (by rintro ⟨⟩) fun y ready hpc _ => ?_
      simp only [System.run, hpc, if_pos (show idx ≤ n by omega)]
      exact ⟨_, rfl, (hread _).setPc _⟩

theorem returnsFrom_finishing (h : ReturnsFrom n t f (.ending f c)) (hc : OnCycle c) :
    ReturnsFrom n t f (.finishing f c) := by
  refine .of_step nofun nofun fun y ready hpc _ => ?_
  simp only [System.run, hpc]
  exact ⟨_, rfl, (returnsFrom_scanning h hc 1).setPc _⟩

theorem returnsFrom_iterating (h : ReturnsFrom n t f (.ending f c)) (hc : OnCycle c)
    (hcur : currentState f p = some c) : ReturnsFrom n t f (.iterating f p) := by
  refine .of_step nofun nofun fun y ready hpc _ => ?_
  simp only [System.run, hpc, hcur]
  split
  · exact ⟨_, rfl, h.setPc _⟩
  · split
    · exact ⟨_, rfl, (returnsFrom_finishing h hc).setPc _⟩
    · exact ⟨_, rfl, (returnsFrom_finishing h hc).setPc _⟩
  · exact ⟨_, rfl, (returnsFrom_moving h hc false).setPc _⟩

theorem returnsFrom_of_transitions (hp : OnCycle p) (hk : Transitions k p f) :
    ReturnsFrom n t f (.iterating f p) := by
  induction k generalizing p with
  | zero =>
      rw [show p = f from hk] at hp ⊢
      exact returnsFrom_iterating (returnsFrom_ending fun hne => absurd rfl hne) hp (if_pos rfl)
  | succ k ih =>
      by_cases hpf : p = f
      · rw [hpf] at hp ⊢
        exact returnsFrom_iterating (returnsFrom_ending fun hne => absurd rfl hne) hp (if_pos rfl)
      · obtain ⟨q, hq, hk⟩ := hk
        obtain ⟨q', hq', hcycle⟩ := hp.next
        rw [hq] at hq'
        cases hq'
        refine returnsFrom_iterating (returnsFrom_ending fun _ => ih hcycle hk) hcycle ?_
        rw [currentState, if_neg hpf, hq]

end Returns

section Run

/-- A thread that has loaded a state can catch up with it. -/
def Comparable (x : System) : Move → Prop
  | .run t _ => x.pc t = .handling → x.state.phase ≠ .rest → CanCatchUp x.state (x.ctx t)
  | _ => True

/-- No thread takes a state of all ones for the next one, and every call of
`HandleSpecialPhases` returns with the state that it has loaded first. -/
def CatchesUp (n : Nat) (x : System) : Prop :=
  (∀ t, x.pc t ≠ .lost) ∧
    ∀ t ready y, x.pc t = .handling → Comparable x (.run t ready) → x.run n t ready = some y →
      Returns n t x.state y

structure Along (c f : SystemState) : Prop where
  cycle : OnCycle c
  final : OnCycle f
  action : c.action = f.action
  version : ShiftsVersion f.action ∨ c.version = f.version

structure Sane (x : System) (t : Nat) : Prop where
  found : x.pc t ≠ .lost
  call : ∀ f c, (x.pc t).call = some (f, c) → Along c f

theorem version_of_next (h : s.getNextState = some q) (hshift : ¬ ShiftsVersion s.action) :
    q.version = s.version := by
  rcases s with ⟨act, ph, ver⟩
  cases act
  case checkpointFull => exact absurd (Or.inl rfl) hshift
  case checkpointHybridLog => exact absurd (Or.inr rfl) hshift
  all_goals cases ph
  all_goals
    cases h
    try rfl

theorem Along.next (h : Along p f) : ∃ c, currentState f p = some c ∧ Along c f := by
  unfold currentState
  split
  · exact ⟨f, rfl, h.final, h.final, rfl, Or.inr rfl⟩
  · obtain ⟨q, hq, hcycle⟩ := h.cycle.next
    have haction := (next_action hq).trans h.action
    refine ⟨q, hq, hcycle, h.final, haction, ?_⟩
    by_cases hshift : ShiftsVersion f.action
    · exact Or.inl hshift
    · rcases h.version with hs | hv
      · exact Or.inl hs
      · exact Or.inr ((version_of_next hq (by rwa [h.action])).trans hv)

theorem CanCatchUp.along {ctx : ExecutionContext} (h : CanCatchUp s ctx) (hs : OnCycle s) :
    Along ⟨s.action, ctx.phase, ctx.version⟩ s where
  cycle := ⟨h.1, hs.2⟩
  final := hs
  action := rfl
  version := h.2

theorem Along.returnsFrom (h : Along p f) : ReturnsFrom n t f (.iterating f p) := by
  obtain ⟨k, hk⟩ := exists_transitions h.cycle h.final h.action h.version
  exact returnsFrom_of_transitions h.cycle hk

theorem Sane.setPc (x : System) (t : Nat) (pc : Pc) (hlost : pc ≠ .lost)
    (hcall : ∀ f c, pc.call = some (f, c) → Along c f) : Sane (x.setPc t pc) t := by
  constructor
  · rw [setPc_self]
    exact hlost
  · rw [setPc_self]
    exact hcall

structure CatchUpInv (x : System) : Prop where
  state : x.state.phase ≠ .rest → OnCycle x.state
  sane : ∀ t, Sane x t

theorem CatchUpInv.run {ready : Bool} (h : CatchUpInv x) (hok : Comparable x (.run t ready))
    (hrun : x.run n t ready = some y) :
    (y.state.phase ≠ .rest → OnCycle y.state) ∧ Sane y t := by
  have hsane := h.sane t
  -- a step within the call, and one out of it
  have hcall : ∀ {z : System} {pc : Pc}, z.state = x.state → pc.call = (x.pc t).call →
      pc ≠ .lost → (((z.setPc t pc).state.phase ≠ .rest → OnCycle (z.setPc t pc).state) ∧
        Sane (z.setPc t pc) t) := by
    intro z pc hstate hsame hlost
    refine ⟨?_, Sane.setPc _ _ _ hlost fun f c hfc => hsane.call f c ?_⟩
    · rw [setPc_state, hstate]
      exact h.state
    · rwa [← hsame]
  have hnone : ∀ {z : System} {pc : Pc}, z.state = x.state → pc.call = none →
      pc ≠ .lost → (((z.setPc t pc).state.phase ≠ .rest → OnCycle (z.setPc t pc).state) ∧
        Sane (z.setPc t pc) t) := by
    intro z pc hstate hfree hlost
    refine ⟨?_, Sane.setPc _ _ _ hlost (call_of_none hfree)⟩
    rw [setPc_state, hstate]
    exact h.state
  cases hpc : x.pc t
  case out =>
    simp only [System.run, hpc] at hrun
    cases hrun
  case idle =>
    simp only [System.run, hpc] at hrun
    cases hrun
  case entering =>
    simp only [System.run, hpc] at hrun
    cases hrun
    exact hnone rfl rfl (by rintro ⟨⟩)
  case refreshing =>
    simp only [System.run, hpc] at hrun
    split at hrun
    · cases hrun
      exact hnone rfl rfl (by rintro ⟨⟩)
    · cases hrun
      exact hnone rfl rfl (by rintro ⟨⟩)
  case handling =>
    simp only [System.run, hpc] at hrun
    split at hrun
    · cases hrun
      exact hnone rfl rfl (by rintro ⟨⟩)
    · rename_i hrest
      cases hrun
      refine ⟨h.state, Sane.setPc _ _ _ (by rintro ⟨⟩) ?_⟩
      rintro f c ⟨⟩
      exact (hok hpc hrest).along (h.state hrest)
  case iterating f p =>
    have halong := hsane.call f p (by rw [hpc]; rfl)
    obtain ⟨c, hcur, hnext⟩ := halong.next
    have hto : ∀ {z : System} {pc : Pc}, z.state = x.state → pc.call = some (f, c) →
        pc ≠ .lost → (((z.setPc t pc).state.phase ≠ .rest → OnCycle (z.setPc t pc).state) ∧
          Sane (z.setPc t pc) t) := by
      intro z pc hstate hfc hlost
      refine ⟨?_, Sane.setPc _ _ _ hlost ?_⟩
      · rw [setPc_state, hstate]
        exact h.state
      · rw [hfc]
        rintro _ _ ⟨⟩
        exact hnext
    simp only [System.run, hpc, hcur] at hrun
    split at hrun
    · cases hrun
      exact hto rfl rfl (by rintro ⟨⟩)
    · split at hrun
      · cases hrun
        exact hto rfl rfl (by rintro ⟨⟩)
      · cases hrun
        exact hto rfl rfl (by rintro ⟨⟩)
    · cases hrun
      exact hto rfl rfl (by rintro ⟨⟩)
  case ending f c =>
    simp only [System.run, hpc] at hrun
    cases hrun
    split
    · exact hnone rfl rfl (by rintro ⟨⟩)
    · exact hcall rfl (by rw [hpc]; rfl) (by rintro ⟨⟩)
  case lost => exact absurd hpc hsane.found
  case finishing f c =>
    simp only [System.run, hpc] at hrun
    cases hrun
    exact hcall rfl (by rw [hpc]; rfl) (by rintro ⟨⟩)
  case scanning f c idx entryPhase =>
    cases entryPhase with
    | none =>
        simp only [System.run, hpc] at hrun
        split at hrun
        · cases hrun
          exact hcall rfl (by rw [hpc]; rfl) (by rintro ⟨⟩)
        · cases hrun
          exact hcall rfl (by rw [hpc]; rfl) (by rintro ⟨⟩)
    | some entryPhase =>
        simp only [System.run, hpc] at hrun
        split at hrun
        · cases hrun
          unfold afterFinish
          split
          · exact hcall rfl (by rw [hpc]; rfl) (by rintro ⟨⟩)
          · exact hcall rfl (by rw [hpc]; rfl) (by rintro ⟨⟩)
        · cases hrun
          exact hcall rfl (by rw [hpc]; rfl) (by rintro ⟨⟩)
  case moving f c finished =>
    have halong := hsane.call f c (by rw [hpc]; rfl)
    obtain ⟨q, hq, hcycle⟩ := halong.cycle.next
    simp only [System.run, hpc, hq] at hrun
    split at hrun
    · cases hrun
      refine ⟨fun _ => hcycle, ?_⟩
      split
      · refine Sane.setPc _ _ _ (by rintro ⟨⟩) ?_
        rintro _ _ ⟨⟩
        exact halong
      · refine Sane.setPc _ _ _ (by rintro ⟨⟩) ?_
        rintro _ _ ⟨⟩
        exact halong
    · cases hrun
      exact hcall rfl (by rw [hpc]; rfl) (by rintro ⟨⟩)
  case resting f c v =>
    have halong := hsane.call f c (by rw [hpc]; rfl)
    simp only [System.run, hpc] at hrun
    cases hrun
    refine ⟨fun hne => absurd rfl hne, Sane.setPc _ _ _ (by rintro ⟨⟩) ?_⟩
    rintro _ _ ⟨⟩
    exact halong
  case spinning f c =>
    simp only [System.run, hpc] at hrun
    split at hrun
    · cases hrun
      exact ⟨h.state, hsane⟩
    · cases hrun
      exact hcall rfl (by rw [hpc]; rfl) (by rintro ⟨⟩)
  case opening a v =>
    simp only [System.run, hpc] at hrun
    split at hrun
    · cases hrun
      exact ⟨fun hne => absurd rfl hne, Sane.setPc _ _ _ (by rintro ⟨⟩) (call_of_none rfl)⟩
    · cases hrun
      exact hnone rfl rfl (by rintro ⟨⟩)
  case resetting a v idx =>
    simp only [System.run, hpc] at hrun
    split at hrun
    · cases hrun
      exact hnone rfl rfl (by rintro ⟨⟩)
    · cases hrun
      exact hnone rfl rfl (by rintro ⟨⟩)
  case publishing a v =>
    simp only [System.run, hpc] at hrun
    cases hfirst : SystemState.getNextState ⟨a, .rest, v⟩ with
    | none =>
        rw [hfirst] at hrun
        cases hrun
    | some first =>
        rw [hfirst] at hrun
        cases hrun
        have hphases : a.phases ≠ [] := by
          intro hnil
          cases a <;> first | cases hfirst; done | cases hnil
        obtain ⟨q, hq, hcycle⟩ := OnCycle.next (s := ⟨a, .rest, v⟩) ⟨List.mem_cons_self, hphases⟩
        rw [hfirst] at hq
        cases hq
        refine ⟨fun _ => hcycle, ?_⟩
        split
        · exact Sane.setPc _ _ _ (by rintro ⟨⟩) (call_of_none rfl)
        · exact Sane.setPc _ _ _ (by rintro ⟨⟩) (call_of_none rfl)

theorem Sane.congr (h : Sane x t) (hpc : y.pc t = x.pc t) : Sane y t := by
  constructor
  · rw [hpc]
    exact h.found
  · rw [hpc]
    exact h.call

theorem CatchUpInv.enter (h : CatchUpInv x) (z : System) (u : Nat) (pc : Pc)
    (hstate : z.state = x.state) (hpcs : z.pc = x.pc) (hlost : pc ≠ .lost)
    (hnone : pc.call = none) : CatchUpInv (z.setPc u pc) where
  state := by
    rw [setPc_state, hstate]
    exact h.state
  sane := fun t => by
    by_cases htu : t = u
    · subst htu
      exact Sane.setPc _ _ _ hlost (call_of_none hnone)
    · refine (h.sane t).congr ?_
      rw [setPc_of_ne z u t pc htu, hpcs]

theorem CatchUpInv.next (h : CatchUpInv x) (hok : Comparable x m)
    (hnext : x.next n m = some y) : CatchUpInv y := by
  cases m with
  | run u ready =>
      obtain ⟨hstate, hsane⟩ := h.run hok hnext
      refine ⟨hstate, fun t => ?_⟩
      by_cases htu : t = u
      · rw [htu]
        exact hsane
      · exact (h.sane t).congr (run_pc_of_ne htu hnext)
  | bumpCurrentEpoch =>
      cases hnext
      exact ⟨h.state, fun t => (h.sane t).congr rfl⟩
  | startSession u =>
      simp only [System.next] at hnext
      split at hnext
      · cases hnext
        exact h.enter _ u .entering rfl rfl nofun rfl
      · cases hnext
  | refresh u =>
      simp only [System.next] at hnext
      split at hnext
      · cases hnext
        exact h.enter _ u .entering rfl rfl nofun rfl
      · cases hnext
  | stopSession u =>
      simp only [System.next] at hnext
      split at hnext
      · cases hnext
        exact h.enter _ u .out rfl rfl nofun rfl
      · cases hnext
  | begin u action =>
      simp only [System.next] at hnext
      split at hnext
      · cases hnext
        exact h.enter _ u (.opening ..) rfl rfl nofun rfl
      · cases hnext

theorem catchUpInv_start : CatchUpInv System.start where
  state := fun hne => absurd rfl hne
  sane := fun _ => ⟨nofun, call_of_none rfl⟩

/-- Where every thread can catch up with the states it loads, it does. -/
theorem catchesUp_of_comparable (hreach : Reaches (System.next n) Comparable System.start x) :
    CatchesUp n x := by
  have h : CatchUpInv x :=
    hreach.invariant catchUpInv_start fun _ _ _ hs hok hstep => hs.next hok hstep
  refine ⟨fun t => (h.sane t).found, fun t ready y hpc hok hrun => ?_⟩
  simp only [System.run, hpc] at hrun
  by_cases hrest : x.state.phase = .rest
  · rw [if_pos hrest] at hrun
    cases hrun
    refine .done (setPc_self ..) ?_
    rw [hrest]
    exact Function.update_self ..
  · rw [if_neg hrest] at hrun
    cases hrun
    exact ((hok hpc hrest).along (h.state hrest)).returnsFrom.setPc _

instance decidableCanCatchUp (s : SystemState) (ctx : ExecutionContext) :
    Decidable (CanCatchUp s ctx) :=
  inferInstanceAs (Decidable (_ ∧ ((_ ∨ _) ∨ _)))

instance decidableComparable (x : System) : (m : Move) → Decidable (Comparable x m)
  | .run _ _ => inferInstanceAs (Decidable (_ → _ → _))
  | .startSession _ => .isTrue trivial
  | .refresh _ => .isTrue trivial
  | .stopSession _ => .isTrue trivial
  | .begin _ _ => .isTrue trivial
  | .bumpCurrentEpoch => .isTrue trivial

def lateRun : List Move :=
  [.startSession 1, .startSession 2] ++ steps 1 2 ++ steps 2 2 ++ [.begin 1 .gc] ++ steps 1 6 ++
    [.refresh 2] ++ steps 2 2

theorem catchesUp_lateRun :
    ∃ x, runActions (System.next 3) System.start lateRun = some x ∧ x.pc 2 = .handling ∧
      x.state.phase = .gcIoPending ∧ CatchesUp 3 x := by
  have hadmits : Admits (System.next 3) Comparable System.start lateRun := by
    decide +kernel
  have hview : (runActions (System.next 3) System.start lateRun).map
      (fun x => (x.pc 2, x.state.phase)) = some (.handling, .gcIoPending) := by
    decide +kernel
  obtain ⟨x, hx, hx'⟩ := Option.map_eq_some_iff.mp hview
  simp only [Prod.mk.injEq] at hx'
  exact ⟨x, hx, hx'.1, hx'.2, catchesUp_of_comparable (reaches_of_runActions hadmits hx)⟩

/-- Every thread catches up in every run. -/
def AlwaysCatchesUp (n : Nat) : Prop :=
  ∀ x, Reaches (System.next n) (fun _ _ => True) System.start x → CatchesUp n x

def markedRun : List Move :=
  [.startSession 0] ++ steps 0 2 ++
    [.begin 0 .checkpointIndex] ++ steps 0 (kMaxNumThreads + 3) ++
    [.refresh 0] ++ steps 0 (2 * kMaxNumThreads + 8) ++
    [.refresh 0] ++ steps 0 (2 * kMaxNumThreads + 9) ++
    [.begin 0 .gc] ++ steps 0 (kMaxNumThreads + 3) ++ [.refresh 0] ++ steps 0 4

theorem alwaysCatchesUp_false : ¬ AlwaysCatchesUp kMaxNumThreads := by
  intro halways
  have hview : (runActions (System.next kMaxNumThreads) System.start markedRun).map
      (fun x => x.pc 0) = some .lost := by
    decide +kernel
  obtain ⟨x, hx, hlost⟩ := Option.map_eq_some_iff.mp hview
  exact (halways x (reaches_of_runActions (admits_of_forall fun _ _ _ => trivial) hx)).1 0 hlost

end Run

end HashComp.Phases
