import HashComp.Library.Runs
import Mathlib.Data.Nat.Init

namespace HashComp.Fairness

open HashComp.Runs

variable {σ α τ : Type*} {next : σ → α → Option σ} {ok : σ → α → Prop}

/-- Runs of a system are runs of another, whose steps some of its own stand for. -/
theorem reaches_project {σ' α' : Type*} {next' : σ' → α' → Option σ'} {ok' : σ' → α' → Prop}
    (f : σ → σ') (hstep : ∀ s a t, ok s a → next s a = some t →
      f t = f s ∨ ∃ b, ok' (f s) b ∧ next' (f s) b = some (f t))
    {s t : σ} (h : Reaches next ok s t) : Reaches next' ok' (f s) (f t) := by
  induction h with
  | refl => exact Reaches.refl _
  | tail _ hlast ih =>
      obtain ⟨a, hok, hnext⟩ := hlast
      rcases hstep _ a _ hok hnext with hsame | ⟨b, hok', hnext'⟩
      · rwa [hsame]
      · exact ih.tail hok' hnext'

/-- An infinite run.  Where no action is taken the system rests. -/
structure Path (next : σ → α → Option σ) (ok : σ → α → Prop) where
  state : Nat → σ
  action : Nat → Option α
  rests : ∀ n, action n = none → state (n + 1) = state n
  acts : ∀ n a, action n = some a → ok (state n) a ∧ next (state n) a = some (state (n + 1))

def Fair (who : α → τ) (active : σ → τ → Prop) (path : Path next ok) : Prop :=
  ∀ n t, active (path.state n) t → ∃ m, n ≤ m ∧ ∃ a, path.action m = some a ∧ who a = t

/-- Whenever `P` holds, `Q` holds then or later. -/
def LeadsTo (path : Path next ok) (P Q : σ → Prop) : Prop :=
  ∀ n, P (path.state n) → ∃ m, n ≤ m ∧ Q (path.state m)

section Paths

variable {path : Path next ok} {P Q R I : σ → Prop}

theorem Path.reaches (path : Path next ok) {n m : Nat} (h : n ≤ m) :
    Reaches next ok (path.state n) (path.state m) := by
  induction m, h using Nat.le_induction with
  | base => exact Reaches.refl _
  | succ m _ ih =>
      cases ha : path.action m with
      | none =>
          rw [path.rests m ha]
          exact ih
      | some a =>
          obtain ⟨hok, hnext⟩ := path.acts m a ha
          exact ih.tail hok hnext

theorem LeadsTo.trans (h : LeadsTo path P Q) (h' : LeadsTo path Q R) : LeadsTo path P R := by
  intro n hP
  obtain ⟨m, hnm, hQ⟩ := h n hP
  obtain ⟨k, hmk, hR⟩ := h' m hQ
  exact ⟨k, Nat.le_trans hnm hmk, hR⟩

theorem LeadsTo.mono {Q' : σ → Prop} (h : LeadsTo path P Q) (himp : ∀ s, Q s → Q' s) :
    LeadsTo path P Q' := by
  intro n hP
  obtain ⟨m, hnm, hQ⟩ := h n hP
  exact ⟨m, hnm, himp _ hQ⟩

theorem Path.stable (path : Path next ok) (hI : ∀ n, I (path.state n))
    (hstep : ∀ s a s', I s → P s → ok s a → next s a = some s' → P s') {n m : Nat}
    (h : n ≤ m) (hP : P (path.state n)) : P (path.state m) := by
  induction m, h using Nat.le_induction with
  | base => exact hP
  | succ m _ ih =>
      cases ha : path.action m with
      | none =>
          rw [path.rests m ha]
          exact ih
      | some a =>
          obtain ⟨hok, hnext⟩ := path.acts m a ha
          exact hstep _ a _ (hI m) ih hok hnext

theorem Path.unless (path : Path next ok) (hI : ∀ n, I (path.state n))
    (hstep : ∀ s a s', I s → P s → ok s a → next s a = some s' → P s' ∨ Q s') {n m : Nat}
    (h : n ≤ m) (hP : P (path.state n)) :
    P (path.state m) ∨ ∃ k, n ≤ k ∧ Q (path.state k) := by
  induction m, h using Nat.le_induction with
  | base => exact Or.inl hP
  | succ m hnm ih =>
      obtain hPm | hQ := ih
      · cases ha : path.action m with
        | none =>
            rw [path.rests m ha]
            exact Or.inl hPm
        | some a =>
            obtain ⟨hok, hnext⟩ := path.acts m a ha
            obtain hP' | hQ' := hstep _ a _ (hI m) hPm hok hnext
            · exact Or.inl hP'
            · exact Or.inr ⟨m + 1, by omega, hQ'⟩
      · exact Or.inr hQ

variable {who : α → τ} {active : σ → τ → Prop} {t : τ}

/-- Where the others keep `P` and the agent turns it into `Q`, the agent gets there. -/
theorem leadsTo_of_turn (hfair : Fair who active path) (hI : ∀ n, I (path.state n))
    (hactive : ∀ s, P s → active s t)
    (hother : ∀ s a s', I s → P s → ok s a → next s a = some s' → who a ≠ t → P s')
    (hown : ∀ s a s', I s → P s → ok s a → next s a = some s' → who a = t → Q s') :
    LeadsTo path P Q := by
  intro n hP
  obtain ⟨m, hnm, a, ha, hwho⟩ := hfair n t (hactive _ hP)
  have hstep : ∀ s a s', I s → P s → ok s a → next s a = some s' → P s' ∨ Q s' := by
    intro s a s' hIs hPs hok hnext
    rcases Classical.em (who a = t) with h | h
    · exact Or.inr (hown s a s' hIs hPs hok hnext h)
    · exact Or.inl (hother s a s' hIs hPs hok hnext h)
  obtain hPm | ⟨k, hnk, hQ⟩ := path.unless hI hstep hnm hP
  · obtain ⟨hok, hnext⟩ := path.acts m a ha
    exact ⟨m + 1, by omega, hown _ a _ (hI m) hPm hok hnext hwho⟩
  · exact ⟨k, hnk, hQ⟩

theorem leadsTo_of_await (hfair : Fair who active path) (hI : ∀ n, I (path.state n))
    (hactive : ∀ s, P s → active s t) (hcomes : LeadsTo path P R)
    (hstays : ∀ s a s', I s → P s → R s → ok s a → next s a = some s' → who a ≠ t → R s')
    (hother : ∀ s a s', I s → P s → ok s a → next s a = some s' → who a ≠ t → P s')
    (hown : ∀ s a s', I s → P s → ok s a → next s a = some s' → who a = t →
      Q s' ∨ P s' ∧ ¬R s) :
    LeadsTo path P Q := by
  intro n hP
  obtain ⟨m, hnm, hRm⟩ := hcomes n hP
  have hstep : ∀ s a s', I s → P s → ok s a → next s a = some s' → P s' ∨ Q s' := by
    intro s a s' hIs hPs hok hnext
    rcases Classical.em (who a = t) with h | h
    · exact (hown s a s' hIs hPs hok hnext h).symm.imp And.left id
    · exact Or.inl (hother s a s' hIs hPs hok hnext h)
  obtain hPm | ⟨k, hnk, hQ⟩ := path.unless hI hstep hnm hP
  · have hturn : LeadsTo path (fun s => P s ∧ R s) Q := by
      apply leadsTo_of_turn hfair hI (fun s h => hactive s h.1)
      · intro s a s' hIs hPR hok hnext h
        exact ⟨hother s a s' hIs hPR.1 hok hnext h,
          hstays s a s' hIs hPR.1 hPR.2 hok hnext h⟩
      · intro s a s' hIs hPR hok hnext h
        exact (hown s a s' hIs hPR.1 hok hnext h).resolve_right fun hPs => hPs.2 hPR.2
    obtain ⟨k, hmk, hQ⟩ := hturn m ⟨hPm, hRm⟩
    exact ⟨k, Nat.le_trans hnm hmk, hQ⟩
  · exact ⟨k, hnk, hQ⟩

theorem leadsTo_of_rank (μ : σ → Nat)
    (h : ∀ k, LeadsTo path (fun s => P s ∧ μ s = k) (fun s => Q s ∨ P s ∧ μ s < k)) :
    LeadsTo path P Q := by
  intro n hP
  induction hk : μ (path.state n) using Nat.strongRecOn generalizing n with
  | ind k ih =>
      obtain ⟨m, hnm, hQ | ⟨hPm, hlt⟩⟩ := h k n ⟨hP, hk⟩
      · exact ⟨m, hnm, hQ⟩
      · obtain ⟨i, hmi, hQ⟩ := ih _ hlt m hPm rfl
        exact ⟨i, Nat.le_trans hnm hmi, hQ⟩

/-- Where every action leaves the state or lowers a rank, the run comes to rest in a state. -/
theorem Path.settles (path : Path next ok) (hI : ∀ n, I (path.state n)) (μ : σ → Nat)
    (hstep : ∀ s a s', I s → ok s a → next s a = some s' → s' = s ∨ μ s' < μ s) (n : Nat) :
    ∃ m, n ≤ m ∧ ∀ i, m ≤ i → path.state i = path.state m := by
  have hone : ∀ i, path.state (i + 1) = path.state i ∨
      μ (path.state (i + 1)) < μ (path.state i) := by
    intro i
    cases ha : path.action i with
    | none => exact Or.inl (path.rests i ha)
    | some a =>
        obtain ⟨hok, hnext⟩ := path.acts i a ha
        exact hstep _ a _ (hI i) hok hnext
  have hle : ∀ n i, n ≤ i → μ (path.state i) ≤ μ (path.state n) := by
    intro n i hi
    induction i, hi using Nat.le_induction with
    | base => exact Nat.le_refl _
    | succ i _ ih =>
        obtain heq | hlt := hone i
        · rwa [heq]
        · exact Nat.le_trans (Nat.le_of_lt hlt) ih
  induction hk : μ (path.state n) using Nat.strongRecOn generalizing n with
  | ind k ih =>
      by_cases hstill : ∀ i, n ≤ i → path.state (i + 1) = path.state i
      · refine ⟨n, Nat.le_refl n, fun i hi => ?_⟩
        induction i, hi using Nat.le_induction with
        | base => rfl
        | succ i hi ih => exact (hstill i hi).trans ih
      · obtain ⟨i, hi, hmoves⟩ : ∃ i, n ≤ i ∧ path.state (i + 1) ≠ path.state i := by
          by_contra hnot
          exact hstill fun i hi => by_contra fun hmoves => hnot ⟨i, hi, hmoves⟩
        have hlt := (hone i).resolve_left hmoves
        have hbelow := hle n i hi
        obtain ⟨m, hm, hrests⟩ := ih _ (by omega) (i + 1) rfl
        exact ⟨m, by omega, hrests⟩

def Path.drop (path : Path next ok) (ok' : σ → α → Prop) (N : Nat)
    (hok : ∀ n a, N ≤ n → path.action n = some a → ok' (path.state n) a) : Path next ok' where
  state := fun n => path.state (N + n)
  action := fun n => path.action (N + n)
  rests := fun n h => path.rests (N + n) h
  acts := fun n a h => ⟨hok _ a (Nat.le_add_right N n) h, (path.acts _ a h).2⟩

/-- The run of another system that some of the actions stand for. -/
def Path.project {σ' α' : Type*} {next' : σ' → α' → Option σ'} {ok' : σ' → α' → Prop}
    (path : Path next ok) (f : σ → σ') (g : α → Option α')
    (hrests : ∀ s a s', ok s a → next s a = some s' → g a = none → f s' = f s)
    (hacts : ∀ s a s' b, ok s a → next s a = some s' → g a = some b →
      ok' (f s) b ∧ next' (f s) b = some (f s')) : Path next' ok' where
  state := fun n => f (path.state n)
  action := fun n => (path.action n).bind g
  rests := by
    intro n h
    cases ha : path.action n with
    | none => exact congrArg f (path.rests n ha)
    | some a =>
        rw [ha] at h
        obtain ⟨hok, hnext⟩ := path.acts n a ha
        exact hrests _ a _ hok hnext h
  acts := by
    intro n b h
    obtain ⟨a, ha, hb⟩ := Option.bind_eq_some_iff.mp h
    obtain ⟨hok, hnext⟩ := path.acts n a ha
    exact hacts _ a _ b hok hnext hb

/-- Where only an agent's own actions make it inactive, a run is fair in which no agent is
active at last. -/
theorem fair_of_inactive (hkeeps : ∀ s a s' t, active s t → next s a = some s' → who a ≠ t →
    active s' t) {N : Nat} (hrest : ∀ n t, N ≤ n → ¬ active (path.state n) t) :
    Fair who active path := by
  intro n t hactive
  by_contra hnot
  have hothers : ∀ m a, n ≤ m → path.action m = some a → who a ≠ t :=
    fun m a hm ha hwho => hnot ⟨m, hm, a, ha, hwho⟩
  have hstays : active ((path.drop (fun _ a => who a ≠ t) n hothers).state N) t :=
    Path.stable (I := fun _ => True) (P := fun s => active s t) _ (fun _ => trivial)
      (fun s a s' _ h hwho hnext => hkeeps s a s' t h hnext hwho) (Nat.zero_le N) hactive
  exact hrest (n + N) t (Nat.le_add_left N n) hstays

end Paths

section Endings

variable {s u : σ}

def Path.cons (path : Path next ok) (s : σ) (a : α) (hok : ok s a)
    (hnext : next s a = some (path.state 0)) : Path next ok where
  state
    | 0 => s
    | n + 1 => path.state n
  action
    | 0 => some a
    | n + 1 => path.action n
  rests
    | 0, h => by cases h
    | n + 1, h => path.rests n h
  acts
    | 0, b, h => by
        obtain rfl := Option.some.inj h
        exact ⟨hok, hnext⟩
    | n + 1, b, h => path.acts n b h

def Path.again (u : σ) (a : α) (hok : ok u a) (hnext : next u a = some u) : Path next ok where
  state := fun _ => u
  action := fun _ => some a
  rests := fun _ _ => rfl
  acts := fun _ b h => by
    obtain rfl := Option.some.inj h
    exact ⟨hok, hnext⟩

def Path.still (u : σ) : Path next ok where
  state := fun _ => u
  action := fun _ => none
  rests := fun _ _ => rfl
  acts := nofun

theorem Path.exists_append (path : Path next ok) {as : List α} (hok : Admits next ok s as)
    (h : runActions next s as = some (path.state 0)) : ∃ path' : Path next ok,
      path'.state 0 = s ∧ ∀ n, path'.state (as.length + n) = path.state n ∧
        path'.action (as.length + n) = path.action n := by
  induction as generalizing s with
  | nil =>
      rw [Option.some.inj h]
      exact ⟨path, rfl, fun n => by rw [List.length_nil, Nat.zero_add]; exact ⟨rfl, rfl⟩⟩
  | cons b as ih =>
      simp only [runActions] at h
      simp only [Admits] at hok
      cases hv : next s b with
      | none =>
          rw [hv] at h
          cases h
      | some v =>
          rw [hv] at h hok
          obtain ⟨path', hzero, hlater⟩ := ih hok.2 h
          refine ⟨path'.cons s b hok.1 (hzero ▸ hv), rfl, fun n => ?_⟩
          rw [List.length_cons, Nat.add_right_comm]
          exact hlater n

/-- The listed actions are taken, and then one that changes nothing for ever. -/
theorem exists_path_of_runActions {as : List α} (hok : Admits next ok s as)
    (h : runActions next s as = some u) {a : α} (hrest : ok u a) (hnext : next u a = some u) :
    ∃ path : Path next ok, path.state 0 = s ∧
      ∀ n, as.length ≤ n → path.state n = u ∧ path.action n = some a := by
  obtain ⟨path, hzero, hlater⟩ := (Path.again u a hrest hnext).exists_append hok h
  refine ⟨path, hzero, fun n hn => ?_⟩
  obtain ⟨i, rfl⟩ := Nat.exists_eq_add_of_le hn
  exact hlater i

end Endings

end HashComp.Fairness
