import Mathlib.Logic.Function.Iterate
import Mathlib.Logic.Relation

namespace HashComp.Runs

section Actions

variable {σ α : Type*} {next : σ → α → Option σ} {ok : σ → α → Prop} {s t u : σ}

def Step (next : σ → α → Option σ) (ok : σ → α → Prop) (s t : σ) : Prop :=
  ∃ a, ok s a ∧ next s a = some t

/-- Finitely many steps that respect the discipline `ok`. -/
def Reaches (next : σ → α → Option σ) (ok : σ → α → Prop) : σ → σ → Prop :=
  Relation.ReflTransGen (Step next ok)

theorem Reaches.refl (s : σ) : Reaches next ok s s :=
  Relation.ReflTransGen.refl

theorem Reaches.tail (h : Reaches next ok s t) {a : α} (hok : ok t a)
    (hstep : next t a = some u) : Reaches next ok s u :=
  Relation.ReflTransGen.tail h ⟨a, hok, hstep⟩

theorem Reaches.trans (h : Reaches next ok s t) (h' : Reaches next ok t u) :
    Reaches next ok s u :=
  Relation.ReflTransGen.trans h h'

theorem Reaches.mono {ok' : σ → α → Prop} (himp : ∀ s a, ok s a → ok' s a)
    (h : Reaches next ok s t) : Reaches next ok' s t := by
  induction h with
  | refl => exact Reaches.refl s
  | tail _ hlast ih =>
      obtain ⟨a, hok, hnext⟩ := hlast
      exact ih.tail (himp _ a hok) hnext

/-- What holds at the start and survives every disciplined step holds in every
state reached. -/
theorem Reaches.invariant {I : σ → Prop} (hinit : I s)
    (hstep : ∀ s a t, I s → ok s a → next s a = some t → I t)
    (h : Reaches next ok s t) : I t := by
  induction h with
  | refl => exact hinit
  | tail _ hlast ih =>
      obtain ⟨a, hok, hnext⟩ := hlast
      exact hstep _ a _ ih hok hnext

/-- Where there is always a step that keeps `I` and decreases `μ`, some run gets done. -/
theorem exists_reaches_done (I done : σ → Prop) (μ : σ → Nat)
    (hstep : ∀ s, I s → ¬ done s → ∃ a t, ok s a ∧ next s a = some t ∧ I t ∧ μ t < μ s)
    (hinit : I s) : ∃ t, Reaches next ok s t ∧ I t ∧ done t := by
  induction hk : μ s using Nat.strongRecOn generalizing s with
  | ind k ih =>
      by_cases hdone : done s
      · exact ⟨s, Reaches.refl s, hinit, hdone⟩
      · obtain ⟨a, u, hok, hnext, hI, hlt⟩ := hstep s hinit hdone
        obtain ⟨t, ht, hIt, hdt⟩ := ih (μ u) (hk ▸ hlt) hI rfl
        exact ⟨t, ((Reaches.refl s).tail hok hnext).trans ht, hIt, hdt⟩

/-- Take the listed actions one after the other. -/
def runActions (next : σ → α → Option σ) : σ → List α → Option σ
  | s, [] => some s
  | s, a :: as =>
      match next s a with
      | none => none
      | some t => runActions next t as

/-- The listed actions respect `ok` as far as they can be taken. -/
def Admits (next : σ → α → Option σ) (ok : σ → α → Prop) : σ → List α → Prop
  | _, [] => True
  | s, a :: as =>
      ok s a ∧
        match next s a with
        | none => True
        | some t => Admits next ok t as

instance decidableAdmits [∀ s a, Decidable (ok s a)] :
    (s : σ) → (as : List α) → Decidable (Admits next ok s as)
  | _, [] => .isTrue trivial
  | s, a :: as =>
      let rest : Decidable (match next s a with
          | none => True
          | some t => Admits next ok t as) :=
        match next s a with
        | none => .isTrue trivial
        | some t => decidableAdmits t as
      @instDecidableAnd _ _ inferInstance rest

theorem reaches_of_runActions {as : List α} (hok : Admits next ok s as)
    (h : runActions next s as = some t) : Reaches next ok s t := by
  induction as generalizing s with
  | nil =>
      rw [← Option.some.inj h]
      exact Reaches.refl s
  | cons a as ih =>
      simp only [runActions] at h
      simp only [Admits] at hok
      cases hv : next s a with
      | none =>
          rw [hv] at h
          cases h
      | some v =>
          rw [hv] at h hok
          exact (Reaches.refl s |>.tail hok.1 hv).trans (ih hok.2 h)

theorem admits_of_forall {as : List α} (h : ∀ a ∈ as, ∀ s, ok s a) : Admits next ok s as := by
  induction as generalizing s with
  | nil => trivial
  | cons a as ih =>
      refine ⟨h a (by simp) s, ?_⟩
      split
      · trivial
      · exact ih fun b hb => h b (by simp [hb])

end Actions

section Machine

variable {σ : Type*} {f : σ → σ} {s t u : σ}

/-- The machine gets from `s` to `t`. -/
def Leads (f : σ → σ) (s t : σ) : Prop :=
  ∃ n, f^[n] s = t

theorem Leads.refl (s : σ) : Leads f s s := ⟨0, rfl⟩

theorem Leads.head (h : Leads f (f s) t) : Leads f s t := by
  obtain ⟨n, hn⟩ := h
  exact ⟨n + 1, hn⟩

theorem Leads.trans (h : Leads f s t) (h' : Leads f t u) : Leads f s u := by
  obtain ⟨m, rfl⟩ := h
  obtain ⟨n, rfl⟩ := h'
  exact ⟨n + m, Function.iterate_add_apply f n m s⟩

theorem Leads.step (h : Leads f s t) : Leads f s (f t) :=
  h.trans ⟨1, rfl⟩

theorem Leads.invariant {I : σ → Prop} (hinit : I s) (hstep : ∀ s, I s → I (f s))
    (h : Leads f s t) : I t := by
  obtain ⟨n, rfl⟩ := h
  induction n with
  | zero => exact hinit
  | succ n ih =>
      rw [Function.iterate_succ_apply']
      exact hstep _ ih

theorem exists_done (I done : σ → Prop) (μ : σ → Nat)
    (hstep : ∀ s, I s → ¬ done s → I (f s) ∧ μ (f s) < μ s) (hinit : I s) :
    ∃ t, Leads f s t ∧ I t ∧ done t := by
  induction hk : μ s using Nat.strongRecOn generalizing s with
  | ind k ih =>
      by_cases hdone : done s
      · exact ⟨s, Leads.refl s, hinit, hdone⟩
      · obtain ⟨hI, hlt⟩ := hstep s hinit hdone
        obtain ⟨t, ht, hIt, hdt⟩ := ih (μ (f s)) (hk ▸ hlt) hI rfl
        exact ⟨t, ht.head, hIt, hdt⟩

/-- A machine that rests at `u` passes every state it reaches before it rests. -/
theorem Leads.to_rest (ht : Leads f s t) (hu : Leads f s u) (hru : f u = u) :
    Leads f t u := by
  obtain ⟨m, rfl⟩ := ht
  obtain ⟨n, rfl⟩ := hu
  rcases Nat.le_total m n with h | h
  · obtain ⟨k, rfl⟩ := Nat.exists_eq_add_of_le h
    refine ⟨k, ?_⟩
    rw [← Function.iterate_add_apply, Nat.add_comm]
  · obtain ⟨k, rfl⟩ := Nat.exists_eq_add_of_le h
    rw [Nat.add_comm, Function.iterate_add_apply, Function.iterate_fixed hru]
    exact Leads.refl _

theorem Leads.eq_of_rest (h : Leads f s t) (hrest : f s = s) : t = s := by
  obtain ⟨n, rfl⟩ := h
  exact Function.iterate_fixed hrest n

theorem Leads.rest_unique (ht : Leads f s t) (hrt : f t = t) (hu : Leads f s u)
    (hru : f u = u) : t = u :=
  ((ht.to_rest hu hru).eq_of_rest hrt).symm

end Machine

end HashComp.Runs
