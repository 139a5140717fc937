import HashComp.Library.Runs
import Mathlib.Data.Set.Finite.Basic
import Mathlib.Logic.Function.Basic

namespace HashComp.Threads

open HashComp.Runs

/-- The code of the operations.  A call starts in `begin op` and rests in
`done op r` once it has returned `r`. -/
structure Program (σ ℓ ο ρ : Type*) where
  begin : ο → ℓ
  step : Nat → σ → ℓ → σ × ℓ
  done : ο → ρ → ℓ
  finished : ℓ → Option (ο × ρ)
  finished_iff : ∀ l op r, finished l = some (op, r) ↔ l = done op r
  rest : ∀ tid x op r, step tid x (done op r) = (x, done op r)

/-- A completed call and the number of calls that had returned when it began. -/
structure Call (ο ρ : Type*) where
  op : ο
  result : ρ
  started : Nat

/-- The shared object, the running threads, when their calls began, and the
calls returned so far in order. -/
structure System (σ ℓ ο ρ : Type*) where
  shared : σ
  threads : Nat → Option ℓ
  started : Nat → Nat
  log : List (Call ο ρ)

inductive Action (ο : Type*) where
  | invoke (tid : Nat) (op : ο)
  | run (tid : Nat)
  | ret (tid : Nat)

def Action.thread {ο : Type*} : Action ο → Nat
  | .invoke tid _ | .run tid | .ret tid => tid

def callActions {ο : Type*} (tid n : Nat) (op : ο) : List (Action ο) :=
  .invoke tid op :: (List.replicate n (.run tid) ++ [.ret tid])

section System

variable {σ ℓ ο ρ : Type*} (P : Program σ ℓ ο ρ)

def System.start (x : σ) : System σ ℓ ο ρ where
  shared := x
  threads := fun _ => none
  started := fun _ => 0
  log := []

def Program.next (s : System σ ℓ ο ρ) : Action ο → Option (System σ ℓ ο ρ)
  | .invoke tid op =>
      match s.threads tid with
      | none =>
          some { s with
            threads := Function.update s.threads tid (some (P.begin op))
            started := Function.update s.started tid s.log.length }
      | some _ => none
  | .run tid =>
      match s.threads tid with
      | none => none
      | some l =>
          match P.finished l with
          | some _ => none
          | none =>
              let r := P.step tid s.shared l
              some { s with
                shared := r.1
                threads := Function.update s.threads tid (some r.2) }
  | .ret tid =>
      match s.threads tid with
      | none => none
      | some l =>
          match P.finished l with
          | none => none
          | some x =>
              some { s with
                threads := Function.update s.threads tid none
                log := s.log ++ [⟨x.1, x.2, s.started tid⟩] }

variable {P} {s s' : System σ ℓ ο ρ}

theorem Program.next_cases {a : Action ο} (h : P.next s a = some s') :
    (∃ tid op, a = .invoke tid op ∧ s.threads tid = none ∧ s' = { s with
        threads := Function.update s.threads tid (some (P.begin op))
        started := Function.update s.started tid s.log.length }) ∨
      (∃ tid l, a = .run tid ∧ s.threads tid = some l ∧ (∀ op r, l ≠ P.done op r) ∧
        s' = { s with
          shared := (P.step tid s.shared l).1
          threads := Function.update s.threads tid (some (P.step tid s.shared l).2) }) ∨
      ∃ tid op r, a = .ret tid ∧ s.threads tid = some (P.done op r) ∧ s' = { s with
        threads := Function.update s.threads tid none
        log := s.log ++ [⟨op, r, s.started tid⟩] } := by
  cases a with
  | invoke tid op =>
      simp only [Program.next] at h
      split at h
      · cases h
        exact Or.inl ⟨tid, op, rfl, ‹_›, rfl⟩
      · cases h
  | run tid =>
      simp only [Program.next] at h
      split at h
      · cases h
      · rename_i l hl
        split at h
        · cases h
        · rename_i hbusy
          cases h
          refine Or.inr (Or.inl ⟨tid, l, rfl, hl, ?_, rfl⟩)
          intro op r hdone
          rw [(P.finished_iff l op r).mpr hdone] at hbusy
          cases hbusy
  | ret tid =>
      simp only [Program.next] at h
      split at h
      · cases h
      · rename_i l hl
        split at h
        · cases h
        · rename_i x hx
          cases h
          rw [(P.finished_iff l x.1 x.2).mp hx] at hl
          exact Or.inr (Or.inr ⟨tid, x.1, x.2, rfl, hl, rfl⟩)

theorem update_eq_some {f : Nat → Option ℓ} {o : Option ℓ} {tid u : Nat} {l : ℓ}
    (h : Function.update f tid o u = some l) : u = tid ∧ o = some l ∨ u ≠ tid ∧ f u = some l := by
  by_cases hu : u = tid
  · subst u
    rw [Function.update_self] at h
    exact Or.inl ⟨rfl, h⟩
  · rw [Function.update_of_ne hu] at h
    exact Or.inr ⟨hu, h⟩

theorem Program.next_threads_other {a : Action ο} (h : P.next s a = some s') {u : Nat}
    (hu : u ≠ a.thread) : s'.threads u = s.threads u := by
  rcases P.next_cases h with
    ⟨tid, op, rfl, -, rfl⟩ | ⟨tid, l, rfl, -, -, rfl⟩ | ⟨tid, op, r, rfl, -, rfl⟩
  all_goals exact Function.update_of_ne hu ..

/-- In a run of the threads below `n` a condition has to be known with the others idle. -/
theorem Program.reaches_of_below {ok ok' : System σ ℓ ο ρ → Action ο → Prop} {n : Nat}
    (hok : ∀ s a, (∀ u, n ≤ u → s.threads u = none) → ok' s a → ok s a)
    (hidle : ∀ u, n ≤ u → s.threads u = none)
    (h : Reaches P.next (fun s a => a.thread < n ∧ ok' s a) s s') : Reaches P.next ok s s' := by
  have hboth : Reaches P.next ok s s' ∧ ∀ u, n ≤ u → s'.threads u = none := by
    refine h.invariant (I := fun s' => Reaches P.next ok s s' ∧ ∀ u, n ≤ u → s'.threads u = none)
      ⟨Reaches.refl s, hidle⟩ ?_
    rintro t a t' ⟨hreach, hnone⟩ ⟨hlt, ha⟩ hnext
    refine ⟨hreach.tail (hok t a hnone ha) hnext, fun u hu => ?_⟩
    rw [P.next_threads_other hnext (Nat.ne_of_gt (Nat.lt_of_lt_of_le hlt hu))]
    exact hnone u hu
  exact hboth.1

theorem finite_running {ok : System σ ℓ ο ρ → Action ο → Prop} {x : σ}
    (h : Reaches P.next ok (System.start x) s) : {tid | s.threads tid ≠ none}.Finite := by
  refine h.invariant (I := fun s => {tid | s.threads tid ≠ none}.Finite) ?_ ?_
  · exact Set.finite_empty.subset fun tid htid => htid rfl
  · intro s a s' hfinite _ hnext
    refine (hfinite.insert a.thread).subset fun tid htid => ?_
    by_cases hthread : tid = a.thread
    · exact Or.inl hthread
    · rw [Set.mem_ofPred_eq, P.next_threads_other hnext hthread] at htid
      exact Or.inr htid

end System

section Traced

variable {σ ℓ ο ρ τ : Type*}

/-- The same program, which also records what `note` finds in each local state it
reaches. -/
def Program.traced (P : Program σ ℓ ο ρ) (note : ℓ → List τ)
    (hdone : ∀ op r, note (P.done op r) = []) : Program (σ × List τ) ℓ ο ρ where
  begin := P.begin
  step := fun tid x l =>
    let r := P.step tid x.1 l
    ((r.1, note r.2 ++ x.2), r.2)
  done := P.done
  finished := P.finished
  finished_iff := P.finished_iff
  rest := by
    intro tid x op r
    simp only [P.rest, hdone, List.nil_append]

end Traced

section Solo

variable {σ ℓ ο ρ : Type*} (P : Program σ ℓ ο ρ) (tid : Nat)

/-- A thread that runs with no other thread in between. -/
def Program.soloStep (x : σ × ℓ) : σ × ℓ :=
  P.step tid x.1 x.2

/-- A call made by a thread that runs alone returns `r`. -/
def Program.Returns (x : σ) (op : ο) (y : σ) (r : ρ) : Prop :=
  Leads (P.soloStep tid) (x, P.begin op) (y, P.done op r)

/-- The states between the calls of single-threaded runs. -/
inductive Program.Reached (x₀ : σ) : σ → Prop where
  | start : Reached x₀ x₀
  | call {x y : σ} {op : ο} {r : ρ} :
      Reached x₀ x → P.Returns tid x op y r → Reached x₀ y

variable {P} {tid} {x y z : σ} {op : ο} {r r' : ρ}

theorem Program.Returns.unique (h : P.Returns tid x op y r) (h' : P.Returns tid x op z r') :
    y = z ∧ r = r' := by
  have heq := h.rest_unique (P.rest tid y op r) h' (P.rest tid z op r')
  simp only [Prod.mk.injEq] at heq
  refine ⟨heq.1, ?_⟩
  have hdone := (P.finished_iff _ op r).mpr heq.2.symm
  rw [(P.finished_iff _ op r').mpr rfl] at hdone
  cases hdone
  rfl

theorem Program.returns_of_leads {w : σ × ℓ}
    (h : Leads (P.soloStep tid) (x, P.begin op) w) (hw : w.2 = P.done op r) :
    P.Returns tid x op w.1 r := by
  rw [Program.Returns, ← hw]
  exact h

def Program.afterSteps (P : Program σ ℓ ο ρ) (tid n : Nat) (op : ο) (x : σ) : σ :=
  ((P.soloStep tid)^[n] (x, P.begin op)).1

theorem Program.returns_of_steps {n : Nat}
    (h : ((P.soloStep tid)^[n] (x, P.begin op)).2 = P.done op r) :
    P.Returns tid x op (P.afterSteps tid n op x) r :=
  Program.returns_of_leads ⟨n, rfl⟩ h

/-- The calls of `ops`, made one after the other, lead from `x` to `y`. -/
def Program.After (P : Program σ ℓ ο ρ) (tid : Nat) : σ → List ο → σ → Prop
  | x, [], y => x = y
  | x, op :: ops, y => ∃ z r, P.Returns tid x op z r ∧ P.After tid z ops y

theorem Program.After.unique {ops : List ο} (h : P.After tid x ops y) (h' : P.After tid x ops z) :
    y = z := by
  induction ops generalizing x with
  | nil => exact h.symm.trans h'
  | cons op ops ih =>
      obtain ⟨u, r, hu, h⟩ := h
      obtain ⟨u', r', hu', h'⟩ := h'
      rw [(hu.unique hu').1] at h
      exact ih h h'

/-- An object whose calls follow an abstract object follows it through every
sequence of calls. -/
theorem Program.after_of_simulation {α : Type*} {R : σ → α → Prop} {spec : α → ο → α}
    {ok : ο → Prop}
    (hstep : ∀ x s op, R x s → ok op → ∃ y r, P.Returns tid x op y r ∧ R y (spec s op))
    {ops : List ο} (hok : ∀ op ∈ ops, ok op) {s : α} (hx : R x s) :
    ∃ y, P.After tid x ops y ∧ R y (ops.foldl spec s) := by
  induction ops generalizing x s with
  | nil => exact ⟨x, rfl, hx⟩
  | cons op ops ih =>
      obtain ⟨z, r, hret, hz⟩ := hstep x s op hx (hok op (by simp))
      obtain ⟨y, hafter, hy⟩ := ih (fun o ho => hok o (by simp [ho])) hz
      exact ⟨y, ⟨z, r, hret, hafter⟩, hy⟩

theorem Program.reaches_of_leads {ok : System σ ℓ ο ρ → Action ο → Prop}
    (hok : ∀ s, ok s (.run tid)) {s : System σ ℓ ο ρ} {l l' : ℓ} (hl : s.threads tid = some l)
    (h : Leads (P.soloStep tid) (s.shared, l) (x, l')) :
    Reaches P.next ok s
      { s with shared := x, threads := Function.update s.threads tid (some l') } := by
  obtain ⟨n, hn⟩ := h
  induction n generalizing s l with
  | zero =>
      cases hn
      rw [← hl, Function.update_eq_self]
      exact Reaches.refl s
  | succ n ih =>
      rw [Function.iterate_succ_apply] at hn
      cases hfinished : P.finished l with
      | some q =>
          have hdone := (P.finished_iff l q.1 q.2).mp hfinished
          rw [Program.soloStep, hdone, P.rest, ← hdone] at hn
          exact ih hl hn
      | none =>
          have hstep : P.next s (.run tid) = some { s with
              shared := (P.step tid s.shared l).1
              threads := Function.update s.threads tid (some (P.step tid s.shared l).2) } := by
            simp only [Program.next, hl, hfinished]
          have hrest := ih (s := { s with
              shared := (P.step tid s.shared l).1
              threads := Function.update s.threads tid (some (P.step tid s.shared l).2) })
            (Function.update_self ..) hn
          rw [Function.update_idem] at hrest
          exact (Reaches.tail (Reaches.refl s) (hok s) hstep).trans hrest

theorem Program.reaches_run {ok : System σ ℓ ο ρ → Action ο → Prop}
    (hok : ∀ s, ok s (.run tid)) {s : System σ ℓ ο ρ} {l l' : ℓ} (hl : s.threads tid = some l)
    (h : Leads (P.soloStep tid) (s.shared, l) (x, l')) :
    ∃ s', Reaches P.next ok s s' ∧ s'.shared = x ∧
      s'.threads = Function.update s.threads tid (some l') ∧ s'.log = s.log :=
  ⟨_, Program.reaches_of_leads hok hl h, rfl, rfl, rfl⟩

theorem Program.reaches_call {ok : System σ ℓ ο ρ → Action ο → Prop} {s : System σ ℓ ο ρ}
    (hcall : ok s (.invoke tid op)) (hok : ∀ s, ok s (.run tid))
    (hidle : s.threads tid = none) {l' : ℓ}
    (h : Leads (P.soloStep tid) (s.shared, P.begin op) (x, l')) :
    ∃ s', Reaches P.next ok s s' ∧ s'.shared = x ∧
      s'.threads = Function.update s.threads tid (some l') ∧ s'.log = s.log := by
  have hnext : P.next s (.invoke tid op) = some { s with
      threads := Function.update s.threads tid (some (P.begin op))
      started := Function.update s.started tid s.log.length } := by
    simp only [Program.next, hidle]
  have hrest := Program.reaches_of_leads hok (s := { s with
      threads := Function.update s.threads tid (some (P.begin op))
      started := Function.update s.started tid s.log.length }) (Function.update_self ..) h
  rw [Function.update_idem] at hrest
  exact ⟨_, (Reaches.tail (Reaches.refl s) hcall hnext).trans hrest, rfl, rfl, rfl⟩

/-- Every call of the sequence may be made, judged by the object it meets. -/
def Program.Allows (P : Program σ ℓ ο ρ) (tid : Nat) (ok : σ → ο → Prop) : σ → List ο → Prop
  | _, [] => True
  | x, op :: ops => ok x op ∧ ∀ y r, P.Returns tid x op y r → P.Allows tid ok y ops

/-- Every call of the sequence returns and is as `Q` wants it, which sees the object
before the call, the call, its result and the object after it. -/
def Program.Achieves (P : Program σ ℓ ο ρ) (tid : Nat) (Q : σ → ο → ρ → σ → Prop) :
    σ → List ο → Prop
  | _, [] => True
  | x, op :: ops => ∃ y r, P.Returns tid x op y r ∧ Q x op r y ∧ P.Achieves tid Q y ops

/-- What holds of a single call holds of a sequence, for objects that meet an
invariant which the allowed calls keep. -/
theorem Program.achieves_iff_allows {Q : σ → ο → ρ → σ → Prop} {ok : σ → ο → Prop}
    {I : σ → Prop}
    (hcall : ∀ x op, I x → ((∃ y r, P.Returns tid x op y r ∧ Q x op r y) ↔ ok x op))
    (hkeep : ∀ x op y r, I x → ok x op → P.Returns tid x op y r → I y)
    (hx : I x) (ops : List ο) : P.Achieves tid Q x ops ↔ P.Allows tid ok x ops := by
  induction ops generalizing x with
  | nil => exact Iff.rfl
  | cons op ops ih =>
      constructor
      · rintro ⟨y, r, hret, hQ, hrest⟩
        have hok := (hcall x op hx).mp ⟨y, r, hret, hQ⟩
        refine ⟨hok, ?_⟩
        intro z q hz
        rw [(hz.unique hret).1]
        exact (ih (hkeep x op y r hx hok hret)).mp hrest
      · rintro ⟨hok, hrest⟩
        obtain ⟨y, r, hret, hQ⟩ := (hcall x op hx).mpr hok
        exact ⟨y, r, hret, hQ, (ih (hkeep x op y r hx hok hret)).mpr (hrest y r hret)⟩

end Solo

end HashComp.Threads
