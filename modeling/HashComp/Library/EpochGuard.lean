import Mathlib.Logic.Function.Basic

namespace HashComp.EpochGuard

variable {θ α π : Type*} {breaks : α → π → Prop} {localEpoch : θ → Nat} {currentEpoch : Nat}
  {pending pending' : Nat → α → Prop} {pin pin' : θ → Option π} {t : θ} {p : π} {e : Nat} {a : α}

/-- An action that breaks what a thread relies on was registered after the thread
entered its epoch.  Epoch 0 is that of a thread which is in none. -/
structure Guarded (breaks : α → π → Prop) (localEpoch : θ → Nat) (currentEpoch : Nat)
    (pending : Nat → α → Prop) (pin : θ → Option π) : Prop where
  entered : ∀ t, localEpoch t ≤ currentEpoch
  inside : ∀ t p, pin t = some p → localEpoch t ≠ 0
  guarded : ∀ t p e a, pin t = some p → pending e a → breaks a p → localEpoch t ≤ e

theorem Guarded.not_breaks (h : Guarded breaks localEpoch currentEpoch pending pin)
    (hpin : pin t = some p) (hpending : pending e a)
    (hsafe : localEpoch t = 0 ∨ e < localEpoch t) : ¬ breaks a p := by
  intro hbreaks
  rcases hsafe with hzero | hlt
  · exact h.inside t p hpin hzero
  · exact Nat.not_lt.mpr (h.guarded t p e a hpin hpending hbreaks) hlt

theorem Guarded.mono (h : Guarded breaks localEpoch currentEpoch pending pin)
    (hpending : ∀ e a, pending' e a → pending e a)
    (hpin : ∀ t p, pin' t = some p → ∃ q, pin t = some q ∧ ∀ a, breaks a p → breaks a q) :
    Guarded breaks localEpoch currentEpoch pending' pin' where
  entered := h.entered
  inside := by
    intro t p hp
    obtain ⟨q, hq, -⟩ := hpin t p hp
    exact h.inside t q hq
  guarded := by
    intro t p e a hp ha hbreaks
    obtain ⟨q, hq, himp⟩ := hpin t p hp
    exact h.guarded t q e a hq (hpending e a ha) (himp a hbreaks)

theorem Guarded.rely [DecidableEq θ] (h : Guarded breaks localEpoch currentEpoch pending pin)
    (hinside : localEpoch t ≠ 0) (hfree : ∀ e a, pending e a → ¬ breaks a p) :
    Guarded breaks localEpoch currentEpoch pending (Function.update pin t (some p)) where
  entered := h.entered
  inside := by
    intro u q hq
    by_cases hu : u = t
    · subst u
      exact hinside
    · rw [Function.update_of_ne hu] at hq
      exact h.inside u q hq
  guarded := by
    intro u q e a hq ha hbreaks
    by_cases hu : u = t
    · subst u
      rw [Function.update_self] at hq
      cases hq
      exact absurd hbreaks (hfree e a ha)
    · rw [Function.update_of_ne hu] at hq
      exact h.guarded u q e a hq ha hbreaks

/-- A thread relies on nothing, on what it has relied on, or on what no action breaks. -/
theorem Guarded.move [DecidableEq θ] (h : Guarded breaks localEpoch currentEpoch pending pin)
    (t : θ) {next : Option π} (hnext : next = none ∨ next = pin t ∨
      ∃ p, next = some p ∧ localEpoch t ≠ 0 ∧ ∀ e a, pending e a → ¬ breaks a p) :
    Guarded breaks localEpoch currentEpoch pending (Function.update pin t next) := by
  rcases hnext with rfl | rfl | ⟨p, rfl, hinside, hfree⟩
  · refine h.mono (fun _ _ => id) fun u q hq => ?_
    by_cases hu : u = t
    · subst u
      rw [Function.update_self] at hq
      cases hq
    · rw [Function.update_of_ne hu] at hq
      exact ⟨q, hq, fun _ => id⟩
  · rw [Function.update_eq_self]
    exact h
  · exact h.rely hinside hfree

theorem Guarded.bump (h : Guarded breaks localEpoch currentEpoch pending pin)
    (hpending : ∀ e b, pending' e b → pending e b ∨ e = currentEpoch) :
    Guarded breaks localEpoch (currentEpoch + 1) pending' pin where
  entered := fun t => Nat.le_succ_of_le (h.entered t)
  inside := h.inside
  guarded := by
    intro t p e b hp hb hbreaks
    rcases hpending e b hb with hb | rfl
    · exact h.guarded t p e b hp hb hbreaks
    · exact h.entered t

/-- Threads that rely on nothing may enter another epoch, or leave theirs. -/
theorem Guarded.enter (h : Guarded breaks localEpoch currentEpoch pending pin)
    {localEpoch' : θ → Nat} (hle : ∀ t, localEpoch' t ≤ currentEpoch)
    (hnone : ∀ t p, pin t = some p → localEpoch' t = localEpoch t) :
    Guarded breaks localEpoch' currentEpoch pending pin where
  entered := hle
  inside := by
    intro t p hp
    rw [hnone t p hp]
    exact h.inside t p hp
  guarded := by
    intro t p e a hp ha hbreaks
    rw [hnone t p hp]
    exact h.guarded t p e a hp ha hbreaks

end HashComp.EpochGuard
