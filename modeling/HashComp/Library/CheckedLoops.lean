import Mathlib.Data.Nat.Basic
import Mathlib.Logic.Function.Basic

namespace HashComp.CheckedLoops

inductive Fault where
  | outOfRange
  | nullPointer
  | assertion
  | unfinished
deriving DecidableEq, Repr

/-- An array of `size` slots.  Only the slots below `size` can be accessed. -/
structure Cells (size : Nat) (α : Type*) where
  slot : Nat → α

section Cells

variable {size : Nat} {α : Type*} {c : Cells size α} {i j : Nat} {v : α}

def Cells.read (c : Cells size α) (i : Nat) : Except Fault α :=
  if i < size then .ok (c.slot i) else .error .outOfRange

def Cells.write (c : Cells size α) (i : Nat) (v : α) : Except Fault (Cells size α) :=
  if i < size then .ok ⟨Function.update c.slot i v⟩ else .error .outOfRange

theorem Cells.read_ok (h : i < size) : c.read i = .ok (c.slot i) :=
  if_pos h

theorem Cells.read_fault (h : size ≤ i) : c.read i = .error .outOfRange :=
  if_neg (Nat.not_lt.mpr h)

theorem Cells.write_ok (h : i < size) : c.write i v = .ok ⟨Function.update c.slot i v⟩ :=
  if_pos h

end Cells

section Bind

universe u

variable {α β : Type u} {x : α} {e : Fault} {f : α → Except Fault β}

@[simp] theorem ok_bind : (Except.ok x >>= f) = f x :=
  rfl

@[simp] theorem error_bind : ((Except.error e : Except Fault α) >>= f) = .error e :=
  rfl

end Bind

section Loops

variable {σ : Type*} {body : Nat → σ → Except Fault σ} {test : Nat → Except Fault Bool}
  {s : σ} {lo hi : Nat}

def countUp (body : Nat → σ → Except Fault σ) : (n i : Nat) → σ → Except Fault σ
  | 0, _, s => .ok s
  | n + 1, i, s => do
      let t ← body i s
      countUp body n (i + 1) t

/-- `for (i = lo; i < hi; i++)`. -/
def forUp (lo hi : Nat) (body : Nat → σ → Except Fault σ) (s : σ) : Except Fault σ :=
  countUp body (hi - lo) lo s

def countDown (lo : Nat) (body : Nat → σ → Except Fault σ) : (n : Nat) → σ → Except Fault σ
  | 0, s => .ok s
  | n + 1, s => do
      let t ← body (lo + n + 1) s
      countDown lo body n t

/-- `for (i = hi; i > lo; i--)`. -/
def forDown (lo hi : Nat) (body : Nat → σ → Except Fault σ) (s : σ) : Except Fault σ :=
  countDown lo body (hi - lo) s

/-- The first of `n` positions from `i` on that passes the test, or the one after
the last. -/
def scan (test : Nat → Except Fault Bool) : (n i : Nat) → Except Fault Nat
  | 0, i => .ok i
  | n + 1, i => do
      if ← test i then .ok i else scan test n (i + 1)

/-- `for (i = lo; i < hi; i++) if (test) break;` -/
def scanUp (lo hi : Nat) (test : Nat → Except Fault Bool) : Except Fault Nat :=
  scan test (hi - lo) lo

theorem countUp_spec {I : Nat → σ → Prop} {n i : Nat} (hinit : I i s)
    (hbody : ∀ j t, i ≤ j → j < i + n → I j t → ∃ u, body j t = .ok u ∧ I (j + 1) u) :
    ∃ t, countUp body n i s = .ok t ∧ I (i + n) t := by
  induction n generalizing i s with
  | zero => exact ⟨s, rfl, hinit⟩
  | succ n ih =>
      obtain ⟨u, hu, hI⟩ := hbody i s (Nat.le_refl _) (by omega) hinit
      obtain ⟨t, ht, hIt⟩ := ih hI fun j t hj hlt => hbody j t (by omega) (by omega)
      refine ⟨t, ?_, ?_⟩
      · rw [countUp, hu, ok_bind, ht]
      · rwa [show i + (n + 1) = i + 1 + n by omega]

theorem forUp_spec (body : Nat → σ → Except Fault σ) (I : Nat → σ → Prop) (hle : lo ≤ hi) (hinit : I lo s)
    (hbody : ∀ i t, lo ≤ i → i < hi → I i t → ∃ u, body i t = .ok u ∧ I (i + 1) u) :
    ∃ t, forUp lo hi body s = .ok t ∧ I hi t := by
  obtain ⟨t, ht, hI⟩ := countUp_spec (n := hi - lo) hinit
    fun j t hj hlt => hbody j t hj (by omega)
  refine ⟨t, ht, ?_⟩
  rwa [show lo + (hi - lo) = hi by omega] at hI

theorem countDown_spec {I : Nat → σ → Prop} {n : Nat} (hinit : I (lo + n) s)
    (hbody : ∀ j t, lo ≤ j → j < lo + n → I (j + 1) t → ∃ u, body (j + 1) t = .ok u ∧ I j u) :
    ∃ t, countDown lo body n s = .ok t ∧ I lo t := by
  induction n generalizing s with
  | zero => exact ⟨s, rfl, hinit⟩
  | succ n ih =>
      obtain ⟨u, hu, hI⟩ := hbody (lo + n) s (by omega) (by omega) hinit
      obtain ⟨t, ht, hIt⟩ := ih hI fun j t hj hlt => hbody j t hj (by omega)
      exact ⟨t, by rw [countDown, hu, ok_bind, ht], hIt⟩

theorem forDown_spec (body : Nat → σ → Except Fault σ) (I : Nat → σ → Prop) (hle : lo ≤ hi) (hinit : I hi s)
    (hbody : ∀ i t, lo ≤ i → i < hi → I (i + 1) t → ∃ u, body (i + 1) t = .ok u ∧ I i u) :
    ∃ t, forDown lo hi body s = .ok t ∧ I lo t := by
  refine countDown_spec (n := hi - lo) ?_ fun j t hj hlt => hbody j t hj (by omega)
  rwa [show lo + (hi - lo) = hi by omega]

theorem scan_spec {p : Nat → Bool} {n i : Nat}
    (htest : ∀ j, i ≤ j → j < i + n → test j = .ok (p j)) :
    ∃ k, scan test n i = .ok k ∧ i ≤ k ∧ k ≤ i + n ∧ (∀ j, i ≤ j → j < k → p j = false) ∧
      (k < i + n → p k = true) := by
  induction n generalizing i with
  | zero => exact ⟨i, rfl, Nat.le_refl _, by omega, fun j hj hlt => by omega, fun h => by omega⟩
  | succ n ih =>
      have hi := htest i (Nat.le_refl _) (by omega)
      cases hp : p i with
      | true =>
          refine ⟨i, ?_, Nat.le_refl _, by omega, fun j hj hlt => by omega, fun _ => hp⟩
          rw [scan, hi, ok_bind, hp]
          rfl
      | false =>
          obtain ⟨k, hk, hle, hlast, hfalse, htrue⟩ :=
            ih (i := i + 1) fun j hj hlt => htest j (by omega) (by omega)
          refine ⟨k, ?_, by omega, by omega, ?_, fun h => htrue (by omega)⟩
          · rw [scan, hi, ok_bind, hp, if_neg Bool.false_ne_true, hk]
          · intro j hj hlt
            rcases Nat.eq_or_lt_of_le hj with rfl | hj
            · exact hp
            · exact hfalse j hj hlt

/-- A search loop whose test can be evaluated everywhere finds the first position
that passes it. -/
theorem scanUp_spec (test : Nat → Except Fault Bool) (p : Nat → Bool) (hle : lo ≤ hi)
    (htest : ∀ i, lo ≤ i → i < hi → test i = .ok (p i)) :
    ∃ k, scanUp lo hi test = .ok k ∧ lo ≤ k ∧ k ≤ hi ∧ (∀ i, lo ≤ i → i < k → p i = false) ∧
      (k < hi → p k = true) := by
  obtain ⟨k, hk, hlo, hhi, hfalse, htrue⟩ :=
    scan_spec (n := hi - lo) fun j hj hlt => htest j hj (by omega)
  exact ⟨k, hk, hlo, by omega, hfalse, fun h => htrue (by omega)⟩

end Loops

end HashComp.CheckedLoops
