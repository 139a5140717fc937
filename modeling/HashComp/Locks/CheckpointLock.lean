import HashComp.Library.BitFields
import HashComp.Library.Ownership
import HashComp.Library.Runs

namespace HashComp.CheckpointLock

open HashComp.Ownership
open HashComp.Runs

def control (oldLockCount newLockCount : BitVec 32) : BitVec 64 :=
  newLockCount ++ oldLockCount

def oldLockCount (control : BitVec 64) : BitVec 32 := control.setWidth 32

def newLockCount (control : BitVec 64) : BitVec 32 := (control >>> 32).setWidth 32

/-- Where a thread is: in `try_lock_old` or `try_lock_new` with the word that it expects,
or in neither. -/
inductive Pc where
  | idle
  | tryLockOld (expected : BitVec 64)
  | tryLockNew (expected : BitVec 64)
  deriving DecidableEq

/-- The word, the threads, and the locks that each of them holds. -/
structure System where
  control : BitVec 64
  pc : Nat → Pc
  heldOld : Nat → Nat
  heldNew : Nat → Nat

def System.start : System where
  control := 0
  pc := fun _ => .idle
  heldOld := fun _ => 0
  heldNew := fun _ => 0

inductive Action where
  | tryLockOld (t : Nat)
  | tryLockNew (t : Nat)
  | unlockOld (t : Nat)
  | unlockNew (t : Nat)
  | run (t : Nat)
  deriving DecidableEq

namespace System

variable (x : System)

def goto (t : Nat) (pc : Pc) : System :=
  { x with pc := Function.update x.pc t pc }

/-- A round of a loop: it ends, or it exchanges the word and ends, or it takes over the
word that it has found. -/
def step (t : Nat) : Option System :=
  match x.pc t with
  | .idle => none
  | .tryLockOld expected =>
      if newLockCount expected = 0 then
        if x.control = expected then
          some ({ x with
            control := CheckpointLock.control (oldLockCount expected + 1) 0
            heldOld := Function.update x.heldOld t (x.heldOld t + 1) }.goto t .idle)
        else some (x.goto t (.tryLockOld x.control))
      else some (x.goto t .idle)
  | .tryLockNew expected =>
      if oldLockCount expected = 0 then
        if x.control = expected then
          some ({ x with
            control := CheckpointLock.control 0 (newLockCount expected + 1)
            heldNew := Function.update x.heldNew t (x.heldNew t + 1) }.goto t .idle)
        else some (x.goto t (.tryLockNew x.control))
      else some (x.goto t .idle)

/-- A step of one of `n` threads, each of which unlocks only what it has locked. -/
def next (n : Nat) : Action → Option System
  | .tryLockOld t =>
      if t < n ∧ x.pc t = .idle then some (x.goto t (.tryLockOld x.control)) else none
  | .tryLockNew t =>
      if t < n ∧ x.pc t = .idle then some (x.goto t (.tryLockNew x.control)) else none
  | .unlockOld t =>
      if t < n ∧ x.pc t = .idle ∧ 0 < x.heldOld t then
        some { x with
          control := x.control - CheckpointLock.control 1 0
          heldOld := Function.update x.heldOld t (x.heldOld t - 1) }
      else none
  | .unlockNew t =>
      if t < n ∧ x.pc t = .idle ∧ 0 < x.heldNew t then
        some { x with
          control := x.control - CheckpointLock.control 0 1
          heldNew := Function.update x.heldNew t (x.heldNew t - 1) }
      else none
  | .run t => if t < n then x.step t else none

end System

def holders (n : Nat) (held : Nat → Nat) : Nat := ∑ t ∈ Finset.range n, held t

/-- No lock is taken while 2^32 - 1 locks of a kind are held. -/
def Fits (n : Nat) (x : System) : Action → Prop
  | .run _ => holders n x.heldOld + 1 < 2 ^ 32 ∧ holders n x.heldNew + 1 < 2 ^ 32
  | _ => True

instance (n : Nat) (x : System) : (a : Action) → Decidable (Fits n x a)
  | .run _ => inferInstanceAs (Decidable (_ ∧ _))
  | .tryLockOld _ | .tryLockNew _ | .unlockOld _ | .unlockNew _ => .isTrue trivial

structure OneHalf (w w' : BitVec 64) : Prop where
  old : (oldLockCount w').toNat = (oldLockCount w).toNat ∨
    (oldLockCount w').toNat = (oldLockCount w).toNat + 1 ∨
    (oldLockCount w').toNat + 1 = (oldLockCount w).toNat
  new : (newLockCount w').toNat = (newLockCount w).toNat ∨
    (newLockCount w').toNat = (newLockCount w).toNat + 1 ∨
    (newLockCount w').toNat + 1 = (newLockCount w).toNat
  one : oldLockCount w' = oldLockCount w ∨ newLockCount w' = newLockCount w

/-- The counts are the numbers of holders, one of them is zero, and the next step of a
kind that `ok` admits keeps the halves apart. -/
structure Exact (n : Nat) (ok : System → Action → Prop) (x : System) : Prop where
  old : (oldLockCount x.control).toNat = holders n x.heldOld
  new : (newLockCount x.control).toNat = holders n x.heldNew
  exclusive : oldLockCount x.control = 0 ∨ newLockCount x.control = 0
  halves : ∀ a y, ok x a → x.next n a = some y → OneHalf x.control y.control

section Words

variable {w : BitVec 64} {o m : BitVec 32}

theorem toNat_oldLockCount : (oldLockCount w).toNat = w.toNat % 2 ^ 32 :=
  BitVec.toNat_setWidth ..

theorem toNat_newLockCount : (newLockCount w).toNat = w.toNat / 2 ^ 32 := by
  have hlt := w.isLt
  rw [newLockCount, BitVec.toNat_setWidth, BitVec.toNat_ushiftRight, Nat.shiftRight_eq_div_pow,
    Nat.mod_eq_of_lt (by omega)]

theorem toNat_control : (control o m).toNat = m.toNat * 2 ^ 32 + o.toNat := by
  rw [control, BitFields.toNat_append]

@[simp] theorem oldLockCount_control : oldLockCount (control o m) = o := by
  have hlt := o.isLt
  apply BitVec.eq_of_toNat_eq
  rw [toNat_oldLockCount, toNat_control]
  omega

@[simp] theorem newLockCount_control : newLockCount (control o m) = m := by
  have hlt := o.isLt
  apply BitVec.eq_of_toNat_eq
  rw [toNat_newLockCount, toNat_control]
  omega

theorem counts_unlockOld (h : 0 < (oldLockCount w).toNat) :
    (oldLockCount (w - control 1 0)).toNat + 1 = (oldLockCount w).toNat ∧
      newLockCount (w - control 1 0) = newLockCount w := by
  have hone : (control 1 0).toNat = 1 := by decide
  rw [toNat_oldLockCount] at h
  have hsub : (w - control 1 0).toNat = w.toNat - 1 := by
    rw [BitVec.toNat_sub_of_le (by rw [BitVec.le_def]; omega), hone]
  constructor
  · rw [toNat_oldLockCount, toNat_oldLockCount, hsub]
    omega
  · apply BitVec.eq_of_toNat_eq
    rw [toNat_newLockCount, toNat_newLockCount, hsub]
    omega

theorem counts_unlockNew (h : 0 < (newLockCount w).toNat) :
    (newLockCount (w - control 0 1)).toNat + 1 = (newLockCount w).toNat ∧
      oldLockCount (w - control 0 1) = oldLockCount w := by
  have hone : (control 0 1).toNat = 2 ^ 32 := by decide
  rw [toNat_newLockCount] at h
  have hsub : (w - control 0 1).toNat = w.toNat - 2 ^ 32 := by
    rw [BitVec.toNat_sub_of_le (by rw [BitVec.le_def]; omega), hone]
  constructor
  · rw [toNat_newLockCount, toNat_newLockCount, hsub]
    omega
  · apply BitVec.eq_of_toNat_eq
    rw [toNat_oldLockCount, toNat_oldLockCount, hsub]
    omega

theorem toNat_add_one (h : o.toNat + 1 < 2 ^ 32) : (o + 1).toNat = o.toNat + 1 := by
  rw [BitVec.toNat_add]
  exact Nat.mod_eq_of_lt h

theorem oneHalf_refl : OneHalf w w := ⟨Or.inl rfl, Or.inl rfl, Or.inl rfl⟩

end Words

section Invariant

variable {n t : Nat} {x y : System} {a : Action}

structure Inv (n : Nat) (x : System) : Prop where
  old : Counts n x.heldOld (oldLockCount x.control).toNat
  new : Counts n x.heldNew (newLockCount x.control).toNat
  exclusive : oldLockCount x.control = 0 ∨ newLockCount x.control = 0

theorem inv_start : Inv n .start where
  old := counts_zero fun _ _ => rfl
  new := counts_zero fun _ _ => rfl
  exclusive := Or.inl rfl

theorem Inv.congr (h : Inv n x) (hcontrol : y.control = x.control) (hold : y.heldOld = x.heldOld)
    (hnew : y.heldNew = x.heldNew) : Inv n y ∧ OneHalf x.control y.control := by
  obtain ⟨c, pc, o, m⟩ := y
  subst hcontrol hold hnew
  exact ⟨⟨h.old, h.new, h.exclusive⟩, oneHalf_refl⟩

theorem counts_update {held : Nat → Nat} {count count' k : Nat} (h : Counts n held count)
    (ht : t < n) (hchange : count' + held t = count + k) :
    Counts n (Function.update held t k) count' :=
  h.update ht (fun _ hu => Function.update_of_ne hu ..) (by rwa [Function.update_self])

theorem Inv.lockOld (h : Inv n x) (ht : t < n) (hzero : newLockCount x.control = 0)
    (hfits : holders n x.heldOld + 1 < 2 ^ 32)
    (hcontrol : y.control = control (oldLockCount x.control + 1) 0)
    (hold : y.heldOld = Function.update x.heldOld t (x.heldOld t + 1))
    (hnew : y.heldNew = x.heldNew) : Inv n y ∧ OneHalf x.control y.control := by
  have hcount : (oldLockCount x.control).toNat = holders n x.heldOld := h.old
  have hone := toNat_add_one (o := oldLockCount x.control) (by omega)
  have hold' : oldLockCount y.control = oldLockCount x.control + 1 := by
    rw [hcontrol, oldLockCount_control]
  have hnew' : newLockCount y.control = newLockCount x.control := by
    rw [hcontrol, newLockCount_control, hzero]
  refine ⟨⟨?_, ?_, Or.inr ?_⟩, ⟨Or.inr (Or.inl ?_), Or.inl ?_, Or.inr hnew'⟩⟩
  · rw [hold, hold', hone]
    exact counts_update h.old ht (by omega)
  · rw [hnew, hnew']
    exact h.new
  · rw [hnew', hzero]
  · rw [hold', hone]
  · rw [hnew']

theorem Inv.lockNew (h : Inv n x) (ht : t < n) (hzero : oldLockCount x.control = 0)
    (hfits : holders n x.heldNew + 1 < 2 ^ 32)
    (hcontrol : y.control = control 0 (newLockCount x.control + 1))
    (hold : y.heldOld = x.heldOld)
    (hnew : y.heldNew = Function.update x.heldNew t (x.heldNew t + 1)) :
    Inv n y ∧ OneHalf x.control y.control := by
  have hcount : (newLockCount x.control).toNat = holders n x.heldNew := h.new
  have hone := toNat_add_one (o := newLockCount x.control) (by omega)
  have hnew' : newLockCount y.control = newLockCount x.control + 1 := by
    rw [hcontrol, newLockCount_control]
  have hold' : oldLockCount y.control = oldLockCount x.control := by
    rw [hcontrol, oldLockCount_control, hzero]
  refine ⟨⟨?_, ?_, Or.inl ?_⟩, ⟨Or.inl ?_, Or.inr (Or.inl ?_), Or.inl hold'⟩⟩
  · rw [hold, hold']
    exact h.old
  · rw [hnew, hnew', hone]
    exact counts_update h.new ht (by omega)
  · rw [hold', hzero]
  · rw [hold']
  · rw [hnew', hone]

theorem Inv.unlockOld (h : Inv n x) (ht : t < n) (hheld : 0 < x.heldOld t)
    (hcontrol : y.control = x.control - control 1 0)
    (hold : y.heldOld = Function.update x.heldOld t (x.heldOld t - 1))
    (hnew : y.heldNew = x.heldNew) : Inv n y ∧ OneHalf x.control y.control := by
  have hle := h.old.le ht
  have hpos : 0 < (oldLockCount x.control).toNat := by omega
  obtain ⟨hold', hnew'⟩ := counts_unlockOld hpos
  rw [← hcontrol] at hold' hnew'
  have hzero : newLockCount x.control = 0 :=
    h.exclusive.resolve_left fun heq => by
      rw [heq] at hpos
      exact absurd hpos (by decide)
  refine ⟨⟨?_, ?_, Or.inr ?_⟩, ⟨Or.inr (Or.inr hold'), Or.inl ?_, Or.inr hnew'⟩⟩
  · rw [hold]
    exact counts_update h.old ht (by omega)
  · rw [hnew, hnew']
    exact h.new
  · rw [hnew', hzero]
  · rw [hnew']

theorem Inv.unlockNew (h : Inv n x) (ht : t < n) (hheld : 0 < x.heldNew t)
    (hcontrol : y.control = x.control - control 0 1) (hold : y.heldOld = x.heldOld)
    (hnew : y.heldNew = Function.update x.heldNew t (x.heldNew t - 1)) :
    Inv n y ∧ OneHalf x.control y.control := by
  have hle := h.new.le ht
  have hpos : 0 < (newLockCount x.control).toNat := by omega
  obtain ⟨hnew', hold'⟩ := counts_unlockNew hpos
  rw [← hcontrol] at hold' hnew'
  have hzero : oldLockCount x.control = 0 :=
    h.exclusive.resolve_right fun heq => by
      rw [heq] at hpos
      exact absurd hpos (by decide)
  refine ⟨⟨?_, ?_, Or.inl ?_⟩, ⟨Or.inl ?_, Or.inr (Or.inr hnew'), Or.inl hold'⟩⟩
  · rw [hold, hold']
    exact h.old
  · rw [hnew]
    exact counts_update h.new ht (by omega)
  · rw [hold', hzero]
  · rw [hold']

theorem Inv.step (h : Inv n x) (ht : t < n) (hfits : Fits n x (.run t))
    (hstep : x.step t = some y) : Inv n y ∧ OneHalf x.control y.control := by
  simp only [System.step] at hstep
  split at hstep
  · cases hstep
  · split at hstep
    · rename_i hzero
      split at hstep <;> cases hstep
      · rename_i hexpected
        subst hexpected
        exact h.lockOld ht hzero hfits.1 rfl rfl rfl
      · exact h.congr rfl rfl rfl
    · cases hstep
      exact h.congr rfl rfl rfl
  · split at hstep
    · rename_i hzero
      split at hstep <;> cases hstep
      · rename_i hexpected
        subst hexpected
        exact h.lockNew ht hzero hfits.2 rfl rfl rfl
      · exact h.congr rfl rfl rfl
    · cases hstep
      exact h.congr rfl rfl rfl

theorem Inv.next (h : Inv n x) (hfits : Fits n x a) (hnext : x.next n a = some y) :
    Inv n y ∧ OneHalf x.control y.control := by
  cases a with
  | tryLockOld t =>
      simp only [System.next] at hnext
      split at hnext <;> cases hnext
      exact h.congr rfl rfl rfl
  | tryLockNew t =>
      simp only [System.next] at hnext
      split at hnext <;> cases hnext
      exact h.congr rfl rfl rfl
  | unlockOld t =>
      simp only [System.next] at hnext
      split at hnext <;> cases hnext
      rename_i hheld
      exact h.unlockOld hheld.1 hheld.2.2 rfl rfl rfl
  | unlockNew t =>
      simp only [System.next] at hnext
      split at hnext <;> cases hnext
      rename_i hheld
      exact h.unlockNew hheld.1 hheld.2.2 rfl rfl rfl
  | run t =>
      simp only [System.next] at hnext
      split at hnext
      · rename_i ht
        exact h.step ht hfits hnext
      · cases hnext

theorem exact_of_reaches (hreach : Reaches (System.next · n) (Fits n) .start x) :
    Exact n (Fits n) x := by
  have h : Inv n x :=
    hreach.invariant inv_start fun s a s' hs hok hnext => (hs.next hok hnext).1
  exact ⟨h.old, h.new, h.exclusive, fun a y hok hnext => (h.next hok hnext).2⟩

end Invariant

section Runs

variable {n : Nat}

def locked (k : Nat) : System where
  control := control (BitVec.ofNat 32 k) 0
  pc := fun _ => .idle
  heldOld := Function.update (fun _ => 0) 0 k
  heldNew := fun _ => 0

theorem locked_succ (hn : 0 < n) (k : Nat) :
    runActions (System.next · n) (locked k) [.tryLockOld 0, .run 0] = some (locked (k + 1)) := by
  have hload : (locked k).next n (.tryLockOld 0) =
      some ((locked k).goto 0 (.tryLockOld (locked k).control)) := if_pos ⟨hn, rfl⟩
  have hidle : Function.update (Function.update (fun _ => Pc.idle) 0
      (.tryLockOld (locked k).control)) 0 .idle = fun _ => .idle := by
    rw [Function.update_idem]
    exact Function.update_eq_self 0 _
  have hcount : oldLockCount (locked k).control + 1 = BitVec.ofNat 32 (k + 1) := by
    rw [BitVec.ofNat_add]
    exact congrArg (· + 1#32) oldLockCount_control
  have hzero : newLockCount (locked k).control = 0 := newLockCount_control
  have hheld : Function.update (locked k).heldOld 0 ((locked k).heldOld 0 + 1) =
      (locked (k + 1)).heldOld := by
    have hself : (locked k).heldOld 0 = k := rfl
    rw [hself]
    exact Function.update_idem (β := fun _ : Nat => Nat) k (k + 1) fun _ => 0
  have hexchange : ((locked k).goto 0 (.tryLockOld (locked k).control)).next n (.run 0) =
      some (locked (k + 1)) := by
    rw [System.next, if_pos hn]
    simp only [System.step, System.goto, Function.update_self, hzero, if_true, hcount, hheld]
    exact congrArg some (congrArg (System.mk _ · _ _) hidle)
  simp only [runActions, hload, hexchange]

theorem reaches_locked (hn : 0 < n) (k : Nat) :
    Reaches (System.next · n) (fun _ _ => True) .start (locked k) := by
  induction k with
  | zero =>
      have hstart : locked 0 = .start := by
        rw [locked, Function.update_eq_self]
        rfl
      rw [hstart]
      exact Reaches.refl _
  | succ k ih =>
      exact ih.trans (reaches_of_runActions (admits_of_forall fun _ _ _ => trivial)
        (locked_succ hn k))

/-- After 2^32 locks the count is zero again. -/
theorem counts_run_over :
    ¬ ∀ n x, Reaches (System.next · n) (fun _ _ => True) .start x →
      Exact n (fun _ _ => True) x := by
  intro hall
  have hold := (hall 1 (locked (2 ^ 32)) (reaches_locked (by decide) _)).old
  have hheld : holders 1 (locked (2 ^ 32)).heldOld = 2 ^ 32 := Finset.sum_range_one _
  have hcount : oldLockCount (locked (2 ^ 32)).control = BitVec.ofNat 32 (2 ^ 32) :=
    oldLockCount_control
  rw [hheld, hcount] at hold
  exact absurd hold (by decide)

/-- Two threads lock the old version. -/
theorem exact_two_holders : ∃ x,
    runActions (System.next · 2) .start
      [.tryLockOld 0, .tryLockOld 1, .run 0, .run 1, .run 1] = some x ∧
    oldLockCount x.control = 2 ∧ Exact 2 (Fits 2) x := by
  have hadmits : Admits (System.next · 2) (Fits 2) .start
      [.tryLockOld 0, .tryLockOld 1, .run 0, .run 1, .run 1] := by
    decide
  exact ⟨_, rfl, rfl, exact_of_reaches (reaches_of_runActions hadmits rfl)⟩

end Runs

end HashComp.CheckpointLock
