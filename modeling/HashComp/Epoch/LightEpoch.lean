import Mathlib.Data.List.Perm.Basic
import Mathlib.Data.Nat.Find
import Mathlib.Logic.Function.Basic

/-!
The epoch table and drain list of `mhash/epoch/faster/light_epoch.h`.  Every
call is a function on the whole structure; callbacks are represented by their
contexts, which a call returns in the order it executes them.  Epoch counters
only ever grow by one a call and are kept as natural numbers.
-/

namespace HashComp.Epoch

structure Entry where
  localCurrentEpoch : Nat
  reentrant : BitVec 32

inductive EpochAction (γ : Type*) where
  | free
  | pending (epoch : Nat) (context : γ)

structure LightEpoch (γ : Type*) where
  table : Nat → Entry
  numEntries : Nat
  drainList : List (EpochAction γ)
  drainCount : Nat
  currentEpoch : Nat
  safeToReclaimEpoch : Nat

def kDrainListSize : Nat := 256

section Operations

variable {γ : Type*}

/-- The constructor: `Initialize(size)`. -/
def LightEpoch.new (size : Nat) : LightEpoch γ where
  table := fun _ => ⟨0, 0⟩
  numEntries := size
  drainList := List.replicate kDrainListSize .free
  drainCount := 0
  currentEpoch := 1
  safeToReclaimEpoch := 0

def LightEpoch.setEntry (e : LightEpoch γ) (id : Nat) (entry : Entry) : LightEpoch γ :=
  { e with table := Function.update e.table id entry }

def LightEpoch.protect (e : LightEpoch γ) (id : Nat) : LightEpoch γ :=
  e.setEntry id { e.table id with localCurrentEpoch := e.currentEpoch }

def LightEpoch.reentrantProtect (e : LightEpoch γ) (id : Nat) : LightEpoch γ :=
  if (e.table id).localCurrentEpoch ≠ 0 then e
  else e.setEntry id ⟨e.currentEpoch, (e.table id).reentrant + 1⟩

def LightEpoch.unprotect (e : LightEpoch γ) (id : Nat) : LightEpoch γ :=
  e.setEntry id { e.table id with localCurrentEpoch := 0 }

def LightEpoch.reentrantUnprotect (e : LightEpoch γ) (id : Nat) : LightEpoch γ :=
  let reentrant := (e.table id).reentrant - 1
  if reentrant = 0 then e.setEntry id ⟨0, reentrant⟩
  else e.setEntry id ⟨(e.table id).localCurrentEpoch, reentrant⟩

def oldestOngoingCall (table : Nat → Entry) : List Nat → Nat → Nat
  | [], oldest => oldest
  | index :: rest, oldest =>
      let entryEpoch := (table index).localCurrentEpoch
      oldestOngoingCall table rest
        (if entryEpoch ≠ 0 ∧ entryEpoch < oldest then entryEpoch else oldest)

def LightEpoch.computeNewSafeToReclaimEpoch (e : LightEpoch γ) (currentEpoch : Nat) :
    LightEpoch γ :=
  { e with safeToReclaimEpoch :=
      oldestOngoingCall e.table (List.range' 1 e.numEntries) currentEpoch - 1 }

/-- The loop of `Drain`: pop every entry whose epoch is safe, and stop once the
count of pending entries reaches zero.  The result is the new list, the new
count and the popped entries. -/
def drainScan (safe : Nat) :
    List (EpochAction γ) → Nat → List (EpochAction γ) × Nat × List (Nat × γ)
  | [], count => ([], count, [])
  | .free :: rest, count =>
      let r := drainScan safe rest count
      (.free :: r.1, r.2.1, r.2.2)
  | .pending epoch context :: rest, count =>
      if epoch ≤ safe then
        if count - 1 = 0 then (.free :: rest, 0, [(epoch, context)])
        else
          let r := drainScan safe rest (count - 1)
          (.free :: r.1, r.2.1, (epoch, context) :: r.2.2)
      else
        let r := drainScan safe rest count
        (.pending epoch context :: r.1, r.2.1, r.2.2)

def LightEpoch.drain (e : LightEpoch γ) (nextEpoch : Nat) : LightEpoch γ × List (Nat × γ) :=
  let e := e.computeNewSafeToReclaimEpoch nextEpoch
  let r := drainScan e.safeToReclaimEpoch e.drainList e.drainCount
  ({ e with drainList := r.1, drainCount := r.2.1 }, r.2.2)

def LightEpoch.protectAndDrain (e : LightEpoch γ) (id : Nat) : LightEpoch γ × List (Nat × γ) :=
  let e := e.protect id
  if 0 < e.drainCount then e.drain (e.table id).localCurrentEpoch else (e, [])

def LightEpoch.bumpCurrentEpoch (e : LightEpoch γ) : LightEpoch γ × List (Nat × γ) :=
  let nextEpoch := e.currentEpoch + 1
  let e := { e with currentEpoch := nextEpoch }
  if 0 < e.drainCount then e.drain nextEpoch else (e, [])

/-- One iteration of the search loop of `BumpCurrentEpoch(callback, context)`:
`TryPush` into a free entry, `TrySwap` out of a safe one, nothing otherwise. -/
def LightEpoch.tryRegister (e : LightEpoch γ) (i priorEpoch : Nat) (context : γ) :
    Option (LightEpoch γ × List (Nat × γ)) :=
  match e.drainList[i]? with
  | some .free =>
      some ({ e with
        drainList := e.drainList.set i (.pending priorEpoch context)
        drainCount := e.drainCount + 1 }, [])
  | some (.pending triggerEpoch existing) =>
      if triggerEpoch ≤ e.safeToReclaimEpoch then
        some ({ e with drainList := e.drainList.set i (.pending priorEpoch context) },
          [(triggerEpoch, existing)])
      else none
  | none => none

def nextIndex (i : Nat) : Nat :=
  if i + 1 = kDrainListSize then 0 else i + 1

def LightEpoch.registerLoop : Nat → LightEpoch γ → Nat → Nat → γ →
    Option (LightEpoch γ × List (Nat × γ))
  | 0, _, _, _, _ => none
  | fuel + 1, e, i, priorEpoch, context =>
      match e.tryRegister i priorEpoch context with
      | some r => some r
      | none => registerLoop fuel e (nextIndex i) priorEpoch context

/-- `BumpCurrentEpoch(callback, context)`, cut off after `fuel` iterations of
its search loop. -/
def LightEpoch.bumpCurrentEpochWith (fuel : Nat) (e : LightEpoch γ) (context : γ) :
    Option (LightEpoch γ × List (Nat × γ)) :=
  let bumped := e.bumpCurrentEpoch
  match LightEpoch.registerLoop fuel bumped.1 0 (bumped.1.currentEpoch - 1) context with
  | some r => some (r.1, bumped.2 ++ r.2)
  | none => none

end Operations

section Scan

variable {γ : Type*} {table : Nat → Entry} {indices : List Nat} {oldest : Nat}

theorem oldestOngoingCall_le (table : Nat → Entry) (indices : List Nat) (oldest : Nat) :
    oldestOngoingCall table indices oldest ≤ oldest := by
  induction indices generalizing oldest with
  | nil => exact Nat.le_refl _
  | cons index rest ih =>
      refine Nat.le_trans (ih _) ?_
      split <;> omega

theorem oldestOngoingCall_le_entry (oldest : Nat) {index : Nat} (hmem : index ∈ indices)
    (hne : (table index).localCurrentEpoch ≠ 0) :
    oldestOngoingCall table indices oldest ≤ (table index).localCurrentEpoch := by
  induction indices generalizing oldest with
  | nil => cases hmem
  | cons i rest ih =>
      rcases List.mem_cons.mp hmem with rfl | hrest
      · rw [oldestOngoingCall]
        refine Nat.le_trans (oldestOngoingCall_le _ _ _) ?_
        split <;> omega
      · exact ih _ hrest

theorem oldestOngoingCall_cases (table : Nat → Entry) (indices : List Nat) (oldest : Nat) :
    oldestOngoingCall table indices oldest = oldest ∨
      ∃ index ∈ indices, (table index).localCurrentEpoch ≠ 0 ∧
        oldestOngoingCall table indices oldest = (table index).localCurrentEpoch := by
  induction indices generalizing oldest with
  | nil => exact Or.inl rfl
  | cons i rest ih =>
      rw [oldestOngoingCall]
      rcases ih (if (table i).localCurrentEpoch ≠ 0 ∧ (table i).localCurrentEpoch < oldest
        then (table i).localCurrentEpoch else oldest) with hkeep | ⟨index, hmem, hne, heq⟩
      · rw [hkeep]
        split
        · rename_i h
          exact Or.inr ⟨i, by simp, h.1, rfl⟩
        · exact Or.inl rfl
      · exact Or.inr ⟨index, by simp [hmem], hne, heq⟩

/-- The entries that `ComputeNewSafeToReclaimEpoch` reads. -/
def LightEpoch.Scanned (e : LightEpoch γ) (id : Nat) : Prop :=
  1 ≤ id ∧ id ≤ e.numEntries

theorem mem_scan_iff {e : LightEpoch γ} {id : Nat} :
    id ∈ List.range' 1 e.numEntries ↔ e.Scanned id := by
  simp only [List.mem_range'_1, LightEpoch.Scanned]
  omega

end Scan

section Pending

variable {γ : Type*}

def entryPending : EpochAction γ → List (Nat × γ)
  | .free => []
  | .pending epoch context => [(epoch, context)]

def pendings (l : List (EpochAction γ)) : List (Nat × γ) :=
  l.flatMap entryPending

@[simp] theorem pendings_nil : pendings ([] : List (EpochAction γ)) = [] := rfl

@[simp] theorem pendings_free (l : List (EpochAction γ)) :
    pendings (.free :: l) = pendings l := rfl

@[simp] theorem pendings_pending (epoch : Nat) (context : γ) (l : List (EpochAction γ)) :
    pendings (.pending epoch context :: l) = (epoch, context) :: pendings l := rfl

@[simp] theorem pendings_replicate_free (n : Nat) :
    pendings (List.replicate n (.free : EpochAction γ)) = [] := by
  induction n with
  | zero => rfl
  | succ n ih => simpa [List.replicate_succ] using ih

theorem mem_pendings_iff {l : List (EpochAction γ)} {x : Nat × γ} :
    x ∈ pendings l ↔ .pending x.1 x.2 ∈ l := by
  simp only [pendings, List.mem_flatMap]
  constructor
  · rintro ⟨y, hy, hx⟩
    cases y with
    | free => cases hx
    | pending epoch context =>
        rw [entryPending, List.mem_singleton] at hx
        rw [hx]
        exact hy
  · exact fun hx => ⟨_, hx, by simp [entryPending]⟩

theorem pendings_length_le (l : List (EpochAction γ)) : (pendings l).length ≤ l.length := by
  induction l with
  | nil => exact Nat.le_refl _
  | cons x l ih =>
      cases x with
      | free => exact Nat.le_succ_of_le ih
      | pending epoch context => exact Nat.succ_le_succ ih

theorem pendings_length_eq_iff {l : List (EpochAction γ)} :
    (pendings l).length = l.length ↔ .free ∉ l := by
  induction l with
  | nil => simp
  | cons x l ih =>
      have hle := pendings_length_le l
      cases x with
      | free =>
          simp only [pendings_free, List.length_cons, List.mem_cons, true_or, not_true_eq_false,
            iff_false]
          omega
      | pending epoch context => simpa using ih

theorem pendings_set {l : List (EpochAction γ)} {i : Nat} {x : EpochAction γ}
    (hx : l[i]? = some x) (y : EpochAction γ) :
    (entryPending x ++ pendings (l.set i y)).Perm (entryPending y ++ pendings l) := by
  induction l generalizing i with
  | nil => simp at hx
  | cons z l ih =>
      cases i with
      | zero =>
          obtain rfl : z = x := by simpa using hx
          simp only [List.set_cons_zero, pendings, List.flatMap_cons]
          rw [← List.append_assoc, ← List.append_assoc]
          exact List.perm_append_comm.append_right _
      | succ i =>
          have hih := ih (by simpa using hx)
          simp only [List.set_cons_succ, pendings, List.flatMap_cons] at hih ⊢
          have hswap (u v w : List (Nat × γ)) : (u ++ (v ++ w)).Perm (v ++ (u ++ w)) := by
            rw [← List.append_assoc, ← List.append_assoc]
            exact List.perm_append_comm.append_right w
          exact (hswap _ _ _).trans ((hih.append_left _).trans (hswap _ _ _))

theorem drainScan_length (safe : Nat) (l : List (EpochAction γ)) (count : Nat) :
    (drainScan safe l count).1.length = l.length := by
  induction l generalizing count with
  | nil => rfl
  | cons x l ih =>
      cases x with
      | free => simp [drainScan, ih]
      | pending epoch context =>
          simp only [drainScan]
          split
          · split
            · rfl
            · simp [ih]
          · simp [ih]

/-- With an exact count the scan pops the safe entries and keeps the others.
The count also covers the `kept` entries the scan has already passed. -/
theorem drainScan_spec (safe : Nat) (l : List (EpochAction γ)) (count kept : Nat)
    (hcount : count = kept + (pendings l).length) :
    pendings (drainScan safe l count).1 =
        (pendings l).filter (fun x => decide (safe < x.1)) ∧
      (drainScan safe l count).2.1 =
        kept + (pendings (drainScan safe l count).1).length ∧
      (drainScan safe l count).2.2 =
        (pendings l).filter (fun x => decide (x.1 ≤ safe)) := by
  induction l generalizing count kept with
  | nil => simpa [drainScan] using hcount
  | cons x l ih =>
      cases x with
      | free => simpa [drainScan] using ih count kept (by simpa using hcount)
      | pending epoch context =>
          simp only [pendings_pending, List.length_cons] at hcount
          by_cases hsafe : epoch ≤ safe
          · have hnot : ¬ safe < epoch := by omega
            by_cases hlast : count - 1 = 0
            · have hkept : kept = 0 := by omega
              have hnil : pendings l = [] := List.eq_nil_of_length_eq_zero (by omega)
              simp [drainScan, hsafe, hlast, hnil, hkept]
            · obtain ⟨hlist, hcnt, hpopped⟩ := ih (count - 1) kept (by omega)
              simp [drainScan, hsafe, hlast, hnot, hlist, hpopped]
              rw [hcnt, hlist]
          · have hlt : safe < epoch := by omega
            obtain ⟨hlist, hcnt, hpopped⟩ := ih count (kept + 1) (by omega)
            simp [drainScan, hsafe, hlt, hlist, hpopped]
            rw [hcnt, hlist]
            omega

end Pending

section Consistency

variable {γ : Type*} {e : LightEpoch γ}

structure LightEpoch.Consistent (e : LightEpoch γ) : Prop where
  length : e.drainList.length = kDrainListSize
  count : e.drainCount = (pendings e.drainList).length
  safe_lt : e.safeToReclaimEpoch < e.currentEpoch
  local_le : ∀ id, (e.table id).localCurrentEpoch ≤ e.currentEpoch
  prior_lt : ∀ x ∈ pendings e.drainList, x.1 < e.currentEpoch
  safe_lt_local : ∀ id, e.Scanned id → (e.table id).localCurrentEpoch ≠ 0 →
    e.safeToReclaimEpoch < (e.table id).localCurrentEpoch

theorem consistent_new (size : Nat) : (LightEpoch.new size : LightEpoch γ).Consistent where
  length := by simp [LightEpoch.new]
  count := by simp [LightEpoch.new]
  safe_lt := by simp [LightEpoch.new]
  local_le := by simp [LightEpoch.new]
  prior_lt := by simp [LightEpoch.new]
  safe_lt_local := by simp [LightEpoch.new]

theorem LightEpoch.Consistent.setEntry (h : e.Consistent) {id : Nat} {entry : Entry}
    (hle : entry.localCurrentEpoch ≤ e.currentEpoch)
    (hlt : e.Scanned id → entry.localCurrentEpoch ≠ 0 →
      e.safeToReclaimEpoch < entry.localCurrentEpoch) :
    (e.setEntry id entry).Consistent where
  length := h.length
  count := h.count
  safe_lt := h.safe_lt
  local_le := by
    intro id'
    by_cases hid : id' = id
    · subst id'
      simpa [LightEpoch.setEntry] using hle
    · simpa [LightEpoch.setEntry, hid] using h.local_le id'
  prior_lt := h.prior_lt
  safe_lt_local := by
    intro id' hscan
    by_cases hid : id' = id
    · subst id'
      simpa [LightEpoch.setEntry] using hlt hscan
    · simpa [LightEpoch.setEntry, hid] using h.safe_lt_local id' hscan

theorem reentrantProtect_eq_setEntry (e : LightEpoch γ) (id : Nat) :
    ∃ entry, e.reentrantProtect id = e.setEntry id entry := by
  unfold LightEpoch.reentrantProtect
  split
  · exact ⟨e.table id, by simp [LightEpoch.setEntry]⟩
  · exact ⟨_, rfl⟩

theorem reentrantUnprotect_eq_setEntry (e : LightEpoch γ) (id : Nat) :
    ∃ entry, e.reentrantUnprotect id = e.setEntry id entry := by
  simp only [LightEpoch.reentrantUnprotect]
  split <;> exact ⟨_, rfl⟩

theorem LightEpoch.Consistent.protect (h : e.Consistent) (id : Nat) :
    (e.protect id).Consistent :=
  h.setEntry (Nat.le_refl _) fun _ _ => h.safe_lt

theorem LightEpoch.Consistent.reentrantProtect (h : e.Consistent) (id : Nat) :
    (e.reentrantProtect id).Consistent := by
  unfold LightEpoch.reentrantProtect
  split
  · exact h
  · exact h.setEntry (Nat.le_refl _) fun _ _ => h.safe_lt

theorem LightEpoch.Consistent.unprotect (h : e.Consistent) (id : Nat) :
    (e.unprotect id).Consistent :=
  h.setEntry (Nat.zero_le _) fun _ hne => absurd rfl hne

theorem LightEpoch.Consistent.reentrantUnprotect (h : e.Consistent) (id : Nat) :
    (e.reentrantUnprotect id).Consistent := by
  simp only [LightEpoch.reentrantUnprotect]
  split
  · exact h.setEntry (Nat.zero_le _) fun _ hne => absurd rfl hne
  · exact h.setEntry (h.local_le id) fun hscan hne => h.safe_lt_local id hscan hne

/-- Draining splits the pending entries at the safe epoch it computes: the safe
ones are executed, the others stay. -/
theorem LightEpoch.Consistent.drain_pendings (h : e.Consistent) (nextEpoch : Nat) :
    pendings (e.drain nextEpoch).1.drainList = (pendings e.drainList).filter
        (fun x => decide ((e.drain nextEpoch).1.safeToReclaimEpoch < x.1)) ∧
      (e.drain nextEpoch).2 = (pendings e.drainList).filter
        (fun x => decide (x.1 ≤ (e.drain nextEpoch).1.safeToReclaimEpoch)) := by
  obtain ⟨hlist, -, hpopped⟩ := drainScan_spec
    (e.drain nextEpoch).1.safeToReclaimEpoch e.drainList e.drainCount 0
    (by rw [Nat.zero_add, h.count])
  exact ⟨hlist, hpopped⟩

theorem LightEpoch.Consistent.drain_perm (h : e.Consistent) (nextEpoch : Nat) :
    ((e.drain nextEpoch).2 ++ pendings (e.drain nextEpoch).1.drainList).Perm
      (pendings e.drainList) := by
  rw [(h.drain_pendings nextEpoch).1, (h.drain_pendings nextEpoch).2]
  have hnot : (fun x : Nat × γ =>
      decide ((e.drain nextEpoch).1.safeToReclaimEpoch < x.1)) =
      fun x => !decide (x.1 ≤ (e.drain nextEpoch).1.safeToReclaimEpoch) := by
    funext x
    rw [← decide_not]
    exact decide_eq_decide.mpr Nat.not_le.symm
  rw [hnot]
  exact List.filter_append_perm _ _

theorem LightEpoch.Consistent.drain (h : e.Consistent) {nextEpoch : Nat}
    (hnext : nextEpoch ≤ e.currentEpoch) : (e.drain nextEpoch).1.Consistent where
  length := (drainScan_length _ _ _).trans h.length
  count := by
    have hcnt := (drainScan_spec ((e.drain nextEpoch).1.safeToReclaimEpoch)
      e.drainList e.drainCount 0 (by rw [Nat.zero_add, h.count])).2.1
    rw [Nat.zero_add] at hcnt
    exact hcnt
  safe_lt := by
    have hle := oldestOngoingCall_le e.table (List.range' 1 e.numEntries) nextEpoch
    have hlt := h.safe_lt
    change oldestOngoingCall e.table (List.range' 1 e.numEntries) nextEpoch - 1 < e.currentEpoch
    omega
  local_le := h.local_le
  prior_lt := by
    intro x hx
    rw [(h.drain_pendings nextEpoch).1, List.mem_filter] at hx
    exact h.prior_lt x hx.1
  safe_lt_local := by
    intro id hscan hne
    change e.Scanned id at hscan
    change (e.table id).localCurrentEpoch ≠ 0 at hne
    change oldestOngoingCall e.table (List.range' 1 e.numEntries) nextEpoch - 1 <
      (e.table id).localCurrentEpoch
    have hle := oldestOngoingCall_le_entry nextEpoch (mem_scan_iff.mpr hscan) hne
    omega

theorem LightEpoch.Consistent.protectAndDrain (h : e.Consistent) (id : Nat) :
    (e.protectAndDrain id).1.Consistent := by
  have hprotect := h.protect id
  simp only [LightEpoch.protectAndDrain]
  split
  · exact hprotect.drain (hprotect.local_le id)
  · exact hprotect

theorem LightEpoch.Consistent.protectAndDrain_perm (h : e.Consistent) (id : Nat) :
    ((e.protectAndDrain id).2 ++ pendings (e.protectAndDrain id).1.drainList).Perm
      (pendings e.drainList) := by
  simp only [LightEpoch.protectAndDrain]
  split
  · exact (h.protect id).drain_perm _
  · exact List.Perm.refl _

@[simp] theorem bumpCurrentEpoch_table (e : LightEpoch γ) :
    e.bumpCurrentEpoch.1.table = e.table := by
  simp only [LightEpoch.bumpCurrentEpoch]
  split <;> rfl

@[simp] theorem bumpCurrentEpoch_numEntries (e : LightEpoch γ) :
    e.bumpCurrentEpoch.1.numEntries = e.numEntries := by
  simp only [LightEpoch.bumpCurrentEpoch]
  split <;> rfl

@[simp] theorem bumpCurrentEpoch_currentEpoch (e : LightEpoch γ) :
    e.bumpCurrentEpoch.1.currentEpoch = e.currentEpoch + 1 := by
  simp only [LightEpoch.bumpCurrentEpoch]
  split <;> rfl

theorem bumpCurrentEpoch_of_pending (hpos : 0 < e.drainCount) :
    e.bumpCurrentEpoch =
      ({ e with currentEpoch := e.currentEpoch + 1 } : LightEpoch γ).drain
        (e.currentEpoch + 1) := by
  simp only [LightEpoch.bumpCurrentEpoch, if_pos hpos]

theorem bumpCurrentEpoch_safe (hpos : 0 < e.drainCount) :
    e.bumpCurrentEpoch.1.safeToReclaimEpoch =
      oldestOngoingCall e.table (List.range' 1 e.numEntries) (e.currentEpoch + 1) - 1 := by
  rw [bumpCurrentEpoch_of_pending hpos]
  rfl

theorem bumpCurrentEpoch_of_idle (hzero : e.drainCount = 0) :
    e.bumpCurrentEpoch = ({ e with currentEpoch := e.currentEpoch + 1 }, []) := by
  simp [LightEpoch.bumpCurrentEpoch, hzero]

theorem LightEpoch.Consistent.advance (h : e.Consistent) :
    ({ e with currentEpoch := e.currentEpoch + 1 } : LightEpoch γ).Consistent where
  length := h.length
  count := h.count
  safe_lt := Nat.lt_succ_of_lt h.safe_lt
  local_le := fun id => Nat.le_succ_of_le (h.local_le id)
  prior_lt := fun x hx => Nat.lt_succ_of_lt (h.prior_lt x hx)
  safe_lt_local := h.safe_lt_local

/-- A bump splits the pending entries at the safe epoch it leaves behind: the
safe ones are executed, the others stay. -/
theorem LightEpoch.Consistent.bump_pendings (h : e.Consistent) :
    pendings e.bumpCurrentEpoch.1.drainList = (pendings e.drainList).filter
        (fun x => decide (e.bumpCurrentEpoch.1.safeToReclaimEpoch < x.1)) ∧
      e.bumpCurrentEpoch.2 = (pendings e.drainList).filter
        (fun x => decide (x.1 ≤ e.bumpCurrentEpoch.1.safeToReclaimEpoch)) := by
  rcases Nat.eq_zero_or_pos e.drainCount with hzero | hpos
  · have hnil : pendings e.drainList = [] :=
      List.eq_nil_of_length_eq_zero (by rw [← h.count, hzero])
    simp only [bumpCurrentEpoch_of_idle hzero, hnil, List.filter_nil, and_self]
  · rw [bumpCurrentEpoch_of_pending hpos]
    exact h.advance.drain_pendings _

theorem LightEpoch.Consistent.bump_perm (h : e.Consistent) :
    (e.bumpCurrentEpoch.2 ++ pendings e.bumpCurrentEpoch.1.drainList).Perm
      (pendings e.drainList) := by
  rcases Nat.eq_zero_or_pos e.drainCount with hzero | hpos
  · rw [bumpCurrentEpoch_of_idle hzero]
    exact List.Perm.refl _
  · rw [bumpCurrentEpoch_of_pending hpos]
    exact h.advance.drain_perm _

theorem LightEpoch.Consistent.bump_executed (h : e.Consistent) {x : Nat × γ}
    (hx : x ∈ e.bumpCurrentEpoch.2) :
    x ∈ pendings e.drainList ∧ x.1 ≤ e.bumpCurrentEpoch.1.safeToReclaimEpoch := by
  rw [h.bump_pendings.2, List.mem_filter] at hx
  simpa using hx

theorem LightEpoch.Consistent.bump (h : e.Consistent) :
    e.bumpCurrentEpoch.1.Consistent := by
  rcases Nat.eq_zero_or_pos e.drainCount with hzero | hpos
  · rw [bumpCurrentEpoch_of_idle hzero]
    exact h.advance
  · rw [bumpCurrentEpoch_of_pending hpos]
    exact h.advance.drain (Nat.le_refl _)

theorem tryRegister_spec {i prior : Nat} {context : γ} {r : LightEpoch γ × List (Nat × γ)}
    (hr : e.tryRegister i prior context = some r) :
    r.1.table = e.table ∧ r.1.numEntries = e.numEntries ∧
      r.1.currentEpoch = e.currentEpoch ∧
      r.1.safeToReclaimEpoch = e.safeToReclaimEpoch ∧
      r.1.drainList.length = e.drainList.length ∧
      r.1.drainCount + r.2.length = e.drainCount + 1 ∧
      (∀ x ∈ r.2, x.1 ≤ e.safeToReclaimEpoch) ∧
      (r.2 ++ pendings r.1.drainList).Perm ((prior, context) :: pendings e.drainList) := by
  unfold LightEpoch.tryRegister at hr
  split at hr
  · rename_i hi
    rw [← Option.some.inj hr]
    refine ⟨rfl, rfl, rfl, rfl, List.length_set, rfl, by simp, ?_⟩
    exact pendings_set hi (.pending prior context)
  · rename_i triggerEpoch existing hi
    split at hr
    · rename_i hle
      rw [← Option.some.inj hr]
      refine ⟨rfl, rfl, rfl, rfl, List.length_set, rfl, by simpa using hle, ?_⟩
      exact pendings_set hi (.pending prior context)
    · cases hr
  · cases hr

theorem LightEpoch.Consistent.tryRegister (h : e.Consistent) {i prior : Nat} {context : γ}
    {r : LightEpoch γ × List (Nat × γ)} (hr : e.tryRegister i prior context = some r)
    (hprior : prior < e.currentEpoch) : r.1.Consistent := by
  obtain ⟨htable, hnum, hcur, hsafe, hlen, hcnt, -, hperm⟩ := tryRegister_spec hr
  refine ⟨hlen.trans h.length, ?_, ?_, ?_, ?_, ?_⟩
  · have hlength := hperm.length_eq
    have hcount := h.count
    simp only [List.length_append, List.length_cons] at hlength
    omega
  · rw [hsafe, hcur]
    exact h.safe_lt
  · rw [htable, hcur]
    exact h.local_le
  · intro x hx
    rw [hcur]
    rcases List.mem_cons.mp (hperm.subset (List.mem_append_right _ hx)) with rfl | hmem
    · exact hprior
    · exact h.prior_lt x hmem
  · intro id hscan hne
    rw [htable] at hne ⊢
    rw [hsafe]
    exact h.safe_lt_local id (by simpa [LightEpoch.Scanned, hnum] using hscan) hne

theorem tryRegister_eq_none_iff {i prior : Nat} {context : γ}
    (hi : i < e.drainList.length) :
    e.tryRegister i prior context = none ↔
      ∃ epoch existing, e.drainList[i]? = some (.pending epoch existing) ∧
        e.safeToReclaimEpoch < epoch := by
  unfold LightEpoch.tryRegister
  rw [List.getElem?_eq_getElem hi]
  cases hx : e.drainList[i] with
  | free => simp
  | pending epoch existing => simp

/-- No entry of the drain list is free, and all are as new as the epoch that
thread `id` is protected at. -/
structure LightEpoch.Blocked (e : LightEpoch γ) (id : Nat) : Prop where
  scanned : e.Scanned id
  protects : (e.table id).localCurrentEpoch ≠ 0
  full : .free ∉ e.drainList
  recent : ∀ x ∈ pendings e.drainList, (e.table id).localCurrentEpoch ≤ x.1

theorem tryRegister_all_none_iff {prior : Nat} {context : γ} :
    (∀ i, e.tryRegister i prior context = none) ↔
      .free ∉ e.drainList ∧ ∀ x ∈ pendings e.drainList, e.safeToReclaimEpoch < x.1 := by
  constructor
  · intro hall
    refine ⟨?_, ?_⟩
    · intro hfree
      obtain ⟨i, hi, hget⟩ := List.getElem_of_mem hfree
      obtain ⟨epoch, existing, hpending, -⟩ := (tryRegister_eq_none_iff hi).mp (hall i)
      rw [List.getElem?_eq_getElem hi, hget] at hpending
      cases hpending
    · intro x hx
      obtain ⟨i, hi, hget⟩ := List.getElem_of_mem (mem_pendings_iff.mp hx)
      obtain ⟨epoch, existing, hpending, hlt⟩ := (tryRegister_eq_none_iff hi).mp (hall i)
      rw [List.getElem?_eq_getElem hi, hget] at hpending
      cases hpending
      exact hlt
  · rintro ⟨hfree, hrecent⟩ i
    rcases Nat.lt_or_ge i e.drainList.length with hi | hi
    · rw [tryRegister_eq_none_iff hi, List.getElem?_eq_getElem hi]
      have hmem := List.getElem_mem hi
      cases hx : e.drainList[i] with
      | free => exact absurd (hx ▸ hmem) hfree
      | pending epoch existing =>
          rw [hx] at hmem
          exact ⟨epoch, existing, rfl, hrecent (epoch, existing) (mem_pendings_iff.mpr hmem)⟩
    · unfold LightEpoch.tryRegister
      rw [List.getElem?_eq_none hi]

/-- While no other thread is protected, the registration after a bump fails at
every entry exactly when the calling thread itself blocks the drain list. -/
theorem LightEpoch.Consistent.blocked_iff (h : e.Consistent) {id : Nat}
    (hlone : ∀ u, u ≠ id → (e.table u).localCurrentEpoch = 0) (prior : Nat) (context : γ) :
    (∀ i, e.bumpCurrentEpoch.1.tryRegister i prior context = none) ↔ e.Blocked id := by
  rw [tryRegister_all_none_iff, ← pendings_length_eq_iff, h.bump.length, h.bump_pendings.1]
  constructor
  · rintro ⟨hlen, -⟩
    have hle := pendings_length_le e.drainList
    have hfilter := List.length_filter_le
      (fun x : Nat × γ => decide (e.bumpCurrentEpoch.1.safeToReclaimEpoch < x.1))
      (pendings e.drainList)
    rw [h.length] at hle
    have hfull : (pendings e.drainList).length = e.drainList.length := by
      rw [h.length]
      omega
    have hrecent : ∀ x ∈ pendings e.drainList,
        e.bumpCurrentEpoch.1.safeToReclaimEpoch < x.1 := by
      intro x hx
      rw [← h.length, ← hfull, List.length_filter_eq_length_iff] at hlen
      simpa using hlen x hx
    have hpos : 0 < e.drainCount := by
      rw [h.count, hfull, h.length]
      decide
    rw [bumpCurrentEpoch_safe hpos] at hrecent
    obtain ⟨x, hx⟩ := List.exists_mem_of_length_pos (h.count ▸ hpos)
    have hprior := h.prior_lt x hx
    rcases oldestOngoingCall_cases e.table (List.range' 1 e.numEntries)
      (e.currentEpoch + 1) with hold | ⟨u, hmem, hne, hold⟩
    · have := hrecent x hx
      omega
    · have hu : u = id := by
        by_contra hother
        exact hne (hlone u hother)
      subst u
      refine ⟨mem_scan_iff.mp hmem, hne, pendings_length_eq_iff.mp hfull, ?_⟩
      intro y hy
      have := hrecent y hy
      omega
  · intro hblocked
    have hfull := pendings_length_eq_iff.mpr hblocked.full
    have hpos : 0 < e.drainCount := by
      rw [h.count, hfull, h.length]
      decide
    have hsafe : ∀ x ∈ pendings e.drainList,
        e.bumpCurrentEpoch.1.safeToReclaimEpoch < x.1 := by
      intro x hx
      have hle := oldestOngoingCall_le_entry (e.currentEpoch + 1)
        (mem_scan_iff.mpr hblocked.scanned) hblocked.protects
      have hne := hblocked.protects
      have hx' := hblocked.recent x hx
      rw [bumpCurrentEpoch_safe hpos]
      omega
    refine ⟨?_, ?_⟩
    · rw [List.filter_eq_self.mpr (by simpa using hsafe), hfull, h.length]
    · intro x hx
      exact hsafe x (List.mem_filter.mp hx).1

/-- Under a thread that stays protected nothing newer than its epoch is drained:
a registration adds to what is pending. -/
theorem LightEpoch.Consistent.register_protected (h : e.Consistent) {id j : Nat} {context : γ}
    {r : LightEpoch γ × List (Nat × γ)} (hscan : e.Scanned id)
    (hprot : (e.table id).localCurrentEpoch ≠ 0)
    (hrecent : ∀ x ∈ pendings e.drainList, (e.table id).localCurrentEpoch ≤ x.1)
    (hr : e.bumpCurrentEpoch.1.tryRegister j e.currentEpoch context = some r) :
    r.1.table = e.table ∧ r.1.numEntries = e.numEntries ∧
      (pendings r.1.drainList).Perm ((e.currentEpoch, context) :: pendings e.drainList) := by
  have hsafe : e.bumpCurrentEpoch.1.safeToReclaimEpoch < (e.table id).localCurrentEpoch := by
    have := h.bump.safe_lt_local id (by simpa [LightEpoch.Scanned] using hscan)
    rw [bumpCurrentEpoch_table] at this
    exact this hprot
  have hkeep : pendings e.bumpCurrentEpoch.1.drainList = pendings e.drainList := by
    rw [h.bump_pendings.1, List.filter_eq_self]
    intro x hx
    exact decide_eq_true (Nat.lt_of_lt_of_le hsafe (hrecent x hx))
  obtain ⟨htable, hnum, -, -, -, -, hexec, hperm⟩ := tryRegister_spec hr
  rw [hkeep] at hperm
  have hnone : r.2 = [] := by
    rw [List.eq_nil_iff_forall_not_mem]
    intro x hx
    have hle := hexec x hx
    have hlocal := h.local_le id
    rcases List.mem_cons.mp (hperm.subset (List.mem_append_left _ hx)) with rfl | hmem
    · simp only at hle
      omega
    · have := hrecent x hmem
      omega
  rw [hnone, List.nil_append] at hperm
  exact ⟨htable.trans (bumpCurrentEpoch_table e), hnum.trans (bumpCurrentEpoch_numEntries e),
    hperm⟩

theorem exists_tryRegister_of_registerLoop {fuel i prior : Nat} {context : γ}
    {r : LightEpoch γ × List (Nat × γ)}
    (hr : LightEpoch.registerLoop fuel e i prior context = some r) :
    ∃ j, e.tryRegister j prior context = some r := by
  induction fuel generalizing i with
  | zero => cases hr
  | succ fuel ih =>
      rw [LightEpoch.registerLoop] at hr
      split at hr
      · rename_i hi
        exact ⟨i, hr ▸ hi⟩
      · exact ih hr

theorem LightEpoch.Consistent.bumpWith (h : e.Consistent) {fuel : Nat} {context : γ}
    {r : LightEpoch γ × List (Nat × γ)}
    (hr : e.bumpCurrentEpochWith fuel context = some r) :
    r.1.Consistent ∧ r.1.table = e.table ∧ r.1.numEntries = e.numEntries ∧
      r.1.safeToReclaimEpoch = e.bumpCurrentEpoch.1.safeToReclaimEpoch ∧
      ∀ x ∈ r.2, x.1 ≤ e.bumpCurrentEpoch.1.safeToReclaimEpoch := by
  simp only [LightEpoch.bumpCurrentEpochWith] at hr
  split at hr
  · rename_i r' hr'
    obtain ⟨j, hj⟩ := exists_tryRegister_of_registerLoop hr'
    obtain ⟨htable, hnum, -, hsafe, -, -, hexec, -⟩ := tryRegister_spec hj
    have hprior : e.bumpCurrentEpoch.1.currentEpoch - 1 < e.bumpCurrentEpoch.1.currentEpoch := by
      rw [bumpCurrentEpoch_currentEpoch]
      omega
    have hcons := h.bump.tryRegister hj hprior
    rw [← Option.some.inj hr]
    refine ⟨hcons, ?_, ?_, hsafe, ?_⟩
    · rw [htable, bumpCurrentEpoch_table]
    · rw [hnum, bumpCurrentEpoch_numEntries]
    · intro x hx
      rcases List.mem_append.mp hx with hx | hx
      · exact (h.bump_executed hx).2
      · exact hexec x hx
  · cases hr

theorem LightEpoch.Consistent.bumpWith_perm (h : e.Consistent) {fuel : Nat} {context : γ}
    {r : LightEpoch γ × List (Nat × γ)} (hr : e.bumpCurrentEpochWith fuel context = some r) :
    (r.2 ++ pendings r.1.drainList).Perm ((e.currentEpoch, context) :: pendings e.drainList) := by
  simp only [LightEpoch.bumpCurrentEpochWith, bumpCurrentEpoch_currentEpoch,
    Nat.add_sub_cancel] at hr
  split at hr
  · rename_i r' hr'
    obtain ⟨j, hj⟩ := exists_tryRegister_of_registerLoop hr'
    obtain ⟨-, -, -, -, -, -, -, hperm⟩ := tryRegister_spec hj
    rw [← Option.some.inj hr, List.append_assoc]
    refine (hperm.append_left _).trans ?_
    exact List.perm_middle.trans (h.bump_perm.cons _)
  · cases hr

end Consistency

end HashComp.Epoch
