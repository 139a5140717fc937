import HashComp.Epoch.LightEpoch
import HashComp.Library.Runs
import Mathlib.Data.List.Range

namespace HashComp.EpochThreads

open HashComp.Epoch
open HashComp.Runs

def kMaxNumThreads : Nat := 96

/-- `Thread::ReserveEntry`: ids are tried from zero upwards, twice around. -/
def reserveEntry (idUsed : Nat → Bool) : Option Nat :=
  ((List.range (2 * kMaxNumThreads)).map (· % kMaxNumThreads)).find? fun id => !idUsed id

structure System (γ : Type*) where
  idUsed : Nat → Bool
  epoch : LightEpoch γ

inductive Action (γ : Type*) where
  | reserveEntry
  | releaseEntry (id : Nat)
  | protect (id : Nat)
  | reentrantProtect (id : Nat)
  | unprotect (id : Nat)
  | reentrantUnprotect (id : Nat)
  | bumpCurrentEpoch (id : Nat)
  | bumpCurrentEpochWith (id : Nat) (context : γ)

section System

variable {γ : Type*}

def start (size : Nat) : System γ where
  idUsed := fun _ => false
  epoch := LightEpoch.new size

def liveThreads (s : System γ) : Nat :=
  ((List.range kMaxNumThreads).filter s.idUsed).length

/-- One call, made by the live thread it names.  A thread starts only while
fewer threads than epoch entries are alive.  A search for a drain entry that
finds none in a whole pass never returns, so the call has no next state. -/
def next (s : System γ) : Action γ → Option (System γ)
  | .reserveEntry =>
      if liveThreads s < s.epoch.numEntries then
        (reserveEntry s.idUsed).map fun id =>
          { s with idUsed := Function.update s.idUsed id true }
      else none
  | .releaseEntry id =>
      if s.idUsed id then some { s with idUsed := Function.update s.idUsed id false } else none
  | .protect id =>
      if s.idUsed id then some { s with epoch := s.epoch.protect id } else none
  | .reentrantProtect id =>
      if s.idUsed id then some { s with epoch := s.epoch.reentrantProtect id } else none
  | .unprotect id =>
      if s.idUsed id then some { s with epoch := s.epoch.unprotect id } else none
  | .reentrantUnprotect id =>
      if s.idUsed id then some { s with epoch := s.epoch.reentrantUnprotect id } else none
  | .bumpCurrentEpoch id =>
      if s.idUsed id then some { s with epoch := s.epoch.bumpCurrentEpoch.1 } else none
  | .bumpCurrentEpochWith id context =>
      if s.idUsed id then
        (s.epoch.bumpCurrentEpochWith kDrainListSize context).map fun r =>
          { s with epoch := r.1 }
      else none

def executes (s : System γ) : Action γ → List (Nat × γ)
  | .bumpCurrentEpoch _ => s.epoch.bumpCurrentEpoch.2
  | .bumpCurrentEpochWith _ context =>
      match s.epoch.bumpCurrentEpochWith kDrainListSize context with
      | some r => r.2
      | none => []
  | _ => []

/-- Every callback the action executes was registered before the epoch of every
live protected thread. -/
def SafeCallbacks (s : System γ) (a : Action γ) : Prop :=
  ∀ x ∈ executes s a, ∀ id, s.idUsed id = true →
    (s.epoch.table id).localCurrentEpoch ≠ 0 → x.1 < (s.epoch.table id).localCurrentEpoch

end System

section Registry

variable {idUsed : Nat → Bool} {id : Nat}

theorem reserveEntry_spec (h : reserveEntry idUsed = some id) :
    id < kMaxNumThreads ∧ idUsed id = false ∧ ∀ j < id, idUsed j = true := by
  rw [reserveEntry, List.find?_map, Option.map_eq_some_iff] at h
  obtain ⟨k, hk, rfl⟩ := h
  obtain ⟨hfree, -, hused⟩ := List.find?_range_eq_some.mp hk
  have hmod : k % kMaxNumThreads < kMaxNumThreads := Nat.mod_lt k (by decide)
  refine ⟨hmod, by simpa using hfree, ?_⟩
  intro j hj
  have hjk : j < k := Nat.lt_of_lt_of_le hj (Nat.mod_le k _)
  simpa [Nat.mod_eq_of_lt (Nat.lt_trans hj hmod)] using hused j hjk

theorem reserveEntry_le (h : reserveEntry idUsed = some id) :
    id ≤ ((List.range kMaxNumThreads).filter idUsed).length := by
  obtain ⟨hid, -, hused⟩ := reserveEntry_spec h
  have hsub : (List.range id).Sublist ((List.range kMaxNumThreads).filter idUsed) := by
    have hself : (List.range id).filter idUsed = List.range id := by
      rw [List.filter_eq_self]
      exact fun j hj => hused j (List.mem_range.mp hj)
    rw [← hself]
    exact (List.range_sublist.mpr (Nat.le_of_lt hid)).filter idUsed
  simpa using hsub.length_le

end Registry

section Safety

variable {γ : Type*} {e : LightEpoch γ} {s t : System γ} {a : Action γ} {size : Nat}

/-- Every callback that any run executes is safe. -/
def ReclamationSafe (γ : Type*) (size : Nat) : Prop :=
  ∀ s : System γ, Reaches next (fun _ _ => True) (start size) s →
    ∀ a t, next s a = some t → SafeCallbacks s a

/-- Entry zero, which the scan leaves out, is unprotected or not older than some
protected entry that the scan reads. -/
def ZeroCovered (e : LightEpoch γ) : Prop :=
  (e.table 0).localCurrentEpoch = 0 ∨
    ∃ id, e.Scanned id ∧ (e.table id).localCurrentEpoch ≠ 0 ∧
      (e.table id).localCurrentEpoch ≤ (e.table 0).localCurrentEpoch

/-- No bump recomputes the safe epoch while entry zero is uncovered. -/
def Disciplined (s : System γ) : Action γ → Prop
  | .bumpCurrentEpoch _ | .bumpCurrentEpochWith _ _ =>
      0 < s.epoch.drainCount → ZeroCovered s.epoch
  | _ => True

def ZeroSafe (e : LightEpoch γ) : Prop :=
  (e.table 0).localCurrentEpoch ≠ 0 → e.safeToReclaimEpoch < (e.table 0).localCurrentEpoch

/-- Recomputing the safe epoch keeps it below entry zero exactly when that entry
is covered. -/
theorem bump_zeroSafe_iff (h : e.Consistent) (hpos : 0 < e.drainCount) :
    ZeroSafe e.bumpCurrentEpoch.1 ↔ ZeroCovered e := by
  unfold ZeroSafe ZeroCovered
  rw [bumpCurrentEpoch_table, bumpCurrentEpoch_safe hpos]
  constructor
  · intro hsafe
    by_cases hzero : (e.table 0).localCurrentEpoch = 0
    · exact Or.inl hzero
    · have hlt := hsafe hzero
      have hle := h.local_le 0
      rcases oldestOngoingCall_cases e.table (List.range' 1 e.numEntries)
        (e.currentEpoch + 1) with hold | ⟨id, hmem, hne, hold⟩
      · omega
      · exact Or.inr ⟨id, mem_scan_iff.mp hmem, hne, by omega⟩
  · rintro (hzero | ⟨id, hscan, hne, hle⟩) hprot
    · exact absurd hzero hprot
    · have := oldestOngoingCall_le_entry (e.currentEpoch + 1) (mem_scan_iff.mpr hscan) hne
      omega

theorem bump_zeroSafe (h : e.Consistent) (hzero : ZeroSafe e)
    (hcov : 0 < e.drainCount → ZeroCovered e) : ZeroSafe e.bumpCurrentEpoch.1 := by
  rcases Nat.eq_zero_or_pos e.drainCount with hidle | hpos
  · rw [bumpCurrentEpoch_of_idle hidle]
    exact hzero
  · exact (bump_zeroSafe_iff h hpos).mpr (hcov hpos)

theorem setEntry_zeroSafe (hzero : ZeroSafe e) {id : Nat} {entry : Entry}
    (hentry : entry.localCurrentEpoch ≠ 0 →
      e.safeToReclaimEpoch < entry.localCurrentEpoch ∨
        entry.localCurrentEpoch = (e.table id).localCurrentEpoch) :
    ZeroSafe (e.setEntry id entry) := by
  intro hne
  by_cases hid : id = 0
  · subst id
    simp only [LightEpoch.setEntry, Function.update_self] at hne ⊢
    rcases hentry hne with hlt | heq
    · exact hlt
    · rw [heq] at hne ⊢
      exact hzero hne
  · simp only [LightEpoch.setEntry, Function.update_of_ne (Ne.symm hid)] at hne ⊢
    exact hzero hne

structure Invariant (size : Nat) (s : System γ) : Prop where
  consistent : s.epoch.Consistent
  entries : s.epoch.numEntries = size
  ids : ∀ id, s.idUsed id = true → id < size
  zero : ZeroSafe s.epoch

theorem invariant_start (size : Nat) : Invariant size (start size : System γ) where
  consistent := consistent_new size
  entries := rfl
  ids := by simp [start]
  zero := by simp [start, ZeroSafe, LightEpoch.new]

theorem Invariant.setEntry (h : Invariant size s) {id : Nat} {entry : Entry}
    (hcons : (s.epoch.setEntry id entry).Consistent)
    (hentry : entry.localCurrentEpoch ≠ 0 →
      s.epoch.safeToReclaimEpoch < entry.localCurrentEpoch ∨
        entry.localCurrentEpoch = (s.epoch.table id).localCurrentEpoch) :
    Invariant size { s with epoch := s.epoch.setEntry id entry } where
  consistent := hcons
  entries := h.entries
  ids := h.ids
  zero := setEntry_zeroSafe h.zero hentry

theorem Invariant.step (h : Invariant size s) (hok : Disciplined s a)
    (hnext : next s a = some t) : Invariant size t := by
  cases a with
  | reserveEntry =>
      simp only [next] at hnext
      split at hnext
      · rename_i hlive
        obtain ⟨id, hid, rfl⟩ := Option.map_eq_some_iff.mp hnext
        refine ⟨h.consistent, h.entries, ?_, h.zero⟩
        intro id' hused
        by_cases heq : id' = id
        · subst id'
          exact h.entries ▸ Nat.lt_of_le_of_lt (reserveEntry_le hid) hlive
        · exact h.ids id' (by simpa [heq] using hused)
      · cases hnext
  | releaseEntry id =>
      simp only [next, Option.ite_none_right_eq_some, Option.some.injEq] at hnext
      obtain ⟨-, rfl⟩ := hnext
      refine ⟨h.consistent, h.entries, ?_, h.zero⟩
      intro id' hused
      by_cases heq : id' = id
      · simp [heq] at hused
      · exact h.ids id' (by simpa [heq] using hused)
  | protect id =>
      simp only [next, Option.ite_none_right_eq_some, Option.some.injEq] at hnext
      obtain ⟨-, rfl⟩ := hnext
      exact h.setEntry (h.consistent.protect id) fun _ => Or.inl h.consistent.safe_lt
  | reentrantProtect id =>
      simp only [next, Option.ite_none_right_eq_some, Option.some.injEq] at hnext
      obtain ⟨-, rfl⟩ := hnext
      have hcons := h.consistent.reentrantProtect id
      unfold LightEpoch.reentrantProtect at hcons ⊢
      split
      · exact h
      · rename_i hidle
        rw [if_neg hidle] at hcons
        exact h.setEntry hcons fun _ => Or.inl h.consistent.safe_lt
  | unprotect id =>
      simp only [next, Option.ite_none_right_eq_some, Option.some.injEq] at hnext
      obtain ⟨-, rfl⟩ := hnext
      exact h.setEntry (h.consistent.unprotect id) fun hne => absurd rfl hne
  | reentrantUnprotect id =>
      simp only [next, Option.ite_none_right_eq_some, Option.some.injEq] at hnext
      obtain ⟨-, rfl⟩ := hnext
      have hcons := h.consistent.reentrantUnprotect id
      simp only [LightEpoch.reentrantUnprotect] at hcons ⊢
      split
      · rename_i hlast
        rw [if_pos hlast] at hcons
        exact h.setEntry hcons fun hne => absurd rfl hne
      · rename_i hmore
        rw [if_neg hmore] at hcons
        exact h.setEntry hcons fun _ => Or.inr rfl
  | bumpCurrentEpoch id =>
      simp only [next, Option.ite_none_right_eq_some, Option.some.injEq] at hnext
      obtain ⟨-, rfl⟩ := hnext
      exact ⟨h.consistent.bump, by simpa using h.entries, h.ids,
        bump_zeroSafe h.consistent h.zero hok⟩
  | bumpCurrentEpochWith id context =>
      simp only [next] at hnext
      split at hnext
      · obtain ⟨r, hr, rfl⟩ := Option.map_eq_some_iff.mp hnext
        obtain ⟨hcons, htable, hnum, hsafe, -⟩ := h.consistent.bumpWith hr
        refine ⟨hcons, hnum.trans h.entries, h.ids, ?_⟩
        have hzero := bump_zeroSafe h.consistent h.zero hok
        unfold ZeroSafe at hzero ⊢
        rw [bumpCurrentEpoch_table] at hzero
        rw [htable, hsafe]
        exact hzero
      · cases hnext

/-- A callback is executed at an epoch that a bump has found safe, and the
discipline speaks about that bump. -/
theorem executes_safe (h : s.epoch.Consistent) {x : Nat × γ} (hx : x ∈ executes s a) :
    x.1 ≤ s.epoch.bumpCurrentEpoch.1.safeToReclaimEpoch ∧
      (Disciplined s a → 0 < s.epoch.drainCount → ZeroCovered s.epoch) := by
  cases a with
  | bumpCurrentEpoch i => exact ⟨(h.bump_executed hx).2, fun hok => hok⟩
  | bumpCurrentEpochWith i context =>
      simp only [executes] at hx
      split at hx
      · rename_i r hr
        exact ⟨(h.bumpWith hr).2.2.2.2 x hx, fun hok => hok⟩
      · cases hx
  | reserveEntry | releaseEntry | protect | reentrantProtect | unprotect
  | reentrantUnprotect => cases hx

theorem Invariant.safeCallbacks (h : Invariant size s) (hok : Disciplined s a) :
    SafeCallbacks s a := by
  intro x hx id hused hprot
  obtain ⟨hle, hcov⟩ := executes_safe h.consistent hx
  rcases Nat.eq_zero_or_pos id with rfl | hpos
  · have hzero := bump_zeroSafe h.consistent h.zero (hcov hok)
    unfold ZeroSafe at hzero
    rw [bumpCurrentEpoch_table] at hzero
    exact Nat.lt_of_le_of_lt hle (hzero hprot)
  · have hscan : s.epoch.bumpCurrentEpoch.1.Scanned id := by
      have := h.ids id hused
      have := h.entries
      simp only [LightEpoch.Scanned, bumpCurrentEpoch_numEntries]
      omega
    have hlocal := h.consistent.bump.safe_lt_local id hscan
    rw [bumpCurrentEpoch_table] at hlocal
    exact Nat.lt_of_le_of_lt hle (hlocal hprot)

/-- While no bump recomputes the safe epoch with entry zero uncovered, every
callback is executed after all the epochs still protected. -/
theorem safeCallbacks_of_disciplined
    (hreach : Reaches next Disciplined (start size) s) (hok : Disciplined s a) :
    SafeCallbacks s a :=
  (hreach.invariant (invariant_start size) fun _ _ _ h => h.step).safeCallbacks hok

/-- The thread with id one registers a callback at epoch one and is protected
again at epoch two when a bump executes it. -/
def coveredRun : List (Action Unit) :=
  [.reserveEntry, .reserveEntry, .protect 1, .bumpCurrentEpochWith 1 (), .protect 1]

theorem safeCallbacks_coveredRun :
    ∃ s, runActions next (start 2) coveredRun = some s ∧
      executes s (.bumpCurrentEpoch 1) = [(1, ())] ∧ SafeCallbacks s (.bumpCurrentEpoch 1) := by
  have hadmits : Admits next Disciplined (start 2) coveredRun :=
    And.intro trivial (And.intro trivial (And.intro trivial
      (And.intro (fun h => absurd h (by decide)) (And.intro trivial trivial))))
  have hview : (runActions next (start 2) coveredRun).map (fun s =>
      (executes s (.bumpCurrentEpoch 1), (s.epoch.table 0).localCurrentEpoch)) =
        some ([(1, ())], 0) := by
    decide
  obtain ⟨s, hs, hs'⟩ := Option.map_eq_some_iff.mp hview
  simp only [Prod.mk.injEq] at hs'
  exact ⟨s, hs, hs'.1, safeCallbacks_of_disciplined
    (reaches_of_runActions hadmits hs) fun _ => Or.inl hs'.2⟩

/-- The thread with id one registers a callback while the thread with id zero is
protected at the epoch of the registration. -/
def overtakenRun : List (Action Unit) :=
  [.reserveEntry, .reserveEntry, .protect 0, .bumpCurrentEpochWith 1 ()]

/-- The next bump executes that callback: the scan does not read entry zero. -/
theorem reclamationSafe_false : ¬ ReclamationSafe Unit 2 := by
  intro hsafe
  have hview : (runActions next (start 2) overtakenRun).map (fun s =>
      (executes s (.bumpCurrentEpoch 1), s.idUsed 0, s.idUsed 1,
        (s.epoch.table 0).localCurrentEpoch)) = some ([(1, ())], true, true, 1) := by
    decide
  obtain ⟨s, hs, hs'⟩ := Option.map_eq_some_iff.mp hview
  simp only [Prod.mk.injEq] at hs'
  obtain ⟨hexec, hzero, hone, hlocal⟩ := hs'
  have hreach := reaches_of_runActions (admits_of_forall fun _ _ _ => trivial) hs
  have hnext : next s (.bumpCurrentEpoch 1) =
      some { s with epoch := s.epoch.bumpCurrentEpoch.1 } := if_pos hone
  have hlt := hsafe s hreach _ _ hnext (1, ()) (by simp [hexec]) 0 hzero (by simp [hlocal])
  rw [hlocal] at hlt
  exact absurd hlt (by decide)

end Safety

end HashComp.EpochThreads
