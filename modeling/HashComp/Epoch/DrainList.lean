import HashComp.Epoch.LightEpoch
import HashComp.Library.Runs
import Mathlib.Data.List.Nodup
import Mathlib.Data.List.Range

namespace HashComp.DrainList

open HashComp.Epoch
open HashComp.Runs

structure System (γ : Type*) where
  epoch : LightEpoch (γ × Nat)
  registered : List γ
  executed : List (γ × Nat)

inductive Action (γ : Type*) where
  | protect (id : Nat)
  | unprotect (id : Nat)
  | reentrantProtect (id : Nat)
  | reentrantUnprotect (id : Nat)
  | protectAndDrain (id : Nat)
  | bumpCurrentEpoch (id : Nat)
  | bumpCurrentEpochWith (id : Nat) (context : γ)

section System

variable {γ : Type*}

def start (size : Nat) : System γ where
  epoch := LightEpoch.new size
  registered := []
  executed := []

/-- One call by the thread it names.  A search for a drain entry that finds none
in a whole pass never returns, so the call has no next state. -/
def next (s : System γ) : Action γ → Option (System γ)
  | .protect id => some { s with epoch := s.epoch.protect id }
  | .unprotect id => some { s with epoch := s.epoch.unprotect id }
  | .reentrantProtect id => some { s with epoch := s.epoch.reentrantProtect id }
  | .reentrantUnprotect id => some { s with epoch := s.epoch.reentrantUnprotect id }
  | .protectAndDrain id =>
      let r := s.epoch.protectAndDrain id
      some { s with epoch := r.1, executed := s.executed ++ r.2.map Prod.snd }
  | .bumpCurrentEpoch _ =>
      let r := s.epoch.bumpCurrentEpoch
      some { s with epoch := r.1, executed := s.executed ++ r.2.map Prod.snd }
  | .bumpCurrentEpochWith _ context =>
      (s.epoch.bumpCurrentEpochWith kDrainListSize (context, s.registered.length)).map fun r =>
        { epoch := r.1
          registered := s.registered ++ [context]
          executed := s.executed ++ r.2.map Prod.snd }

def isPending : EpochAction γ → Bool
  | .free => false
  | .pending _ _ => true

def WaitsAt (s : System γ) (x : γ × Nat) (i : Nat) : Prop :=
  ∃ epoch, s.epoch.drainList[i]? = some (.pending epoch x)

/-- The counter is exact, and every registered callback has been executed once or
still waits in one entry. -/
structure Accounted (s : System γ) : Prop where
  count : s.epoch.drainCount = s.epoch.drainList.countP isPending
  registered : ∀ x ∈ s.executed, x ∈ s.registered.zipIdx
  once : s.executed.Nodup
  waits : ∀ x ∈ s.registered.zipIdx, x ∉ s.executed → ∃! i, WaitsAt s x i
  gone : ∀ x ∈ s.executed, ∀ i, ¬ WaitsAt s x i

end System

section Entries

variable {γ : Type*} {l : List (EpochAction γ)}

theorem countP_isPending (l : List (EpochAction γ)) :
    l.countP isPending = (pendings l).length := by
  induction l with
  | nil => rfl
  | cons x l ih =>
      cases x with
      | free => exact ih
      | pending epoch context =>
          rw [List.countP_cons, ih]
          rfl

theorem mem_contexts_iff {x : γ} :
    x ∈ (pendings l).map Prod.snd ↔ ∃ i epoch : Nat, l[i]? = some (.pending epoch x) := by
  constructor
  · intro hx
    obtain ⟨p, hp, rfl⟩ := List.mem_map.mp hx
    obtain ⟨i, hi⟩ := List.mem_iff_getElem?.mp (mem_pendings_iff.mp hp)
    exact ⟨i, p.1, hi⟩
  · rintro ⟨i, epoch, hi⟩
    have hmem := mem_pendings_iff (x := (epoch, x)).mpr (List.mem_of_getElem? hi)
    exact List.mem_map.mpr ⟨_, hmem, rfl⟩

theorem index_unique (hnodup : ((pendings l).map Prod.snd).Nodup) {i j epoch epoch' : Nat}
    {x : γ} (hi : l[i]? = some (.pending epoch x)) (hj : l[j]? = some (.pending epoch' x)) :
    i = j := by
  induction l generalizing i j with
  | nil => cases hi
  | cons y l ih =>
      have hrest : ((pendings l).map Prod.snd).Nodup := by
        cases y with
        | free => exact hnodup
        | pending epoch context => exact (List.nodup_cons.mp hnodup).2
      have hhead {k e e' : Nat} (hy : y = .pending e x) (hk : l[k]? = some (.pending e' x)) :
          False := by
        rw [hy] at hnodup
        exact (List.nodup_cons.mp hnodup).1 (mem_contexts_iff.mpr ⟨k, e', hk⟩)
      cases i with
      | zero =>
          cases j with
          | zero => rfl
          | succ j => exact (hhead (Option.some.inj hi) hj).elim
      | succ i =>
          cases j with
          | zero => exact (hhead (Option.some.inj hj) hi).elim
          | succ j => exact congrArg Nat.succ (ih hrest hi hj)

end Entries

section Accounts

variable {γ : Type*} {s t : System γ} {a : Action γ}

structure Invariant (s : System γ) : Prop where
  consistent : s.epoch.Consistent
  accounts : (s.executed ++ (pendings s.epoch.drainList).map Prod.snd).Perm s.registered.zipIdx

theorem invariant_start (size : Nat) : Invariant (start size : System γ) where
  consistent := consistent_new size
  accounts := by simp [start, LightEpoch.new]

theorem Invariant.drained (h : Invariant s) {e : LightEpoch (γ × Nat)}
    {popped : List (Nat × (γ × Nat))} (hcons : e.Consistent)
    (hperm : (popped ++ pendings e.drainList).Perm (pendings s.epoch.drainList)) :
    Invariant { s with epoch := e, executed := s.executed ++ popped.map Prod.snd } where
  consistent := hcons
  accounts := by
    have hmap := (hperm.map Prod.snd).append_left s.executed
    rw [List.map_append, ← List.append_assoc] at hmap
    exact hmap.trans h.accounts

theorem Invariant.registered (h : Invariant s) {id : Nat} {context : γ}
    (hnext : next s (.bumpCurrentEpochWith id context) = some t) : Invariant t := by
  obtain ⟨r, hr, rfl⟩ := Option.map_eq_some_iff.mp hnext
  refine ⟨(h.consistent.bumpWith hr).1, ?_⟩
  have hperm := (h.consistent.bumpWith_perm hr).map Prod.snd
  rw [List.map_append, List.map_cons] at hperm
  have hmoved := (hperm.append_left s.executed).trans List.perm_middle
  have hzip : (s.registered ++ [context]).zipIdx =
      s.registered.zipIdx ++ [(context, s.registered.length)] := by
    simp [List.zipIdx_append]
  simp only [hzip, List.append_assoc]
  exact hmoved.trans ((h.accounts.cons _).trans (List.perm_append_singleton _ _).symm)

theorem Invariant.step (h : Invariant s) (hnext : next s a = some t) : Invariant t := by
  cases a with
  | protect id =>
      cases hnext
      exact ⟨h.consistent.protect id, h.accounts⟩
  | unprotect id =>
      cases hnext
      exact ⟨h.consistent.unprotect id, h.accounts⟩
  | reentrantProtect id =>
      cases hnext
      obtain ⟨entry, hentry⟩ := reentrantProtect_eq_setEntry s.epoch id
      refine ⟨h.consistent.reentrantProtect id, ?_⟩
      rw [hentry]
      exact h.accounts
  | reentrantUnprotect id =>
      cases hnext
      obtain ⟨entry, hentry⟩ := reentrantUnprotect_eq_setEntry s.epoch id
      refine ⟨h.consistent.reentrantUnprotect id, ?_⟩
      rw [hentry]
      exact h.accounts
  | protectAndDrain id =>
      cases hnext
      exact h.drained (h.consistent.protectAndDrain id) (h.consistent.protectAndDrain_perm id)
  | bumpCurrentEpoch id =>
      cases hnext
      exact h.drained h.consistent.bump h.consistent.bump_perm
  | bumpCurrentEpochWith id context => exact h.registered hnext

theorem nodup_zipIdx (l : List γ) : l.zipIdx.Nodup := by
  apply List.Nodup.of_map Prod.snd
  rw [List.zipIdx_map_snd]
  exact List.nodup_range'

theorem Invariant.accounted (h : Invariant s) : Accounted s := by
  have hnodup := h.accounts.nodup_iff.mpr (nodup_zipIdx s.registered)
  obtain ⟨hexecuted, hpending, hapart⟩ := List.nodup_append'.mp hnodup
  refine ⟨?_, ?_, hexecuted, ?_, ?_⟩
  · rw [countP_isPending]
    exact h.consistent.count
  · exact fun x hx => h.accounts.subset (List.mem_append_left _ hx)
  · intro x hx hnot
    have hwaits := (List.mem_append.mp (h.accounts.symm.subset hx)).resolve_left hnot
    obtain ⟨i, epoch, hi⟩ := mem_contexts_iff.mp hwaits
    refine ⟨i, ⟨epoch, hi⟩, ?_⟩
    rintro j ⟨epoch', hj⟩
    exact index_unique hpending hj hi
  · rintro x hx i ⟨epoch, hi⟩
    exact hapart hx (mem_contexts_iff.mpr ⟨i, epoch, hi⟩)

/-- In every run the drain list is accounted for. -/
theorem accounted_of_reaches {size : Nat}
    (hreach : Reaches next (fun _ _ => True) (start size) s) : Accounted s := by
  refine Invariant.accounted ?_
  exact hreach.invariant (invariant_start size) fun _ _ _ h _ hnext => h.step hnext

def drainingRun : List (Action Unit) :=
  [.protect 1, .bumpCurrentEpochWith 1 (), .protect 1, .bumpCurrentEpochWith 1 ()]

theorem accounted_drainingRun :
    ∃ s, runActions next (start 2) drainingRun = some s ∧ s.executed = [((), 0)] ∧
      s.registered = [(), ()] ∧ Accounted s := by
  have hview : (runActions next (start 2) drainingRun).map (fun s =>
      (s.executed, s.registered)) = some ([((), 0)], [(), ()]) := by
    decide
  obtain ⟨s, hs, hs'⟩ := Option.map_eq_some_iff.mp hview
  simp only [Prod.mk.injEq] at hs'
  exact ⟨s, hs, hs'.1, hs'.2, accounted_of_reaches
    (reaches_of_runActions (admits_of_forall fun _ _ _ => trivial) hs)⟩

end Accounts

end HashComp.DrainList
