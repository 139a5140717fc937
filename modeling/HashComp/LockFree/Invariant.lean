import HashComp.LockFree.Ownership
import HashComp.LockFree.Transition

namespace HashComp.LockFree

open HashComp.Epoch
open HashComp.HashTrie
open HashComp.LevelHash
open HashComp.Operations
open HashComp.Runs
open HashComp.SlotTrie
open HashComp.Threads

section Threads

variable {K T : Type*}

def Local.unlinked : Local K T → List Nat
  | .bump _ old | .register _ old _ _ => [old]
  | _ => []

def hand (threads : Nat → Option (Local K T)) (tid : Nat) : List Nat :=
  match threads tid with
  | some l => l.unlinked
  | none => []

def PriorOk (e : LightEpoch Nat) : Local K T → Prop
  | .register _ _ priorEpoch _ => priorEpoch < e.currentEpoch
  | _ => True

theorem PriorOk.mono {e e' : LightEpoch Nat} {l : Local K T} (h : PriorOk e l)
    (hle : e.currentEpoch ≤ e'.currentEpoch) : PriorOk e' l := by
  cases l with
  | register m old priorEpoch i => exact Nat.lt_of_lt_of_le h hle
  | _ => trivial

structure Inv (L : Layout K) (D : Nat) (t : Table K T)
    (threads : Nat → Option (Local K T)) : Prop where
  sound : Sound L D t (hand threads)
  locals : ∀ u l, threads u = some l → LocalOk L t.slots l
  priors : ∀ u l, threads u = some l → PriorOk t.epoch l

variable {L : Layout K} {D tid : Nat} {t t' : Table K T} {l l' : Local K T}
  {threads : Nat → Option (Local K T)} {m : Mutation K T} {op : Op K T} {r : Result K T}

theorem hand_update (threads : Nat → Option (Local K T)) (tid : Nat) (l : Local K T) :
    hand (Function.update threads tid (some l)) =
      Function.update (hand threads) tid l.unlinked := by
  funext u
  by_cases hu : u = tid
  · subst u
    simp [hand]
  · simp [hand, hu]

theorem hand_update_none (threads : Nat → Option (Local K T)) (tid : Nat) :
    hand (Function.update threads tid none) = Function.update (hand threads) tid [] := by
  funext u
  by_cases hu : u = tid
  · subst u
    simp [hand]
  · simp [hand, hu]

theorem hand_self (h : threads tid = some l) :
    Function.update (hand threads) tid l.unlinked = hand threads := by
  rw [← hand_update, ← h, Function.update_eq_self]

theorem failed_unlinked : (failed m : Local K T).unlinked = [] := by
  cases m <;> rfl

@[simp] theorem retry_unlinked (m : Mutation K T) (n fail : Nat) (pos : Slot Nat)
    (currArr : Option Path) (p : Path) :
    (retry m n fail pos currArr p : Local K T).unlinked = [] := by
  unfold retry
  split
  · exact failed_unlinked
  · rfl

theorem begin_unlinked : (begin op).unlinked = [] := by
  cases op <;> rfl

theorem begin_localOk {slots : Slots Nat} (hroot : slots [] = .array) :
    LocalOk L slots (begin op) := by
  cases op with
  | get key => trivial
  | mutate m => exact ⟨hroot, fun hne => absurd rfl hne⟩

theorem begin_priorOk {e : LightEpoch Nat} : PriorOk e (begin op) := by
  cases op <;> trivial

theorem failed_localOk {slots : Slots Nat} : LocalOk L slots (failed m) := by
  cases m <;> trivial

theorem retry_localOk {slots : Slots Nat} {n fail : Nat} {currArr : Option Path}
    (harr : slots (L.keyPath m.key n) = .array) (hfail : fail < kFailLimit) :
    LocalOk L slots (retry m n fail (slots (L.keyPath m.key (n + 1))) currArr
      (L.keyPath m.key (n + 1))) := by
  unfold retry
  split
  · exact failed_localOk
  · exact ⟨harr, rfl, by omega, fun h => h⟩

theorem failed_priorOk {e : LightEpoch Nat} : PriorOk e (failed m) := by
  cases m <;> trivial

theorem retry_priorOk {e : LightEpoch Nat} {n fail : Nat} {pos : Slot Nat}
    {currArr : Option Path} {p : Path} : PriorOk e (retry m n fail pos currArr p) := by
  unfold retry
  split
  · exact failed_priorOk
  · trivial

@[simp] theorem deleteCallbacks_slots (xs : List (Nat × Nat)) :
    (deleteCallbacks tid t xs).slots = t.slots := by
  induction xs generalizing t with
  | nil => rfl
  | cons x xs ih => exact ih

@[simp] theorem deleteCallbacks_heap (xs : List (Nat × Nat)) :
    (deleteCallbacks tid t xs).heap = t.heap := by
  induction xs generalizing t with
  | nil => rfl
  | cons x xs ih => exact ih

@[simp] theorem deleteCallbacks_epoch (xs : List (Nat × Nat)) :
    (deleteCallbacks tid t xs).epoch = t.epoch := by
  induction xs generalizing t with
  | nil => rfl
  | cons x xs ih => exact ih

theorem Transition.grows (htr : Transition L tid t l t' l')
    (hwf : WellFormed t.slots) : Grows t.slots t'.slots := by
  cases htr with
  | link _ hcas => exact newDataNode_slots (L := L) ▸ grows_update (by simp [hcas]) _
  | insertLost | replaceLost => exact newDataNode_slots (L := L) ▸ Grows.refl _
  | split _ _ hcas => exact grows_publish hwf (by simp [hcas])
  | replace _ hcas => exact newDataNode_slots (L := L) ▸ grows_update (by simp [hcas]) _
  | unlink _ hcas => exact grows_update (by simp [hcas]) _
  | bump | register =>
      rw [deleteCallbacks_slots]
      exact Grows.refl _
  | _ => exact Grows.refl _

theorem Transition.currentEpoch_le (htr : Transition L tid t l t' l') :
    t.epoch.currentEpoch ≤ t'.epoch.currentEpoch := by
  have hprotect : (t.epoch.reentrantProtect tid).currentEpoch = t.epoch.currentEpoch := by
    obtain ⟨entry, he⟩ := reentrantProtect_eq_setEntry t.epoch tid
    rw [he]
    rfl
  have hunprotect : (t.epoch.reentrantUnprotect tid).currentEpoch = t.epoch.currentEpoch := by
    obtain ⟨entry, he⟩ := reentrantUnprotect_eq_setEntry t.epoch tid
    rw [he]
    rfl
  cases htr with
  | link | insertLost | replace | replaceLost =>
      simp [setSlot, pushData]
  | miss | getEnter | getMiss => exact Nat.le_of_eq hprotect.symm
  | getFound => exact Nat.le_of_eq hunprotect.symm
  | bump => simp
  | register hr =>
      rw [deleteCallbacks_epoch]
      exact Nat.le_of_eq (tryRegister_spec hr).2.2.1.symm
  | _ => exact le_rfl

theorem Transition.epoch_frame (htr : Transition L tid t l t' l') :
    t'.epoch.numEntries = t.epoch.numEntries ∧
      ∀ u, u ≠ tid → t'.epoch.table u = t.epoch.table u := by
  have hset (e : LightEpoch Nat) (he : ∃ entry, e = t.epoch.setEntry tid entry) :
      e.numEntries = t.epoch.numEntries ∧ ∀ u, u ≠ tid → e.table u = t.epoch.table u := by
    obtain ⟨entry, rfl⟩ := he
    exact ⟨rfl, fun u hu => Function.update_of_ne hu ..⟩
  cases htr with
  | link | insertLost | replace | replaceLost => simp [setSlot, pushData]
  | miss | getEnter | getMiss => exact hset _ (reentrantProtect_eq_setEntry t.epoch tid)
  | getFound => exact hset _ (reentrantUnprotect_eq_setEntry t.epoch tid)
  | bump => simp
  | register hr =>
      rw [deleteCallbacks_epoch]
      obtain ⟨htable, hnum, -⟩ := tryRegister_spec hr
      exact ⟨hnum, fun u _ => by rw [htable]⟩
  | _ => exact ⟨rfl, fun _ _ => rfl⟩

theorem Transition.localOk (htr : Transition L tid t l t' l') (hl : LocalOk L t.slots l)
    (hwf : WellFormed t.slots) : LocalOk L t'.slots l' := by
  cases htr with
  | load harr => exact (show LocalOk L t.slots _ from ⟨harr, rfl, by decide, fun h => h⟩)
  | insertLost harr | replaceLost harr =>
      rw [pushData_slots, newDataNode_slots]
      exact retry_localOk harr hl.2.2.1
  | lost harr =>
      exact retry_localOk harr hl.2.2.1
  | split harr hne hcas =>
      exact ⟨publish_self, fun _ => rfl⟩
  | descend harr => exact ⟨harr, fun _ => rfl⟩
  | getEnter => exact ⟨hwf.root, fun hne => absurd rfl hne⟩
  | getLoad harr => exact ⟨harr, rfl, fun h => h⟩
  | getDescend harr => exact ⟨harr, fun _ => rfl⟩
  | _ => trivial

theorem Transition.priorOk (htr : Transition L tid t l t' l') (hprior : PriorOk t.epoch l) :
    PriorOk t'.epoch l' := by
  cases htr with
  | insertLost | replaceLost | lost => exact retry_priorOk
  | bump =>
      rw [deleteCallbacks_epoch]
      exact Nat.le_of_eq (bumpCurrentEpoch_currentEpoch t.epoch).symm
  | search => exact hprior
  | _ => trivial

theorem Sound.transition {hand : Nat → List Nat} (hadm : L.Admissible D)
    (h : Sound L D t (Function.update hand tid l.unlinked)) (hprior : PriorOk t.epoch l)
    (htr : Transition L tid t l t' l') :
    Sound L D t' (Function.update hand tid l'.unlinked) := by
  have hprotect : Sound L D { t with epoch := t.epoch.reentrantProtect tid }
      (Function.update hand tid l.unlinked) := by
    refine h.setEpoch (h.epoch.reentrantProtect tid) ?_
    obtain ⟨entry, he⟩ := reentrantProtect_eq_setEntry t.epoch tid
    rw [he]
    rfl
  cases htr with
  | link harr hcas =>
      exact h.alloc.link (newDataNode_heap_self ..) (by rwa [newDataNode_slots])
        (by rwa [newDataNode_slots])
  | replace harr hcas =>
      exact h.alloc.swap (newDataNode_heap_self ..) (by rwa [newDataNode_slots])
  | insertLost =>
      rw [retry_unlinked]
      exact h.alloc.push
  | replaceLost =>
      rw [retry_unlinked]
      exact h.alloc.push
  | lost =>
      rw [retry_unlinked]
      exact h
  | split harr hne hcas => exact h.split hadm hcas hne
  | @unlink key n fail old currArr harr hcas => exact h.unlink (L.keyPath_succ key n) hcas
  | bump =>
      exact (Sound.exchange [] h h.epoch.bump h.epoch.bump_perm).pushAll
  | @register m old prior i r hr =>
      have hperm := (tryRegister_spec hr).2.2.2.2.2.2.2
      exact (Sound.exchange [(prior, old)] h (h.epoch.tryRegister hr hprior)
        hperm).pushAll
  | miss | getEnter | getMiss => exact hprotect
  | getFound =>
      refine h.setEpoch (h.epoch.reentrantUnprotect tid) ?_
      obtain ⟨entry, he⟩ := reentrantUnprotect_eq_setEntry t.epoch tid
      rw [he]
      rfl
  | _ => exact h

theorem Inv.transition (hadm : L.Admissible D) (hD : D < maxLevel) (h : Inv L D t threads)
    (hl : threads tid = some l) : Transition L tid t l (step L tid t l).1 (step L tid t l).2 :=
  transition_of_step hadm hD h.sound.shallow tid (h.locals tid l hl)

theorem Inv.step (hadm : L.Admissible D) (hD : D < maxLevel) (h : Inv L D t threads)
    (hl : threads tid = some l) :
    Inv L D (step L tid t l).1 (Function.update threads tid (some (step L tid t l).2)) := by
  have htr := h.transition hadm hD hl
  have hgrows := htr.grows h.sound.wf
  refine ⟨?_, ?_, ?_⟩
  · rw [hand_update]
    refine Sound.transition hadm ?_ (h.priors tid l hl) htr
    rw [hand_self hl]
    exact h.sound
  · intro u l' hl'
    by_cases hu : u = tid
    · subst u
      rw [Function.update_self] at hl'
      rw [← Option.some.inj hl']
      exact htr.localOk (h.locals tid l hl) h.sound.wf
    · rw [Function.update_of_ne hu] at hl'
      exact (h.locals u l' hl').grows hgrows
  · intro u l' hl'
    by_cases hu : u = tid
    · subst u
      rw [Function.update_self] at hl'
      rw [← Option.some.inj hl']
      exact htr.priorOk (h.priors tid l hl)
    · rw [Function.update_of_ne hu] at hl'
      exact (h.priors u l' hl').mono htr.currentEpoch_le

theorem Inv.update (h : Inv L D t threads) (hidle : hand threads tid = [])
    {o : Option (Local K T)} (hunlinked : ∀ l, o = some l → l.unlinked = [])
    (hlocal : ∀ l, o = some l → LocalOk L t.slots l)
    (hprior : ∀ l, o = some l → PriorOk t.epoch l) :
    Inv L D t (Function.update threads tid o) := by
  refine ⟨?_, ?_, ?_⟩
  · have hhand : hand (Function.update threads tid o) = hand threads := by
      cases o with
      | none => rw [hand_update_none, ← hidle, Function.update_eq_self]
      | some l => rw [hand_update, hunlinked l rfl, ← hidle, Function.update_eq_self]
    rw [hhand]
    exact h.sound
  · intro u l hl
    by_cases hu : u = tid
    · subst u
      rw [Function.update_self] at hl
      exact hlocal l hl
    · rw [Function.update_of_ne hu] at hl
      exact h.locals u l hl
  · intro u l hl
    by_cases hu : u = tid
    · subst u
      rw [Function.update_self] at hl
      exact hprior l hl
    · rw [Function.update_of_ne hu] at hl
      exact h.priors u l hl

theorem Inv.invoke (h : Inv L D t threads) (hnone : threads tid = none) (op : Op K T) :
    Inv L D t (Function.update threads tid (some (begin op))) := by
  refine h.update (by simp [hand, hnone]) ?_ ?_ ?_
  · rintro l ⟨⟩
    exact begin_unlinked
  · rintro l ⟨⟩
    exact begin_localOk h.sound.wf.root
  · rintro l ⟨⟩
    exact begin_priorOk

theorem Inv.ret (h : Inv L D t threads) (hdone : threads tid = some (.done op r)) :
    Inv L D t (Function.update threads tid none) := by
  refine h.update ?_ ?_ ?_ ?_
  · rw [hand, hdone]
    rfl
  · rintro l ⟨⟩
  · rintro l ⟨⟩
  · rintro l ⟨⟩

theorem inv_new (expectedThreadCount expectedDataNum : Nat) (garbage : Nat → DataBlock K T) :
    Inv L D (new expectedThreadCount expectedDataNum garbage) (fun _ => none) := by
  have hpool : ∀ u a, a ∈ (new expectedThreadCount expectedDataNum garbage).dataPool u →
      u < expectedThreadCount ∧ a / (expectedDataNum / expectedThreadCount) = u ∧
        a < (u + 1) * (expectedDataNum / expectedThreadCount) := by
    intro u a ha
    simp only [new] at ha
    split at ha
    · rename_i hu
      rw [List.mem_range'_1] at ha
      rw [Nat.succ_mul]
      refine ⟨hu, Nat.div_eq_of_lt_le ha.1 ?_, ha.2⟩
      rw [Nat.succ_mul]
      exact ha.2
    · cases ha
  have hown : ∀ o a, Owns (new expectedThreadCount expectedDataNum garbage)
      (hand fun _ => (none : Option (Local K T))) o a →
      ∃ u, o = .pool u ∧ a ∈ (new expectedThreadCount expectedDataNum garbage).dataPool u := by
    rintro (p | u | - | u) a ho
    · exact absurd ho (Trie.empty_slots_ne garbage p a)
    · exact ⟨u, rfl, ho⟩
    · simp [Owns, new, LightEpoch.new] at ho
    · simp [Owns, hand] at ho
  refine ⟨⟨Trie.valid_empty garbage, consistent_new _, ?_, ?_, ?_, ?_, ?_⟩, by simp, by simp⟩
  · intro o o' a ho ho'
    obtain ⟨u, rfl, hu⟩ := hown o a ho
    obtain ⟨u', rfl, hu'⟩ := hown o' a ho'
    rw [← (hpool u a hu).2.1, ← (hpool u' a hu').2.1]
  · intro o a ho
    obtain ⟨u, -, hu⟩ := hown o a ho
    obtain ⟨hlt, -, ha⟩ := hpool u a hu
    exact Nat.lt_of_lt_of_le ha (Nat.mul_le_mul_right _ hlt)
  · intro u
    simp only [new]
    split
    · exact List.nodup_range'
    · exact List.nodup_nil
  · simp [new, LightEpoch.new]
  · intro u
    simp [hand]

end Threads

section Runs

variable {K T : Type*} {L : Layout K} {D tid : Nat} {t t' : Table K T}
  {s s' : State K T} {a : Action (Op K T)}

def alone (tid : Nat) (l : Local K T) : Nat → Option (Local K T) :=
  Function.update (fun _ => none) tid (some l)

@[simp] theorem alone_self (tid : Nat) (l : Local K T) : alone tid l tid = some l :=
  Function.update_self ..

theorem Inv.leads (hadm : L.Admissible D) (hD : D < maxLevel) {x y : Table K T × Local K T}
    (h : Inv L D x.1 (alone tid x.2)) (hy : Leads ((program L).soloStep tid) x y) :
    Inv L D y.1 (alone tid y.2) := by
  refine hy.invariant (I := fun x : Table K T × Local K T => Inv L D x.1 (alone tid x.2)) h ?_
  intro x hx
  have hstep := hx.step hadm hD (alone_self tid x.2)
  rwa [alone, Function.update_idem] at hstep

theorem Inv.call (h : Inv L D t (fun _ => none)) (tid : Nat) (op : Op K T) :
    Inv L D t (alone tid (begin op)) :=
  h.invoke rfl op

theorem inv_of_reached (hadm : L.Admissible D) (hD : D < maxLevel)
    (h₀ : Inv L D t (fun _ => none)) (h : Reached L tid t t') :
    Inv L D t' (fun _ => none) := by
  induction h with
  | start => exact h₀
  | @call t t' op r _ hreturns ih =>
      have hend := Inv.leads (x := (t, begin op)) hadm hD (ih.call tid op) hreturns
      have hret := hend.ret (alone_self tid _)
      rw [alone, Function.update_idem] at hret
      have hnone : Function.update (fun _ => none) tid none =
          (fun _ => none : Nat → Option (Local K T)) := Function.update_eq_self ..
      rwa [hnone] at hret

end Runs

end HashComp.LockFree
