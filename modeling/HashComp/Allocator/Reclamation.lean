import HashComp.Allocator.Waiting
import HashComp.Library.EpochGuard
import Mathlib.Data.Fintype.Basic

/-!
The allocator under the epochs of its threads: `ExpandArray` registers the array that it has
replaced with `BumpCurrentEpoch`, and `delete_callback` frees it when
`ComputeNewSafeToReclaimEpoch` finds no thread in that epoch or before.  The scan leaves out
the thread whose id is 0.
-/

namespace HashComp.Expansion

open HashComp.EpochGuard
open HashComp.Fairness
open HashComp.Runs

/-- The array that the thread goes on with. -/
def Pc.array : Pc → Option Nat
  | .idle | .drawn _ => none
  | .copying _ _ expected _ _ | .exchanging _ _ expected _ => some expected
  | .early _ page_array | .getting _ page_array | .adding _ page_array => some page_array

namespace System

variable {τ : Type*}

/-- The array that the step takes out of `page_array_`. -/
def replaces (s : System τ) : Action τ → Option Nat
  | .proceed t =>
      match s.pc t with
      | .exchanging _ _ expected _ => if s.page_array_ = expected then some expected else none
      | _ => none
  | _ => none

variable [DecidableEq τ] {s u : System τ} {base : Nat} {a : Action τ}

/-- A thread goes on with the array it had, or with the present one. -/
structure Steps (s u : System τ) (a : Action τ) : Prop where
  array : (u.pc a.thread).array = none ∨ (u.pc a.thread).array = (s.pc a.thread).array ∨
    s.pc a.thread ≠ .idle ∧ (u.pc a.thread).array = some u.page_array_
  published : s.replaces a = none ∧ u.page_array_ = s.page_array_ ∧ u.published = s.published ∨
    s.replaces a = some s.page_array_ ∧ u.page_array_ ∉ s.published ∧
      u.published = u.page_array_ :: s.published ∧ u.pc a.thread ≠ .idle
  called : s.pc a.thread ≠ .idle ∨ u.pc a.thread = .idle ∨ ∃ safe, a = .Allocate a.thread safe

theorem Steps.of_goto {x : System τ} {t : τ} {pc : Pc} (hreplaces : s.replaces (.proceed t) = none)
    (hpage : x.page_array_ = s.page_array_) (hpublished : x.published = s.published)
    (hcall : s.pc t ≠ .idle)
    (harray : pc.array = none ∨ pc.array = (s.pc t).array ∨ pc.array = some s.page_array_) :
    Steps s (x.goto t pc) (.proceed t) where
  array := by
    rw [Action.thread, pc_goto]
    refine harray.imp_right fun h => h.imp_right fun h => ⟨hcall, h.trans ?_⟩
    exact congrArg some hpage.symm
  published := Or.inl ⟨hreplaces, hpage, hpublished⟩
  called := Or.inl hcall

theorem steps_of_next (h : s.Sound base) (hnext : s.next a = some u) : Steps s u a := by
  cases a with
  | Allocate t safe =>
      simp only [System.next] at hnext
      split at hnext
      · rename_i hidle
        obtain rfl := Option.some.inj hnext
        rw [System.Allocate]
        split
        · exact ⟨Or.inr (Or.inl rfl), Or.inl ⟨rfl, rfl, rfl⟩, Or.inr (Or.inl hidle)⟩
        · refine ⟨Or.inl ?_, Or.inl ⟨rfl, rfl, rfl⟩, Or.inr (Or.inr ⟨safe, rfl⟩)⟩
          rw [Action.thread, pc_goto]
          rfl
      · cases hnext
  | FreeAtEpoch t addr =>
      simp only [System.next] at hnext
      split at hnext
      · rename_i hidle
        obtain rfl := Option.some.inj hnext
        exact ⟨Or.inr (Or.inl rfl), Or.inl ⟨rfl, rfl, rfl⟩, Or.inr (Or.inl hidle)⟩
      · cases hnext
  | proceed t =>
      simp only [System.next, System.proceed] at hnext
      have hcall : s.pc t ≠ .idle := by
        intro hidle
        rw [hidle] at hnext
        cases hnext
      cases hpc : s.pc t with
      | idle => exact absurd hpc hcall
      | drawn addr =>
          rw [hpc] at hnext
          obtain rfl := Option.some.inj hnext
          have hreplaces : s.replaces (.proceed t) = none := by simp only [replaces, hpc]
          rw [System.load]
          split
          · exact .of_goto hreplaces rfl rfl hcall (Or.inr (Or.inr rfl))
          · exact .of_goto hreplaces rfl rfl hcall (Or.inr (Or.inr rfl))
      | copying addr new_size expected new_array idx =>
          rw [hpc] at hnext
          obtain rfl := Option.some.inj hnext
          have hreplaces : s.replaces (.proceed t) = none := by simp only [replaces, hpc]
          have harray : (s.pc t).array = some expected := by rw [hpc]; rfl
          rw [System.copy]
          split
          · split
            · exact ⟨Or.inr (Or.inl rfl), Or.inl ⟨hreplaces, rfl, rfl⟩, Or.inl hcall⟩
            · exact .of_goto hreplaces rfl rfl hcall (Or.inr (Or.inl harray.symm))
          · exact .of_goto hreplaces rfl rfl hcall (Or.inr (Or.inl harray.symm))
      | exchanging addr new_size expected new_array =>
          rw [hpc] at hnext
          obtain rfl := Option.some.inj hnext
          have hnew : (s.pc t).newArray = some new_array := by rw [hpc]; rfl
          rw [System.exchange]
          split
          · rename_i hcur
            have hreplaces : s.replaces (.proceed t) = some s.page_array_ := by
              simp only [replaces, hpc, hcur, if_true]
            refine ⟨Or.inr (Or.inr ⟨hcall, ?_⟩), Or.inr ⟨hreplaces, ?_, rfl, ?_⟩, Or.inl hcall⟩
            · rw [Action.thread, pc_goto]
              rfl
            · exact (unseen_of_newArray (h.threads.fits t) hnew).1
            · rw [Action.thread, pc_goto]
              exact Pc.noConfusion
          · rename_i hcur
            have hreplaces : s.replaces (.proceed t) = none := by
              simp only [replaces, hpc, if_neg hcur]
            split
            · exact .of_goto hreplaces rfl rfl hcall (Or.inr (Or.inr rfl))
            · exact .of_goto hreplaces rfl rfl hcall (Or.inr (Or.inr rfl))
      | early addr page_array =>
          rw [hpc] at hnext
          obtain rfl := Option.some.inj hnext
          have hreplaces : s.replaces (.proceed t) = none := by simp only [replaces, hpc]
          have harray : (s.pc t).array = some page_array := by rw [hpc]; rfl
          rw [System.addEarly]
          split
          · obtain ⟨_, hpublished, _, _, hpage⟩ := addPage_frame s page_array (page addr + 1)
            exact .of_goto hreplaces hpage hpublished hcall (Or.inr (Or.inl harray.symm))
          · exact .of_goto hreplaces rfl rfl hcall (Or.inr (Or.inl harray.symm))
      | getting addr page_array =>
          rw [hpc] at hnext
          obtain rfl := Option.some.inj hnext
          have hreplaces : s.replaces (.proceed t) = none := by simp only [replaces, hpc]
          have harray : (s.pc t).array = some page_array := by rw [hpc]; rfl
          rw [System.get]
          split
          · exact .of_goto hreplaces rfl rfl hcall (Or.inl rfl)
          · exact .of_goto hreplaces rfl rfl hcall (Or.inr (Or.inl harray.symm))
      | adding addr page_array =>
          rw [hpc] at hnext
          obtain rfl := Option.some.inj hnext
          have hreplaces : s.replaces (.proceed t) = none := by simp only [replaces, hpc]
          obtain ⟨_, hpublished, _, _, hpage⟩ := addPage_frame s page_array (page addr)
          exact .of_goto hreplaces hpage hpublished hcall (Or.inl rfl)

end System

structure EpochAction where
  epoch : Nat
  array : Nat
deriving Repr, DecidableEq

/-- A thread is in the epoch 0 when it is in none.  `replaced` is the array that it has
replaced and not yet registered, and `reading` what `Get` has been called with and the array
that it has loaded.  `deleted` are the arrays that have been freed. -/
structure Epochs (τ : Type*) extends System τ where
  current_epoch : Nat
  local_current_epoch : τ → Nat
  drain_list_ : List EpochAction
  replaced : τ → Option Nat
  reading : τ → Option (Nat × Nat)
  deleted : List Nat

namespace Epochs

inductive Move (τ : Type*) where
  | allocator (a : Action τ)
  | Get (t : τ) (addr : Nat)
  /-- The access to the array that `Get` has loaded. -/
  | access (t : τ)
  | BumpCurrentEpoch (t : τ)
  | Protect (t : τ)
  | Unprotect (t : τ)
  /-- Some thread drains the action. -/
  | Drain (i : Nat)
deriving Repr, DecidableEq

def Move.thread {τ : Type*} : Move τ → Option τ
  | .allocator a => some a.thread
  | .Get t _ | .access t | .BumpCurrentEpoch t | .Protect t | .Unprotect t => some t
  | .Drain _ => none

section Steps

variable {τ : Type*} (s : Epochs τ)

def Quiet (t : τ) : Prop :=
  s.pc t = .idle ∧ s.replaced t = none ∧ s.reading t = none

instance [DecidableEq τ] (t : τ) : Decidable (s.Quiet t) :=
  inferInstanceAs (Decidable (_ ∧ _ ∧ _))

def SafeToReclaim (zero : τ) (epoch : Nat) : Prop :=
  ∀ t, t ≠ zero → s.local_current_epoch t = 0 ∨ epoch < s.local_current_epoch t

instance [DecidableEq τ] [Fintype τ] (zero : τ) (epoch : Nat) :
    Decidable (s.SafeToReclaim zero epoch) :=
  inferInstanceAs (Decidable (∀ _, _))

variable [DecidableEq τ]

/-- `BumpCurrentEpoch` with `delete_callback` for the array that the thread has replaced, or,
outside the allocator, with no array. -/
def BumpCurrentEpoch (t : τ) : Option (Epochs τ) :=
  match s.replaced t with
  | some array =>
      some { s with
        current_epoch := s.current_epoch + 1
        drain_list_ := s.drain_list_ ++ [⟨s.current_epoch, array⟩]
        replaced := Function.update s.replaced t none }
  | none =>
      if s.Quiet t then some { s with current_epoch := s.current_epoch + 1 } else none

/-- The allocator has taken the step to `u`. -/
def after (a : Action τ) (u : System τ) : Epochs τ :=
  { s with
    toSystem := u
    replaced := Function.update s.replaced a.thread (s.toSystem.replaces a) }

omit s

def next [Fintype τ] (zero : τ) (s : Epochs τ) : Move τ → Option (Epochs τ)
  | .allocator a =>
      if s.replaced a.thread = none ∧ s.reading a.thread = none then
        (s.toSystem.next a).map (s.after a)
      else none
  | .Get t addr =>
      if s.Quiet t then
        some { s with reading := Function.update s.reading t (some (addr, s.page_array_)) }
      else none
  | .access t =>
      if (s.reading t).isSome then some { s with reading := Function.update s.reading t none }
      else none
  | .BumpCurrentEpoch t => s.BumpCurrentEpoch t
  | .Protect t =>
      if s.Quiet t then
        some { s with
          local_current_epoch := Function.update s.local_current_epoch t s.current_epoch }
      else none
  | .Unprotect t =>
      if s.Quiet t then
        some { s with local_current_epoch := Function.update s.local_current_epoch t 0 }
      else none
  | .Drain i =>
      match s.drain_list_[i]? with
      | none => none
      | some action =>
          if s.SafeToReclaim zero action.epoch then
            some { s with
              drain_list_ := s.drain_list_.eraseIdx i
              deleted := action.array :: s.deleted }
          else none

/-- Addresses are of 48 bits; a thread is in an epoch when it calls `Allocate` or `Get`, and
`Get` is called with the address of an item; and when an array is deleted, the thread whose
id is 0 has left the epoch in which it was replaced. -/
def Orderly (zero : τ) (s : Epochs τ) : Move τ → Prop
  | .allocator (.Allocate t safe_to_reclaim_epoch) =>
      s.toSystem.Addressable (.Allocate t safe_to_reclaim_epoch) ∧ s.local_current_epoch t ≠ 0
  | .Get t addr => s.local_current_epoch t ≠ 0 ∧ (s.toSystem.Get addr).isSome
  | .Drain i =>
      ∀ action ∈ s.drain_list_[i]?,
        s.local_current_epoch zero = 0 ∨ action.epoch < s.local_current_epoch zero
  | _ => True

instance (zero : τ) (s : Epochs τ) : DecidablePred (Orderly zero s)
  | .allocator (.Allocate _ _) | .Get _ _ => inferInstanceAs (Decidable (_ ∧ _))
  | .Drain _ => inferInstanceAs (Decidable (∀ action ∈ s.drain_list_[_]?, _))
  | .allocator (.FreeAtEpoch _ _) | .allocator (.proceed _) | .access _ | .BumpCurrentEpoch _
  | .Protect _ | .Unprotect _ => .isTrue trivial

omit [DecidableEq τ] in
theorem Orderly.allocator {zero : τ} {s : Epochs τ} {a : Action τ}
    (h : s.Orderly zero (.allocator a)) : s.toSystem.Addressable a ∧
      ∀ t safe, a = .Allocate t safe → s.local_current_epoch t ≠ 0 := by
  cases a with
  | Allocate t safe =>
      refine ⟨h.1, fun u safe' heq => ?_⟩
      cases heq
      exact h.2
  | FreeAtEpoch t addr =>
      refine ⟨trivial, fun u safe heq => ?_⟩
      cases heq
  | proceed t =>
      refine ⟨trivial, fun u safe heq => ?_⟩
      cases heq

def Active (s : Epochs τ) : Option τ → Prop
  | some t => s.toSystem.Active t
  | none => False

/-- Nobody is in a call, and the arrays that have been deleted, or are to be, have been
replaced. -/
structure Begins (g : Epochs τ) (s : System τ) : Prop where
  allocator : g.toSystem = s
  entered : ∀ t, g.local_current_epoch t ≤ g.current_epoch
  quiet : ∀ t, g.Quiet t
  gone : ∀ a ∈ g.drain_list_.map EpochAction.array ++ g.deleted,
    a ∈ g.published ∧ a ≠ g.page_array_
  once : (g.drain_list_.map EpochAction.array ++ g.deleted).Nodup

/-- No array that a thread goes on with, or constructs, has been deleted, nor the present one,
and none twice; and what a thread finds in the array that `Get` has loaded is what is in the
present one. -/
structure Alive (s : Epochs τ) : Prop where
  calls : ∀ t a, (s.pc t).array = some a ∨ (s.pc t).newArray = some a → a ∉ s.deleted
  reads : ∀ t addr array, s.reading t = some (addr, array) → array ∉ s.deleted ∧
    ((s.arrays array).pages (page addr)).map (fun p => (p, offset addr)) = s.toSystem.Get addr ∧
    (s.toSystem.Get addr).isSome
  present : s.page_array_ ∉ s.deleted
  once : s.deleted.Nodup

end Steps

section Invariant

variable {τ : Type*}

def gone (s : Epochs τ) : List Nat :=
  s.drain_list_.map EpochAction.array ++ s.deleted

def held (s : Epochs τ) (t : τ) : Option Nat :=
  match s.reading t with
  | some (_, array) => some array
  | none => (s.pc t).array

structure Inv (base : Nat) (s : Epochs τ) : Prop where
  sound : s.toSystem.Sound base
  guarded : Guarded (fun a p => a = p) s.local_current_epoch s.current_epoch
    (fun e a => ⟨e, a⟩ ∈ s.drain_list_) s.held
  called : ∀ t, s.pc t ≠ .idle → s.local_current_epoch t ≠ 0
  gone : ∀ a ∈ s.gone, a ∈ s.published ∧ a ≠ s.page_array_
  once : s.gone.Nodup
  replaced : ∀ t a, s.replaced t = some a →
    (a ∈ s.published ∧ a ≠ s.page_array_ ∧ a ∉ s.gone) ∧ s.pc t ≠ .idle
  apart : ∀ t u a, s.replaced t = some a → s.replaced u = some a → t = u
  alive : ∀ t a, s.held t = some a → a ∉ s.deleted
  reads : ∀ t addr array, s.reading t = some (addr, array) → s.pc t = .idle ∧
    array ∈ s.published ∧ ∃ p, (s.arrays array).pages (page addr) = some p ∧
      (page addr, p) ∈ s.added

variable {s u : Epochs τ} {base : Nat} {t : τ} {a : Nat}

theorem deleted_gone (h : a ∈ s.deleted) : a ∈ s.gone :=
  List.mem_append_right _ h

theorem pending_gone {action : EpochAction} (h : action ∈ s.drain_list_) :
    action.array ∈ s.gone :=
  List.mem_append_left _ (List.mem_map_of_mem h)

theorem Inv.alive_of_inv (h : Inv base s) : s.Alive where
  calls := by
    rintro t a (ha | ha)
    · cases hreading : s.reading t with
      | none =>
          refine h.alive t a ?_
          rw [held, hreading]
          exact ha
      | some r =>
          rw [(h.reads t r.1 r.2 hreading).1] at ha
          cases ha
    · intro hdeleted
      exact (System.unseen_of_newArray (h.sound.threads.fits t) ha).1
        (h.gone a (deleted_gone hdeleted)).1
  reads := by
    intro t addr array hreading
    obtain ⟨-, -, p, hp, hadded⟩ := h.reads t addr array hreading
    have hget := System.get_of_added h.sound.arrays hadded
    refine ⟨h.alive t array (by rw [held, hreading]), ?_, ?_⟩
    · rw [hget, hp, Option.map_some]
    · rw [hget, Option.isSome_some]
  present := fun hdeleted => (h.gone _ (deleted_gone hdeleted)).2 rfl
  once := (List.nodup_append.mp h.once).2.1

theorem inv_of_begins {x : System τ} (hsound : x.Sound base) (hbegins : s.Begins x) :
    Inv base s := by
  have hnone : ∀ t, s.held t = none := by
    intro t
    obtain ⟨hidle, -, hreading⟩ := hbegins.quiet t
    rw [held, hreading, hidle]
    rfl
  refine ⟨hbegins.allocator ▸ hsound, ⟨hbegins.entered, ?_, ?_⟩, ?_, hbegins.gone, hbegins.once,
    ?_, ?_, ?_, ?_⟩
  · intro t p hp
    rw [hnone] at hp
    cases hp
  · intro t p e a hp
    rw [hnone] at hp
    cases hp
  · exact fun t ht => absurd (hbegins.quiet t).1 ht
  · intro t a ha
    rw [(hbegins.quiet t).2.1] at ha
    cases ha
  · intro t u a ha
    rw [(hbegins.quiet t).2.1] at ha
    cases ha
  · intro t a ha
    rw [hnone] at ha
    cases ha
  · intro t addr array ha
    rw [(hbegins.quiet t).2.2] at ha
    cases ha

end Invariant

section Runs

variable {τ : Type*} [DecidableEq τ] {s : Epochs τ} {base : Nat} {t zero : τ} {a : Nat}

section Allocator

variable {action : Action τ} {x : System τ}

omit [DecidableEq τ] in
/-- What has been replaced stays so. -/
theorem replaced_stays (hsteps : System.Steps s.toSystem x action)
    (hext : System.Extends s.toSystem x) (h : a ∈ s.published ∧ a ≠ s.page_array_) :
    a ∈ x.published ∧ a ≠ x.page_array_ := by
  refine ⟨hext.published a h.1, ?_⟩
  rcases hsteps.published with ⟨-, hpage, -⟩ | ⟨-, hnew, -, -⟩
  · rw [hpage]
    exact h.2
  · exact fun heq => hnew (heq ▸ h.1)

theorem held_after (hreading : s.reading action.thread = none)
    (hother : ∀ t, t ≠ action.thread → x.pc t = s.pc t) :
    (s.after action x).held =
      Function.update s.held action.thread (x.pc action.thread).array := by
  funext t
  by_cases hown : t = action.thread
  · subst t
    rw [Function.update_self]
    simp only [held, after, hreading]
  · rw [Function.update_of_ne hown]
    simp only [held, after, hother t hown]

omit [DecidableEq τ] in
/-- A thread goes on with the array it had, or with one that is not gone. -/
theorem Inv.array_after (h : Inv base s) (hsteps : System.Steps s.toSystem x action)
    (hext : System.Extends s.toSystem x) (hreading : s.reading action.thread = none) :
    (x.pc action.thread).array = none ∨ (x.pc action.thread).array = s.held action.thread ∨
      ∃ p, (x.pc action.thread).array = some p ∧ s.local_current_epoch action.thread ≠ 0 ∧
        p ∉ s.gone := by
  have hself : s.held action.thread = (s.pc action.thread).array := by
    simp only [held, hreading]
  rw [hself]
  rcases hsteps.array with hnone | hsame | ⟨hcall, hpresent⟩
  · exact Or.inl hnone
  · exact Or.inr (Or.inl hsame)
  · exact Or.inr (Or.inr ⟨_, hpresent, h.called _ hcall,
      fun hgone => (replaced_stays hsteps hext (h.gone _ hgone)).2 rfl⟩)

theorem Inv.called_after (h : Inv base s) (hsteps : System.Steps s.toSystem x action)
    (hinside : ∀ t safe, action = .Allocate t safe → s.local_current_epoch t ≠ 0)
    (hother : ∀ t, t ≠ action.thread → x.pc t = s.pc t) (ht : x.pc t ≠ .idle) :
    s.local_current_epoch t ≠ 0 := by
  by_cases hown : t = action.thread
  · subst t
    rcases hsteps.called with hcall | hidle | ⟨safe, hallocate⟩
    · exact h.called _ hcall
    · exact absurd hidle ht
    · exact hinside _ safe hallocate
  · exact h.called t (hother t hown ▸ ht)

omit [DecidableEq τ] in
theorem Inv.replaces_eq (h : Inv base s) (hsteps : System.Steps s.toSystem x action)
    (hreplaces : s.toSystem.replaces action = some a) :
    a = s.page_array_ ∧ a ≠ x.page_array_ ∧ x.pc action.thread ≠ .idle := by
  have hpresent := h.sound.arrays.present
  rcases hsteps.published with ⟨hnone, -, -⟩ | ⟨hsome, hnew, -, hcall⟩
  · rw [hnone] at hreplaces
    cases hreplaces
  · obtain rfl : s.page_array_ = a := Option.some.inj (hsome.symm.trans hreplaces)
    exact ⟨rfl, fun heq => hnew (heq ▸ hpresent), hcall⟩

theorem Inv.replaced_after (h : Inv base s) (hsteps : System.Steps s.toSystem x action)
    (hext : System.Extends s.toSystem x) (hother : ∀ t, t ≠ action.thread → x.pc t = s.pc t)
    (ha : (s.after action x).replaced t = some a) :
    (a ∈ x.published ∧ a ≠ x.page_array_ ∧ a ∉ s.gone) ∧ x.pc t ≠ .idle := by
  simp only [after, Function.update_apply] at ha
  split at ha
  · rename_i hown
    obtain ⟨rfl, hne, hcall⟩ := h.replaces_eq hsteps ha
    rw [hown]
    exact ⟨⟨hext.published _ h.sound.arrays.present, hne, fun hgone => (h.gone _ hgone).2 rfl⟩,
      hcall⟩
  · rename_i hown
    obtain ⟨⟨hpublished, hne, hgone⟩, hcall⟩ := h.replaced t a ha
    obtain ⟨hpublished', hne'⟩ := replaced_stays hsteps hext ⟨hpublished, hne⟩
    rw [hother t hown]
    exact ⟨⟨hpublished', hne', hgone⟩, hcall⟩

theorem Inv.apart_after (h : Inv base s) (hsteps : System.Steps s.toSystem x action) (t u : τ)
    (a : Nat) (ht : (s.after action x).replaced t = some a)
    (hu : (s.after action x).replaced u = some a) : t = u := by
  have hfresh : ∀ v, s.replaced v = some a → s.toSystem.replaces action ≠ some a := by
    intro v hv hreplaces
    exact (h.replaced v a hv).1.2.1 (h.replaces_eq hsteps hreplaces).1
  simp only [after, Function.update_apply] at ht hu
  split at ht
  · split at hu
    · rename_i hown hown'
      exact hown.trans hown'.symm
    · exact absurd ht (hfresh u hu)
  · split at hu
    · exact absurd hu (hfresh t ht)
    · exact h.apart t u a ht hu

theorem Inv.allocator (h : Inv base s) (hok : s.toSystem.Addressable action)
    (hinside : ∀ t safe, action = .Allocate t safe → s.local_current_epoch t ≠ 0)
    (hreading : s.reading action.thread = none) (hnext : s.toSystem.next action = some x) :
    Inv base (s.after action x) := by
  obtain ⟨hsound, hext⟩ := h.sound.next hok hnext
  have hsteps := System.steps_of_next h.sound hnext
  have hother : ∀ t, t ≠ action.thread → x.pc t = s.pc t :=
    fun t ht => System.pc_of_other hnext (Ne.symm ht)
  have harray := h.array_after hsteps hext hreading
  refine ⟨hsound, ?_, fun t => h.called_after hsteps hinside hother,
    fun a ha => replaced_stays hsteps hext (h.gone a ha), h.once,
    fun t a => h.replaced_after hsteps hext hother, h.apart_after hsteps, fun t a ha => ?_,
    fun t addr array hr => ?_⟩
  · rw [held_after hreading hother]
    refine h.guarded.move action.thread (harray.imp_right fun hrest => hrest.imp_right ?_)
    rintro ⟨p, hp, hin, hgone⟩
    exact ⟨p, hp, hin, fun e a ha heq => hgone (heq ▸ pending_gone ha)⟩
  · rw [held_after hreading hother, Function.update_apply] at ha
    split at ha
    · rcases harray with hnone | hsame | ⟨p, hp, -, hgone⟩
      · rw [hnone] at ha
        cases ha
      · exact h.alive _ a (hsame.symm.trans ha)
      · obtain rfl : p = a := Option.some.inj (hp.symm.trans ha)
        exact fun hdeleted => hgone (deleted_gone hdeleted)
    · exact h.alive t a ha
  · have hr' : s.reading t = some (addr, array) := hr
    have hown : t ≠ action.thread := by
      rintro rfl
      rw [hreading] at hr'
      cases hr'
    obtain ⟨hidle, hpublished, p, hp, hadded⟩ := h.reads t addr array hr'
    exact ⟨(hother t hown).trans hidle, hext.published _ hpublished, p,
      hext.pages _ (h.sound.arrays.known _ hpublished) _ p hp, hext.added _ hadded⟩

end Allocator

omit [DecidableEq τ] in
theorem held_of_quiet (h : s.Quiet t) : s.held t = none := by
  rw [held, h.2.2, h.1]
  rfl

theorem held_reading (s : Epochs τ) (t : τ) (r : Option (Nat × Nat)) :
    held { s with reading := Function.update s.reading t r } =
      Function.update s.held t ((r.map Prod.snd).or (s.pc t).array) := by
  funext u
  by_cases hu : u = t
  · subst u
    simp only [held, Function.update_self]
    cases r <;> rfl
  · simp only [held, Function.update_of_ne hu]

theorem Inv.Get {addr : Nat} (h : Inv base s) (hquiet : s.Quiet t)
    (hinside : s.local_current_epoch t ≠ 0) (hitem : (s.toSystem.Get addr).isSome) :
    Inv base { s with reading := Function.update s.reading t (some (addr, s.page_array_)) } := by
  have hfree : ∀ e a, (⟨e, a⟩ : EpochAction) ∈ s.drain_list_ → ¬ a = s.page_array_ :=
    fun e a ha => (h.gone a (pending_gone ha)).2
  refine ⟨h.sound, ?_, h.called, h.gone, h.once, h.replaced, h.apart, fun u a ha => ?_,
    fun u addr' array hr => ?_⟩
  · rw [held_reading]
    exact h.guarded.rely hinside hfree
  · rw [held_reading, Function.update_apply] at ha
    split at ha
    · obtain rfl : s.page_array_ = a := Option.some.inj ha
      exact fun hdeleted => (h.gone _ (deleted_gone hdeleted)).2 rfl
    · exact h.alive u a ha
  · simp only [Function.update_apply] at hr
    split at hr
    · rename_i hown
      obtain ⟨rfl, rfl⟩ := Prod.mk.inj (Option.some.inj hr)
      obtain ⟨item, hget⟩ := Option.isSome_iff_exists.mp hitem
      obtain ⟨p, hp, -⟩ := Option.map_eq_some_iff.mp hget
      have hpresent := h.sound.arrays.present
      exact ⟨hown ▸ hquiet.1, hpresent, p, hp,
        h.sound.arrays.fromAdded _ (h.sound.arrays.known _ hpresent) _ p hp⟩
    · exact h.reads u addr' array hr

theorem Inv.access (h : Inv base s) (hreading : (s.reading t).isSome) :
    Inv base { s with reading := Function.update s.reading t none } := by
  obtain ⟨r, hr⟩ := Option.isSome_iff_exists.mp hreading
  have hidle := (h.reads t r.1 r.2 hr).1
  refine ⟨h.sound, ?_, h.called, h.gone, h.once, h.replaced, h.apart, fun u a ha => ?_,
    fun u addr array hr => ?_⟩
  · rw [held_reading, hidle]
    exact h.guarded.move t (Or.inl rfl)
  · rw [held_reading, hidle, Function.update_apply] at ha
    split at ha
    · cases ha
    · exact h.alive u a ha
  · simp only [Function.update_apply] at hr
    split at hr
    · cases hr
    · exact h.reads u addr array hr

theorem Inv.enter {epoch : Nat} (h : Inv base s) (hquiet : s.Quiet t)
    (hle : epoch ≤ s.current_epoch) :
    Inv base { s with
      local_current_epoch := Function.update s.local_current_epoch t epoch } := by
  have hother : ∀ u, u ≠ t →
      Function.update s.local_current_epoch t epoch u = s.local_current_epoch u :=
    fun u hu => Function.update_of_ne hu ..
  refine ⟨h.sound, h.guarded.enter (fun u => ?_) fun u p hp => hother u ?_, fun u hu => ?_, h.gone,
    h.once, h.replaced, h.apart, h.alive, h.reads⟩
  · change Function.update s.local_current_epoch t epoch u ≤ _
    by_cases hu : u = t
    · rw [hu, Function.update_self]
      exact hle
    · rw [hother u hu]
      exact h.guarded.entered u
  · rintro rfl
    rw [held_of_quiet hquiet] at hp
    cases hp
  · have hne : u ≠ t := fun heq => hu (heq ▸ hquiet.1)
    change Function.update s.local_current_epoch t epoch u ≠ 0
    rw [hother u hne]
    exact h.called u hu

omit [DecidableEq τ] in
theorem Inv.bump (h : Inv base s) : Inv base { s with current_epoch := s.current_epoch + 1 } :=
  ⟨h.sound, h.guarded.bump fun _ _ => Or.inl, h.called, h.gone, h.once, h.replaced, h.apart,
    h.alive, h.reads⟩

theorem Inv.register (h : Inv base s) (hreplaced : s.replaced t = some a) :
    Inv base { s with
      current_epoch := s.current_epoch + 1
      drain_list_ := s.drain_list_ ++ [⟨s.current_epoch, a⟩]
      replaced := Function.update s.replaced t none } := by
  obtain ⟨⟨hpublished, hne, hfresh⟩, -⟩ := h.replaced t a hreplaced
  have hgone : Epochs.gone { s with
      current_epoch := s.current_epoch + 1
      drain_list_ := s.drain_list_ ++ [⟨s.current_epoch, a⟩]
      replaced := Function.update s.replaced t none } =
      s.drain_list_.map EpochAction.array ++ a :: s.deleted := by
    simp only [Epochs.gone, List.map_append, List.map_cons, List.map_nil, List.append_assoc,
      List.singleton_append]
  have hmem : ∀ b, b ∈ s.drain_list_.map EpochAction.array ++ a :: s.deleted ↔
      b = a ∨ b ∈ s.gone := by
    intro b
    simp only [Epochs.gone, List.mem_append, List.mem_cons]
    tauto
  refine ⟨h.sound, h.guarded.bump fun e b hb => ?_, h.called, fun b hb => ?_, ?_, fun u b hb => ?_,
    fun u w b hu hw => ?_, h.alive, h.reads⟩
  · refine (List.mem_append.mp hb).imp_right fun hb => ?_
    exact congrArg EpochAction.epoch (List.mem_singleton.mp hb)
  · rw [hgone, hmem] at hb
    rcases hb with rfl | hb
    · exact ⟨hpublished, hne⟩
    · exact h.gone b hb
  · rw [hgone, List.nodup_middle]
    exact List.nodup_cons.mpr ⟨hfresh, h.once⟩
  · simp only [Function.update_apply] at hb
    split at hb
    · cases hb
    · rename_i hother
      obtain ⟨⟨hpublished', hne', hfresh'⟩, hcall⟩ := h.replaced u b hb
      refine ⟨⟨hpublished', hne', fun hb' => ?_⟩, hcall⟩
      rw [hgone, hmem] at hb'
      rcases hb' with rfl | hb'
      · exact hother (h.apart u t _ hb hreplaced)
      · exact hfresh' hb'
  · simp only [Function.update_apply] at hu hw
    split at hu
    · cases hu
    · split at hw
      · cases hw
      · exact h.apart u w b hu hw

theorem Inv.drain {i : Nat} {action : EpochAction} (h : Inv base s)
    (hat : s.drain_list_[i]? = some action) (hsafe : s.SafeToReclaim zero action.epoch)
    (hzero : s.local_current_epoch zero = 0 ∨ action.epoch < s.local_current_epoch zero) :
    Inv base { s with
      drain_list_ := s.drain_list_.eraseIdx i
      deleted := action.array :: s.deleted } := by
  have hmem := List.mem_of_getElem? hat
  have hperm : (Epochs.gone { s with
      drain_list_ := s.drain_list_.eraseIdx i
      deleted := action.array :: s.deleted }).Perm s.gone := by
    obtain ⟨hlt, hat'⟩ := List.getElem?_eq_some_iff.mp hat
    have hdrain := (List.getElem_cons_eraseIdx_perm hlt).map EpochAction.array
    rw [hat', List.map_cons] at hdrain
    exact List.perm_middle.trans (hdrain.append_right s.deleted)
  have hall : ∀ t, s.local_current_epoch t = 0 ∨ action.epoch < s.local_current_epoch t := by
    intro t
    by_cases ht : t = zero
    · rw [ht]
      exact hzero
    · exact hsafe t ht
  refine ⟨h.sound, h.guarded.mono (fun e b hb => List.mem_of_mem_eraseIdx hb) fun u p hp =>
    ⟨p, hp, fun _ => id⟩, h.called, fun b hb => h.gone b (hperm.mem_iff.mp hb),
    hperm.nodup_iff.mpr h.once, fun u b hb => ?_, h.apart, fun u b hb => ?_, h.reads⟩
  · obtain ⟨⟨hpublished, hne, hfresh⟩, hcall⟩ := h.replaced u b hb
    exact ⟨⟨hpublished, hne, fun hb' => hfresh (hperm.mem_iff.mp hb')⟩, hcall⟩
  · intro hdeleted
    rcases List.mem_cons.mp hdeleted with rfl | hdeleted
    · exact h.guarded.not_breaks hb hmem (hall u) rfl
    · exact h.alive u b hb hdeleted

variable [Fintype τ] {g u v : Epochs τ} {m : Move τ}

theorem Inv.next (h : Inv base s) (hok : s.Orderly zero m) (hnext : s.next zero m = some u) :
    Inv base u := by
  cases m with
  | allocator action =>
      simp only [Epochs.next] at hnext
      split at hnext
      · rename_i hfree
        obtain ⟨x, hx, rfl⟩ := Option.map_eq_some_iff.mp hnext
        exact h.allocator hok.allocator.1 hok.allocator.2 hfree.2 hx
      · cases hnext
  | Get t addr =>
      simp only [Epochs.next] at hnext
      split at hnext
      · rename_i hquiet
        obtain rfl := Option.some.inj hnext
        exact h.Get hquiet hok.1 hok.2
      · cases hnext
  | access t =>
      simp only [Epochs.next] at hnext
      split at hnext
      · rename_i hreading
        obtain rfl := Option.some.inj hnext
        exact h.access hreading
      · cases hnext
  | BumpCurrentEpoch t =>
      simp only [Epochs.next, Epochs.BumpCurrentEpoch] at hnext
      split at hnext
      · rename_i hreplaced
        obtain rfl := Option.some.inj hnext
        exact h.register hreplaced
      · split at hnext
        · obtain rfl := Option.some.inj hnext
          exact h.bump
        · cases hnext
  | Protect t =>
      simp only [Epochs.next] at hnext
      split at hnext
      · rename_i hquiet
        obtain rfl := Option.some.inj hnext
        exact h.enter hquiet (Nat.le_refl _)
      · cases hnext
  | Unprotect t =>
      simp only [Epochs.next] at hnext
      split at hnext
      · rename_i hquiet
        obtain rfl := Option.some.inj hnext
        exact h.enter hquiet (Nat.zero_le _)
      · cases hnext
  | Drain i =>
      simp only [Epochs.next] at hnext
      split at hnext
      · cases hnext
      · rename_i action hat
        split at hnext
        · rename_i hsafe
          obtain rfl := Option.some.inj hnext
          exact h.drain hat hsafe (hok action hat)
        · cases hnext

end Runs

section Projection

variable {τ : Type*} [DecidableEq τ] [Fintype τ] {zero : τ} {s g u : Epochs τ} {base : Nat}
  {t : τ} {m : Move τ}

def Move.action : Move τ → Option (Action τ)
  | .allocator a => some a
  | _ => none

theorem toSystem_of_next (hnext : s.next zero m = some u) (hm : m.action = none) :
    u.toSystem = s.toSystem := by
  cases m with
  | allocator a => cases hm
  | BumpCurrentEpoch t =>
      simp only [Epochs.next, Epochs.BumpCurrentEpoch] at hnext
      repeat' split at hnext
      all_goals
        cases hnext
        try rfl
  | Get | access | Protect | Unprotect | Drain =>
      simp only [Epochs.next] at hnext
      repeat' split at hnext
      all_goals
        cases hnext
        try rfl

theorem next_of_next {a : Action τ} (hok : s.Orderly zero m) (hnext : s.next zero m = some u)
    (hm : m.action = some a) :
    s.toSystem.Addressable a ∧ s.toSystem.next a = some u.toSystem := by
  cases m with
  | allocator action =>
      obtain rfl := Option.some.inj hm
      refine ⟨hok.allocator.1, ?_⟩
      simp only [Epochs.next] at hnext
      split at hnext
      · obtain ⟨x, hx, rfl⟩ := Option.map_eq_some_iff.mp hnext
        exact hx
      · cases hnext
  | _ => cases hm

theorem allocator_reaches (h : Reaches (Epochs.next zero) (Epochs.Orderly zero) s u) :
    Reaches System.next System.Addressable s.toSystem u.toSystem := by
  refine reaches_project Epochs.toSystem (fun s m u hok hnext => ?_) h
  cases hm : m.action with
  | none => exact Or.inl (toSystem_of_next hnext hm)
  | some a => exact Or.inr ⟨a, next_of_next hok hnext hm⟩

theorem Inv.reaches (h : Inv base s) (hrun : Reaches (Epochs.next zero) (Epochs.Orderly zero) s u) :
    Inv base u :=
  hrun.invariant h fun _ _ _ hs hok hnext => hs.next hok hnext

def allocatorPath (path : Path (Epochs.next zero) (Epochs.Orderly zero)) :
    Path (System.next (τ := τ)) System.Addressable :=
  path.project Epochs.toSystem Move.action (fun _ _ _ _ hnext hm => toSystem_of_next hnext hm)
    fun _ _ _ _ hok hnext hm => next_of_next hok hnext hm

/-- What other threads do, and what the thread does outside the allocator. -/
theorem kept_of_next (hnext : s.next zero m = some u)
    (hother : ∀ a, m = .allocator a → a.thread ≠ t) :
    u.pc t = s.pc t ∧ (s.replaced t = none → u.replaced t = none) := by
  cases m with
  | allocator a =>
      have hne := hother a rfl
      simp only [Epochs.next] at hnext
      split at hnext
      · obtain ⟨x, hx, rfl⟩ := Option.map_eq_some_iff.mp hnext
        refine ⟨System.pc_of_other hx hne, fun hnone => ?_⟩
        exact (Function.update_of_ne hne.symm ..).trans hnone
      · cases hnext
  | BumpCurrentEpoch v =>
      refine ⟨congrArg (fun x : System τ => x.pc t) (toSystem_of_next hnext rfl), fun hnone => ?_⟩
      simp only [Epochs.next, Epochs.BumpCurrentEpoch] at hnext
      split at hnext
      · cases hnext
        simp only [Function.update_apply]
        split
        · rfl
        · exact hnone
      · split at hnext
        · cases hnext
          exact hnone
        · cases hnext
  | Get | access | Protect | Unprotect | Drain =>
      refine ⟨congrArg (fun x : System τ => x.pc t) (toSystem_of_next hnext rfl), fun hnone => ?_⟩
      simp only [Epochs.next] at hnext
      repeat' split at hnext
      all_goals
        cases hnext
        try exact hnone

/-- In a call, and outside the allocator's own steps, a thread registers the array that it has
replaced. -/
theorem registers_of_next (h : Inv base s) (hcall : s.pc t ≠ .idle)
    (hnext : s.next zero m = some u) (hthread : m.thread = some t)
    (hother : ∀ a, m = .allocator a → a.thread ≠ t) :
    s.replaced t ≠ none ∧ u.replaced t = none := by
  cases m with
  | allocator a => exact absurd (Option.some.inj hthread) (hother a rfl)
  | access v =>
      obtain rfl := Option.some.inj hthread
      simp only [Epochs.next] at hnext
      split at hnext
      · rename_i hreading
        obtain ⟨r, hr⟩ := Option.isSome_iff_exists.mp hreading
        exact absurd (h.reads v r.1 r.2 hr).1 hcall
      · cases hnext
  | BumpCurrentEpoch v =>
      obtain rfl := Option.some.inj hthread
      simp only [Epochs.next, Epochs.BumpCurrentEpoch] at hnext
      split at hnext
      · rename_i hreplaced
        cases hnext
        refine ⟨?_, Function.update_self ..⟩
        rw [hreplaced]
        exact Option.some_ne_none _
      · split at hnext
        · rename_i hquiet
          exact absurd hquiet.1 hcall
        · cases hnext
  | Get v | Protect v | Unprotect v =>
      obtain rfl := Option.some.inj hthread
      simp only [Epochs.next] at hnext
      split at hnext
      · rename_i hquiet
        exact absurd hquiet.1 hcall
      · cases hnext
  | Drain i => cases hthread

theorem fair_allocatorPath {path : Path (Epochs.next zero) (Epochs.Orderly zero)}
    (hinv : ∀ n, Inv base (path.state n)) (hfair : Fair Move.thread Active path) :
    Fair Action.thread System.Active (allocatorPath path) := by
  intro n t hactive
  by_contra hnot
  have hother : ∀ k m, n ≤ k → path.action k = some m → ∀ a, m = .allocator a → a.thread ≠ t := by
    rintro k m hk hm a rfl hthread
    refine hnot ⟨k, hk, a, ?_, hthread⟩
    simp only [allocatorPath, Path.project, hm, Option.bind_some, Move.action]
  have hstep : ∀ k, n ≤ k → (path.state (k + 1)).pc t = (path.state k).pc t ∧
      ((path.state k).replaced t = none → (path.state (k + 1)).replaced t = none) := by
    intro k hk
    cases hm : path.action k with
    | none =>
        rw [path.rests k hm]
        exact ⟨rfl, id⟩
    | some m => exact kept_of_next (path.acts k m hm).2 (hother k m hk hm)
  have hcall : ∀ k, n ≤ k → (path.state k).pc t ≠ .idle := by
    intro k hk
    induction k, hk using Nat.le_induction with
    | base => exact hactive
    | succ k hk ih => rwa [(hstep k hk).1]
  have hturn : ∀ k, n ≤ k → ∃ j, k ≤ j ∧ (path.state j).replaced t ≠ none ∧
      (path.state (j + 1)).replaced t = none := by
    intro k hk
    obtain ⟨j, hj, m, hm, hthread⟩ := hfair k (some t) (hcall k hk)
    have hnj := Nat.le_trans hk hj
    exact ⟨j, hj, registers_of_next (hinv j) (hcall j hnj) (path.acts j m hm).2 hthread
      (hother j m hnj hm)⟩
  -- it registers the array once, and is given another turn
  obtain ⟨k, hk, -, hregistered⟩ := hturn n (Nat.le_refl n)
  have hstays : ∀ j, k + 1 ≤ j → (path.state j).replaced t = none := by
    intro j hj
    induction j, hj using Nat.le_induction with
    | base => exact hregistered
    | succ j hj ih => exact (hstep j (by omega)).2 ih
  obtain ⟨j, hj, hreplaced, -⟩ := hturn (k + 1) (by omega)
  exact hreplaced (hstays j hj)

end Projection

end Epochs

/-- Where recovery leaves out no page before the count's, expansion keeps every item in place and
deletes no array that is in use; and in every fair run its loops end and every call returns. -/
theorem expansion_ends {τ : Type*} [DecidableEq τ] [Fintype τ] {zero : τ}
    {recovery : Option Recovery} {s : System τ} {g : Epochs τ} (hstart : Starts recovery s)
    (hgap : Contiguous recovery) (hbegins : g.Begins s) :
    (∀ u, Reaches (Epochs.next zero) (Epochs.Orderly zero) g u →
      u.Placed ∧ u.Alive ∧
        ∀ v, Reaches (Epochs.next zero) (Epochs.Orderly zero) u v → u.Keeps v.toSystem) ∧
    ∀ path : Path (Epochs.next zero) (Epochs.Orderly zero), path.state 0 = g →
      Fair Epochs.Move.thread Epochs.Active path →
        (∀ t addr new_size expected new_array idx,
          LeadsTo path (fun u => u.pc t = .copying addr new_size expected new_array idx)
            (fun u => u.pc t = .exchanging addr new_size expected new_array)) ∧
        ∀ t, LeadsTo path (fun u => u.Active (some t)) (fun u => u.pc t = .idle) := by
  have hinv := Epochs.inv_of_begins (starts_spec hstart).1 hbegins
  obtain rfl := hbegins.allocator
  refine ⟨fun u hu => ?_, fun path hzero hfair => ?_⟩
  · have hreach := Epochs.allocator_reaches hu
    refine ⟨System.placed_of_reaches hstart hreach, (hinv.reaches hu).alive_of_inv, fun v hv => ?_⟩
    exact System.keeps_of_reaches hstart hreach (Epochs.allocator_reaches hv)
  · subst hzero
    have hfair' := Epochs.fair_allocatorPath
      (fun n => hinv.reaches (path.reaches (Nat.zero_le n))) hfair
    exact ⟨System.copying_ends hstart hgap hfair', System.call_returns hstart hgap hfair'⟩

/-- One page in the file, and the count on the last item of the page after the next two. -/
def skipping : Recovery where
  sizeof_item := 64
  file_size := 64 * 2 ^ 20
  count := 4 * 2 ^ 20 - 1

/-- Three pages in the file, and the count on the page after. -/
def following : Recovery where
  sizeof_item := 64
  file_size := 3 * (64 * 2 ^ 20)
  count := 3 * 2 ^ 20 + 7

/-- The allocator of some threads after a recovery by one of them. -/
def recovered {τ : Type} [DecidableEq τ] (t : τ) (r : Recovery) : System τ :=
  ((System.Initialize t 0).bind fun s => s.Recover r).getD System.withPage

theorem starts_recovered {τ : Type} [DecidableEq τ] {t : τ} {r : Recovery} (hr : r.Asserts)
    (h : ((System.Initialize t 0).bind fun s => s.Recover r).isSome) :
    Starts (some r) (recovered t r) := by
  obtain ⟨s, hs⟩ := Option.isSome_iff_exists.mp h
  obtain ⟨initialized, hinit, hrec⟩ := Option.bind_eq_some_iff.mp hs
  refine ⟨t, 0, initialized, hinit, hr, ?_⟩
  rw [hrec, recovered, hs, Option.getD_some]

/-- The array that the recovery has replaced is still to be deleted, and every thread is in the
epoch after. -/
def entered {τ : Type} (s : System τ) : Epochs τ where
  toSystem := s
  current_epoch := 2
  local_current_epoch := fun _ => 2
  drain_list_ := [⟨1, 0⟩]
  replaced := fun _ => none
  reading := fun _ => none
  deleted := []

theorem begins_entered {τ : Type} {s : System τ} (hidle : ∀ t, s.pc t = .idle)
    (hpublished : 0 ∈ s.published) (hpage : s.page_array_ ≠ 0) : (entered s).Begins s where
  allocator := rfl
  entered := fun _ => Nat.le_refl 2
  quiet := fun t => ⟨hidle t, rfl, rfl⟩
  gone := fun a ha => by
    obtain rfl := List.mem_singleton.mp ha
    exact ⟨hpublished, hpage.symm⟩
  once := List.nodup_singleton 0

/-- Two threads, of which one has the id 0. -/
theorem expansion_ends_following :
    Starts (some following) (recovered true following) ∧
    (entered (recovered true following)).Begins (recovered true following) ∧
    (∀ u, Reaches (Epochs.next false) (Epochs.Orderly false)
        (entered (recovered true following)) u →
      u.Placed ∧ u.Alive ∧
        ∀ v, Reaches (Epochs.next false) (Epochs.Orderly false) u v → u.Keeps v.toSystem) ∧
    ∀ path : Path (Epochs.next false) (Epochs.Orderly false),
      path.state 0 = entered (recovered true following) →
      Fair Epochs.Move.thread Epochs.Active path →
        (∀ t addr new_size expected new_array idx,
          LeadsTo path (fun u => u.pc t = .copying addr new_size expected new_array idx)
            (fun u => u.pc t = .exchanging addr new_size expected new_array)) ∧
        ∀ t, LeadsTo path (fun u => u.Active (some t)) (fun u => u.pc t = .idle) := by
  have hstart : Starts (some following) (recovered true following) :=
    starts_recovered ⟨by decide, by decide, by decide, by decide, by decide⟩ (by decide)
  have hbegins := begins_entered (starts_spec hstart).2.1 (by decide) (by decide)
  exact ⟨hstart, hbegins, expansion_ends hstart (by decide) hbegins⟩

def twoCalls : List (Epochs.Move Unit) :=
  [.Allocate () 0, .proceed (), .proceed (), .proceed (), .proceed (),
    .Allocate () 0, .proceed (), .proceed (), .proceed ()].map .allocator

/-- The page 2 is not read and nobody comes by it: the second call draws the first address
of page 4 and waits for it forever. -/
theorem copying_waits_forever : Starts (some skipping) (recovered () skipping) ∧
    (entered (recovered () skipping)).Begins (recovered () skipping) ∧
    ∃ path : Path (Epochs.next ()) (Epochs.Orderly ()),
      path.state 0 = entered (recovered () skipping) ∧
        Fair Epochs.Move.thread Epochs.Active path ∧
        (path.state 9).pc () = .copying (4 * 2 ^ 20) 8 1 2 2 ∧
        ¬LeadsTo path (fun u => u.pc () = .copying (4 * 2 ^ 20) 8 1 2 2)
          (fun u => u.pc () = .exchanging (4 * 2 ^ 20) 8 1 2) := by
  have hstart : Starts (some skipping) (recovered () skipping) :=
    starts_recovered ⟨by decide, by decide, by decide, by decide, by decide⟩ (by decide)
  refine ⟨hstart, begins_entered (starts_spec hstart).2.1 (by decide) (by decide), ?_⟩
  have hrun : (runActions (Epochs.next ()) (entered (recovered () skipping)) twoCalls).map
      (fun u => (u.pc (), (u.arrays 1).size, (u.arrays 1).pages 2, (u.replaced ()).isSome,
        (u.reading ()).isSome)) =
        some (.copying (4 * 2 ^ 20) 8 1 2 2, 4, none, false, false) := by decide
  obtain ⟨u, hu, hfacts⟩ := Option.map_eq_some_iff.mp hrun
  simp only [Prod.mk.injEq, Option.isSome_eq_false_iff, Option.isNone_iff_eq_none] at hfacts
  obtain ⟨hpc, hsize, hpage, hreplaced, hreading⟩ := hfacts
  have hrest : u.next () (.allocator (.proceed ())) = some u := by
    have hsame : u.toSystem.next (.proceed ()) = some u.toSystem := by
      simp only [System.next, System.proceed, hpc, System.copy, hsize, hpage, Nat.reduceLT,
        ↓reduceIte]
    have hnone : u.toSystem.replaces (.proceed ()) = none := by
      simp only [System.replaces, hpc]
    simp only [Epochs.next, Epochs.after, Action.thread, hreplaced, hreading, and_self, if_true,
      hsame, Option.map_some, hnone]
    rw [← hreplaced, Function.update_eq_self]
  have hadmits : Admits (Epochs.next ()) (Epochs.Orderly ()) (entered (recovered () skipping))
      twoCalls := by decide
  obtain ⟨path, hzero, hrests⟩ := exists_path_of_runActions (a := .allocator (.proceed ()))
    hadmits hu trivial hrest
  refine ⟨path, hzero, ?_, ?_, fun h => ?_⟩
  · intro n t hactive
    cases t with
    | none => exact hactive.elim
    | some t =>
        exact ⟨max n 9, le_max_left _ _, _, (hrests _ (le_max_right _ _)).2, rfl⟩
  · rw [(hrests 9 le_rfl).1]
    exact hpc
  · obtain ⟨m, hm, hexchanging⟩ := h 9 (by rw [(hrests 9 le_rfl).1]; exact hpc)
    rw [(hrests m hm).1, hpc] at hexchanging
    cases hexchanging

end HashComp.Expansion
