import HashComp.Concurrent.Invariant

namespace HashComp.Concurrent

open HashComp.HashTrie
open HashComp.LevelHash
open HashComp.Operations
open HashComp.Runs
open HashComp.SlotTrie
open HashComp.Threads

section Solo

variable {K T : Type*} {L : Layout K} {D tid : Nat} {t t' t₀ : Table K T} {l l' : Local K T}
  {op : Op K T}

def Steady (t : Table K T) : Local K T → Prop
  | .attempt _ _ _ loc _ p => loc = t.slots p
  | _ => True

theorem Steady.not_givesUp (h : Steady t l) : ¬ GivesUp L t l := by
  intro hgives
  cases l with
  | attempt m n fail loc currArr p =>
      cases m with
      | insert key mapped => exact hgives.2.2.2 h.symm
      | update key mapped | remove key =>
          cases loc with
          | data old => exact hgives.2 h.symm
          | null | array => exact hgives
  | _ => exact hgives

theorem Transition.steady (htr : Transition L t l t' l') : Steady t' l' := by
  cases htr with
  | load | lost => rfl
  | spin harr hnext hfail => exact hnext.symm
  | _ => trivial

structure Solo (L : Layout K) (D : Nat) (x : Table K T × Local K T) : Prop where
  sound : Sound L D x.1
  localOk : LocalOk L x.1.slots x.2
  steady : Steady x.1 x.2

theorem Solo.transition (hadm : L.Admissible D) (h : Solo L D (t, l)) :
    Transition L t l (step L t l).1 (step L t l).2 :=
  transition_of_step h.sound.levels h.sound.shallow h.localOk h.steady.not_givesUp
    (h.sound.not_runsOut hadm h.localOk)

theorem Solo.leads (hadm : L.Admissible D) {x y : Table K T × Local K T} (h : Solo L D x)
    (hy : Leads ((program L).soloStep tid) x y) : Solo L D y := by
  refine hy.invariant h ?_
  rintro ⟨t, l⟩ hx
  have htr := hx.transition hadm
  exact ⟨hx.sound.transition htr, htr.localOk, htr.steady⟩

theorem Sound.solo (h : Sound L D t) (op : Op K T) : Solo L D (t, begin op) where
  sound := h
  localOk := begin_localOk h.wf.root op
  steady := by
    cases op <;> trivial

theorem Sound.returns (hadm : L.Admissible D) (h : Sound L D t) {r : Result K T}
    (hret : Returns L tid t op t' r) : Sound L D t' :=
  ((h.solo op).leads hadm hret).sound

theorem sound_of_reached (hadm : L.Admissible D) (h₀ : Sound L D t₀)
    (h : Reached L tid t₀ t) : Sound L D t := by
  induction h with
  | start => exact h₀
  | call _ hret ih => exact ih.returns hadm hret

end Solo

section Walk

variable {K T : Type*} {L : Layout K} {D n a : Nat} {t : Table K T} {m : Mutation K T}
  {key : K} {mapped : T}

theorem leads_spin (L : Layout K) (tid : Nat) (t : Table K T) (key : K) (mapped : T) (n : Nat)
    (currArr : Option Path) (p : Path) {k : Nat} (hk : k < failLimit) :
    Leads ((program L).soloStep tid)
      (t, .attempt (.insert key mapped) n 0 .array currArr p)
      (t, .attempt (.insert key mapped) n (k + 1) .array (some p) p) := by
  induction k with
  | zero => exact ⟨1, rfl⟩
  | succ k ih =>
      have hstep := (ih (by omega)).step
      simpa only [soloStep_eq, step, attempt, if_pos hk] using hstep

theorem leads_array (h : Sound L D t) (tid : Nat) (loc : Slot Nat)
    {currArr : Option Path} (hat : AtLevel L t.slots m.key n currArr)
    (hnext : t.slots (L.keyPath m.key (n + 1)) = .array) :
    ∃ loc', Leads ((program L).soloStep tid) (t, .level m n loc currArr)
      (t, .level m (n + 1) loc' (some (L.keyPath m.key (n + 1)))) := by
  have hload := (Leads.refl (f := (program L).soloStep tid) (t, .level m n loc currArr)).step
  rw [soloStep_eq, step_level h.levels (h.le_of_array hat.1) loc hat, hnext] at hload
  cases m with
  | insert key mapped =>
      have hspin := hload.trans
        (leads_spin L tid t key mapped n currArr _ (k := failLimit - 1) (by decide))
      exact ⟨.null, hspin.step⟩
  | update key mapped => exact ⟨.array, hload.step⟩
  | remove key => exact ⟨.array, hload.step⟩

theorem leads_level (h : Sound L D t) (tid : Nat)
    (harr : ∀ i ≤ n, t.slots (L.keyPath m.key i) = .array) :
    ∃ loc currArr, AtLevel L t.slots m.key n currArr ∧
      Leads ((program L).soloStep tid) (t, .level m 0 .null none) (t, .level m n loc currArr) := by
  induction n with
  | zero => exact ⟨.null, none, ⟨harr 0 (Nat.le_refl 0), by simp⟩, Leads.refl _⟩
  | succ n ih =>
      obtain ⟨loc, currArr, hat, hleads⟩ := ih fun i hi => harr i (by omega)
      have hnext := harr (n + 1) (Nat.le_refl _)
      obtain ⟨loc', harray⟩ := leads_array h tid loc hat hnext
      exact ⟨loc', _, ⟨hnext, fun _ => rfl⟩, hleads.trans harray⟩

theorem leads_attempt (h : Sound L D t) (tid : Nat) (hend : EndsAt L t.slots m.key n) :
    ∃ currArr, Leads ((program L).soloStep tid) (t, begin (.mutate m))
      (t, .attempt m n 0 (t.slots (L.keyPath m.key (n + 1))) currArr
        (L.keyPath m.key (n + 1))) := by
  obtain ⟨loc, currArr, hat, hleads⟩ := leads_level h tid hend.arrays
  refine ⟨currArr, ?_⟩
  have hload := hleads.step
  rwa [soloStep_eq, step_level h.levels (h.le_of_array hat.1) loc hat] at hload

theorem leads_getLevel (hlv : L.Levels t.maxLevel D) (tid : Nat) (hn : n ≤ D)
    (harr : ∀ i ≤ n, t.slots (L.keyPath key i) = .array) :
    ∃ loc currArr, AtLevel L t.slots key n currArr ∧
      Leads ((program L).soloStep tid) (t, .getLevel key 0 .null none)
        (t, .getLevel key n loc currArr) := by
  induction n with
  | zero => exact ⟨.null, none, ⟨harr 0 (Nat.le_refl 0), by simp⟩, Leads.refl _⟩
  | succ n ih =>
      obtain ⟨loc, currArr, hat, hleads⟩ := ih (by omega) fun i hi => harr i (by omega)
      have hnext := harr (n + 1) (Nat.le_refl _)
      refine ⟨.array, some (L.keyPath key (n + 1)), ⟨hnext, fun _ => rfl⟩, ?_⟩
      have hload := hleads.step
      rwa [soloStep_eq, step_getLevel hlv (Nat.le_of_succ_le hn) loc hat, hnext] at hload

/-- `Get` returns what the slot holds where its walk ends, and changes nothing. -/
theorem get_returns (hlv : L.Levels t.maxLevel D) (tid : Nat) (hn : n ≤ D)
    (hend : EndsAt L t.slots key n) :
    Returns L tid t (.get key) t (t.getResult L key (t.slots (L.keyPath key (n + 1)))) := by
  obtain ⟨loc, currArr, hat, hleads⟩ := leads_getLevel hlv tid hn hend.arrays
  have hload := hleads.step
  rw [soloStep_eq, step_getLevel hlv hn loc hat] at hload
  have hstop := hend.stop
  cases hslot : t.slots (L.keyPath key (n + 1)) with
  | null =>
      rw [hslot] at hload
      exact hload
  | array => exact absurd hslot hstop
  | data a =>
      rw [hslot] at hload
      exact hload

theorem Sound.get_returns (h : Sound L D t) (tid : Nat) (hend : EndsAt L t.slots key n) :
    Returns L tid t (.get key) t (t.getResult L key (t.slots (L.keyPath key (n + 1)))) :=
  Concurrent.get_returns h.levels tid (h.le_of_array (hend.arrays n (Nat.le_refl n))) hend

theorem get_iff_spec (h : Sound L D t) (tid : Nat) (key : K) (r : Result K T) :
    (∃ u, Returns L tid t (.get key) u r) ↔ t.GetSpec L key r := by
  obtain ⟨n, hend⟩ := h.exists_endsAt key
  have hret := h.get_returns tid hend
  have hspec := h.getResult_spec hend
  constructor
  · rintro ⟨u, hu⟩
    rw [(hu.unique hret).2]
    exact hspec
  · intro hr
    rw [hr.unique h.valid hspec]
    exact ⟨t, hret⟩

theorem modify_absent (h : Sound L D t) (tid : Nat)
    (hm : ∀ key mapped, m ≠ .insert key mapped) (hend : EndsAt L t.slots m.key n)
    (hnull : t.slots (L.keyPath m.key (n + 1)) = .null) :
    Returns L tid t (.mutate m) t (.bool false) := by
  obtain ⟨currArr, hleads⟩ := leads_attempt h tid hend
  rw [hnull] at hleads
  cases m with
  | insert key mapped => exact absurd rfl (hm key mapped)
  | update | remove => exact hleads.step.step

def updated (L : Layout K) (t : Table K T) (key : K) (mapped : T) (p : Path) : Table K T :=
  setSlot (newDataNode L t key mapped).2 p (.data t.fresh)

theorem updated_heap (h : Sound L D t) {b : Nat} (hb : t.Linked b) (p : Path) :
    (updated L t key mapped p).heap b = t.heap b := by
  obtain ⟨q, hq⟩ := hb
  exact h.alloc_heap hq

theorem updated_linked (h : Sound L D t) {p : Path} (hslot : t.slots p = .data a) (b : Nat) :
    (updated L t key mapped p).Linked b ↔ b = t.fresh ∨ t.Linked b ∧ b ≠ a := by
  have halloc : Sound L D (newDataNode L t key mapped).2 := h.alloc
  have hswap := halloc.linked_swap hslot (.data t.fresh) b
  rw [Slot.data.injEq, eq_comm] at hswap
  exact hswap

theorem update_returns (h : Sound L D t) (tid : Nat)
    (hslot : t.slots (L.keyPath key (n + 1)) = .data a) (mapped : T) :
    Returns L tid t (.mutate (.update key mapped))
      (updated L t key mapped (L.keyPath key (n + 1))) (.bool true) := by
  obtain ⟨currArr, hleads⟩ := leads_attempt (m := .update key mapped) h tid
    (h.endsAt_of_data hslot)
  have hswap := hleads.step
  simp only [Mutation.key, hslot, soloStep_eq, step, attempt] at hswap
  rw [if_pos (by decide), if_pos trivial] at hswap
  exact hswap.step

theorem remove_returns (h : Sound L D t) (tid : Nat)
    (hslot : t.slots (L.keyPath key (n + 1)) = .data a) :
    Returns L tid t (.mutate (.remove key)) (setSlot t (L.keyPath key (n + 1)) .null)
      (.bool false) := by
  obtain ⟨currArr, hleads⟩ := leads_attempt (m := .remove key) h tid (h.endsAt_of_data hslot)
  have hswap := hleads.step
  simp only [Mutation.key, hslot, soloStep_eq, step, attempt] at hswap
  rw [if_pos (by decide), if_pos trivial] at hswap
  exact hswap.step

theorem insert_duplicate (h : Sound L D t) (tid : Nat) (ha : t.Holds L key a) (mapped : T) :
    Returns L tid t (.mutate (.insert key mapped)) t (.bool false) := by
  obtain ⟨n, hend⟩ := h.exists_endsAt key
  obtain ⟨hslot, hhash⟩ := (h.holds_iff hend).mp ha
  obtain ⟨currArr, hleads⟩ := leads_attempt (m := .insert key mapped) h tid hend
  have hfound := hleads.step
  simp only [Mutation.key, hslot, soloStep_eq, step, attempt] at hfound
  rw [if_pos (by decide), if_pos hhash] at hfound
  exact hfound.step

end Walk

end HashComp.Concurrent
