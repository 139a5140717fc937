import HashComp.LockFree.Sequential

namespace HashComp.LockFree

open HashComp.Epoch
open HashComp.HashTrie
open HashComp.LevelHash
open HashComp.Operations
open HashComp.Runs
open HashComp.SlotTrie
open HashComp.Threads

section Frame

variable {K T : Type*} {L : Layout K} {D tid : Nat} {t t₀ t₁ : Table K T} {key key' : K}
  {a : Nat} {m : Mutation K T}

def FramesOthers (L : Layout K) (tid : Nat) (t : Table K T) (m : Mutation K T) : Prop :=
  ∀ t' r, Returns L tid t (.mutate m) t' r → ∀ key', key' ≠ m.key →
    ∀ r', (∃ u, Returns L tid t' (.get key') u r') ↔ ∃ u, Returns L tid t (.get key') u r'

def RefusesAbsent (L : Layout K) (tid : Nat) (t : Table K T) (m : Mutation K T) : Prop :=
  t.Absent m.key → ∃ t', Returns L tid t (.mutate m) t' (.bool false) ∧ t'.slots = t.slots

def TouchesOnlyOwnKey (L : Layout K) (tid : Nat) (t : Table K T) (m : Mutation K T) : Prop :=
  FramesOthers L tid t m ∧ RefusesAbsent L tid t m

theorem get_iff_spec (hadm : L.Admissible D) (hD : D < maxLevel) {hand : Nat → List Nat}
    (h : Sound L D t hand) (tid : Nat) (key : K) (r : Result K T) :
    (∃ u, Returns L tid t (.get key) u r) ↔ t.GetSpec L key r := by
  obtain ⟨⟨u, r₀, hret⟩, hspec⟩ := get_correct hadm hD h tid key
  constructor
  · rintro ⟨u, hu⟩
    exact hspec u r hu
  · intro hr
    rw [hr.unique h.valid (hspec u r₀ hret)]
    exact ⟨u, hret⟩

def Local.Settled : Local K T → Prop
  | .bump _ _ | .register _ _ _ _ | .done _ (.bool true) => True
  | _ => False

theorem Local.Settled.step {l : Local K T} (h : l.Settled) (L : Layout K) (tid : Nat)
    (t : Table K T) :
    (step L tid t l).1.slots = t.slots ∧ (step L tid t l).1.heap = t.heap ∧
      (step L tid t l).2.Settled := by
  cases l with
  | bump m old => exact ⟨deleteCallbacks_slots _, deleteCallbacks_heap _, trivial⟩
  | register m old prior i =>
      simp only [LockFree.step]
      split
      · exact ⟨deleteCallbacks_slots _, deleteCallbacks_heap _, trivial⟩
      · exact ⟨rfl, rfl, trivial⟩
  | done op r => exact ⟨rfl, rfl, h⟩
  | _ => exact h.elim

theorem Local.Settled.leads {x y : Table K T × Local K T} (h : x.2.Settled)
    (hy : Leads ((program L).soloStep tid) x y) :
    y.1.slots = x.1.slots ∧ y.1.heap = x.1.heap ∧ y.2.Settled := by
  refine hy.invariant (I := fun y : Table K T × Local K T =>
    y.1.slots = x.1.slots ∧ y.1.heap = x.1.heap ∧ y.2.Settled) ⟨rfl, rfl, h⟩ ?_
  rintro y ⟨hslots, hheap, hsettled⟩
  obtain ⟨hslots', hheap', hsettled'⟩ := hsettled.step L tid y.1
  exact ⟨hslots'.trans hslots, hheap'.trans hheap, hsettled'⟩

theorem leads_bump (hadm : L.Admissible D) (hD : D < maxLevel) {hand : Nat → List Nat}
    (h : Sound L D t hand) (tid : Nat) (hm : ∀ key mapped, m ≠ .insert key mapped)
    {n : Nat} (hslot : t.slots (L.keyPath m.key (n + 1)) = .data a) :
    ∃ t₁ s, Leads ((program L).soloStep tid) (t, begin (.mutate m)) (t₁, .bump m a) ∧
      t₁.slots = Function.update t.slots (L.keyPath m.key (n + 1)) s ∧
      (∀ b, s = .data b → (t₁.heap b).hash = L.hasher m.key) ∧
      (∀ q b, t.slots q = .data b → t₁.heap b = t.heap b) ∧ t₁.epoch = t.epoch ∧
      ((∃ key mapped, m = .update key mapped) → ∃ b, s = .data b) := by
  obtain ⟨currArr, hleads⟩ := leads_attempt hadm hD h.shallow tid (h.endsAt_of_data hslot)
  have hswap := hleads.step
  rw [hslot] at hswap
  cases m with
  | insert key mapped => exact absurd rfl (hm key mapped)
  | update key mapped =>
      simp only [soloStep_eq, step, attempt] at hswap
      rw [if_pos hslot] at hswap
      refine ⟨_, .data (newDataNode L tid t key mapped).1, hswap, ?_, ?_, ?_,
        newDataNode_epoch, fun _ => ⟨_, rfl⟩⟩
      · rw [setSlot_slots, newDataNode_slots]
      · rintro b ⟨⟩
        change ((newDataNode L tid t key mapped).2.heap _).hash = _
        rw [newDataNode_heap_self]
        rfl
      · exact fun q b hb => h.alloc_heap hb
  | remove key =>
      simp only [soloStep_eq, step, attempt] at hswap
      rw [if_pos hslot] at hswap
      exact ⟨_, .null, hswap, rfl, by simp, fun _ _ _ => rfl, rfl, by simp⟩

theorem Returns.settled {u : Table K T} {r : Result K T}
    (hleads : Leads ((program L).soloStep tid) (t, begin (.mutate m)) (t₁, .bump m a))
    (h : Returns L tid t (.mutate m) u r) :
    u.slots = t₁.slots ∧ u.heap = t₁.heap ∧ r = .bool true := by
  have hrest := hleads.to_rest h rfl
  obtain ⟨hslots, hheap, hsettled⟩ := Local.Settled.leads (x := (t₁, .bump m a)) trivial hrest
  refine ⟨hslots, hheap, ?_⟩
  cases r with
  | bool b =>
      cases b with
      | true => rfl
      | false => exact hsettled.elim
  | pair | outOfRange => exact hsettled.elim

/-- The walk of an update or a removal ends at a null slot: the call refuses. -/
theorem returns_of_null (hadm : L.Admissible D) (hD : D < maxLevel)
    (hsh : Shallow D t.slots) (tid : Nat) (hm : ∀ key mapped, m ≠ .insert key mapped)
    {n : Nat} (hend : EndsAt L t.slots m.key n)
    (hnull : t.slots (L.keyPath m.key (n + 1)) = .null) :
    Returns L tid t (.mutate m) { t with epoch := t.epoch.reentrantProtect tid }
      (.bool false) := by
  obtain ⟨currArr, hleads⟩ := leads_attempt hadm hD hsh tid hend
  rw [hnull] at hleads
  have hmiss := hleads.step.step
  cases m with
  | insert key mapped => exact absurd rfl (hm key mapped)
  | update | remove => exact hmiss

theorem refusesAbsent_iff (hadm : L.Admissible D) (hD : D < maxLevel)
    (h : Inv L D t fun _ => none) (hinj : Function.Injective L.hasher) (tid : Nat)
    (hm : ∀ key mapped, m ≠ .insert key mapped) :
    RefusesAbsent L tid t m ↔ ¬ t.ReachesForeign L m.key := by
  constructor
  · rintro hrefuses ⟨n, a, hslot, hne⟩
    have hend := h.sound.endsAt_of_data hslot
    have habs : t.Absent m.key := by
      rw [h.sound.absent_iff hinj]
      intro b hb
      obtain ⟨hb, hbhash⟩ := (h.sound.holds_iff hend).mp hb
      rw [hslot] at hb
      rw [Slot.data.inj hb] at hne
      exact hne hbhash
    obtain ⟨u, hret, -⟩ := hrefuses habs
    obtain ⟨t₁, s, hleads, -⟩ := leads_bump hadm hD h.sound tid hm hslot
    have := (hret.settled hleads).2.2
    simp at this
  · intro hown habs
    rw [h.sound.absent_iff hinj] at habs
    obtain ⟨n, hend⟩ := h.sound.exists_endsAt m.key
    cases hslot : t.slots (L.keyPath m.key (n + 1)) with
    | null => exact ⟨_, returns_of_null hadm hD h.sound.shallow tid hm hend hslot, rfl⟩
    | array => exact absurd hslot hend.stop
    | data a =>
        by_cases hhash : (t.heap a).hash = L.hasher m.key
        · exact absurd ⟨⟨_, hslot⟩, hhash⟩ (habs a)
        · exact absurd ⟨n, a, hslot, hhash⟩ hown

theorem framesOthers_of_own (hadm : L.Admissible D) (hD : D < maxLevel)
    (hreach : Reached L tid t₀ t) (h₀ : Inv L D t₀ fun _ => none)
    (hinj : Function.Injective L.hasher) (hm : ∀ key mapped, m ≠ .insert key mapped)
    (hown : ¬ t.ReachesForeign L m.key) : FramesOthers L tid t m := by
  intro u r hret key' hne r'
  have h := inv_of_reached hadm hD h₀ hreach
  have hu := inv_of_reached hadm hD h₀ (hreach.call hret)
  rw [get_iff_spec hadm hD hu.sound, get_iff_spec hadm hD h.sound]
  obtain ⟨n, hend⟩ := h.sound.exists_endsAt m.key
  cases hslot : t.slots (L.keyPath m.key (n + 1)) with
  | null =>
      have hmiss := returns_of_null hadm hD h.sound.shallow tid hm hend hslot
      rw [(hret.unique hmiss).1]
  | array => exact absurd hslot hend.stop
  | data a =>
      have hhash : (t.heap a).hash = L.hasher m.key := by
        by_contra hforeign
        exact hown ⟨n, a, hslot, hforeign⟩
      obtain ⟨t₁, s, hleads, hslots, hs, hheap, -⟩ := leads_bump hadm hD h.sound tid hm hslot
      obtain ⟨huslots, huheap, -⟩ := hret.settled hleads
      refine Trie.GetSpec.congr ?_ ?_ r'
      · refine Trie.holds_update hslot hhash (huslots.trans hslots) ?_ ?_ (hinj.ne hne)
        · rw [huheap]
          exact hs
        · rw [huheap]
          exact hheap
      · rintro b ⟨⟨q, hq⟩, -⟩
        rw [huheap]
        exact hheap q b hq

/-- Every update and removal touches its own key only. -/
def UpdateFrame (L : Layout K) (tid : Nat) (t₀ : Table K T) : Prop :=
  ∀ t, Reached L tid t₀ t → ∀ m : Mutation K T, (∀ key mapped, m ≠ .insert key mapped) →
    TouchesOnlyOwnKey L tid t m

/-- An update or a removal touches only its own key exactly when the slot where
its walk ends holds no node with another hash. -/
theorem touchesOnlyOwnKey_iff (hfits : Fits L) (hinj : Function.Injective L.hasher)
    {expectedThreadCount expectedDataNum : Nat} {garbage : Nat → DataBlock K T}
    (hreach : Reached L tid (new expectedThreadCount expectedDataNum garbage) t)
    (hm : ∀ key mapped, m ≠ .insert key mapped) :
    TouchesOnlyOwnKey L tid t m ↔ ¬ t.ReachesForeign L m.key := by
  obtain ⟨D, hD, hadm⟩ := hfits
  have h := reached_sound hadm hD hreach
  constructor
  · exact fun htouch => (refusesAbsent_iff hadm hD h hinj tid hm).mp htouch.2
  · intro hown
    exact ⟨framesOthers_of_own hadm hD hreach (inv_new _ _ _) hinj hm hown,
      (refusesAbsent_iff hadm hD h hinj tid hm).mpr hown⟩

/-- The keys 0x11 and 0x21 are in the table, and the walk of 0x111 ends at the node of 0x11. -/
theorem touchesOnlyOwnKey_splitTable :
    TouchesOnlyOwnKey identityLayout 1 splitTable (.remove 0x11) ∧
      ¬ TouchesOnlyOwnKey identityLayout 1 splitTable (.remove 0x111) := by
  have hfits : Fits identityLayout := fits_of_default rfl (Or.inl rfl)
  constructor
  · refine (touchesOnlyOwnKey_iff hfits (fun _ _ h => h) splitTable_reached (by simp)).mpr ?_
    obtain ⟨D, hD, hadm⟩ := hfits
    exact (reached_sound hadm hD splitTable_reached).sound.valid.not_reachesForeign (n := 1)
      (a := 0) (by decide) (by decide)
  · intro htouches
    refine (touchesOnlyOwnKey_iff hfits (fun _ _ h => h) splitTable_reached (by simp)).mp htouches ?_
    exact ⟨1, 0, by decide, by decide⟩

/-- The key 0x21 is absent, but its update replaces the node of the key 0x11,
which is reached through the same root slot, and returns true. -/
theorem updateFrame_false : ¬ UpdateFrame identityLayout 1 emptyTable := by
  intro hframe
  let t := afterSteps identityLayout 1 2 (.mutate (.insert 0x11 7)) emptyTable
  have hreach : Reached identityLayout 1 emptyTable t :=
    .call .start (Program.returns_of_steps (r := .bool true) rfl)
  obtain ⟨-, hrefuses⟩ := hframe t hreach (.update 0x21 8) (by simp)
  obtain ⟨D, hD, hadm⟩ := fits_of_default (L := identityLayout) rfl (Or.inl rfl)
  have hsound := (reached_sound hadm hD hreach).sound
  have hthrows : Returns identityLayout 1 t (.get 0x21) _ .outOfRange :=
    Program.returns_of_steps (n := 4) rfl
  have habs : t.Absent 0x21 :=
    (hsound.absent_iff fun _ _ h => h).mpr ((get_correct hadm hD hsound 1 0x21).2 _ _ hthrows)
  obtain ⟨u, hu, -⟩ := hrefuses habs
  have htrue : Returns identityLayout 1 t (.mutate (.update 0x21 8)) _ (.bool true) :=
    Program.returns_of_steps (n := 5) rfl
  have := (hu.unique htrue).2
  simp at this

end Frame

end HashComp.LockFree
