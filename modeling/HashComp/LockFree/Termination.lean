import HashComp.LockFree.Frame

namespace HashComp.LockFree

open HashComp.Epoch
open HashComp.HashTrie
open HashComp.LevelHash
open HashComp.Operations
open HashComp.Runs
open HashComp.SlotTrie
open HashComp.Threads

section Termination

variable {K T : Type*} {L : Layout K} {D tid : Nat} {t t' t₀ t₁ : Table K T} {key : K}
  {mapped : T} {a old prior : Nat} {m : Mutation K T} {op : Op K T}

def Inserting (op : Op K T) (t : Table K T) : Local K T → Prop
  | .level m _ _ => op = .mutate m
  | .attempt m _ _ pos _ p => op = .mutate m ∧ pos = t.slots p
  | .done op' _ => op' = op
  | _ => False

def levelsLeft (D : Nat) : Local K T → Nat
  | .level _ n _ => 2 * (D + 1 - n) + 1
  | .attempt _ n _ _ _ _ => 2 * (D + 1 - n)
  | _ => 0

theorem Inserting.step (hadm : L.Admissible D) (hD : D < maxLevel) {l : Local K T}
    (h : Inv L D t (alone tid l)) (hl : Inserting (.mutate (.insert key mapped)) t l)
    (hdone : ∀ r, l ≠ .done (.mutate (.insert key mapped)) r) :
    Inserting (.mutate (.insert key mapped)) (step L tid t l).1 (step L tid t l).2 ∧
      levelsLeft D (step L tid t l).2 < levelsLeft D l := by
  have hok := h.locals tid l (alone_self tid l)
  have hdepth {n : Nat} (harr : t.slots (L.keyPath key n) = .array) : n ≤ D := by
    simpa using h.sound.shallow _ harr
  have htr := h.transition hadm hD (alone_self tid l)
  revert htr
  generalize (LockFree.step L tid t l).1 = t', (LockFree.step L tid t l).2 = l'
  intro htr
  cases htr with
  | @load m n currArr harr =>
      cases hl
      exact ⟨⟨rfl, rfl⟩, Nat.lt_succ_self _⟩
  | @split k mapped' n fail old currArr harr hne hcas =>
      cases hl.1
      have hn := hdepth harr
      refine ⟨rfl, ?_⟩
      simp only [levelsLeft]
      omega
  | @descend m n fail currArr harr =>
      cases hl.1
      have hn := hdepth hok.1
      refine ⟨rfl, ?_⟩
      simp only [levelsLeft]
      omega
  | link harr hcas =>
      cases hl.1
      have hn := hdepth harr
      refine ⟨rfl, ?_⟩
      simp only [levelsLeft]
      omega
  | duplicate hsame =>
      cases hl.1
      have hn := hdepth hok.1
      refine ⟨rfl, ?_⟩
      simp only [levelsLeft]
      omega
  | insertLost harr hcas => exact absurd hl.2.symm hcas
  | lost harr hcas => exact absurd hl.2.symm hcas
  | replaceLost harr hcas => exact absurd hl.2.symm hcas
  | absent hm =>
      cases hl.1
      exact absurd rfl (hm key mapped)
  | replace | unlink => cases hl.1
  | @rest op' r =>
      cases hl
      exact absurd rfl (hdone r)
  | _ => exact hl.elim

theorem insert_returns (hadm : L.Admissible D) (hD : D < maxLevel)
    (h : Inv L D t fun _ => none) (tid : Nat) (key : K) (mapped : T) :
    ∃ t' r, Returns L tid t (.mutate (.insert key mapped)) t' r := by
  obtain ⟨x, hx, -, r, hr⟩ := exists_done (f := (program L).soloStep tid)
    (s := (t, begin (.mutate (.insert key mapped))))
    (fun x => Inv L D x.1 (alone tid x.2) ∧ Inserting (.mutate (.insert key mapped)) x.1 x.2)
    (fun x => ∃ r, x.2 = .done (.mutate (.insert key mapped)) r)
    (fun x => levelsLeft D x.2) (by
      rintro x ⟨hinv, hins⟩ hdone
      have hstep := hins.step hadm hD hinv fun r hr => hdone ⟨r, hr⟩
      refine ⟨⟨?_, hstep.1⟩, hstep.2⟩
      have hnext := hinv.step hadm hD (alone_self tid x.2)
      rwa [alone, Function.update_idem] at hnext)
    ⟨h.call tid (.mutate (.insert key mapped)), rfl⟩
  exact ⟨x.1, r, Program.returns_of_leads hx hr⟩

theorem leads_register (L : Layout K) (tid : Nat) (m : Mutation K T) {j : Nat}
    (hj : j < kDrainListSize)
    (hnone : ∀ k < j, t.epoch.tryRegister k prior old = none) :
    Leads ((program L).soloStep tid) (t, .register m old prior 0) (t, .register m old prior j) := by
  induction j with
  | zero => exact Leads.refl _
  | succ j ih =>
      have hstep := (ih (by omega) fun k hk => hnone k (by omega)).step
      have hnext : nextIndex j = j + 1 := by
        unfold nextIndex
        rw [if_neg (by omega)]
      simpa only [soloStep_eq, step, hnone j (Nat.lt_succ_self j), hnext] using hstep

theorem register_returns (L : Layout K) (tid : Nat) (m : Mutation K T)
    (hlen : t.epoch.drainList.length = kDrainListSize)
    (hex : ∃ j, t.epoch.tryRegister j prior old ≠ none) :
    ∃ j r, t.epoch.tryRegister j prior old = some r ∧
      Leads ((program L).soloStep tid) (t, .register m old prior 0)
        (deleteCallbacks tid { t with epoch := r.1 } r.2, .done (.mutate m) (.bool true)) := by
  classical
  obtain ⟨j, hfirst, hmin⟩ : ∃ j, t.epoch.tryRegister j prior old ≠ none ∧
      ∀ k < j, t.epoch.tryRegister k prior old = none :=
    ⟨Nat.find hex, Nat.find_spec hex, fun k hk => not_not.mp (Nat.find_min hex hk)⟩
  have hlt : j < kDrainListSize := by
    by_contra hge
    apply hfirst
    unfold LightEpoch.tryRegister
    rw [List.getElem?_eq_none (by omega)]
  obtain ⟨r, hr⟩ := Option.ne_none_iff_exists'.mp hfirst
  have hleads := leads_register L tid m hlt hmin
  refine ⟨_, r, hr, ?_⟩
  have hstep := hleads.step
  simpa only [soloStep_eq, step, hr] using hstep

theorem register_hangs (hnone : ∀ j, t.epoch.tryRegister j prior old = none)
    {x : Table K T × Local K T}
    (hx : Leads ((program L).soloStep tid) (t, .register m old prior 0) x) :
    ∃ i, x = (t, .register m old prior i) := by
  refine hx.invariant (I := fun x => ∃ i, x = (t, .register m old prior i)) ⟨0, rfl⟩ ?_
  rintro x ⟨i, rfl⟩
  refine ⟨nextIndex i, ?_⟩
  simp only [soloStep_eq, step, hnone i]

theorem reached_lone (hadm : L.Admissible D) (hD : D < maxLevel)
    {expectedThreadCount expectedDataNum : Nat} {garbage : Nat → DataBlock K T}
    (h : Reached L tid (new expectedThreadCount expectedDataNum garbage) t) (u : Nat)
    (hu : u ≠ tid) : (t.epoch.table u).localCurrentEpoch = 0 := by
  induction h with
  | start => rfl
  | @call t t' op r hreach hret ih =>
      have hend := hret.invariant (I := fun x : Table K T × Local K T =>
        Inv L D x.1 (alone tid x.2) ∧ (x.1.epoch.table u).localCurrentEpoch = 0)
        ⟨(reached_sound hadm hD hreach).call tid op, ih⟩ (by
          rintro x ⟨hinv, hzero⟩
          have htr := hinv.transition hadm hD (alone_self tid x.2)
          have hnext := hinv.step hadm hD (alone_self tid x.2)
          rw [alone, Function.update_idem] at hnext
          refine ⟨hnext, ?_⟩
          rw [soloStep_eq, htr.epoch_frame.2 u hu]
          exact hzero)
      exact hend.2

theorem bump_returns (L : Layout K) (tid : Nat) (m : Mutation K T) (h : t.epoch.Consistent)
    (hex : ∃ j, t.epoch.bumpCurrentEpoch.1.tryRegister j t.epoch.currentEpoch old ≠ none) :
    ∃ t' j r, t.epoch.bumpCurrentEpoch.1.tryRegister j t.epoch.currentEpoch old = some r ∧
      t'.epoch = r.1 ∧
      Leads ((program L).soloStep tid) (t, .bump m old) (t', .done (.mutate m) (.bool true)) := by
  let t₂ := deleteCallbacks tid { t with epoch := t.epoch.bumpCurrentEpoch.1 }
    t.epoch.bumpCurrentEpoch.2
  have hepoch : t₂.epoch = t.epoch.bumpCurrentEpoch.1 := deleteCallbacks_epoch _
  have hstep : Leads ((program L).soloStep tid) (t, .bump m old) _ := (Leads.refl _).step
  simp only [soloStep_eq, step, bumpCurrentEpoch_currentEpoch, Nat.add_sub_cancel] at hstep
  rw [← hepoch] at hex ⊢
  obtain ⟨j, r, hr, hdone⟩ := register_returns L tid (t := t₂) m (hepoch ▸ h.bump.length) hex
  exact ⟨_, j, r, hr, deleteCallbacks_epoch _, hstep.trans hdone⟩

/-- A call that has unlinked a node returns unless its own thread blocks the
drain list. -/
theorem bump_returns_iff (L : Layout K) (m : Mutation K T) (old : Nat) (h : t.epoch.Consistent)
    (hlone : ∀ u, u ≠ tid → (t.epoch.table u).localCurrentEpoch = 0) :
    (∃ t' r, Leads ((program L).soloStep tid) (t, .bump m old) (t', .done (.mutate m) r)) ↔
      ¬ t.epoch.Blocked tid := by
  rw [← h.blocked_iff hlone t.epoch.currentEpoch old]
  let t₂ := deleteCallbacks tid { t with epoch := t.epoch.bumpCurrentEpoch.1 }
    t.epoch.bumpCurrentEpoch.2
  have hepoch : t₂.epoch = t.epoch.bumpCurrentEpoch.1 := deleteCallbacks_epoch _
  have hstep : Leads ((program L).soloStep tid) (t, .bump m old) _ := (Leads.refl _).step
  simp only [soloStep_eq, step, bumpCurrentEpoch_currentEpoch, Nat.add_sub_cancel] at hstep
  constructor
  · rintro ⟨t', r, hdone⟩ hnone
    rw [← hepoch] at hnone
    obtain ⟨i, hi⟩ := register_hangs hnone (hstep.to_rest hdone rfl)
    cases hi
  · intro hex
    obtain ⟨t', j, r, -, -, hdone⟩ := bump_returns L tid m h (not_forall.mp hex)
    exact ⟨t', _, hdone⟩

/-- The call unlinks a node while its own thread blocks the drain list. -/
def Hangs (L : Layout K) (tid : Nat) (t : Table K T) (op : Op K T) : Prop :=
  ∃ m n a, op = .mutate m ∧ (∀ key mapped, m ≠ .insert key mapped) ∧
    t.slots (L.keyPath m.key (n + 1)) = .data a ∧ t.epoch.Blocked tid

theorem swap_returns_iff (hadm : L.Admissible D) (hD : D < maxLevel)
    (h : Inv L D t fun _ => none)
    (hlone : ∀ u, u ≠ tid → (t.epoch.table u).localCurrentEpoch = 0)
    (hm : ∀ key mapped, m ≠ .insert key mapped) {n : Nat}
    (hslot : t.slots (L.keyPath m.key (n + 1)) = .data a) :
    (∃ t' r, Returns L tid t (.mutate m) t' r) ↔ ¬ t.epoch.Blocked tid := by
  obtain ⟨t₁, s, hleads, -, -, -, hepoch, -⟩ := leads_bump hadm hD h.sound tid hm hslot
  rw [← hepoch, ← bump_returns_iff L m a (hepoch ▸ h.sound.epoch)
    (hepoch ▸ hlone)]
  constructor
  · rintro ⟨t', r, hret⟩
    exact ⟨t', r, hleads.to_rest hret rfl⟩
  · rintro ⟨t', r, hdone⟩
    exact ⟨t', r, hleads.trans hdone⟩

/-- In every state of a single-threaded run a call returns or throws exactly
when it does not unlink a node while its own thread blocks the drain list. -/
theorem returns_iff (hfits : Fits L) {expectedThreadCount expectedDataNum : Nat}
    {garbage : Nat → DataBlock K T}
    (hreach : Reached L tid (new expectedThreadCount expectedDataNum garbage) t)
    (op : Op K T) : (∃ t' r, Returns L tid t op t' r) ↔ ¬ Hangs L tid t op := by
  obtain ⟨D, hD, hadm⟩ := hfits
  have h := reached_sound hadm hD hreach
  have hlone := reached_lone hadm hD hreach
  cases op with
  | get key =>
      refine iff_of_true (get_correct hadm hD h.sound tid key).1 ?_
      rintro ⟨m, n, a, ⟨⟩, -⟩
  | mutate m =>
      by_cases hins : ∃ key mapped, m = .insert key mapped
      · obtain ⟨key, mapped, rfl⟩ := hins
        refine iff_of_true (insert_returns hadm hD h tid key mapped) ?_
        rintro ⟨m, n, a, ⟨⟩, hm, -⟩
        exact hm key mapped rfl
      · have hm : ∀ key mapped, m ≠ .insert key mapped :=
          fun key mapped heq => hins ⟨key, mapped, heq⟩
        obtain ⟨n, hend⟩ := h.sound.exists_endsAt m.key
        cases hslot : t.slots (L.keyPath m.key (n + 1)) with
        | null =>
            refine iff_of_true ⟨_, _, returns_of_null hadm hD h.sound.shallow tid hm hend hslot⟩ ?_
            rintro ⟨m', n', a, ⟨⟩, -, hslot', -⟩
            rw [hend.unique (h.sound.endsAt_of_data hslot'), hslot'] at hslot
            cases hslot
        | array => exact absurd hslot hend.stop
        | data a =>
            rw [swap_returns_iff hadm hD h hlone hm hslot]
            refine not_congr ⟨fun hblocked => ⟨m, n, a, rfl, hm, hslot, hblocked⟩, ?_⟩
            rintro ⟨m', n', a', ⟨⟩, -, -, hblocked⟩
            exact hblocked

theorem returns_iff_splitTable :
    (∃ t' r, Returns identityLayout 1 splitTable (.mutate (.update 0x11 9)) t' r) ↔
      ¬ Hangs identityLayout 1 splitTable (.mutate (.update 0x11 9)) :=
  returns_iff (fits_of_default rfl (Or.inl rfl)) splitTable_reached _

/-- The thread is protected, its key sits below the root array and `k` drain
entries wait for an epoch after its own. -/
structure Pinned (L : Layout K) (tid : Nat) (key : K) (t : Table K T) (k : Nat) : Prop where
  stored : ∃ a, t.slots (L.keyPath key 1) = .data a
  scanned : t.epoch.Scanned tid
  protects : (t.epoch.table tid).localCurrentEpoch ≠ 0
  waiting : (pendings t.epoch.drainList).length = k
  recent : ∀ x ∈ pendings t.epoch.drainList, (t.epoch.table tid).localCurrentEpoch ≤ x.1

/-- A protected thread that updates a key it can reach fills a drain entry that
nothing ever empties. -/
theorem Pinned.update (hadm : L.Admissible D) (hD : D < maxLevel)
    {expectedThreadCount expectedDataNum : Nat} {garbage : Nat → DataBlock K T}
    (hreach : Reached L tid (new expectedThreadCount expectedDataNum garbage) t) {k : Nat}
    (hpin : Pinned L tid key t k) (hk : k < kDrainListSize) (mapped : T) :
    ∃ t', Reached L tid (new expectedThreadCount expectedDataNum garbage) t' ∧
      Pinned L tid key t' (k + 1) := by
  have h := reached_sound hadm hD hreach
  obtain ⟨a, hslot⟩ := hpin.stored
  obtain ⟨t₁, s, hleads, hslots, -, -, hepoch, hdata⟩ := leads_bump (m := .update key mapped)
    hadm hD h.sound tid (by simp) hslot
  obtain ⟨b, rfl⟩ := hdata ⟨key, mapped, rfl⟩
  have hcons := h.sound.epoch
  have hex : ∃ j, t₁.epoch.bumpCurrentEpoch.1.tryRegister j t₁.epoch.currentEpoch a ≠ none := by
    rw [hepoch, ← not_forall, tryRegister_all_none_iff, ← pendings_length_eq_iff,
      hcons.bump.length, hcons.bump_pendings.1]
    rintro ⟨hlen, -⟩
    have := List.length_filter_le
      (fun x : Nat × Nat => decide (t.epoch.bumpCurrentEpoch.1.safeToReclaimEpoch < x.1))
      (pendings t.epoch.drainList)
    have := hpin.waiting
    omega
  obtain ⟨t', j, r, hr, hr', hdone⟩ := bump_returns L tid
    (.update key mapped) (hepoch ▸ hcons) hex
  have hret : Returns L tid t (.mutate (.update key mapped)) t' (.bool true) :=
    hleads.trans hdone
  rw [hepoch] at hr
  obtain ⟨htable, hnum, hperm⟩ := hcons.register_protected hpin.scanned hpin.protects
    hpin.recent hr
  refine ⟨t', hreach.call hret, ?_, ?_, ?_, ?_, ?_⟩
  · refine ⟨b, ?_⟩
    rw [(hret.settled hleads).1, hslots]
    exact Function.update_self ..
  · rw [hr', LightEpoch.Scanned, hnum]
    exact hpin.scanned
  · rw [hr', htable]
    exact hpin.protects
  · rw [hr', hperm.length_eq, List.length_cons, hpin.waiting]
  · rw [hr', htable]
    intro x hx
    rcases List.mem_cons.mp (hperm.subset hx) with rfl | hmem
    · exact hcons.local_le tid
    · exact hpin.recent x hmem

theorem Pinned.blocked (hcons : t.epoch.Consistent)
    (hpin : Pinned L tid key t kDrainListSize) : t.epoch.Blocked tid where
  scanned := hpin.scanned
  protects := hpin.protects
  full := by rw [← pendings_length_eq_iff, hpin.waiting, hcons.length]
  recent := hpin.recent

theorem pinned_of_updates (hadm : L.Admissible D) (hD : D < maxLevel)
    {expectedThreadCount expectedDataNum : Nat} {garbage : Nat → DataBlock K T}
    (hreach : Reached L tid (new expectedThreadCount expectedDataNum garbage) t)
    (hpin : Pinned L tid key t 0) (mapped : T) {k : Nat} (hk : k ≤ kDrainListSize) :
    ∃ t', Reached L tid (new expectedThreadCount expectedDataNum garbage) t' ∧
      Pinned L tid key t' k := by
  induction k with
  | zero => exact ⟨t, hreach, hpin⟩
  | succ k ih =>
      obtain ⟨t', hreach', hpin'⟩ := ih (by omega)
      exact hpin'.update hadm hD hreach' (by omega) mapped

/-- Every call of every single-threaded run returns or throws. -/
def CallsReturn (L : Layout K) (tid : Nat) (t₀ : Table K T) : Prop :=
  ∀ t, Reached L tid t₀ t → ∀ op, ∃ t' r, Returns L tid t op t' r

/-- A missed `Get` leaves its thread protected, so after 256 updates of one key
the next update finds the drain list full and never returns. -/
theorem callsReturn_false : ¬ CallsReturn identityLayout 1 emptyTable := by
  intro hcalls
  obtain ⟨D, hD, hadm⟩ := fits_of_default (L := identityLayout) rfl (Or.inl rfl)
  let t := afterSteps identityLayout 1 4 (.get 0x22)
    (afterSteps identityLayout 1 2 (.mutate (.insert 0x11 7)) emptyTable)
  have hreach : Reached identityLayout 1 emptyTable t :=
    .call (.call .start (Program.returns_of_steps (r := .bool true) rfl))
      (Program.returns_of_steps (r := .outOfRange) rfl)
  have hidle : pendings t.epoch.drainList = [] := pendings_replicate_free kDrainListSize
  have hpin : Pinned identityLayout 1 0x11 t 0 := by
    refine ⟨⟨0, by decide⟩, ⟨by decide, by decide⟩, by decide, ?_, ?_⟩
    · rw [hidle]
      rfl
    · simp [hidle]
  obtain ⟨t', hreach', hpin'⟩ := pinned_of_updates hadm hD hreach hpin 8 (Nat.le_refl _)
  obtain ⟨a, hslot⟩ := hpin'.stored
  have h := reached_sound hadm hD hreach'
  have hiff := swap_returns_iff (m := .update 0x11 8) (n := 0) hadm hD h
    (reached_lone hadm hD hreach') (by simp) hslot
  exact hiff.mp (hcalls t' hreach' _) (hpin'.blocked h.sound.epoch)

end Termination

end HashComp.LockFree
