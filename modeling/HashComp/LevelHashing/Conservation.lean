import HashComp.LevelHashing.Expansion

namespace HashComp.LevelHashing

open HashComp.Runs
open HashComp.Threads
open HashComp.Slots

section Taken

variable {K V : Type*} {H : Hashing K} {s s' : State K V} {t t' u : Table K V}
  {l l' : Local K V} {x : Slot} {tid : Nat}

def Inserts : Op K V → Prop
  | .insert _ _ => True
  | _ => False

def Taken (s : State K V) (x : Slot) : Prop :=
  (s.shared.cells x).token = true ∨
    ∃ tid key value m i, s.threads tid = some (.fill key value m i) ∧ m.source i = x

def Local.Passed (H : Hashing K) (t : Table K V) : Local K V → Slot → Prop
  | .scan key _ slots, x => t.Addresses H key x ∧ x ∉ slots
  | .scanLocked key _ slot slots, x => t.Addresses H key x ∧ x ∉ slot :: slots
  | .source key _ _ _, x | .target key _ _ _ _ _, x | .targetLocked key _ _ _ _ _ _, x =>
      t.Addresses H key x
  | _, _ => False

theorem Local.Passed.frame (h : SameShape t t') (hx : l.Passed H t' x) : l.Passed H t x := by
  cases l with
  | scan | scanLocked => exact ⟨h.addresses.mp hx.1, hx.2⟩
  | source | target | targetLocked => exact h.addresses.mp hx
  | _ => cases hx

theorem passed_acquire {locked : Local K V} {slot : Slot}
    (h : t.acquire tid slot l locked = (t', l')) (hx : l'.Passed H t x)
    (hlocked : locked.Passed H t x → l.Passed H t x) : l.Passed H t x := by
  rcases acquire_cases t tid slot l locked with heq | heq | ⟨-, heq⟩ <;> cases heq.symm.trans h
  · exact hx
  · cases hx
  · exact hlocked hx

theorem Taken.of_threads (h : Taken s x) {o : Option (Local K V)} (hshared : s'.shared = s.shared)
    (hthreads : s'.threads = Function.update s.threads tid o)
    (hnot : ∀ key value m i, s.threads tid ≠ some (.fill key value m i)) : Taken s' x := by
  rcases h with htoken | ⟨v, key, value, m, i, hv, heq⟩
  · exact Or.inl (by rw [hshared]; exact htoken)
  · refine Or.inr ⟨v, key, value, m, i, ?_, heq⟩
    rw [hthreads, Function.update_of_ne, hv]
    rintro rfl
    exact hnot key value m i hv

variable [DecidableEq K] [Inhabited K] [Inhabited V]

theorem passed_step (hl : l.Located H t) (hstep : step H tid t l = (t', l'))
    (hx : l'.Passed H t x) : l.Passed H t x ∨ (t'.cells x).token = true := by
  cases l with
  | called op =>
      cases op with
      | search q =>
          cases hstep
          cases hx
      | insert key value =>
          cases hstep
          exact absurd (mem_insertOrder_iff.mpr hx.1) hx.2
      | resize => exact absurd rfl hl
  | search q slots =>
      cases slots with
      | nil =>
          cases hstep
          cases hx
      | cons slot slots => exact Or.inl (passed_acquire hstep hx id)
  | searchLocked q slot slots =>
      rw [step] at hstep
      split at hstep <;> cases hstep <;> cases hx
  | scan key value slots =>
      cases slots with
      | nil =>
          cases hstep
          exact Or.inl ⟨hx, List.not_mem_nil⟩
      | cons slot slots => exact Or.inl (passed_acquire hstep hx id)
  | scanLocked key value slot slots =>
      rw [step] at hstep
      split at hstep <;> cases hstep
      · cases hx
      · next htaken =>
          by_cases hslot : x = slot
          · subst hslot
            exact Or.inr (Bool.eq_true_of_not_eq_false htaken)
          · exact Or.inl ⟨hx.1, fun hmem => hx.2 (List.mem_of_ne_of_mem hslot hmem)⟩
  | source key value movements i =>
      cases movements with
      | nil =>
          cases hstep
          cases hx
      | cons m movements =>
          rw [step] at hstep
          split at hstep
          · exact Or.inl (passed_acquire hstep hx id)
          · cases hstep
            exact Or.inl hx
  | target key value m movements i slots =>
      cases slots with
      | nil =>
          cases hstep
          exact Or.inl hx
      | cons slot slots => exact Or.inl (passed_acquire hstep hx id)
  | targetLocked key value m movements i slot slots =>
      rw [step] at hstep
      split at hstep <;> cases hstep
      · cases hx
      · exact Or.inl hx
  | fill key value m i =>
      cases hstep
      cases hx
  | resizing => cases hl
  | done | fault | exited =>
      cases hstep
      cases hx

theorem Taken.run (h : Taken s x) (hl : s.threads tid = some l) (hlocated : l.Located H s.shared)
    (hinserts : ∀ op, l.op = some op → Inserts op)
    (hstep : step H tid s.shared l = (s'.shared, l'))
    (hthreads : s'.threads = Function.update s.threads tid (some l')) : Taken s' x := by
  rcases h with htoken | ⟨v, key, value, m, i, hv, rfl⟩
  · obtain ⟨u, locks, heffect, hshared⟩ := effect_step hlocated hstep
    have hcells : s'.shared.cells = u.cells := by rw [hshared]
    cases heffect with
    | rest => exact Or.inl (by rw [hcells]; exact htoken)
    | found => cases hinserts _ rfl
    | @filled key value slot slots hfree =>
        refine Or.inl ?_
        rw [hcells]
        by_cases hslot : x = slot
        · subst hslot
          rw [cells_put_self]
        · rw [cells_put_of_ne hslot]
          exact htoken
    | @moved key value m movements i slot slots hfree =>
        by_cases hsource : x = m.source i
        · exact Or.inr ⟨tid, key, value, m, i, by rw [hthreads, Function.update_self], hsource.symm⟩
        · have hne : x ≠ slot := by
            rintro rfl
            rw [htoken] at hfree
            cases hfree
          refine Or.inl ?_
          rw [hcells, cells_relocate_of_ne hsource hne]
          exact htoken
    | @freed key value m i =>
        refine Or.inl ?_
        rw [hcells]
        by_cases hslot : x = m.source i
        · subst hslot
          rw [cells_put_self]
        · rw [cells_put_of_ne hslot]
          exact htoken
  · by_cases hvt : v = tid
    · subst v
      rw [hl] at hv
      cases hv
      refine Or.inl ?_
      have hshared : s'.shared = (s.shared.put (m.source i) key value).unlock (m.source i) :=
        (congrArg Prod.fst hstep).symm
      rw [hshared, unlock_cells, cells_put_self]
    · exact Or.inr ⟨v, key, value, m, i, by rw [hthreads, Function.update_of_ne hvt, hv], rfl⟩

end Taken

section Ledger

variable {K V : Type*} {H : Hashing K} {t₀ t t' u : Table K V} {s s' : State K V}
  {a : Action (Op K V)} {l l' : Local K V} {x : Slot} {tid : Nat}

def gain : Op K V × Reply V → Option (K × V)
  | (.insert key value, .code 0) => some (key, value)
  | _ => none

/-- The item of a call that has not been logged yet. -/
def pending (s : State K V) (tid : Nat) : Option (K × V) :=
  (s.threads tid).bind fun l => l.returned.bind gain

def logged (s : State K V) : Multiset (K × V) :=
  (s.log.filterMap fun c => gain (c.op, c.result) : List (K × V))

def Ledger (t₀ : Table K V) (s : State K V) : Prop :=
  ∀ tids : Finset Nat, (∀ tid, s.threads tid ≠ none → tid ∈ tids) →
    s.shared.items = t₀.items + logged s + Slots.items tids (pending s)

theorem pending_update {o : Option (Local K V)}
    (h : s'.threads = Function.update s.threads tid o) :
    pending s' = Function.update (pending s) tid (o.bind fun l => l.returned.bind gain) := by
  funext v
  rw [pending, h]
  by_cases hv : v = tid
  · subst v
    rw [Function.update_self, Function.update_self]
  · rw [Function.update_of_ne hv, Function.update_of_ne hv, pending]

theorem mem_of_covers {tids : Finset Nat} {o : Option (Local K V)}
    (hthreads : s'.threads = Function.update s.threads tid o)
    (hcovers : ∀ v, s'.threads v ≠ none → v ∈ tids) {v : Nat} (hv : s.threads v ≠ none) :
    v ∈ insert tid tids := by
  by_cases hvt : v = tid
  · exact Finset.mem_insert.mpr (Or.inl hvt)
  · refine Finset.mem_insert.mpr (Or.inr (hcovers v ?_))
    rwa [hthreads, Function.update_of_ne hvt]

theorem Ledger.invoke (h : Ledger t₀ s) (op : Op K V) (hidle : s.threads tid = none)
    (hthreads : s'.threads = Function.update s.threads tid (some (.called op)))
    (hshared : s'.shared = s.shared) (hlog : s'.log = s.log) : Ledger t₀ s' := by
  intro tids hcovers
  have hnone : pending s tid = none := by
    rw [pending, hidle]
    rfl
  have hsame : pending s' = pending s := by
    rw [pending_update hthreads]
    exact Function.update_eq_self_iff.mpr hnone.symm
  have htids : insert tid tids = tids := Finset.insert_eq_self.mpr (hcovers tid (by
    rw [hthreads, Function.update_self]
    nofun))
  rw [hshared, hsame, logged, hlog]
  exact h tids fun v hv => htids ▸ mem_of_covers hthreads hcovers hv

theorem Ledger.ret (h : Ledger t₀ s) {op : Op K V} {r : Reply V}
    (hdone : s.threads tid = some (.done op r))
    (hthreads : s'.threads = Function.update s.threads tid none)
    (hshared : s'.shared = s.shared) (hlog : s'.log = s.log ++ [⟨op, r, s.started tid⟩]) :
    Ledger t₀ s' := by
  intro tids hcovers
  have hbefore := h (insert tid tids) fun v hv => mem_of_covers hthreads hcovers hv
  have hpending : pending s tid = gain (op, r) := by
    rw [pending, hdone]
    rfl
  have hnone : pending s' tid = none := by
    rw [pending, hthreads, Function.update_self]
    rfl
  have hlogged : logged s' = logged s + ((gain (op, r)).toList : Multiset (K × V)) := by
    rw [logged, logged, hlog, List.filterMap_append, Multiset.coe_add]
    cases hgain : gain (op, r) with
    | none => simp [hgain]
    | some e => simp [hgain]
  have hupdate : pending s' = Function.update (pending s) tid none := pending_update hthreads
  rw [hshared, hbefore, hlogged, ← items_insert_none hnone, hupdate]
  have htid := Finset.mem_insert_self tid tids
  cases hgain : gain (op, r) with
  | none =>
      rw [hgain] at hpending
      rw [Function.update_eq_self_iff.mpr hpending.symm]
      simp
  | some e =>
      rw [hgain] at hpending
      rw [← items_clear htid hpending, ← Multiset.singleton_add]
      simp [add_assoc]

theorem Ledger.run (h : Ledger t₀ s) (hl : s.threads tid = some l) (hbusy : l.returned = none)
    (hthreads : s'.threads = Function.update s.threads tid (some l')) (hlog : s'.log = s.log)
    (hitems : s'.shared.items = s.shared.items + ((l'.returned.bind gain).toList : Multiset _)) :
    Ledger t₀ s' := by
  intro tids hcovers
  have htid : tid ∈ tids := hcovers tid (by
    rw [hthreads, Function.update_self]
    nofun)
  have htids : insert tid tids = tids := Finset.insert_eq_self.mpr htid
  have hbefore := h tids fun v hv => htids ▸ mem_of_covers hthreads hcovers hv
  have hnone : pending s tid = none := by
    rw [pending, hl]
    exact congrArg (Option.bind · gain) hbusy
  have hupdate : pending s' = Function.update (pending s) tid (l'.returned.bind gain) :=
    pending_update hthreads
  rw [hitems, hbefore, logged, logged, hlog, hupdate]
  cases hgain : l'.returned.bind gain with
  | none =>
      rw [Function.update_eq_self_iff.mpr hnone.symm]
      simp
  | some e =>
      rw [items_fill htid hnone, ← Multiset.singleton_add]
      simp [add_comm]

variable [DecidableEq K]

theorem Effect.items (heffect : Effect t l u l') (hsound : t.Sound H) (hl : l.Located H t)
    (hinserts : ∀ op, l.op = some op → Inserts op) (hbusy : l.returned = none)
    (htaken : ∀ key value m movements i slot slots,
      l = .targetLocked key value m movements i slot slots → (t.cells (m.source i)).token = true) :
    u.items = t.items + ((l'.returned.bind gain).toList : Multiset (K × V)) := by
  cases heffect with
  | rest hreply =>
      have hnone : l'.returned.bind gain = none := by
        rcases hreply with hsame | ⟨op, hone⟩
        · rw [hsame, hbusy]
          rfl
        · rw [hone]
          cases op <;> rfl
      rw [hnone]
      exact (add_zero _).symm
  | found => cases hinserts _ rfl
  | @filled key value slot slots hfree =>
      rw [items_put ((hl slot List.mem_cons_self).mem_slots hsound.half_pos) hfree, add_comm]
      rfl
  | @moved key value m movements i slot slots hfree =>
      have hsource := addresses_source (hl.1 m List.mem_cons_self) hl.2.1
      have htarget := addresses_of_mem_targets (hl.2.2 slot List.mem_cons_self)
      rw [items_relocate (hsource.mem_slots hsound.half_pos) (htarget.mem_slots hsound.half_pos)
        (htaken _ _ _ _ _ _ _ rfl) hfree]
      exact (add_zero _).symm
  | @freed key value m i =>
      rw [items_put ((addresses_source hl.1 hl.2.1).mem_slots hsound.half_pos) hl.2.2, add_comm]
      rfl

end Ledger

section Runs

variable {K V : Type*} {H : Hashing K} {t₀ : Table K V} {s s' : State K V}
  {a : Action (Op K V)} {l l' : Local K V} {x : Slot} {tid : Nat}

def InsertCalls (_ : State K V) : Action (Op K V) → Prop
  | .invoke _ op => Inserts op
  | _ => True

theorem InsertCalls.noResize (h : InsertCalls s a) : NoResize s a := by
  cases a with
  | invoke tid op =>
      rintro rfl
      cases h
  | run | ret => trivial

structure Inserting (H : Hashing K) (t₀ : Table K V) (s : State K V) : Prop where
  safe : Safe H s
  sound : s.shared.Sound H
  only : Only Inserts s
  taken : ∀ tid l x, s.threads tid = some l → l.Passed H s.shared x → Taken s x
  ledger : Ledger t₀ s

theorem Inserting.start (hsound : t₀.Sound H) (hlocks : ∀ slot, t₀.locks slot = none) :
    Inserting H t₀ (System.start t₀) where
  safe := Safe.start hlocks
  sound := hsound
  only := ⟨fun _ _ _ h => (Option.not_mem_none _ h).elim, fun _ h => (List.not_mem_nil h).elim⟩
  taken := fun _ _ _ h => (Option.not_mem_none _ h).elim
  ledger := by
    intro tids _
    have hnothing : Slots.items tids (pending (System.start t₀ : State K V)) = 0 :=
      items_eq_zero fun _ _ => rfl
    have hlog : logged (System.start t₀ : State K V) = 0 := rfl
    rw [hnothing, hlog, add_zero, add_zero]
    rfl

theorem Inserting.token_source (h : Inserting H t₀ s) {key : K} {value : V} {m : Movement}
    {movements : List Movement} {i : Nat} {slot : Slot} {slots : List Slot}
    (hl : s.threads tid = some (.targetLocked key value m movements i slot slots)) :
    (s.shared.cells (m.source i)).token = true := by
  have hlocated := h.safe.located tid _ hl
  have hsource := addresses_source (hlocated.1 m List.mem_cons_self) hlocated.2.1
  rcases h.taken tid _ (m.source i) hl hsource with htoken | ⟨v, key', value', m', i', hv, heq⟩
  · exact htoken
  · by_cases hvt : v = tid
    · subst v
      rw [hl] at hv
      cases hv
    · refine absurd ?_ (h.safe.notMem_held hl hv hvt (x := m.source i) ?_)
      · exact List.mem_cons_of_mem slot List.mem_cons_self
      · exact heq ▸ List.mem_cons_self

variable [DecidableEq K] [Inhabited K] [Inhabited V]

theorem Inserting.run (h : Inserting H t₀ s) (hl : s.threads tid = some l)
    (hbusy : l.returned = none) (hstep : step H tid s.shared l = (s'.shared, l'))
    (hthreads : s'.threads = Function.update s.threads tid (some l')) (hlog : s'.log = s.log) :
    (∀ v k x, s'.threads v = some k → k.Passed H s'.shared x → Taken s' x) ∧ Ledger t₀ s' := by
  have hlocated := h.safe.located tid l hl
  have hinserts := (h.only.threads tid l · hl)
  obtain ⟨u, locks, heffect, hshared⟩ := effect_step hlocated hstep
  have hshape : SameShape s.shared s'.shared := by
    rw [hshared]
    exact heffect.sameShape.trans ⟨rfl, rfl, rfl, rfl, rfl⟩
  constructor
  · intro v k x hk hx
    rw [hthreads] at hk
    rcases update_eq_some hk with ⟨-, hnow⟩ | ⟨-, hk⟩
    · cases hnow
      rcases passed_step hlocated hstep (hx.frame hshape) with hpassed | htoken
      · exact (h.taken tid l x hl hpassed).run hl hlocated hinserts hstep hthreads
      · exact Or.inl htoken
    · exact (h.taken v k x hk (hx.frame hshape)).run hl hlocated hinserts hstep hthreads
  · refine h.ledger.run hl hbusy hthreads hlog ?_
    have hitems := heffect.items h.sound hlocated hinserts hbusy fun key value m movements i slot
      slots heq => h.token_source (heq ▸ hl)
    rw [hshared]
    exact hitems

theorem Inserting.next (h : Inserting H t₀ s) (hok : InsertCalls s a)
    (hnext : (program H).next s a = some s') : Inserting H t₀ s' := by
  have hrest : (∀ v k x, s'.threads v = some k → k.Passed H s'.shared x → Taken s' x) ∧
      Ledger t₀ s' := by
    rcases (program H).next_cases hnext with
      ⟨tid, op, rfl, hidle, rfl⟩ | ⟨tid, l, rfl, hl, hbusy, rfl⟩ | ⟨tid, op, r, rfl, hdone, rfl⟩
    · refine ⟨fun v k x hk hx => ?_, h.ledger.invoke op hidle rfl rfl rfl⟩
      rcases update_eq_some hk with ⟨-, hnow⟩ | ⟨-, hk⟩
      · cases hnow
        cases hx
      · exact (h.taken v k x hk hx).of_threads rfl rfl (by rw [hidle]; nofun)
    · refine h.run hl ?_ rfl rfl rfl
      cases l with
      | done op reply => exact absurd rfl (hbusy op reply)
      | _ => rfl
    · refine ⟨fun v k x hk hx => ?_, h.ledger.ret hdone rfl rfl rfl⟩
      rcases update_eq_some hk with ⟨-, hnow⟩ | ⟨-, hk⟩
      · cases hnow
      · exact (h.taken v k x hk hx).of_threads rfl rfl (by rw [hdone]; nofun)
  exact ⟨h.safe.next hok.noResize hnext, h.safe.sound_next h.sound hnext,
    h.only.next h.safe (fun tid op ha => by subst ha; exact hok) hnext, hrest.1, hrest.2⟩

end Runs

section Distinct

variable {K V : Type*} {H : Hashing K} {t₀ : Table K V} {s s' : State K V}
  {a : Action (Op K V)} {l l' : Local K V} {tid : Nat} {key : K} {value : V} {e : K × V}

def Op.insertKey : Op K V → Option K
  | .insert key _ => some key
  | _ => none

def Local.insertKey (l : Local K V) : Option K :=
  l.op.bind Op.insertKey

/-- Calls of `level_insert` with different keys. -/
def DistinctInserts (s : State K V) : Action (Op K V) → Prop
  | .invoke _ op => ∃ key value, op = .insert key value ∧
      (∀ c ∈ s.log, c.op.insertKey ≠ some key) ∧
        ∀ u l, s.threads u = some l → l.insertKey ≠ some key
  | _ => True

structure Distinct (s : State K V) : Prop where
  threads : ∀ u v l l' key, s.threads u = some l → s.threads v = some l' →
    l.insertKey = some key → l'.insertKey = some key → u = v
  mixed : ∀ u l c key, s.threads u = some l → c ∈ s.log →
    l.insertKey = some key → c.op.insertKey ≠ some key
  log : s.log.Pairwise fun c c' => ∀ key, c.op.insertKey = some key → c'.op.insertKey ≠ some key

theorem Distinct.start : Distinct (System.start t₀ : State K V) where
  threads := fun _ _ _ _ _ h => (Option.not_mem_none _ h).elim
  mixed := fun _ _ _ _ h => (Option.not_mem_none _ h).elim
  log := List.Pairwise.nil

def Inserted (s : State K V) (e : K × V) : Prop :=
  (∃ c ∈ s.log, c.op = .insert e.1 e.2 ∧ c.result = .code 0) ∨
    ∃ tid, s.threads tid = some (.done (.insert e.1 e.2) (.code 0))

def Refused (s : State K V) (key : K) : Prop :=
  (∃ c ∈ s.log, ∃ value, c.op = .insert key value ∧ c.result = .code 1) ∨
    ∃ tid value, s.threads tid = some (.done (.insert key value) (.code 1))

theorem DistinctInserts.insertCalls (h : DistinctInserts s a) : InsertCalls s a := by
  cases a with
  | invoke tid op =>
      obtain ⟨key, value, rfl, -⟩ := h
      trivial
  | run | ret => trivial

theorem gain_eq_some_iff {op : Op K V} {r : Reply V} :
    gain (op, r) = some e ↔ op = .insert e.1 e.2 ∧ r = .code 0 := by
  constructor
  · intro h
    cases op with
    | insert key value =>
        match r, h with
        | .code 0, rfl => exact ⟨rfl, rfl⟩
    | search q => cases h
    | resize => cases h
  · rintro ⟨rfl, rfl⟩
    rfl

theorem pending_eq_some_iff :
    pending s tid = some e ↔ s.threads tid = some (.done (.insert e.1 e.2) (.code 0)) := by
  rw [pending]
  cases hl : s.threads tid with
  | none => simp
  | some l =>
      rw [Option.bind_some, Option.some.injEq]
      cases l with
      | done op reply =>
          rw [Local.returned, Option.bind_some, gain_eq_some_iff, Local.done.injEq]
      | _ => simp [Local.returned]

theorem mem_logged_iff :
    e ∈ logged s ↔ ∃ c ∈ s.log, c.op = .insert e.1 e.2 ∧ c.result = .code 0 := by
  rw [logged, Multiset.mem_coe, List.mem_filterMap]
  simp only [gain_eq_some_iff]

theorem mem_new_iff {tids : Finset Nat} (hcovers : ∀ tid, s.threads tid ≠ none → tid ∈ tids) :
    e ∈ logged s + Slots.items tids (pending s) ↔ Inserted s e := by
  rw [Multiset.mem_add, mem_logged_iff, Slots.mem_items_iff, Inserted]
  refine or_congr_right ⟨?_, ?_⟩
  · rintro ⟨tid, -, htid⟩
    exact ⟨tid, pending_eq_some_iff.mp htid⟩
  · rintro ⟨tid, htid⟩
    exact ⟨tid, hcovers tid (by rw [htid]; nofun), pending_eq_some_iff.mpr htid⟩

theorem Distinct.nodup (h : Distinct s) (tids : Finset Nat) :
    ((logged s + Slots.items tids (pending s)).map Prod.fst).Nodup := by
  rw [Multiset.map_add, Multiset.nodup_add]
  refine ⟨?_, ?_, ?_⟩
  · rw [logged, Multiset.map_coe, Multiset.coe_nodup, List.Nodup, List.pairwise_map,
      List.pairwise_filterMap]
    refine h.log.imp fun {c c'} hne e he e' he' heq => ?_
    refine hne e.1 ?_ ?_
    · rw [(gain_eq_some_iff.mp he).1]
      rfl
    · rw [(gain_eq_some_iff.mp he').1, heq]
      rfl
  · refine nodup_map_items Prod.fst fun u _ v _ e e' he he' heq => ?_
    refine h.threads u v _ _ e.1 (pending_eq_some_iff.mp he) (pending_eq_some_iff.mp he') rfl ?_
    rw [heq]
    rfl
  · rw [Multiset.disjoint_left]
    intro key hkey hkey'
    obtain ⟨e, he, rfl⟩ := Multiset.mem_map.mp hkey
    obtain ⟨e', he', heq⟩ := Multiset.mem_map.mp hkey'
    obtain ⟨c, hc, hop, -⟩ := mem_logged_iff.mp he
    obtain ⟨tid, -, htid⟩ := Slots.mem_items_iff.mp he'
    refine h.mixed tid _ c e.1 (pending_eq_some_iff.mp htid) hc ?_ ?_
    · rw [← heq]
      rfl
    · rw [hop]
      rfl

theorem Distinct.inserted_iff (h : Distinct s) {c : Call (Op K V) (Reply V)} (hc : c ∈ s.log)
    (hop : c.op = .insert key value) {v : V} :
    Inserted s (key, v) → c.result = .code 0 := by
  have hkey : c.op.insertKey = some key := by rw [hop]; rfl
  rintro (⟨c', hc', hop', hresult'⟩ | ⟨tid, htid⟩)
  · have hsymm : Std.Symm fun c c' : Call (Op K V) (Reply V) =>
        ∀ key, c.op.insertKey = some key → c'.op.insertKey ≠ some key :=
      ⟨fun _ _ hne key hk hk' => hne key hk' hk⟩
    have heq : c = c' := by
      by_contra hne
      refine h.log.forall hc hc' hne key hkey ?_
      rw [hop']
      rfl
    rw [heq, hresult']
  · exact absurd hkey (h.mixed tid _ c key htid hc rfl)

theorem Distinct.not_inserted (h : Distinct s) (hrefused : Refused s key) (v : V) :
    ¬ Inserted s (key, v) := by
  intro hinserted
  rcases hrefused with ⟨c, hc, value, hop, hresult⟩ | ⟨tid, value, htid⟩
  · rw [h.inserted_iff hc hop hinserted] at hresult
    cases hresult
  · rcases hinserted with ⟨c, hc, hop, -⟩ | ⟨u, hu⟩
    · refine h.mixed tid _ c key htid hc rfl ?_
      rw [hop]
      rfl
    · have heq := h.threads tid u _ _ key htid hu rfl rfl
      rw [heq, hu] at htid
      cases htid

variable [DecidableEq K] [Inhabited K] [Inhabited V]

theorem Distinct.next (h : Distinct s) (hsafe : Safe H s) (hok : DistinctInserts s a)
    (hnext : (program H).next s a = some s') : Distinct s' := by
  rcases (program H).next_cases hnext with
    ⟨tid, op, rfl, -, rfl⟩ | ⟨tid, l, rfl, hl, -, rfl⟩ | ⟨tid, op, r, rfl, hdone, rfl⟩
  · obtain ⟨key, value, rfl, hlog, hthreads⟩ := hok
    constructor
    case threads =>
      intro u v k k' key' hk hk' hkey hkey'
      rcases update_eq_some hk with ⟨rfl, hnow⟩ | ⟨-, hold⟩
      · rcases update_eq_some hk' with ⟨rfl, -⟩ | ⟨-, hold'⟩
        · rfl
        · cases hnow
          cases hkey
          exact absurd hkey' (hthreads v k' hold')
      · rcases update_eq_some hk' with ⟨-, hnow⟩ | ⟨-, hold'⟩
        · cases hnow
          cases hkey'
          exact absurd hkey (hthreads u k hold)
        · exact h.threads u v k k' key' hold hold' hkey hkey'
    case mixed =>
      intro u k c key' hk hc hkey
      rcases update_eq_some hk with ⟨-, hnow⟩ | ⟨-, hk⟩
      · cases hnow
        cases hkey
        exact hlog c hc
      · exact h.mixed u k c key' hk hc hkey
    case log => exact h.log
  · have hkeeps : ∀ u k key, Function.update s.threads tid
        (some ((program H).step tid s.shared l).2) u = some k → k.insertKey = some key →
        ∃ k₀, s.threads u = some k₀ ∧ k₀.insertKey = some key := by
      intro u k key hk hkey
      rcases update_eq_some hk with ⟨rfl, hnow⟩ | ⟨-, hk⟩
      · cases hnow
        rcases op_step (hsafe.located u l hl) rfl with hsame | hfault
        · exact ⟨l, hl, (congrArg (Option.bind · Op.insertKey) hsame.symm).trans hkey⟩
        · have hnone : (none : Option K) = some key :=
            (congrArg Local.insertKey hfault).symm.trans hkey
          cases hnone
      · exact ⟨k, hk, hkey⟩
    constructor
    case threads =>
      intro u v k k' key hk hk' hkey hkey'
      obtain ⟨k₀, hk₀, hkey₀⟩ := hkeeps u k key hk hkey
      obtain ⟨k₁, hk₁, hkey₁⟩ := hkeeps v k' key hk' hkey'
      exact h.threads u v k₀ k₁ key hk₀ hk₁ hkey₀ hkey₁
    case mixed =>
      intro u k c key hk hc hkey
      obtain ⟨k₀, hk₀, hkey₀⟩ := hkeeps u k key hk hkey
      exact h.mixed u k₀ c key hk₀ hc hkey₀
    case log => exact h.log
  · constructor
    case threads =>
      intro u v k k' key hk hk' hkey hkey'
      rcases update_eq_some hk with ⟨-, hnow⟩ | ⟨-, hk⟩
      · cases hnow
      · rcases update_eq_some hk' with ⟨-, hnow⟩ | ⟨-, hk'⟩
        · cases hnow
        · exact h.threads u v k k' key hk hk' hkey hkey'
    case mixed =>
      intro u k c key hk hc hkey
      rcases update_eq_some hk with ⟨-, hnow⟩ | ⟨hu, hk⟩
      · cases hnow
      · rcases List.mem_append.mp hc with hc | hc
        · exact h.mixed u k c key hk hc hkey
        · cases List.mem_singleton.mp hc
          intro hkey'
          exact hu (h.threads u tid k _ key hk hdone hkey hkey')
    case log =>
      rw [List.pairwise_append]
      refine ⟨h.log, List.pairwise_singleton _ _, ?_⟩
      intro c hc c' hc' key hkey hkey'
      cases List.mem_singleton.mp hc'
      exact h.mixed tid _ c key hdone hc hkey' hkey

/-- The occupied slots hold what they held at the start and the items whose insertion
has returned 0, each in a slot of its own that belongs to its key. -/
structure Conserved (H : Hashing K) (t₀ : Table K V) (s : State K V) : Prop where
  placed : ∀ slot, (s.shared.cells slot).token = true →
    s.shared.Addresses H (s.shared.cells slot).key slot
  items : ∃ new : Multiset (K × V), s.shared.items = t₀.items + new ∧
    (new.map Prod.fst).Nodup ∧ ∀ e, e ∈ new ↔ Inserted s e
  inserted : ∀ key value, Inserted s (key, value) → s.shared.copies key = t₀.copies key + 1
  others : ∀ key, (∀ value, ¬ Inserted s (key, value)) → s.shared.copies key = t₀.copies key
  refused : ∀ key, Refused s key → s.shared.copies key = t₀.copies key

/-- Threads that insert different keys at once lose no item, put none twice and take no
lock beyond the end of `level_locks`, where the locks exist. -/
theorem inserts_conserve (hsound : t₀.Sound H) (hlocks : ∀ slot, t₀.locks slot = none)
    (h : Reaches (program H).next (fun s a => DistinctInserts s a ∧ LocksExist s a)
      (System.start t₀) s) : Conserved H t₀ s ∧ ∀ tid, ¬ Faulted s tid := by
  refine ⟨?_, not_faulted_of_reaches (fun _ _ hok => hok.2) h⟩
  have hinv : Inserting H t₀ s ∧ Distinct s := by
    refine h.invariant (I := fun s => Inserting H t₀ s ∧ Distinct s)
      ⟨Inserting.start hsound hlocks, Distinct.start⟩ ?_
    rintro s a s' ⟨hinserting, hdistinct⟩ hok hnext
    exact ⟨hinserting.next hok.1.insertCalls hnext, hdistinct.next hinserting.safe hok.1 hnext⟩
  obtain ⟨hinserting, hdistinct⟩ := hinv
  have hfinite := finite_running h
  let tids := hfinite.toFinset
  have hcovers : ∀ tid, s.threads tid ≠ none → tid ∈ tids := fun tid htid =>
    hfinite.mem_toFinset.mpr htid
  have hitems : s.shared.items = t₀.items + (logged s + Slots.items tids (pending s)) := by
    rw [hinserting.ledger tids hcovers, add_assoc]
  have hnodup := hdistinct.nodup tids
  have hcopies : ∀ key, s.shared.copies key = t₀.copies key +
      ((logged s + Slots.items tids (pending s)).map Prod.fst).count key := by
    intro key
    rw [copies_eq_count, hitems, Multiset.map_add, Multiset.count_add, copies_eq_count]
  have hothers : ∀ key, (∀ value, ¬ Inserted s (key, value)) →
      s.shared.copies key = t₀.copies key := by
    intro key hnot
    rw [hcopies, Multiset.count_eq_zero_of_notMem, Nat.add_zero]
    intro hmem
    obtain ⟨⟨_, value⟩, he, rfl⟩ := Multiset.mem_map.mp hmem
    exact hnot value ((mem_new_iff hcovers).mp he)
  refine ⟨hinserting.sound.placed, ⟨_, hitems, hnodup, fun e => mem_new_iff hcovers⟩, ?_,
    hothers, ?_⟩
  · intro key value hinserted
    rw [hcopies, Multiset.count_eq_one_of_mem hnodup]
    exact Multiset.mem_map_of_mem Prod.fst ((mem_new_iff hcovers).mpr hinserted)
  · exact fun key hrefused => hothers key fun value => hdistinct.not_inserted hrefused value

theorem fresh_of_two {key key' : Nat} {l : Local Nat Nat} (hl : l.insertKey = some key)
    (hne : key ≠ key') (u : Nat) (l' : Local Nat Nat)
    (h : Function.update (fun _ => none) 0 (some l) u = some l') : l'.insertKey ≠ some key' := by
  rcases update_eq_some h with ⟨-, hnow⟩ | ⟨-, hnone⟩
  · rw [← Option.some.inj hnow, hl]
    exact fun heq => hne (Option.some.inj heq)
  · cases hnone

/-- Two insertions at once. -/
theorem inserts_conserve_two : ∃ s : State Nat Nat, Inserted s (1, 10) ∧ Inserted s (2, 20) ∧
    Conserved bits (levelInit 2) s ∧ ∀ tid, ¬ Faulted s tid := by
  have hadmits : Admits (program bits).next (fun s a => DistinctInserts s a ∧ LocksExist s a)
      (System.start (levelInit 2 : Table Nat Nat)) [.invoke 0 (.insert 1 10),
        .invoke 1 (.insert 2 20), .run 0, .run 1, .run 0, .run 1, .run 0, .ret 0, .run 1] :=
    ⟨⟨⟨1, 10, rfl, nofun, nofun⟩, trivial⟩,
      ⟨⟨2, 20, rfl, nofun, fresh_of_two rfl (by decide)⟩, trivial⟩, ⟨trivial, by decide⟩,
      ⟨trivial, by decide⟩, ⟨trivial, by decide⟩, ⟨trivial, by decide⟩, ⟨trivial, by decide⟩,
      ⟨trivial, by decide⟩, ⟨trivial, by decide⟩, trivial⟩
  have hidle : (levelInit 2 : Table Nat Nat).Idle bits := idle_levelInit (by decide)
  have hconserved := inserts_conserve hidle.sound hidle.unlocked
    (reaches_of_runActions hadmits rfl)
  exact ⟨_, Or.inl ⟨_, List.mem_cons_self, rfl, rfl⟩, Or.inr ⟨1, rfl⟩, hconserved⟩

/-- A new table that has been resized. -/
def resizedOnce : Table Nat Nat :=
  (program evenOdd).afterSteps 0 2 .resize (levelInit 2)

/-- After a `level_resize` the second of two insertions with the same F bucket goes on to
the S bucket, whose locks lie beyond the end of `level_locks`. -/
theorem insertion_beyond_locks : Reached evenOdd 0 (levelInit 2) resizedOnce ∧
    ∃ s : State Nat Nat,
      Reaches (program evenOdd).next DistinctInserts (System.start resizedOnce) s ∧
        Faulted s 1 ∧ s.shared.lockCount .top = 4 := by
  have hresize : Returns evenOdd 0 (levelInit 2) .resize resizedOnce .void :=
    Program.returns_of_steps (by decide +kernel)
  have hadmits : Admits (program evenOdd).next DistinctInserts (System.start resizedOnce)
      [.invoke 0 (.insert 1 10), .invoke 1 (.insert 3 30), .run 0, .run 0, .run 0, .run 1,
        .run 1, .run 1, .run 1] :=
    ⟨⟨1, 10, rfl, nofun, nofun⟩, ⟨3, 30, rfl, nofun, fresh_of_two rfl (by decide)⟩, trivial,
      trivial, trivial, trivial, trivial, trivial, trivial, trivial⟩
  exact ⟨.call .start hresize, _, reaches_of_runActions hadmits rfl, rfl, rfl⟩

end Distinct

end HashComp.LevelHashing
