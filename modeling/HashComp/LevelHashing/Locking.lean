import HashComp.LevelHashing.Sequential
import HashComp.Library.SpinLocks

namespace HashComp.LevelHashing

open HashComp.Runs
open HashComp.Threads
open HashComp.SpinLocks

section Local

variable {K V : Type*}

/-- The slots whose locks a thread has got, the last one first. -/
def Local.held : Local K V → List Slot
  | .searchLocked _ slot _ | .scanLocked _ _ slot _ => [slot]
  | .target _ _ m _ i _ => [m.source i]
  | .targetLocked _ _ m _ i slot _ => [slot, m.source i]
  | .fill _ _ m i => [m.source i]
  | _ => []

def Local.returned : Local K V → Option (Op K V × Reply V)
  | .done op reply => some (op, reply)
  | _ => none

def Local.op : Local K V → Option (Op K V)
  | .called op | .done op _ => some op
  | .search s _ | .searchLocked s _ _ => some (.search s)
  | .scan key value _ | .scanLocked key value _ _ | .source key value _ _
  | .target key value _ _ _ _ | .targetLocked key value _ _ _ _ _
  | .fill key value _ _ => some (.insert key value)
  | .resizing => some .resize
  | .fault | .exited => none

/-- A thread does not resize the table, and the slots that it still has to come to
belong to its key, or to the key of the item that it wants to move. -/
def Local.Located (H : Hashing K) (t : Table K V) : Local K V → Prop
  | .called op => op ≠ .resize
  | .search s slots => ∀ x ∈ slots, t.Addresses H s.key x
  | .searchLocked s slot slots => ∀ x ∈ slot :: slots, t.Addresses H s.key x
  | .scan key _ slots => ∀ x ∈ slots, t.Addresses H key x
  | .scanLocked key _ slot slots => ∀ x ∈ slot :: slots, t.Addresses H key x
  | .source key _ movements _ => ∀ m ∈ movements, m ∈ t.movements H key
  | .target key _ m movements i slots =>
      (∀ m' ∈ m :: movements, m' ∈ t.movements H key) ∧ i < assocNum ∧
        ∀ x ∈ slots, x ∈ m.targets H t (t.cells (m.source i)).key
  | .targetLocked key _ m movements i slot slots =>
      (∀ m' ∈ m :: movements, m' ∈ t.movements H key) ∧ i < assocNum ∧
        ∀ x ∈ slot :: slots, x ∈ m.targets H t (t.cells (m.source i)).key
  | .fill key _ m i =>
      m ∈ t.movements H key ∧ i < assocNum ∧ (t.cells (m.source i)).token = false
  | .resizing => False
  | .done _ _ | .fault | .exited => True

end Local

section Steps

variable {K V : Type*} {H : Hashing K} {t t' u : Table K V} {l l' : Local K V} {tid : Nat}
  {slot x : Slot}

structure SameShape (t t' : Table K V) : Prop where
  addrCapacity : t'.addrCapacity = t.addrCapacity
  levelSize : t'.levelSize = t.levelSize
  levelResize : t'.levelResize = t.levelResize
  bucketCount : t'.bucketCount = t.bucketCount
  lockCount : t'.lockCount = t.lockCount

theorem SameShape.refl (t : Table K V) : SameShape t t := ⟨rfl, rfl, rfl, rfl, rfl⟩

theorem SameShape.trans (h : SameShape t t') (h' : SameShape t' u) : SameShape t u :=
  ⟨h'.1.trans h.1, h'.2.trans h.2, h'.3.trans h.3, h'.4.trans h.4, h'.5.trans h.5⟩

theorem SameShape.capacity (h : SameShape t t') : t'.capacity = t.capacity := by
  funext level
  cases level <;> simp only [Table.capacity, h.addrCapacity]

theorem SameShape.fBucket (h : SameShape t t') : t'.fBucket H = t.fBucket H := by
  funext level key
  rw [Table.fBucket, h.capacity, Table.fBucket]

theorem SameShape.sBucket (h : SameShape t t') : t'.sBucket H = t.sBucket H := by
  funext level key
  rw [Table.sBucket, h.capacity, Table.sBucket]

theorem SameShape.addresses (h : SameShape t t') {key : K} :
    t'.Addresses H key slot ↔ t.Addresses H key slot := by
  rw [Table.Addresses, h.fBucket, h.sBucket, Table.Addresses]

theorem SameShape.targets (h : SameShape t t') (m : Movement) (key : K) :
    m.targets H t' key = m.targets H t key := by
  cases m with
  | tryMovement levelNum idx => rw [Movement.targets, h.fBucket, h.sBucket, Movement.targets]
  | b2tMovement idx => rw [Movement.targets, h.fBucket, h.sBucket, Movement.targets]

theorem SameShape.movements (h : SameShape t t') (key : K) :
    t'.movements H key = t.movements H key := by
  rw [Table.movements, h.fBucket, h.sBucket, h.levelResize, Table.movements]

/-- What a thread knows about the slots whose locks it holds stays true while others
leave these alone. -/
theorem Local.Located.frame (h : l.Located H t) (hshape : SameShape t t')
    (hheld : ∀ x ∈ l.held, t'.cells x = t.cells x) : l.Located H t' := by
  cases l with
  | search s slots => exact fun x hx => hshape.addresses.mpr (h x hx)
  | searchLocked s slot slots => exact fun x hx => hshape.addresses.mpr (h x hx)
  | scan key value slots => exact fun x hx => hshape.addresses.mpr (h x hx)
  | scanLocked key value slot slots => exact fun x hx => hshape.addresses.mpr (h x hx)
  | source key value movements i =>
      intro m hm
      rw [hshape.movements]
      exact h m hm
  | target key value m movements i slots =>
      have hcell := hheld (m.source i) List.mem_cons_self
      simp only [Local.Located, hshape.movements, hshape.targets, hcell]
      exact h
  | targetLocked key value m movements i slot slots =>
      have hcell := hheld (m.source i) (List.mem_cons_of_mem slot List.mem_cons_self)
      simp only [Local.Located, hshape.movements, hshape.targets, hcell]
      exact h
  | fill key value m i =>
      have hcell := hheld (m.source i) List.mem_cons_self
      simp only [Local.Located, hshape.movements, hcell]
      exact h
  | called op => exact h
  | resizing => exact h
  | done | fault | exited => trivial

theorem acquire_cases (t : Table K V) (tid : Nat) (slot : Slot) (l l' : Local K V) :
    t.acquire tid slot l l' = (t, l) ∨ t.acquire tid slot l l' = (t, .fault) ∨
      t.locks slot = none ∧ t.acquire tid slot l l' = (t.lock tid slot, l') := by
  rw [Table.acquire]
  split
  · cases hlock : t.locks slot with
    | none => exact Or.inr (Or.inr ⟨rfl, rfl⟩)
    | some o => exact Or.inl rfl
  · exact Or.inr (Or.inl rfl)

inductive Effect [DecidableEq K] (t : Table K V) :
    Local K V → Table K V → Local K V → Prop where
  | rest {l l' : Local K V}
      (h : l'.returned = l.returned ∨ ∃ op, l'.returned = some (op, .code 1)) :
      Effect t l t l'
  | found {s : Search K V} {slot : Slot} {slots : List Slot}
      (htoken : (t.cells slot).token = true) (hkey : (t.cells slot).key = s.key) :
      Effect t (.searchLocked s slot slots) (s.apply t slot).1
        (.done (.search s) (s.apply t slot).2)
  | filled {key : K} {value : V} {slot : Slot} {slots : List Slot}
      (hfree : (t.cells slot).token = false) :
      Effect t (.scanLocked key value slot slots) (t.put slot key value)
        (.done (.insert key value) (.code 0))
  | moved {key : K} {value : V} {m : Movement} {movements : List Movement} {i : Nat}
      {slot : Slot} {slots : List Slot} (hfree : (t.cells slot).token = false) :
      Effect t (.targetLocked key value m movements i slot slots)
        (t.relocate (m.source i) slot) (.fill key value m i)
  | freed {key : K} {value : V} {m : Movement} {i : Nat} :
      Effect t (.fill key value m i) (t.put (m.source i) key value)
        (.done (.insert key value) (.code 0))

inductive LockStep (tid : Nat) (t : Table K V) (l : Local K V) (t' : Table K V)
    (l' : Local K V) : Prop where
  | keep (hlocks : t'.locks = t.locks) (hheld : l'.held = l.held ∨ l' = .fault)
  | acquire (slot : Slot) (hrequest : l.request = some slot) (hfree : t.locks slot = none)
      (hlocks : t'.locks = Function.update t.locks slot (some tid))
      (hheld : l'.held = slot :: l.held)
  | release (slot : Slot) (hlocks : t'.locks = Function.update t.locks slot none)
      (hheld : l.held = slot :: l'.held)

theorem acquire_ne_fault {locked : Local K V} (hrange : slot.bucket < t.lockCount slot.level)
    (hl : l ≠ .fault) (hlocked : locked ≠ .fault) : (t.acquire tid slot l locked).2 ≠ .fault := by
  rw [Table.acquire, if_pos hrange]
  cases t.locks slot with
  | none => exact hlocked
  | some o => exact hl

theorem lockStep_acquire {locked : Local K V}
    (h : t.acquire tid slot l locked = (t', l')) (hrequest : l.request = some slot)
    (hlocked : locked.held = slot :: l.held) : LockStep tid t l t' l' := by
  rcases acquire_cases t tid slot l locked with heq | heq | ⟨hfree, heq⟩ <;>
    rw [heq] at h <;> cases h
  · exact .keep rfl (Or.inl rfl)
  · exact .keep rfl (Or.inr rfl)
  · exact .acquire slot hrequest hfree rfl hlocked

theorem op_acquire {locked : Local K V} (h : t.acquire tid slot l locked = (t', l'))
    (hlocked : locked.op = l.op) : l'.op = l.op ∨ l' = .fault := by
  rcases acquire_cases t tid slot l locked with heq | heq | ⟨-, heq⟩ <;> rw [heq] at h <;> cases h
  · exact Or.inl rfl
  · exact Or.inr rfl
  · exact Or.inl hlocked

theorem located_acquire {locked : Local K V}
    (h : t.acquire tid slot l locked = (t', l')) (hl : l.Located H t)
    (hlocked : locked.Located H t) : l'.Located H t' := by
  rcases acquire_cases t tid slot l locked with heq | heq | ⟨-, heq⟩ <;> rw [heq] at h <;> cases h
  · exact hl
  · trivial
  · exact hlocked.frame ⟨rfl, rfl, rfl, rfl, rfl⟩ fun _ _ => rfl

theorem Table.Sound.setLocks (h : t.Sound H) (locks : Slot → Option Nat) :
    ({ t with locks := locks } : Table K V).Sound H :=
  ⟨h.capacity, h.size, h.placed⟩

variable [DecidableEq K]

theorem Effect.sameShape (h : Effect t l u l') : SameShape t u := by
  cases h with
  | rest => exact SameShape.refl t
  | @found s slot slots => cases s <;> exact ⟨rfl, rfl, rfl, rfl, rfl⟩
  | filled | moved | freed => exact ⟨rfl, rfl, rfl, rfl, rfl⟩

theorem Effect.cells_of_notMem (h : Effect t l u l') (hx : x ∉ l.held) :
    u.cells x = t.cells x := by
  cases h with
  | rest => rfl
  | @found s slot slots =>
      have hne : x ≠ slot := fun heq => hx (heq ▸ List.mem_cons_self)
      cases s with
      | query => rfl
      | update | delete => exact Function.update_of_ne hne ..
  | filled => exact cells_put_of_ne fun heq => hx (heq ▸ List.mem_cons_self)
  | @moved key value m movements i slot slots =>
      refine cells_relocate_of_ne (fun heq => hx ?_) fun heq => hx (heq ▸ List.mem_cons_self)
      exact heq ▸ List.mem_cons_of_mem slot List.mem_cons_self
  | freed => exact cells_put_of_ne fun heq => hx (heq ▸ List.mem_cons_self)

theorem Table.Sound.effect (h : t.Sound H) (hl : l.Located H t) (heffect : Effect t l u l') :
    u.Sound H := by
  cases heffect with
  | rest => exact h
  | @found s slot slots =>
      cases s with
      | query => exact h
      | update => exact h.setValue
      | delete => exact h.clearToken
  | filled => exact h.put (hl _ List.mem_cons_self)
  | @moved key value m movements i slot slots =>
      have hslot := hl.2.2 slot List.mem_cons_self
      refine h.relocate (addresses_of_mem_targets hslot) ?_
      rintro rfl
      exact source_notMem_targets h.half_pos _ _ hslot
  | freed => exact h.put (addresses_source hl.1 hl.2.1)

theorem effect_rest {locks : Slot → Option Nat} (ht : t' = { t with locks := locks })
    (h : l'.returned = l.returned ∨ ∃ op, l'.returned = some (op, .code 1)) :
    ∃ u locks, Effect t l u l' ∧ t' = { u with locks := locks } :=
  ⟨t, locks, .rest h, ht⟩

theorem effect_acquire {locked : Local K V} (h : t.acquire tid slot l locked = (t', l'))
    (hl : l.returned = none) (hlocked : locked.returned = none) :
    ∃ u locks, Effect t l u l' ∧ t' = { u with locks := locks } := by
  rcases acquire_cases t tid slot l locked with heq | heq | ⟨-, heq⟩ <;> rw [heq] at h <;> cases h
  · exact effect_rest rfl (Or.inl rfl)
  · exact effect_rest rfl (Or.inl hl.symm)
  · exact effect_rest rfl (Or.inl (hlocked.trans hl.symm))

variable [Inhabited K] [Inhabited V]

theorem effect_step (hl : l.Located H t) (hstep : step H tid t l = (t', l')) :
    ∃ u locks, Effect t l u l' ∧ t' = { u with locks := locks } := by
  cases l with
  | called op =>
      cases op with
      | search s | insert key value =>
          cases hstep
          exact effect_rest rfl (Or.inl rfl)
      | resize => exact absurd rfl hl
  | search s slots =>
      cases slots with
      | nil =>
          cases hstep
          exact effect_rest rfl (Or.inr ⟨_, rfl⟩)
      | cons slot slots => exact effect_acquire hstep rfl rfl
  | searchLocked s slot slots =>
      rw [step] at hstep
      split at hstep
      · next hfound =>
          cases hstep
          exact ⟨_, _, .found hfound.1 hfound.2, rfl⟩
      · cases hstep
        exact effect_rest rfl (Or.inl rfl)
  | scan key value slots =>
      cases slots with
      | nil =>
          cases hstep
          exact effect_rest rfl (Or.inl rfl)
      | cons slot slots => exact effect_acquire hstep rfl rfl
  | scanLocked key value slot slots =>
      rw [step] at hstep
      split at hstep
      · next hfree =>
          cases hstep
          exact ⟨_, _, .filled hfree, rfl⟩
      · cases hstep
        exact effect_rest rfl (Or.inl rfl)
  | source key value movements i =>
      cases movements with
      | nil =>
          cases hstep
          exact effect_rest rfl (Or.inr ⟨_, rfl⟩)
      | cons m movements =>
          rw [step] at hstep
          split at hstep
          · exact effect_acquire hstep rfl rfl
          · cases hstep
            exact effect_rest rfl (Or.inl rfl)
  | target key value m movements i slots =>
      cases slots with
      | nil =>
          cases hstep
          exact effect_rest rfl (Or.inl rfl)
      | cons slot slots => exact effect_acquire hstep rfl rfl
  | targetLocked key value m movements i slot slots =>
      rw [step] at hstep
      split at hstep
      · next hfree =>
          cases hstep
          exact ⟨_, _, .moved hfree, rfl⟩
      · cases hstep
        exact effect_rest rfl (Or.inl rfl)
  | fill key value m i =>
      cases hstep
      exact ⟨_, _, .freed, rfl⟩
  | resizing => cases hl
  | done | fault | exited =>
      cases hstep
      exact effect_rest rfl (Or.inl rfl)

theorem lock_step (hl : l.Located H t) (hstep : step H tid t l = (t', l')) :
    LockStep tid t l t' l' := by
  cases l with
  | called op =>
      cases op with
      | search s | insert key value =>
          cases hstep
          exact .keep rfl (Or.inl rfl)
      | resize => exact absurd rfl hl
  | search s slots | scan key value slots =>
      cases slots with
      | nil =>
          cases hstep
          exact .keep rfl (Or.inl rfl)
      | cons slot slots => exact lockStep_acquire hstep rfl rfl
  | searchLocked s slot slots =>
      rw [step] at hstep
      split at hstep <;> cases hstep
      · cases s <;> exact .release slot rfl rfl
      · exact .release slot rfl rfl
  | scanLocked key value slot slots | targetLocked key value m movements i slot slots =>
      rw [step] at hstep
      split at hstep <;> cases hstep
      · exact .release slot rfl rfl
      · exact .release slot rfl rfl
  | source key value movements i =>
      cases movements with
      | nil =>
          cases hstep
          exact .keep rfl (Or.inl rfl)
      | cons m movements =>
          rw [step] at hstep
          split at hstep
          · next hi => exact lockStep_acquire hstep (if_pos hi) rfl
          · cases hstep
            exact .keep rfl (Or.inl rfl)
  | target key value m movements i slots =>
      cases slots with
      | nil =>
          cases hstep
          exact .release (m.source i) rfl rfl
      | cons slot slots => exact lockStep_acquire hstep rfl rfl
  | fill key value m i =>
      cases hstep
      exact .release (m.source i) rfl rfl
  | resizing => cases hl
  | done | fault | exited =>
      cases hstep
      exact .keep rfl (Or.inl rfl)

theorem op_step (hl : l.Located H t) (hstep : step H tid t l = (t', l')) :
    l'.op = l.op ∨ l' = .fault := by
  cases l with
  | called op =>
      cases op with
      | search s | insert key value =>
          cases hstep
          exact Or.inl rfl
      | resize => exact absurd rfl hl
  | search s slots | scan key value slots | target key value m movements i slots =>
      cases slots with
      | nil =>
          cases hstep
          exact Or.inl rfl
      | cons slot slots => exact op_acquire hstep rfl
  | searchLocked s slot slots | scanLocked key value slot slots
  | targetLocked key value m movements i slot slots =>
      rw [step] at hstep
      split at hstep <;> cases hstep <;> exact Or.inl rfl
  | source key value movements i =>
      cases movements with
      | nil =>
          cases hstep
          exact Or.inl rfl
      | cons m movements =>
          rw [step] at hstep
          split at hstep
          · exact op_acquire hstep rfl
          · cases hstep
            exact Or.inl rfl
  | resizing => cases hl
  | fill | done | fault | exited =>
      cases hstep
      exact Or.inl rfl

/-- A thread goes on to slots of its key, or of the key of the item that it moves. -/
theorem step_ne_fault (hrange : InRange t l) (hl : l ≠ .fault) :
    (step H tid t l).2 ≠ .fault := by
  cases l with
  | called op => cases op <;> rintro ⟨⟩
  | search s slots | scan key value slots | target key value m movements i slots =>
      cases slots with
      | nil => rintro ⟨⟩
      | cons slot slots =>
          exact acquire_ne_fault (hrange slot rfl) (by rintro ⟨⟩) (by rintro ⟨⟩)
  | searchLocked | scanLocked | targetLocked =>
      rw [LevelHashing.step]
      split <;> rintro ⟨⟩
  | source key value movements i =>
      cases movements with
      | nil => rintro ⟨⟩
      | cons m movements =>
          rw [LevelHashing.step]
          split
          · next hi =>
              exact acquire_ne_fault (hrange _ (if_pos hi)) (by rintro ⟨⟩) (by rintro ⟨⟩)
          · rintro ⟨⟩
  | resizing =>
      rw [LevelHashing.step]
      split <;> rintro ⟨⟩
  | fill | done | exited => rintro ⟨⟩
  | fault => exact absurd rfl hl

theorem Local.Located.step (h : l.Located H t) (hstep : step H tid t l = (t', l')) :
    l'.Located H t' := by
  cases l with
  | called op =>
      cases op with
      | search s =>
          cases hstep
          exact fun x hx => mem_searchOrder_iff.mp hx
      | insert key value =>
          cases hstep
          exact fun x hx => mem_insertOrder_iff.mp hx
      | resize => exact absurd rfl h
  | search s slots =>
      cases slots with
      | nil =>
          cases hstep
          trivial
      | cons slot slots => exact located_acquire hstep h h
  | searchLocked s slot slots =>
      rw [LevelHashing.step] at hstep
      split at hstep <;> cases hstep
      · trivial
      · exact fun x hx => h x (List.mem_cons_of_mem slot hx)
  | scan key value slots =>
      cases slots with
      | nil =>
          cases hstep
          exact fun m hm => hm
      | cons slot slots => exact located_acquire hstep h h
  | scanLocked key value slot slots =>
      rw [LevelHashing.step] at hstep
      split at hstep <;> cases hstep
      · trivial
      · exact fun x hx => h x (List.mem_cons_of_mem slot hx)
  | source key value movements i =>
      cases movements with
      | nil =>
          cases hstep
          trivial
      | cons m movements =>
          rw [LevelHashing.step] at hstep
          split at hstep
          · next hi => exact located_acquire hstep h ⟨h, hi, fun x hx => hx⟩
          · cases hstep
            exact fun m' hm' => h m' (List.mem_cons_of_mem m hm')
  | target key value m movements i slots =>
      cases slots with
      | nil =>
          cases hstep
          exact h.1
      | cons slot slots => exact located_acquire hstep h h
  | targetLocked key value m movements i slot slots =>
      rw [LevelHashing.step] at hstep
      split at hstep <;> cases hstep
      · refine ⟨h.1 m List.mem_cons_self, h.2.1, ?_⟩
        rw [unlock_cells, cells_relocate_source]
      · exact ⟨h.1, h.2.1, fun x hx => h.2.2 x (List.mem_cons_of_mem slot hx)⟩
  | fill key value m i =>
      cases hstep
      trivial
  | resizing => cases h
  | done | fault | exited =>
      cases hstep
      trivial

end Steps

section Run

variable {K V : Type*} {H : Hashing K}
  {t : Table K V} {s s' : State K V} {a : Action (Op K V)} {tid u : Nat} {l l' : Local K V}
  {x : Slot}

def NoResize (_ : State K V) : Action (Op K V) → Prop
  | .invoke _ op => op ≠ .resize
  | _ => True

def heldBy (s : State K V) (tid : Nat) : List Slot :=
  (s.threads tid).elim [] Local.held

def Faulted (s : State K V) (tid : Nat) : Prop :=
  s.threads tid = some .fault

/-- The slot whose lock a thread is about to acquire. -/
def requestOf (s : State K V) (tid : Nat) : Option Slot :=
  (s.threads tid).elim none Local.request

/-- A lock that a thread goes to acquire lies in `level_locks`. -/
def LocksExist (s : State K V) : Action (Op K V) → Prop
  | .run tid => ∀ slot ∈ requestOf s tid, slot.bucket < s.shared.lockCount slot.level
  | .invoke _ _ | .ret _ => True

instance (s : State K V) : DecidablePred (LocksExist s)
  | .run tid => inferInstanceAs (Decidable (∀ slot ∈ requestOf s tid, _))
  | .invoke _ _ | .ret _ => .isTrue trivial

structure Safe (H : Hashing K) (s : State K V) : Prop where
  owned : Owned s.shared.locks (heldBy s) (Faulted s)
  located : ∀ tid l, s.threads tid = some l → l.Located H s.shared

structure Only (P : Op K V → Prop) (s : State K V) : Prop where
  threads : ∀ tid l op, s.threads tid = some l → l.op = some op → P op
  log : ∀ c ∈ s.log, P c.op

theorem heldBy_eq (hl : s.threads tid = some l) : heldBy s tid = l.held := by
  rw [heldBy, hl, Option.elim_some]

theorem heldBy_update {o : Option (Local K V)}
    (h : s'.threads = Function.update s.threads tid o) :
    heldBy s' = Function.update (heldBy s) tid (o.elim [] Local.held) := by
  funext u
  rw [heldBy, h]
  by_cases hu : u = tid
  · subst u
    rw [Function.update_self, Function.update_self]
  · rw [Function.update_of_ne hu, Function.update_of_ne hu, heldBy]

theorem faulted_update {o : Option (Local K V)}
    (h : s'.threads = Function.update s.threads tid o)
    (hfault : s.threads tid = some .fault → o = some .fault) (p : Nat) (hp : Faulted s p) :
    Faulted s' p := by
  rw [Faulted, h]
  by_cases hpt : p = tid
  · subst p
    rw [Function.update_self]
    exact hfault hp
  · rwa [Function.update_of_ne hpt]

theorem Safe.notMem_held (h : Safe H s) (hl : s.threads tid = some l)
    (hl' : s.threads u = some l') (hne : u ≠ tid) (hx : x ∈ l'.held) : x ∉ l.held := by
  intro hx'
  rw [← heldBy_eq hl'] at hx
  rw [← heldBy_eq hl] at hx'
  exact hne (h.owned.exclusive hx hx')

theorem Safe.start (hlocks : ∀ slot, t.locks slot = none) : Safe H (System.start t) where
  owned := by
    refine ⟨nofun, fun _ => List.nodup_nil, fun o a ha => ?_⟩
    have hfree : t.locks a = some o := ha
    rw [hlocks] at hfree
    cases hfree
  located := nofun

variable [DecidableEq K] [Inhabited K] [Inhabited V]

theorem Safe.owned_run (h : Safe H s) (hl : s.threads tid = some l)
    (hstep : step H tid s.shared l = (s'.shared, l'))
    (hthreads : s'.threads = Function.update s.threads tid (some l')) :
    Owned s'.shared.locks (heldBy s') (Faulted s') := by
  have hfault := faulted_update hthreads fun hfault => by
    rw [hl] at hfault
    cases hfault
    exact congrArg some (congrArg Prod.snd hstep).symm
  have hheld := heldBy_eq hl
  rw [heldBy_update hthreads, Option.elim_some]
  cases lock_step (h.located tid l hl) hstep with
  | keep hlocks hkeep =>
      rw [hlocks]
      refine h.owned.keep ?_ hfault
      rcases hkeep with hsame | rfl
      · exact Or.inl (hsame.trans hheld.symm)
      · exact Or.inr ⟨rfl, by rw [Faulted, hthreads, Function.update_self]⟩
  | acquire slot _ hfree hlocks hnow =>
      rw [hlocks]
      exact h.owned.acquire hfree (by rw [hnow, hheld]) hfault
  | release slot hlocks hbefore =>
      rw [hlocks]
      exact h.owned.release (hheld.trans hbefore) hfault

theorem Safe.located_run (h : Safe H s) (hl : s.threads tid = some l)
    (hstep : step H tid s.shared l = (s'.shared, l'))
    (hthreads : s'.threads = Function.update s.threads tid (some l')) (u : Nat)
    (k : Local K V) (hk : s'.threads u = some k) : k.Located H s'.shared := by
  have hlocated := h.located tid l hl
  rw [hthreads] at hk
  rcases update_eq_some hk with ⟨-, hnow⟩ | ⟨hu, hk⟩
  · cases hnow
    exact hlocated.step hstep
  · obtain ⟨v, locks, heffect, hshared⟩ := effect_step hlocated hstep
    have hshape : SameShape s.shared s'.shared := by
      rw [hshared]
      exact heffect.sameShape.trans ⟨rfl, rfl, rfl, rfl, rfl⟩
    refine (h.located u k hk).frame hshape fun x hx => ?_
    rw [hshared]
    exact heffect.cells_of_notMem (h.notMem_held hl hk hu hx)

theorem Safe.next (h : Safe H s) (hok : NoResize s a) (hnext : (program H).next s a = some s') :
    Safe H s' := by
  rcases (program H).next_cases hnext with
    ⟨tid, op, rfl, hidle, rfl⟩ | ⟨tid, l, rfl, hl, -, rfl⟩ | ⟨tid, op, r, rfl, hdone, rfl⟩
  · constructor
    case owned =>
      rw [heldBy_update rfl]
      refine h.owned.keep (Or.inl ?_) (faulted_update rfl fun hfault => ?_)
      · rw [heldBy, hidle]
        rfl
      · rw [hidle] at hfault
        cases hfault
    case located =>
      intro u k hk
      rcases update_eq_some hk with ⟨-, hnow⟩ | ⟨-, hk⟩
      · cases hnow
        exact hok
      · exact h.located u k hk
  · exact ⟨h.owned_run hl rfl rfl, h.located_run hl rfl rfl⟩
  · constructor
    case owned =>
      rw [heldBy_update rfl]
      refine h.owned.keep (Or.inl ?_) (faulted_update rfl fun hfault => ?_)
      · rw [heldBy_eq hdone]
        rfl
      · rw [hdone] at hfault
        cases hfault
    case located =>
      intro u k hk
      rcases update_eq_some hk with ⟨-, hnow⟩ | ⟨-, hk⟩
      · cases hnow
      · exact h.located u k hk

theorem Only.next {P : Op K V → Prop} (honly : Only P s) (h : Safe H s)
    (hok : ∀ tid op, a = .invoke tid op → P op) (hnext : (program H).next s a = some s') :
    Only P s' := by
  rcases (program H).next_cases hnext with
    ⟨tid, op, rfl, -, rfl⟩ | ⟨tid, l, rfl, hl, -, rfl⟩ | ⟨tid, op, r, rfl, hdone, rfl⟩
  · refine ⟨fun u k o hk ho => ?_, honly.log⟩
    rcases update_eq_some hk with ⟨-, hnow⟩ | ⟨-, hk⟩
    · cases hnow
      cases ho
      exact hok tid op rfl
    · exact honly.threads u k o hk ho
  · refine ⟨fun u k o hk ho => ?_, honly.log⟩
    rcases update_eq_some hk with ⟨-, hnow⟩ | ⟨-, hk⟩
    · cases hnow
      rcases op_step (h.located tid l hl) rfl with hsame | hfault
      · exact honly.threads tid l o hl (hsame.symm.trans ho)
      · have hnone : (none : Option (Op K V)) = some o := (congrArg Local.op hfault).symm.trans ho
        cases hnone
    · exact honly.threads u k o hk ho
  · constructor
    case threads =>
      intro u k o hk ho
      rcases update_eq_some hk with ⟨-, hnow⟩ | ⟨-, hk⟩
      · cases hnow
      · exact honly.threads u k o hk ho
    case log =>
      intro c hc
      rcases List.mem_append.mp hc with hc | hc
      · exact honly.log c hc
      · cases List.mem_singleton.mp hc
        exact honly.threads tid _ op hdone rfl

theorem LocksExist.next (hok : LocksExist s a) (h : ∀ tid, ¬ Faulted s tid)
    (hnext : (program H).next s a = some s') (tid : Nat) : ¬ Faulted s' tid := by
  intro hfault
  rcases (program H).next_cases hnext with
    ⟨u, op, rfl, -, rfl⟩ | ⟨u, l, rfl, hl, -, rfl⟩ | ⟨u, op, r, rfl, -, rfl⟩
  · rcases update_eq_some hfault with ⟨-, hnow⟩ | ⟨-, hbefore⟩
    · cases hnow
    · exact h tid hbefore
  · rcases update_eq_some hfault with ⟨-, hnow⟩ | ⟨-, hbefore⟩
    · have hrange : InRange s.shared l := fun slot hslot => hok slot (by
        rw [requestOf, hl]
        exact hslot)
      have hne : l ≠ .fault := by
        rintro rfl
        exact h u hl
      exact step_ne_fault hrange hne (Option.some.inj hnow)
    · exact h tid hbefore
  · rcases update_eq_some hfault with ⟨-, hnow⟩ | ⟨-, hbefore⟩
    · cases hnow
    · exact h tid hbefore

theorem not_faulted_of_reaches {ok : State K V → Action (Op K V) → Prop}
    (hok : ∀ s a, ok s a → LocksExist s a)
    (h : Reaches (program H).next ok (System.start t) s) (tid : Nat) : ¬ Faulted s tid :=
  h.invariant (I := fun s => ∀ tid, ¬ Faulted s tid) (fun _ => Option.not_mem_none _)
    (fun _ _ _ hs ha hnext => (hok _ _ ha).next hs hnext) tid

theorem Safe.sound_next (h : Safe H s) (hsound : s.shared.Sound H)
    (hnext : (program H).next s a = some s') : s'.shared.Sound H := by
  rcases (program H).next_cases hnext with
    ⟨tid, op, rfl, -, rfl⟩ | ⟨tid, l, rfl, hl, -, rfl⟩ | ⟨tid, op, r, rfl, -, rfl⟩
  · exact hsound
  · have hlocated := h.located tid l hl
    have hstep : step H tid s.shared l =
        (((program H).step tid s.shared l).1, ((program H).step tid s.shared l).2) := rfl
    obtain ⟨u, locks, heffect, hshared⟩ := effect_step hlocated hstep
    rw [hshared]
    exact (hsound.effect hlocated heffect).setLocks locks
  · exact hsound

end Run

end HashComp.LevelHashing
