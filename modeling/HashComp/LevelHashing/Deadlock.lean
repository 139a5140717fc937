import HashComp.LevelHashing.Expansion
import HashComp.Library.Fairness
import Mathlib.Algebra.Order.BigOperators.Group.Finset

namespace HashComp.LevelHashing

open HashComp.Fairness (Path Fair)
open HashComp.Runs
open HashComp.Threads
open HashComp.SpinLocks
open Relation

section Order

variable {K V : Type*} {H : Hashing K} {s s' : State K V} {a : Action (Op K V)}
  {l l' : Local K V} {tid : Nat} {b c : Slot}

/-- A movement wants to free the first slot, and has not come to the second one yet, to
which it may move the item. -/
def Local.Ahead : Local K V → Slot → Slot → Prop
  | .target _ _ m _ i slots, b, c => b = m.source i ∧ c ∈ slots
  | .targetLocked _ _ m _ i _ slots, b, c => b = m.source i ∧ c ∈ slots
  | _, _, _ => False

/-- A movement under way leads from one slot to another. -/
def LeadsTo (s : State K V) (b c : Slot) : Prop :=
  ∃ tid l, s.threads tid = some l ∧ l.Ahead b c

/-- A movement does not get the lock of the slot that it wants to free when the
movements under way lead to this slot from one of those that it may move the item to. -/
def InOrder (H : Hashing K) (s : State K V) (tid : Nat) : Prop :=
  ∀ key value m movements i, s.threads tid = some (.source key value (m :: movements) i) →
    i < assocNum → s.shared.locks (m.source i) = none →
      ∀ x ∈ m.targets H s.shared (s.shared.cells (m.source i)).key,
        ¬ ReflTransGen (LeadsTo s) x (m.source i)

/-- Calls other than `level_resize`, whose locks exist and whose movements take theirs in
an order. -/
def OrderedCalls (H : Hashing K) (s : State K V) : Action (Op K V) → Prop
  | .invoke _ op => op ≠ .resize
  | .run tid => LocksExist s (.run tid) ∧ InOrder H s tid
  | .ret _ => True

theorem OrderedCalls.noResize (h : OrderedCalls H s a) : NoResize s a := by
  cases a with
  | invoke tid op => exact h
  | run | ret => trivial

theorem OrderedCalls.locksExist (h : OrderedCalls H s a) : LocksExist s a := by
  cases a with
  | run tid => exact h.1
  | invoke | ret => trivial

theorem ahead_of_request (hb : b ∈ l.held) (hc : l.request = some c) : l.Ahead b c := by
  cases l with
  | target key value m movements i slots =>
      cases slots with
      | nil => cases hc
      | cons slot slots =>
          cases hc
          exact ⟨List.mem_singleton.mp hb, List.mem_cons_self⟩
  | searchLocked | scanLocked | targetLocked | fill => cases hc
  | called | search | scan | source | resizing | done | fault | exited => cases hb

theorem Safe.leadsTo_of_waits (h : Safe H s) (hb : s.shared.locks b = some tid)
    (hc : requestOf s tid = some c) : LeadsTo s b c := by
  cases hl : s.threads tid with
  | none =>
      rw [requestOf, hl] at hc
      cases hc
  | some l =>
      rw [requestOf, hl] at hc
      rcases h.owned.holder tid b hb with hheld | hfault
      · rw [heldBy_eq hl] at hheld
        exact ⟨tid, l, hl, ahead_of_request hheld hc⟩
      · rw [Faulted, hl] at hfault
        cases hfault
        cases hc

variable {t t' : Table K V}

/-- A thread that is about to begin a movement with a slot. -/
def Local.Begins (H : Hashing K) (t : Table K V) (l : Local K V) (b : Slot)
    (X : Slot → Prop) : Prop :=
  ∃ key value m movements i, l = .source key value (m :: movements) i ∧ i < assocNum ∧
    t.locks (m.source i) = none ∧ b = m.source i ∧
      X = fun c => c ∈ m.targets H t (t.cells (m.source i)).key

theorem Local.Begins.unique {X Y : Slot → Prop} (h : l.Begins H t b X) (h' : l.Begins H t c Y) :
    b = c ∧ X = Y := by
  obtain ⟨key, value, m, movements, i, rfl, -, -, rfl, rfl⟩ := h
  obtain ⟨_, _, _, _, _, heq, -, -, rfl, rfl⟩ := h'
  cases heq
  exact ⟨rfl, rfl⟩

variable [DecidableEq K] [Inhabited K] [Inhabited V]

theorem ahead_of_step (hl : l.Located H t) (hstep : step H tid t l = (t', l'))
    (h : l'.Ahead b c) : l.Ahead b c ∨ ∃ X, l.Begins H t b X ∧ X c := by
  cases l with
  | called op =>
      cases op with
      | search s | insert key value =>
          cases hstep
          cases h
      | resize => exact absurd rfl hl
  | search s slots | scan key value slots =>
      cases slots with
      | nil =>
          cases hstep
          cases h
      | cons slot slots =>
          rcases acquire_cases t tid slot _ _ with heq | heq | ⟨-, heq⟩ <;>
            cases heq.symm.trans hstep <;> cases h
  | searchLocked s slot slots | scanLocked key value slot slots =>
      rw [step] at hstep
      split at hstep <;> cases hstep <;> cases h
  | source key value movements i =>
      cases movements with
      | nil =>
          cases hstep
          cases h
      | cons m movements =>
          rw [step] at hstep
          split at hstep
          · next hi =>
              rcases acquire_cases t tid (m.source i) _ _ with heq | heq | ⟨hfree, heq⟩ <;>
                cases heq.symm.trans hstep
              · cases h
              · cases h
              · exact Or.inr ⟨_, ⟨_, _, _, _, _, rfl, hi, hfree, h.1, rfl⟩, h.2⟩
          · cases hstep
            cases h
  | target key value m movements i slots =>
      cases slots with
      | nil =>
          cases hstep
          cases h
      | cons slot slots =>
          rcases acquire_cases t tid slot _ _ with heq | heq | ⟨-, heq⟩ <;>
            cases heq.symm.trans hstep
          · exact Or.inl h
          · cases h
          · exact Or.inl ⟨h.1, List.mem_cons_of_mem slot h.2⟩
  | targetLocked key value m movements i slot slots =>
      rw [step] at hstep
      split at hstep <;> cases hstep
      · cases h
      · exact Or.inl h
  | fill key value m i =>
      cases hstep
      cases h
  | resizing => cases hl
  | done | fault | exited =>
      cases hstep
      cases h

theorem acyclic_run (h : Safe H s) (hacyclic : Acyclic (LeadsTo s))
    (hl : s.threads tid = some l) (hok : InOrder H s tid)
    (hstep : step H tid s.shared l = (s'.shared, l'))
    (hthreads : s'.threads = Function.update s.threads tid (some l')) :
    Acyclic (LeadsTo s') := by
  have hedge : ∀ b c, LeadsTo s' b c → LeadsTo s b c ∨ ∃ X, l.Begins H s.shared b X ∧ X c := by
    rintro b c ⟨u, k, hk, hahead⟩
    rw [hthreads] at hk
    rcases update_eq_some hk with ⟨-, hnow⟩ | ⟨-, hk⟩
    · cases hnow
      have hbefore := ahead_of_step (h.located tid l hl) hstep hahead
      exact hbefore.imp_left fun hold => ⟨tid, l, hl, hold⟩
    · exact Or.inl ⟨u, k, hk, hahead⟩
  by_cases hbegins : ∃ b X, l.Begins H s.shared b X
  · obtain ⟨a, X, hb⟩ := hbegins
    refine hacyclic.extend (a := a) (X := X) (fun b c hbc => ?_) ?_
    · refine (hedge b c hbc).imp_right ?_
      rintro ⟨Y, hY, hc⟩
      obtain ⟨rfl, rfl⟩ := hY.unique hb
      exact ⟨rfl, hc⟩
    · obtain ⟨key, value, m, movements, i, rfl, hi, hfree, rfl, rfl⟩ := hb
      exact hok key value m movements i hl hi hfree
  · refine hacyclic.mono fun b c hbc => ?_
    rcases hedge b c hbc with hold | ⟨X, hX, -⟩
    · exact hold
    · exact absurd ⟨b, X, hX⟩ hbegins

theorem acyclic_next (h : Safe H s) (hacyclic : Acyclic (LeadsTo s))
    (hok : OrderedCalls H s a) (hnext : (program H).next s a = some s') :
    Acyclic (LeadsTo s') := by
  rcases (program H).next_cases hnext with
    ⟨tid, op, rfl, -, rfl⟩ | ⟨tid, l, rfl, hl, -, rfl⟩ | ⟨tid, op, r, rfl, -, rfl⟩
  · refine hacyclic.mono ?_
    rintro b c ⟨u, k, hk, hahead⟩
    rcases update_eq_some hk with ⟨-, hnow⟩ | ⟨-, hk⟩
    · cases hnow
      cases hahead
    · exact ⟨u, k, hk, hahead⟩
  · exact acyclic_run h hacyclic hl hok.2 rfl rfl
  · refine hacyclic.mono ?_
    rintro b c ⟨u, k, hk, hahead⟩
    rcases update_eq_some hk with ⟨-, hnow⟩ | ⟨-, hk⟩
    · cases hnow
    · exact ⟨u, k, hk, hahead⟩

theorem acyclic_of_reaches (hlocks : ∀ slot, t.locks slot = none)
    (h : Reaches (program H).next (OrderedCalls H) (System.start t) s) :
    Safe H s ∧ Acyclic (LeadsTo s) := by
  refine h.invariant (I := fun s => Safe H s ∧ Acyclic (LeadsTo s)) ⟨Safe.start hlocks, ?_⟩ ?_
  · intro a ha
    obtain ⟨b, ⟨tid, l, hl, -⟩, -⟩ := TransGen.head'_iff.mp ha
    cases hl
  · rintro s a s' ⟨hsafe, hacyclic⟩ hok hnext
    exact ⟨hsafe.next hok.noResize hnext, acyclic_next hsafe hacyclic hok hnext⟩

theorem not_deadlock_of_reaches (hlocks : ∀ slot, t.locks slot = none)
    (h : Reaches (program H).next (OrderedCalls H) (System.start t) s) :
    (∀ tid, ¬ Faulted s tid) ∧ ∀ D, ¬ Deadlock s.shared.locks (requestOf s) D := by
  refine ⟨not_faulted_of_reaches (fun _ _ hok => hok.locksExist) h, fun D hdeadlock => ?_⟩
  have hinv := acyclic_of_reaches hlocks h
  refine not_deadlock ((finite_running h).subset fun tid htid => ?_) hinv.2
    (fun o a a' => hinv.1.leadsTo_of_waits) hdeadlock
  obtain ⟨u, -, -, c, hc, -⟩ := hdeadlock.waits tid htid
  rw [Set.mem_ofPred_eq]
  intro hnone
  rw [requestOf, hnone] at hc
  cases hc

/-- Where the locks exist and movements take them in an order, no thread goes wrong and no
threads wait for each other. -/
theorem not_deadlock_of_ordered (hlocks : ∀ slot, t.locks slot = none)
    (h : Reaches (program H).next (OrderedCalls H) (System.start t) s) :
    (∀ tid, ¬ Faulted s tid) ∧ ∀ D, ¬ Deadlock s.shared.locks (requestOf s) D :=
  not_deadlock_of_reaches hlocks h

end Order

section Progress

variable {K V : Type*} {H : Hashing K} {t t' : Table K V} {s s' : State K V}
  {a : Action (Op K V)} {l l' : Local K V} {tid : Nat} {slot : Slot} {T : Finset Nat}

def Local.rank : Local K V → Nat
  | .called _ => 600
  | .search _ slots => 2 * slots.length + 2
  | .searchLocked _ _ slots => 2 * slots.length + 3
  | .scan _ _ slots => 2 * slots.length + 560
  | .scanLocked _ _ _ slots => 2 * slots.length + 561
  | .source _ _ movements i => 80 * movements.length + 19 * (assocNum - i) + 3
  | .target _ _ _ movements i slots =>
      80 * (movements.length + 1) + 19 * (assocNum - (i + 1)) + 2 * slots.length + 4
  | .targetLocked _ _ _ movements i _ slots =>
      80 * (movements.length + 1) + 19 * (assocNum - (i + 1)) + 2 * slots.length + 5
  | .fill _ _ _ _ | .resizing => 2
  | .done _ _ => 1
  | .fault | .exited => 0

theorem length_searchOrder (key : K) : (t.searchOrder H key).length = 16 := by
  simp [Table.searchOrder, consecutive, assocNum]

theorem length_insertOrder (key : K) : (t.insertOrder H key).length = 16 := by
  simp [Table.insertOrder, alternating, assocNum]

theorem length_movements_le (key : K) : (t.movements H key).length ≤ 6 := by
  rw [Table.movements, List.length_append]
  split <;> simp

theorem length_targets_le (m : Movement) (key : K) : (m.targets H t key).length ≤ 8 := by
  cases m <;> simp [Movement.targets, alternating, assocNum]

theorem rank_acquire {locked : Local K V} (hlt : locked.rank < l.rank) :
    t.acquire tid slot l locked = (t, l) ∨ (t.acquire tid slot l locked).2.rank < l.rank := by
  rcases acquire_cases t tid slot l locked with heq | heq | ⟨-, heq⟩ <;> rw [heq]
  · exact Or.inl rfl
  · exact Or.inr (Nat.zero_lt_of_lt hlt)
  · exact Or.inr hlt

variable [DecidableEq K] [Inhabited K] [Inhabited V]

theorem rank_step (tid : Nat) (t : Table K V) (l : Local K V) :
    step H tid t l = (t, l) ∨ (step H tid t l).2.rank < l.rank := by
  cases l with
  | called op =>
      refine Or.inr ?_
      cases op with
      | search s =>
          have := length_searchOrder (H := H) (t := t) s.key
          simp only [step, Local.rank]
          omega
      | insert key value =>
          have := length_insertOrder (H := H) (t := t) key
          simp only [step, Local.rank]
          omega
      | resize => simp [step, Local.rank]
  | search s slots =>
      cases slots with
      | nil => exact Or.inr (by simp [step, Local.rank])
      | cons slot slots => exact rank_acquire (by simp only [Local.rank, List.length_cons]; omega)
  | searchLocked s slot slots =>
      rw [step]
      split <;> simp only [Local.rank] <;> omega
  | scan key value slots =>
      cases slots with
      | nil =>
          have := length_movements_le (H := H) (t := t) key
          simp only [step, Local.rank, assocNum]
          omega
      | cons slot slots => exact rank_acquire (by simp only [Local.rank, List.length_cons]; omega)
  | scanLocked key value slot slots =>
      rw [step]
      split <;> simp only [Local.rank] <;> omega
  | source key value movements i =>
      cases movements with
      | nil =>
          simp only [step, Local.rank]
          omega
      | cons m movements =>
          rw [step]
          split
          · next hi =>
              refine rank_acquire ?_
              have := length_targets_le (H := H) (t := t) m (t.cells (m.source i)).key
              simp only [Local.rank, List.length_cons, assocNum] at hi ⊢
              omega
          · simp only [Local.rank, List.length_cons, assocNum]
            omega
  | target key value m movements i slots =>
      cases slots with
      | nil =>
          simp only [step, Local.rank, List.length_cons]
          omega
      | cons slot slots => exact rank_acquire (by simp only [Local.rank, List.length_cons]; omega)
  | targetLocked key value m movements i slot slots =>
      rw [step]
      split <;> simp only [Local.rank] <;> omega
  | fill key value m i => exact Or.inr (by simp [step, Local.rank])
  | resizing =>
      rw [step]
      split <;> exact Or.inr (by simp [Local.rank])
  | done | fault | exited => exact Or.inl rfl

def rankIn (T : Finset Nat) (s : State K V) : Nat :=
  T.sum fun tid => (s.threads tid).elim 0 Local.rank

omit [DecidableEq K] [Inhabited K] [Inhabited V] in
theorem rankIn_update {o : Option (Local K V)} (htid : tid ∈ T)
    (hthreads : s'.threads = Function.update s.threads tid o)
    (hlt : o.elim 0 Local.rank < (s.threads tid).elim 0 Local.rank) :
    rankIn T s' < rankIn T s := by
  refine Finset.sum_lt_sum (fun u _ => ?_) ⟨tid, htid, ?_⟩
  · rw [hthreads]
    by_cases hu : u = tid
    · subst hu
      rw [Function.update_self]
      exact Nat.le_of_lt hlt
    · rw [Function.update_of_ne hu]
  · rwa [hthreads, Function.update_self]

theorem rankIn_next (hcovers : ∀ tid, s.threads tid ≠ none → tid ∈ T)
    (hquiet : ∀ tid op, a ≠ .invoke tid op) (hnext : (program H).next s a = some s') :
    s' = s ∨ rankIn T s' < rankIn T s := by
  rcases (program H).next_cases hnext with
    ⟨tid, op, rfl, -, rfl⟩ | ⟨tid, l, rfl, hl, -, rfl⟩ | ⟨tid, op, r, rfl, hdone, rfl⟩
  · exact absurd rfl (hquiet tid op)
  · have htid : tid ∈ T := hcovers tid (by rw [hl]; exact nofun)
    rcases rank_step (H := H) tid s.shared l with hsame | hlt
    · left
      have hthread : (step H tid s.shared l).2 = l := congrArg Prod.snd hsame
      have hshared : (step H tid s.shared l).1 = s.shared := congrArg Prod.fst hsame
      change { s with
        shared := (step H tid s.shared l).1
        threads := Function.update s.threads tid (some (step H tid s.shared l).2) } = s
      rw [hthread, hshared, ← hl, Function.update_eq_self]
    · exact Or.inr (rankIn_update htid rfl (by rw [hl]; exact hlt))
  · have htid : tid ∈ T := hcovers tid (by rw [hdone]; exact nofun)
    exact Or.inr (rankIn_update htid rfl (by rw [hdone]; exact Nat.one_pos))

theorem locked_of_waiting (hop : l.op ≠ none) (hbusy : l.returned = none)
    (hstep : step H tid t l = (t, l)) : ∃ slot o, l.request = some slot ∧ t.locks slot = some o := by
  have hacquire : ∀ slot locked, t.acquire tid slot l locked = (t, l) → locked ≠ l →
      ∃ o, t.locks slot = some o := by
    intro slot locked heq hne
    rw [Table.acquire] at heq
    split at heq
    · cases hlock : t.locks slot with
      | none =>
          rw [hlock] at heq
          exact absurd (congrArg Prod.snd heq) hne
      | some o => exact ⟨o, rfl⟩
    · have hfault : Local.fault = l := congrArg Prod.snd heq
      rw [← hfault] at hop
      exact absurd rfl hop
  have hlower : ¬ (step H tid t l).2.rank < l.rank := by
    rw [hstep]
    exact Nat.lt_irrefl _
  cases l with
  | called op =>
      cases op <;> cases congrArg Prod.snd hstep
  | search s slots | scan key value slots | target key value m movements i slots =>
      cases slots with
      | nil => cases congrArg Prod.snd hstep
      | cons slot slots =>
          obtain ⟨o, ho⟩ := hacquire slot _ hstep (by simp)
          exact ⟨slot, o, rfl, ho⟩
  | searchLocked | scanLocked | targetLocked =>
      rw [step] at hstep
      split at hstep <;> cases congrArg Prod.snd hstep
  | source key value movements i =>
      cases movements with
      | nil => cases congrArg Prod.snd hstep
      | cons m movements =>
          rw [step] at hstep
          split at hstep
          · next hi =>
              obtain ⟨o, ho⟩ := hacquire _ _ hstep (by simp)
              exact ⟨_, o, if_pos hi, ho⟩
          · next hi =>
              rw [step, if_neg hi] at hlower
              simp only [Local.rank, List.length_cons, assocNum] at hlower
              omega
  | fill => cases congrArg Prod.snd hstep
  | resizing =>
      rw [step] at hstep
      split at hstep <;> cases congrArg Prod.snd hstep
  | done => cases hbusy
  | fault | exited => exact absurd rfl hop

/-- A call of the thread is under way. -/
def Underway (s : State K V) (tid : Nat) : Prop :=
  ∃ l, s.threads tid = some l ∧ l.op ≠ none ∧ l.returned = none

omit [DecidableEq K] [Inhabited K] [Inhabited V] in
theorem underway_of_held {x : Slot} (hx : x ∈ heldBy s tid) : Underway s tid := by
  cases hl : s.threads tid with
  | none =>
      rw [heldBy, hl] at hx
      cases hx
  | some l =>
      rw [heldBy_eq hl] at hx
      refine ⟨l, hl, ?_⟩
      cases l with
      | searchLocked | scanLocked | target | targetLocked | fill =>
          exact ⟨Option.some_ne_none _, rfl⟩
      | called | search | scan | source | resizing | done | fault | exited => cases hx

theorem deadlock_of_waiting (h : Safe H s) (hacyclic : Acyclic (LeadsTo s))
    (hfaulted : ∀ tid, ¬ Faulted s tid) (hsome : Underway s tid)
    (hwaits : ∀ tid l, s.threads tid = some l → Underway s tid →
      step H tid s.shared l = (s.shared, l)) :
    Deadlock s.shared.locks (requestOf s) {tid | Underway s tid} := by
  refine ⟨⟨tid, hsome⟩, fun u hu => ?_⟩
  obtain ⟨l, hl, hop, hbusy⟩ := hu
  obtain ⟨slot, o, hrequest, hlock⟩ := locked_of_waiting hop hbusy
    (hwaits u l hl ⟨l, hl, hop, hbusy⟩)
  have hheld := (h.owned.holder o slot hlock).resolve_right (hfaulted o)
  have hwants : requestOf s u = some slot := by
    rw [requestOf, hl]
    exact hrequest
  refine ⟨o, underway_of_held hheld, ?_, slot, hwants, hlock⟩
  rintro rfl
  rw [heldBy_eq hl] at hheld
  exact hacyclic slot (TransGen.single ⟨o, l, hl, ahead_of_request hheld hrequest⟩)

/-- When movements take their locks in an order, a fair run with finitely many calls comes
to rest, with no call under way. -/
theorem exists_rested {ok : State K V → Action (Op K V) → Prop}
    (hok : ∀ s a, ok s a → OrderedCalls H s a) (hlocks : ∀ slot, t.locks slot = none)
    {path : Path (program H).next ok} (hstart : path.state 0 = System.start t)
    (hfair : Fair Action.thread Underway path) {N : Nat}
    (hquiet : ∀ n tid op, N ≤ n → path.action n ≠ some (.invoke tid op)) (n : Nat) :
    ∃ m, n ≤ m ∧ ∀ tid, ¬ Underway (path.state m) tid := by
  have hreaches : ∀ m, Reaches (program H).next (OrderedCalls H) (System.start t) (path.state m) :=
    fun m => hstart ▸ (path.reaches (Nat.zero_le m)).mono hok
  let T := (finite_running (hreaches (N + n))).toFinset
  let later := path.drop (fun _ a => ∀ tid op, a ≠ .invoke tid op) (N + n)
    fun m a hm ha tid op heq => hquiet m tid op (by omega) (heq ▸ ha)
  have hcovers : ∀ m tid, (later.state m).threads tid ≠ none → tid ∈ T := by
    refine fun m => later.stable (I := fun _ => True)
      (P := fun s => ∀ tid, s.threads tid ≠ none → tid ∈ T) (fun _ => trivial) ?_ (Nat.zero_le m)
      fun tid htid => (finite_running (hreaches (N + n))).mem_toFinset.mpr htid
    intro s a s' _ hs hnew hnext tid htid
    refine hs tid fun hnone => htid ?_
    rcases (program H).next_cases hnext with
      ⟨u, op, rfl, -, rfl⟩ | ⟨u, l, rfl, hl, -, rfl⟩ | ⟨u, op, r, rfl, -, rfl⟩
    · exact absurd rfl (hnew u op)
    · have hne : tid ≠ u := by
        rintro rfl
        rw [hl] at hnone
        cases hnone
      exact (Function.update_of_ne hne ..).trans hnone
    · by_cases htu : tid = u
      · subst htu
        exact Function.update_self ..
      · exact (Function.update_of_ne htu ..).trans hnone
  obtain ⟨m, -, hrests⟩ := later.settles hcovers (rankIn T)
    (fun s a s' hs hnew hnext => rankIn_next hs hnew hnext) 0
  refine ⟨N + n + m, by omega, fun tid hunderway => ?_⟩
  have hinv := acyclic_of_reaches hlocks (hreaches (N + n + m))
  obtain ⟨hfaulted, hnot⟩ := not_deadlock_of_reaches hlocks (hreaches (N + n + m))
  refine hnot _ (deadlock_of_waiting hinv.1 hinv.2 hfaulted hunderway ?_)
  intro u l hl hu
  obtain ⟨i, hi, a, ha, rfl⟩ := hfair (N + n + m) u hu
  obtain ⟨j, rfl⟩ := Nat.exists_eq_add_of_le hi
  have hsame : path.state (N + n + m + j) = path.state (N + n + m) := by
    rw [Nat.add_assoc]
    exact hrests (m + j) (Nat.le_add_right m j)
  have hsame' : path.state (N + n + m + j + 1) = path.state (N + n + m) := by
    rw [Nat.add_assoc, Nat.add_assoc]
    exact hrests (m + (j + 1)) (Nat.le_add_right m _)
  have hnext := (path.acts _ a ha).2
  rw [hsame, hsame'] at hnext
  rcases (program H).next_cases hnext with
    ⟨v, op, rfl, -, -⟩ | ⟨v, k, rfl, hk, -, heq⟩ | ⟨v, op, r, rfl, hdone, -⟩
  · exact absurd ha (hquiet _ v op (by omega))
  · obtain rfl := Option.some.inj (hk.symm.trans hl)
    have hshared := congrArg System.shared heq
    have hthread := (congrFun (congrArg System.threads heq) v).trans (Function.update_self ..)
    have hlocal := Option.some.inj (hk.symm.trans hthread)
    exact Prod.ext hshared.symm hlocal.symm
  · obtain ⟨k, hk, -, hbusy⟩ := hu
    cases hk.symm.trans hdone
    cases hbusy

end Progress

section Inserter

variable {K V : Type*} {H : Hashing K} {t : Table K V} {s s' : State K V}
  {a : Action (Op K V)} {w : Nat}

def OneInserter (w : Nat) (s : State K V) : Action (Op K V) → Prop
  | .invoke tid (.insert _ _) => tid = w
  | .invoke _ (.search _) | .ret _ => True
  | .invoke _ .resize => False
  | .run tid => LocksExist s (.run tid)

instance (w : Nat) (s : State K V) : DecidablePred (OneInserter w s)
  | .invoke tid (.insert _ _) => inferInstanceAs (Decidable (tid = w))
  | .invoke _ (.search _) | .ret _ => .isTrue trivial
  | .invoke _ .resize => .isFalse id
  | .run tid => inferInstanceAs (Decidable (LocksExist s (.run tid)))

structure OneMover (H : Hashing K) (w : Nat) (s : State K V) : Prop where
  safe : Safe H s
  sound : s.shared.Sound H
  inserter : ∀ tid l key value, s.threads tid = some l → l.op = some (.insert key value) → tid = w

theorem OneInserter.noResize (h : OneInserter w s a) : NoResize s a := by
  cases a with
  | invoke tid op =>
      rintro rfl
      exact h
  | run | ret => trivial

theorem OneMover.inOrder (h : OneMover H w s) (tid : Nat) : InOrder H s tid := by
  intro key value m movements i hl hi hfree x hx hleads
  have hw := h.inserter tid _ key value hl rfl
  have hnone : ∀ b c, ¬ LeadsTo s b c := by
    rintro b c ⟨u, l, hu, hahead⟩
    have hmover : ∀ key value, l.op = some (.insert key value) → False := by
      intro key' value' hop
      have huw := h.inserter u l key' value' hu hop
      rw [huw, ← hw, hl] at hu
      cases hu
      cases hahead
    cases l with
    | target key' value' | targetLocked key' value' => exact hmover key' value' rfl
    | called | search | searchLocked | scan | scanLocked | source | fill | resizing | done
    | fault | exited => cases hahead
  obtain rfl | ⟨y, hxy, -⟩ := ReflTransGen.cases_head hleads
  · exact source_notMem_targets h.sound.half_pos _ _ hx
  · exact hnone x y hxy

variable [DecidableEq K] [Inhabited K] [Inhabited V]

theorem OneMover.next (h : OneMover H w s) (hok : OneInserter w s a)
    (hnext : (program H).next s a = some s') : OneMover H w s' := by
  refine ⟨h.safe.next hok.noResize hnext, h.safe.sound_next h.sound hnext, ?_⟩
  intro u l key value hl hop
  rcases (program H).next_cases hnext with
    ⟨tid, op, rfl, -, rfl⟩ | ⟨tid, k, rfl, hk, -, rfl⟩ | ⟨tid, op, r, rfl, -, rfl⟩
  · rcases update_eq_some hl with ⟨rfl, hnow⟩ | ⟨-, hl⟩
    · cases hnow
      cases hop
      exact hok
    · exact h.inserter u l key value hl hop
  · rcases update_eq_some hl with ⟨rfl, hnow⟩ | ⟨-, hl⟩
    · rcases op_step (h.safe.located u k hk) rfl with hsame | hfault
      · rw [← Option.some.inj hnow] at hop
        exact h.inserter u k key value hk (hsame.symm.trans hop)
      · rw [← Option.some.inj hnow] at hop
        cases (congrArg Local.op hfault).symm.trans hop
    · exact h.inserter u l key value hl hop
  · rcases update_eq_some hl with ⟨-, hnow⟩ | ⟨-, hl⟩
    · cases hnow
    · exact h.inserter u l key value hl hop

theorem ordered_of_oneInserter (hsound : t.Sound H) (hlocks : ∀ slot, t.locks slot = none)
    (h : Reaches (program H).next (OneInserter w) (System.start t) s) :
    Reaches (program H).next (OrderedCalls H) (System.start t) s ∧ OneMover H w s := by
  induction h with
  | refl => exact ⟨Reaches.refl _, Safe.start hlocks, hsound, fun _ _ _ _ hl => nomatch hl⟩
  | tail _ hlast ih =>
      obtain ⟨hreaches, hmover⟩ := ih
      obtain ⟨a, hok, hnext⟩ := hlast
      refine ⟨hreaches.tail ?_ hnext, hmover.next hok hnext⟩
      cases a with
      | invoke tid op => exact hok.noResize
      | run tid => exact ⟨hok, hmover.inOrder tid⟩
      | ret tid => trivial

def movingRun : List (Action (Op Nat Nat)) :=
  .invoke 0 (.insert 64 0) :: (List.replicate 35 (.run 0) ++
    [.invoke 1 (.search (.query 2)), .run 1, .run 0, .run 0, .run 1])

/-- A query waits for a movement, which has moved the key of the query. -/
theorem query_waits : ∃ s : State Nat Nat,
    s.threads 0 = some (.fill 64 0 (.tryMovement .top 0) 0) ∧ s.shared.holds 2 ⟨.top, 3, 0⟩ = true ∧
      Waits s.shared.locks (requestOf s) 1 0 ∧ ∀ D, ¬ Deadlock s.shared.locks (requestOf s) D := by
  have hidle : revived.Idle bits := idle_of_reached (by decide) reached_revived.1
  have hadmits : Admits (program bits).next (OneInserter 0) (System.start revived) movingRun := by
    decide +kernel
  obtain ⟨s, hs, hfill, hholds, hrequest, hlock⟩ : ∃ s,
      runActions (program bits).next (System.start revived) movingRun = some s ∧
        s.threads 0 = some (.fill 64 0 (.tryMovement .top 0) 0) ∧
          s.shared.holds 2 ⟨.top, 3, 0⟩ = true ∧ requestOf s 1 = some ⟨.top, 0, 0⟩ ∧
            s.shared.locks ⟨.top, 0, 0⟩ = some 0 := by
    have hrun : ((runActions (program bits).next (System.start revived) movingRun).any fun s =>
        decide (s.threads 0 = some (.fill 64 0 (.tryMovement .top 0) 0) ∧
          s.shared.holds 2 ⟨.top, 3, 0⟩ = true ∧ requestOf s 1 = some ⟨.top, 0, 0⟩ ∧
            s.shared.locks ⟨.top, 0, 0⟩ = some 0)) = true := by
      decide +kernel
    obtain ⟨s, hs, hs'⟩ := (Option.any_eq_true _ _).mp hrun
    exact ⟨s, hs, of_decide_eq_true hs'⟩
  have hordered := (ordered_of_oneInserter hidle.sound hidle.unlocked
    (reaches_of_runActions hadmits hs)).1
  exact ⟨s, hfill, hholds, ⟨_, hrequest, hlock⟩,
    (not_deadlock_of_ordered hidle.unlocked hordered).2⟩

end Inserter

section Crossing

variable {K V : Type*} [DecidableEq K] [Inhabited K] [Inhabited V] {H : Hashing K}
  {t : Table K V} {key key' : K} {m m' m₀ : Movement}
  {movements movements' : List Movement} {slots slots' : List Slot}

/-- Two insertions find all slots of their keys taken.  The first movement of one of them
and the second movement of the other want to free slots to which the other would move its
item. -/
theorem deadlock_of_crossing (value value' : V) (hidle : t.Idle H)
    (hcovered : ∀ tid op, Covered H tid t (.called op))
    (hfull : t.firstFree (t.insertOrder H key) = none)
    (hfull' : t.firstFree (t.insertOrder H key') = none)
    (hmovements : t.movements H key = m :: movements)
    (hmovements' : t.movements H key' = m₀ :: m' :: movements')
    (hmiss : ∀ j < assocNum, t.moveTarget H m₀ j = none)
    (htargets : m.targets H t (t.cells (m.source 0)).key = m'.source 0 :: slots)
    (htargets' : m'.targets H t (t.cells (m'.source 0)).key = m.source 0 :: slots') :
    ∃ s, Reaches (program H).next NoResize (System.start t) s ∧
      Deadlock s.shared.locks (requestOf s) {0, 1} := by
  have hrun : ∀ tid (s : State K V), NoResize s (.run tid) := fun _ _ => trivial
  have hne : m.source 0 ≠ m'.source 0 := by
    intro heq
    have hmem : m'.source 0 ∈ m.targets H t (t.cells (m.source 0)).key := by
      rw [htargets]
      exact List.mem_cons_self
    rw [← heq] at hmem
    exact source_notMem_targets hidle.sound.half_pos _ _ hmem
  -- the first thread comes to its movements
  have hfirst := leads_insert_full hidle.unlocked hfull (hcovered 0 (.insert key value))
  have hcoverFirst := (hcovered 0 (.insert key value)).leads hfirst
  rw [hmovements] at hfirst hcoverFirst
  have hcallFirst : NoResize (System.start t) (.invoke 0 (.insert key value)) := nofun
  obtain ⟨s₁, hreaches₁, hshared₁, hthreads₁, -⟩ :=
    Program.reaches_call hcallFirst (hrun 0) rfl hfirst
  -- the second thread comes to its second movement and takes the lock of its slot
  have hsecond := leads_insert_full hidle.unlocked hfull' (hcovered 1 (.insert key' value'))
  have hcoverSecond := (hcovered 1 (.insert key' value')).leads hsecond
  rw [hmovements'] at hsecond hcoverSecond
  have hmissed := leads_movement_miss hidle.unlocked hidle.sound.half_pos hmiss hcoverSecond
  have hlock : step H 1 t (.source key' value' (m' :: movements') 0) =
      (t.lock 1 (m'.source 0), .target key' value' m' movements' 0 (m.source 0 :: slots')) := by
    rw [step, if_pos (by decide), htargets']
    exact acquire_of_free ((hcoverSecond.leads hmissed).inRange _ rfl) (hidle.unlocked _)
  have hidle₁ : s₁.threads 1 = none := by
    rw [hthreads₁]
    rfl
  have hcall := hsecond.trans (hmissed.trans (leads_of_step hlock (Leads.refl _)))
  rw [← hshared₁] at hcall
  have hcallSecond : NoResize s₁ (.invoke 1 (.insert key' value')) := nofun
  obtain ⟨s₂, hreaches₂, hshared₂, hthreads₂, -⟩ :=
    Program.reaches_call hcallSecond (hrun 1) hidle₁ hcall
  -- the first thread takes the lock of its slot
  have hlock' : step H 0 s₂.shared (.source key value (m :: movements) 0) =
      (s₂.shared.lock 0 (m.source 0), .target key value m movements 0 (m'.source 0 :: slots)) := by
    rw [hshared₂, hshared₁]
    have hsame : SameShape t (t.lock 1 (m'.source 0)) := ⟨rfl, rfl, rfl, rfl, rfl⟩
    rw [step, if_pos (by decide), lock_cells, hsame.targets, htargets]
    exact acquire_of_free (hcoverFirst.inRange _ rfl)
      ((Function.update_of_ne hne ..).trans (hidle.unlocked _))
  have hhere : s₂.threads 0 = some (.source key value (m :: movements) 0) := by
    rw [hthreads₂, hthreads₁]
    rfl
  obtain ⟨s₃, hreaches₃, hshared₃, hthreads₃, -⟩ :=
    Program.reaches_run (hrun 0) hhere (leads_of_step hlock' (Leads.refl _))
  refine ⟨s₃, (hreaches₁.trans hreaches₂).trans hreaches₃, ⟨0, Or.inl rfl⟩, ?_⟩
  rintro tid (rfl | rfl)
  · refine ⟨1, Or.inr rfl, by decide, m'.source 0, ?_, ?_⟩
    · rw [requestOf, hthreads₃]
      rfl
    · rw [hshared₃, hshared₂, hshared₁]
      exact (Function.update_of_ne hne.symm ..).trans (Function.update_self ..)
  · refine ⟨0, Or.inl rfl, by decide, m.source 0, ?_, ?_⟩
    · rw [requestOf, hthreads₃, hthreads₂]
      rfl
    · rw [hshared₃]
      exact Function.update_self ..

def crowded : Table Nat Nat :=
  loaded 2 ((List.range 16).map fun i => (4 * i, i))

theorem reached_crowded : Reached bits 0 (levelInit 2) crowded ∧ crowded.levelSize = 2 :=
  reached_loaded (by decide) _

theorem crowded_full : crowded.firstFree (crowded.insertOrder bits 64) = none ∧
    crowded.firstFree (crowded.insertOrder bits 68) = none := by
  rw [← Option.isNone_iff_eq_none, ← Option.isNone_iff_eq_none]
  decide +kernel

theorem crowded_movements :
    (∀ key ∈ [64, 68], crowded.movements bits key = [.tryMovement .top 0, .tryMovement .top 2,
      .tryMovement .bottom 0, .tryMovement .bottom 1]) ∧
    ∀ j < assocNum, crowded.moveTarget bits (.tryMovement .top 0) j = none := by
  decide +kernel

theorem crowded_targets :
    (Movement.tryMovement .top 0).targets bits crowded
        (crowded.cells ((Movement.tryMovement .top 0).source 0)).key =
      (Movement.tryMovement .top 2).source 0 :: [⟨.top, 2, 1⟩, ⟨.top, 2, 2⟩, ⟨.top, 2, 3⟩] ∧
    (Movement.tryMovement .top 2).targets bits crowded
        (crowded.cells ((Movement.tryMovement .top 2).source 0)).key =
      (Movement.tryMovement .top 0).source 0 :: [⟨.top, 0, 1⟩, ⟨.top, 0, 2⟩, ⟨.top, 0, 3⟩] := by
  decide +kernel

/-- Two insertions at once into a table that has taken sixteen keys with the same
buckets. -/
theorem insertions_deadlock : ∃ (t : Table Nat Nat) (s : State Nat Nat),
    Reached bits 0 (levelInit 2) t ∧
      Reaches (program bits).next NoResize (System.start t) s ∧
        Deadlock s.shared.locks (requestOf s) {0, 1} := by
  have hidle : crowded.Idle bits := idle_of_reached (by decide) reached_crowded.1
  have hcovered : ∀ tid op, Covered bits tid crowded (.called op) :=
    covered_of_reached (by decide) reached_crowded.1 reached_crowded.2
  obtain ⟨s, hs, hdeadlock⟩ := deadlock_of_crossing 0 0 hidle hcovered crowded_full.1
    crowded_full.2 (crowded_movements.1 64 (by decide)) (crowded_movements.1 68 (by decide))
    crowded_movements.2 crowded_targets.1 crowded_targets.2
  exact ⟨crowded, s, reached_crowded.1, hs, hdeadlock⟩

end Crossing

end HashComp.LevelHashing
