import HashComp.LockFree.Sequential

namespace HashComp.LockFree

open HashComp.Epoch
open HashComp.HashTrie
open HashComp.LevelHash
open HashComp.Operations
open HashComp.Runs
open HashComp.SlotTrie
open HashComp.Threads

section Landing

variable {K T : Type*} (L : Layout K) (slots : Slots Nat) (hash : BitVec 64)

/-- The slot that ends the walk of a locator which still tries `fuel` levels: the
first one that holds no array. -/
def landing : Nat → Nat → Option Path → Option (Slot Nat)
  | 0, _, _ => none
  | fuel + 1, level, currArr =>
      match slotAddress L hash level currArr with
      | none => none
      | some p =>
          match slots p with
          | .array => landing fuel (level + 1) (some p)
          | s => some s

def landingAt (fuel level : Nat) (pos : Slot Nat) (p : Path) : Option (Slot Nat) :=
  match pos with
  | .array => landing L slots hash fuel (level + 1) (some p)
  | s => some s

/-- The walk of the call over the table ends as a hit.  `Insert` has no miss. -/
def Hits (t : Table K T) : Op K T → Prop
  | .mutate (.insert _ _) => True
  | .mutate m => ∃ a, landing L t.slots (L.hasher m.key) maxLevel 0 none = some (.data a)
  | .get key => ∃ a, landing L t.slots (L.hasher key) maxLevel 0 none = some (.data a) ∧
      (t.heap a).hash = L.hasher key

variable {L slots hash}

theorem landing_of_address {fuel level : Nat} {currArr : Option Path} {p : Path}
    (hp : slotAddress L hash level currArr = some p) :
    landing L slots hash (fuel + 1) level currArr =
      landingAt L slots hash fuel level (slots p) p := by
  simp only [landing, hp, landingAt]

end Landing

section Balance

variable {K T : Type*} {L : Layout K} {tid : Nat} {t t' : Table K T} {m : Mutation K T}
  {op : Op K T} {x : Table K T × Local K T}

/-- The thread is unprotected and its reentrant count is zero. -/
def Idle (tid : Nat) (t : Table K T) : Prop :=
  t.epoch.table tid = ⟨0, 0⟩

def Inside (tid : Nat) (t : Table K T) : Prop :=
  (t.epoch.table tid).reentrant = 1

/-- A call that is under way in the table `x.1` and began in the idle table `t`:
what its place says about the entry of the thread and the walk. -/
def Underway (L : Layout K) (tid : Nat) (t : Table K T) (op : Op K T)
    (x : Table K T × Local K T) : Prop :=
  match x.2 with
  | .level m n currArr => op = .mutate m ∧ Idle tid x.1 ∧
      ((∀ key mapped, m ≠ .insert key mapped) → x.1.slots = t.slots ∧
        landing L t.slots (L.hasher m.key) (maxLevel - n) n currArr =
          landing L t.slots (L.hasher m.key) maxLevel 0 none)
  | .attempt m n _ pos _ p => op = .mutate m ∧ Idle tid x.1 ∧
      ((∀ key mapped, m ≠ .insert key mapped) → x.1.slots = t.slots ∧ pos = t.slots p ∧
        landingAt L t.slots (L.hasher m.key) (maxLevel - (n + 1)) n pos p =
          landing L t.slots (L.hasher m.key) maxLevel 0 none)
  | .miss m => op = .mutate m ∧ Idle tid x.1 ∧ ¬ Hits L t op
  | .bump m _ | .register m _ _ _ => op = .mutate m ∧ Idle tid x.1 ∧ Hits L t op
  | .getEnter key => op = .get key ∧ Idle tid x.1 ∧ x.1 = t
  | .getLevel key n currArr => op = .get key ∧ Inside tid x.1 ∧ x.1.toTrie = t.toTrie ∧
      landing L t.slots (L.hasher key) (maxLevel - n) n currArr =
        landing L t.slots (L.hasher key) maxLevel 0 none
  | .getCheck key n pos p => op = .get key ∧ Inside tid x.1 ∧ x.1.toTrie = t.toTrie ∧
      landingAt L t.slots (L.hasher key) (maxLevel - (n + 1)) n pos p =
        landing L t.slots (L.hasher key) maxLevel 0 none
  | .getFound key _ => op = .get key ∧ Inside tid x.1 ∧ Hits L t op
  | .getMiss key => op = .get key ∧ Inside tid x.1 ∧ ¬ Hits L t op
  | .done op' _ => op' = op ∧ (Idle tid x.1 ↔ Hits L t op)
  | .fault => True

theorem reentrantProtect_inside {e : LightEpoch Nat} (h : e.table tid = ⟨0, 0⟩) :
    ((e.reentrantProtect tid).table tid).reentrant = 1 := by
  simp [LightEpoch.reentrantProtect, LightEpoch.setEntry, h]

theorem reentrantProtect_not_idle {e : LightEpoch Nat} (h : (e.table tid).reentrant = 1) :
    (e.reentrantProtect tid).table tid ≠ ⟨0, 0⟩ := by
  unfold LightEpoch.reentrantProtect
  split
  · intro hidle
    rw [hidle] at h
    exact absurd h (by decide)
  · simp [LightEpoch.setEntry, h]

theorem reentrantUnprotect_idle {e : LightEpoch Nat} (h : (e.table tid).reentrant = 1) :
    (e.reentrantUnprotect tid).table tid = ⟨0, 0⟩ := by
  simp [LightEpoch.reentrantUnprotect, LightEpoch.setEntry, h]

theorem tryRegister_table {e : LightEpoch Nat} {i prior old : Nat}
    {r : LightEpoch Nat × List (Nat × Nat)} (hr : e.tryRegister i prior old = some r) :
    r.1.table = e.table :=
  (tryRegister_spec hr).1

theorem hits_mutate (hm : ∀ key mapped, m ≠ .insert key mapped) :
    Hits L t (.mutate m) ↔
      ∃ a, landing L t.slots (L.hasher m.key) maxLevel 0 none = some (.data a) := by
  cases m with
  | insert key mapped => exact absurd rfl (hm key mapped)
  | update | remove => exact Iff.rfl

theorem Idle.of_epoch (h : Idle tid t) (hepoch : t'.epoch.table = t.epoch.table) :
    Idle tid t' := by
  rw [Idle, hepoch]
  exact h

theorem underway_retry {key : K} {mapped : T} {u : Table K T} (h : Idle tid u)
    (level fail : Nat) (pos : Slot Nat) (currArr : Option Path) (p : Path) :
    Underway L tid t (.mutate (.insert key mapped))
      (u, retry (.insert key mapped) level fail pos currArr p) := by
  unfold retry
  split
  · exact ⟨rfl, fun _ => trivial, fun _ => h⟩
  · exact ⟨rfl, h, fun hm => absurd rfl (hm key mapped)⟩

theorem underway_insert {key : K} {mapped : T} {u : Table K T} (h : Idle tid u)
    (level fail : Nat) (pos : Slot Nat) (currArr : Option Path) (p : Path) :
    Underway L tid t (.mutate (.insert key mapped))
      (attempt L tid u (.insert key mapped) level fail pos currArr p) := by
  have hdone {w : Table K T} {b : Bool} (hw : Idle tid w) :
      Underway L tid t (.mutate (.insert key mapped))
        (w, .done (.mutate (.insert key mapped)) (.bool b)) :=
    ⟨rfl, fun _ => trivial, fun _ => hw⟩
  have hnew : (newDataNode L tid u key mapped).2.epoch.table = u.epoch.table := by
    rw [newDataNode_epoch]
  cases pos with
  | null =>
      simp only [attempt]
      split
      · exact hdone (h.of_epoch hnew)
      · have hlost : Idle tid (pushData tid (newDataNode L tid u key mapped).2
            (newDataNode L tid u key mapped).1) := h.of_epoch hnew
        exact underway_retry hlost ..
  | data old =>
      simp only [attempt]
      split
      · exact hdone h
      · split
        · trivial
        · split
          · exact ⟨rfl, h.of_epoch rfl, fun hm => absurd rfl (hm key mapped)⟩
          · exact underway_retry h ..
  | array => exact ⟨rfl, h, fun hm => absurd rfl (hm key mapped)⟩

/-- An update or a removal that runs alone looks at its slot: no other thread can
have changed it. -/
theorem underway_swap {u : Table K T} (hm : ∀ key mapped, m ≠ .insert key mapped)
    (h : Idle tid u) (hslots : u.slots = t.slots) {level : Nat} (fail : Nat) {p : Path}
    (currArr : Option Path)
    (hland : landingAt L t.slots (L.hasher m.key) (maxLevel - (level + 1)) level (t.slots p) p =
      landing L t.slots (L.hasher m.key) maxLevel 0 none) :
    Underway L tid t (.mutate m) (attempt L tid u m level fail (t.slots p) currArr p) := by
  cases hpos : t.slots p with
  | null =>
      rw [hpos] at hland
      have hmiss : ¬ Hits L t (.mutate m) := by
        rw [hits_mutate hm, ← hland]
        simp [landingAt]
      cases m with
      | insert key mapped => exact absurd rfl (hm key mapped)
      | update | remove => exact ⟨rfl, h, hmiss⟩
  | data old =>
      rw [hpos] at hland
      have hhit : Hits L t (.mutate m) := by
        rw [hits_mutate hm, ← hland]
        exact ⟨old, rfl⟩
      have hcas : u.slots p = .data old := by rw [hslots, hpos]
      cases m with
      | insert key mapped => exact absurd rfl (hm key mapped)
      | update key mapped =>
          simp only [attempt, if_pos hcas]
          refine ⟨rfl, h.of_epoch ?_, hhit⟩
          exact congrArg LightEpoch.table newDataNode_epoch
      | remove key =>
          simp only [attempt, if_pos hcas]
          exact ⟨rfl, h.of_epoch rfl, hhit⟩
  | array =>
      rw [hpos] at hland
      cases m with
      | insert key mapped => exact absurd rfl (hm key mapped)
      | update | remove => exact ⟨rfl, h, fun _ => ⟨hslots, hland⟩⟩

theorem Underway.step (h : Underway L tid t op x) :
    Underway L tid t op ((program L).soloStep tid x) := by
  obtain ⟨u, l⟩ := x
  rw [soloStep_eq]
  cases l with
  | level m n currArr =>
      obtain ⟨rfl, hidle, hwalk⟩ := h
      simp only [LockFree.step]
      split
      · rename_i hn
        split
        · trivial
        · rename_i p hp
          refine ⟨rfl, hidle, fun hm => ?_⟩
          obtain ⟨hslots, hland⟩ := hwalk hm
          refine ⟨hslots, congrFun hslots p, ?_⟩
          rw [show maxLevel - n = maxLevel - (n + 1) + 1 by omega, landing_of_address hp] at hland
          exact (congrFun hslots p).symm ▸ hland
      · cases m with
        | insert key mapped => exact ⟨rfl, fun _ => trivial, fun _ => hidle⟩
        | update | remove => trivial
  | attempt m n fail pos currArr p =>
      obtain ⟨rfl, hidle, hwalk⟩ := h
      cases m with
      | insert key mapped => exact underway_insert hidle ..
      | update key mapped =>
          obtain ⟨hslots, rfl, hland⟩ := hwalk (by simp)
          exact underway_swap (by simp) hidle hslots fail currArr hland
      | remove key =>
          obtain ⟨hslots, rfl, hland⟩ := hwalk (by simp)
          exact underway_swap (by simp) hidle hslots fail currArr hland
  | miss m =>
      obtain ⟨hop, hidle, hmiss⟩ := h
      refine ⟨hop.symm, fun hentry => ?_, fun hhit => absurd hhit hmiss⟩
      have hinside := reentrantProtect_inside hidle
      rw [show (u.epoch.reentrantProtect tid).table tid = ⟨0, 0⟩ from hentry] at hinside
      exact absurd hinside (by decide)
  | bump m old =>
      obtain ⟨hop, hidle, hhit⟩ := h
      refine ⟨hop, hidle.of_epoch ?_, hhit⟩
      simp only [LockFree.step, deleteCallbacks_epoch, bumpCurrentEpoch_table]
  | register m old prior i =>
      obtain ⟨hop, hidle, hhit⟩ := h
      simp only [LockFree.step]
      split
      · rename_i r hr
        refine ⟨hop.symm, fun _ => hhit, fun _ => hidle.of_epoch ?_⟩
        simp only [deleteCallbacks_epoch, tryRegister_table hr]
      · exact ⟨hop, hidle, hhit⟩
  | getEnter key =>
      obtain ⟨hop, hidle, rfl⟩ := h
      exact ⟨hop, reentrantProtect_inside hidle, rfl, rfl⟩
  | getLevel key n currArr =>
      obtain ⟨hop, hinside, htrie, hland⟩ := h
      simp only [LockFree.step]
      split
      · rename_i hn
        split
        · trivial
        · rename_i p hp
          refine ⟨hop, hinside, htrie, ?_⟩
          rw [show maxLevel - n = maxLevel - (n + 1) + 1 by omega, landing_of_address hp] at hland
          rw [show u.slots p = t.slots p from congrArg (Trie.slots · p) htrie]
          exact hland
      · trivial
  | getCheck key n pos p =>
      obtain ⟨rfl, hinside, htrie, hland⟩ := h
      cases pos with
      | null =>
          refine ⟨rfl, hinside, ?_⟩
          rintro ⟨a, ha, -⟩
          rw [← hland] at ha
          cases ha
      | data a =>
          have hheap : u.heap a = t.heap a := congrArg (Trie.heap · a) htrie
          simp only [LockFree.step]
          split
          · rename_i hhash
            exact ⟨rfl, hinside, a, hland.symm, hheap ▸ hhash⟩
          · rename_i hhash
            refine ⟨rfl, hinside, ?_⟩
            rintro ⟨b, hb, hsame⟩
            rw [← hland] at hb
            cases hb
            exact hhash (hheap ▸ hsame)
      | array => exact ⟨rfl, hinside, htrie, hland⟩
  | getFound key a =>
      obtain ⟨hop, hinside, hhit⟩ := h
      exact ⟨hop.symm, fun _ => hhit, fun _ => reentrantUnprotect_idle hinside⟩
  | getMiss key =>
      obtain ⟨hop, hinside, hmiss⟩ := h
      exact ⟨hop.symm, fun hentry => absurd hentry (reentrantProtect_not_idle hinside),
        fun hhit => absurd hhit hmiss⟩
  | done op' r => exact h
  | fault => trivial

theorem underway_begin (h : Idle tid t) (op : Op K T) : Underway L tid t op (t, begin op) := by
  cases op with
  | get key => exact ⟨rfl, h, rfl⟩
  | mutate m => exact ⟨rfl, h, fun _ => ⟨rfl, rfl⟩⟩

/-- A call that began idle and has returned or thrown has left its thread idle
exactly when it was a hit. -/
theorem idle_iff_hits {r : Result K T} (hidle : Idle tid t) (hret : Returns L tid t op t' r) :
    Idle tid t' ↔ Hits L t op := by
  have hend := hret.invariant (underway_begin (L := L) hidle op) fun _ h => h.step
  exact hend.2

theorem idle_iff_hits_splitTable :
    Idle 1 (afterSteps identityLayout 1 6 (.get 0x21) splitTable) ↔
      Hits identityLayout splitTable (.get 0x21) :=
  idle_iff_hits rfl (Program.returns_of_steps (r := .pair 0x21 8) rfl)

/-- Every call leaves an idle thread idle. -/
def CallsBalanced (L : Layout K) (T : Type*) (tid : Nat) : Prop :=
  ∀ (t t' : Table K T) (op : Op K T) (r : Result K T),
    Idle tid t → Returns L tid t op t' r → Idle tid t'

/-- `Get` throws for an absent key and leaves two levels open. -/
theorem callsBalanced_false : ¬ CallsBalanced identityLayout Nat 1 := by
  intro hcalls
  have hret : Returns identityLayout 1 emptyTable (.get 0x22)
      (afterSteps identityLayout 1 4 (.get 0x22) emptyTable) .outOfRange :=
    Program.returns_of_steps rfl
  have hidle : Idle 1 (afterSteps identityLayout 1 4 (.get 0x22) emptyTable) :=
    hcalls emptyTable _ _ _ rfl hret
  exact absurd (congrArg Entry.reentrant hidle) (by decide)

end Balance

section Interleaved

variable {K T : Type*} {L : Layout K} {tid u : Nat} {t : Table K T} {l : Local K T}
  {s s' : State K T}

theorem attempt_table (L : Layout K) (tid : Nat) (t : Table K T) (m : Mutation K T)
    (level fail : Nat) (pos : Slot Nat) (currArr : Option Path) (p : Path) :
    (attempt L tid t m level fail pos currArr p).1.epoch.table = t.epoch.table := by
  have hnew (key : K) (mapped : T) :
      (newDataNode L tid t key mapped).2.epoch.table = t.epoch.table := by
    rw [newDataNode_epoch]
  cases pos with
  | null =>
      cases m with
      | insert key mapped =>
          simp only [attempt]
          split <;> exact hnew key mapped
      | update | remove => rfl
  | data old =>
      cases m with
      | insert key mapped =>
          simp only [attempt]
          split
          · rfl
          · split
            · rfl
            · split <;> rfl
      | update key mapped =>
          simp only [attempt]
          split <;> exact hnew key mapped
      | remove key =>
          simp only [attempt]
          split <;> rfl
  | array => cases m <;> rfl

/-- Whether the place of a thread is inside the epoch that a `Get` has entered. -/
def Local.EntryOk (tid : Nat) (t : Table K T) : Option (Local K T) → Prop
  | some (.getLevel _ _ _) | some (.getCheck _ _ _ _) | some (.getFound _ _)
  | some (.getMiss _) => Inside tid t
  | some .fault => True
  | _ => Idle tid t

theorem Local.EntryOk.congr {o : Option (Local K T)} {t' : Table K T}
    (h : Local.EntryOk tid t o) (hentry : t'.epoch.table tid = t.epoch.table tid) :
    Local.EntryOk tid t' o := by
  unfold Local.EntryOk Idle Inside at h ⊢
  rwa [hentry]

def NoMiss (s : State K T) : Action (Op K T) → Prop
  | .run tid => ∀ l, s.threads tid = some l → (∀ m, l ≠ .miss m) ∧ ∀ key, l ≠ .getMiss key
  | _ => True

theorem entryOk_retry (m : Mutation K T) (level fail : Nat) (pos : Slot Nat)
    (currArr : Option Path) (p : Path) (h : Idle tid t) :
    Local.EntryOk tid t (some (retry m level fail pos currArr p)) := by
  unfold retry
  split
  · cases m <;> exact h
  · exact h

theorem entryOk_attempt (h : Idle tid t) (m : Mutation K T) (level fail : Nat)
    (pos : Slot Nat) (currArr : Option Path) (p : Path) :
    Local.EntryOk tid (attempt L tid t m level fail pos currArr p).1
      (some (attempt L tid t m level fail pos currArr p).2) := by
  refine Local.EntryOk.congr (t := t) ?_ (congrFun (attempt_table ..) tid)
  cases pos with
  | null =>
      cases m with
      | insert key mapped =>
          simp only [attempt]
          split
          · exact h
          · exact entryOk_retry _ _ _ _ _ _ h
      | update | remove => exact h
  | data old =>
      cases m with
      | insert key mapped =>
          simp only [attempt]
          split
          · exact h
          · split
            · trivial
            · split
              · exact h
              · exact entryOk_retry _ _ _ _ _ _ h
      | update key mapped =>
          simp only [attempt]
          split
          · exact h
          · exact entryOk_retry _ _ _ _ _ _ h
      | remove key =>
          simp only [attempt]
          split
          · exact h
          · exact entryOk_retry _ _ _ _ _ _ h
  | array => cases m <;> exact h

theorem step_entryOk (h : Local.EntryOk tid t (some l)) (hmiss : ∀ m, l ≠ .miss m)
    (hgetMiss : ∀ key, l ≠ .getMiss key) :
    Local.EntryOk tid (step L tid t l).1 (some (step L tid t l).2) := by
  cases l with
  | level m n currArr =>
      simp only [step]
      split
      · split
        · trivial
        · exact h
      · split
        · exact h
        · trivial
  | attempt m n fail pos currArr p => exact entryOk_attempt h ..
  | miss m => exact absurd rfl (hmiss m)
  | bump m old =>
      refine Local.EntryOk.congr (t := t) h ?_
      simp only [step, deleteCallbacks_epoch, bumpCurrentEpoch_table]
  | register m old prior i =>
      simp only [step]
      split
      · rename_i r hr
        refine Local.EntryOk.congr (t := t) h ?_
        simp only [deleteCallbacks_epoch, tryRegister_table hr]
      · exact h
  | getEnter key => exact reentrantProtect_inside h
  | getLevel key n currArr =>
      simp only [step]
      split
      · split
        · trivial
        · exact h
      · trivial
  | getCheck key n pos p =>
      cases pos with
      | null => exact h
      | data a =>
          simp only [step]
          split <;> exact h
      | array => exact h
  | getFound key a => exact reentrantUnprotect_idle h
  | getMiss key => exact absurd rfl (hgetMiss key)
  | done op r => exact h
  | fault => trivial

theorem reentrantProtect_other (e : LightEpoch Nat) (hu : u ≠ tid) :
    (e.reentrantProtect tid).table u = e.table u := by
  obtain ⟨entry, hentry⟩ := reentrantProtect_eq_setEntry e tid
  rw [hentry]
  exact Function.update_of_ne hu _ _

theorem step_entry_other (L : Layout K) (t : Table K T) (l : Local K T) (hu : u ≠ tid) :
    (step L tid t l).1.epoch.table u = t.epoch.table u := by
  cases l with
  | level m n currArr =>
      simp only [step]
      split
      · split <;> rfl
      · split <;> rfl
  | attempt m n fail pos currArr p => exact congrFun (attempt_table ..) u
  | miss m => exact reentrantProtect_other _ hu
  | bump m old => simp only [step, deleteCallbacks_epoch, bumpCurrentEpoch_table]
  | register m old prior i =>
      simp only [step]
      split
      · rename_i r hr
        simp only [deleteCallbacks_epoch, tryRegister_table hr]
      · rfl
  | getEnter key => exact reentrantProtect_other _ hu
  | getLevel key n currArr =>
      simp only [step]
      split
      · split <;> rfl
      · rfl
  | getCheck key n pos p =>
      cases pos with
      | null => rfl
      | data a =>
          simp only [step]
          split <;> rfl
      | array => rfl
  | getFound key a =>
      obtain ⟨entry, hentry⟩ := reentrantUnprotect_eq_setEntry t.epoch tid
      simp only [step, hentry]
      exact Function.update_of_ne hu _ _
  | getMiss key => exact reentrantProtect_other _ hu
  | done op r => rfl
  | fault => rfl

theorem entryOk_next {a : Action (Op K T)}
    (h : ∀ tid, Local.EntryOk tid s.shared (s.threads tid)) (hok : NoMiss s a)
    (hnext : (program L).next s a = some s') :
    ∀ tid, Local.EntryOk tid s'.shared (s'.threads tid) := by
  intro u
  rcases Program.next_cases hnext with
    ⟨tid, op, rfl, hidle, rfl⟩ | ⟨tid, l, rfl, hl, -, rfl⟩ | ⟨tid, op, r, rfl, hl, rfl⟩
  · by_cases hu : u = tid
    · subst u
      have hbefore := h tid
      rw [hidle] at hbefore
      simp only [Function.update_self]
      cases op <;> exact hbefore
    · simp only [Function.update_of_ne hu]
      exact h u
  · by_cases hu : u = tid
    · subst u
      have hbefore := h tid
      rw [hl] at hbefore
      simp only [Function.update_self]
      exact step_entryOk hbefore (hok l hl).1 (hok l hl).2
    · simp only [Function.update_of_ne hu]
      exact (h u).congr (step_entry_other L s.shared l hu)
  · by_cases hu : u = tid
    · subst u
      have hbefore := h tid
      rw [hl] at hbefore
      simp only [Function.update_self]
      exact hbefore
    · simp only [Function.update_of_ne hu]
      exact h u

/-- In every interleaving in which no call takes the exit of a miss, a thread
between its calls is unprotected with count zero. -/
theorem idle_between_calls {expectedThreadCount expectedDataNum : Nat}
    {garbage : Nat → DataBlock K T}
    (hreach : Reaches (program L).next NoMiss
      (System.start (new expectedThreadCount expectedDataNum garbage)) s)
    (hnone : s.threads tid = none) : Idle tid s.shared := by
  have h : ∀ tid, Local.EntryOk tid s.shared (s.threads tid) := by
    refine hreach.invariant (I := fun s => ∀ tid, Local.EntryOk tid s.shared (s.threads tid))
      ?_ fun _ _ _ h hok hnext => entryOk_next h hok hnext
    intro tid
    rfl
  have hentry := h tid
  rwa [hnone] at hentry

end Interleaved

end HashComp.LockFree
