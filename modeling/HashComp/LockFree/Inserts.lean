import HashComp.LockFree.Sequential

namespace HashComp.LockFree

open HashComp.Epoch
open HashComp.HashTrie
open HashComp.LevelHash
open HashComp.Operations
open HashComp.Ownership
open HashComp.Runs
open HashComp.SlotTrie
open HashComp.Threads

section Inserts

variable {K T : Type*} {L : Layout K} {D tid : Nat} {t t' : Table K T} {l l' : Local K T}
  {key : K} {mapped : T} {a : Nat} {op : Op K T} {r : Result K T}

def Wins (L : Layout K) (hash : BitVec 64) (c : Call (Op K T) (Result K T)) : Prop :=
  ∃ key mapped, c.op = .mutate (.insert key mapped) ∧ c.result = .bool true ∧
    L.hasher key = hash

def Promised (L : Layout K) (log : History K T) (key : K) : Prop :=
  ∃ c ∈ log, Wins L (L.hasher key) c

/-- What a result says about the table, for a call that began when `log` had
been returned. -/
def ResultOk (L : Layout K) (t : Table K T) (log : History K T) :
    Op K T → Result K T → Prop
  | .mutate (.insert key mapped), .bool true =>
      ∃ a, t.Holds L key a ∧ t.heap a = block L key mapped
  | .mutate (.insert key _), .bool false => ∃ a, t.Holds L key a
  | .get key, .pair k mapped => ∃ a, t.Holds L key a ∧ t.heap a = ⟨k, mapped, L.hasher key⟩
  | .get key, .outOfRange => ¬ Promised L log key
  | _, _ => False

def RunningOk (L : Layout K) (t : Table K T) (log : History K T) : Local K T → Prop
  | .level (.insert _ _) _ _ => True
  | .attempt (.insert _ _) _ fail pos _ p =>
      fail ≤ pos.rank ∧ pos.Later (t.slots p) ∧ ∀ a, pos = .data a → t.Linked a
  | .getEnter _ | .getLevel _ _ _ => True
  | .getCheck key _ pos _ =>
      (∀ a, pos = .data a → t.Linked a) ∧
        (Promised L log key →
          pos = .array ∨ ∃ a, pos = .data a ∧ (t.heap a).hash = L.hasher key)
  | .getFound key a => t.Holds L key a
  | .getMiss key => ¬ Promised L log key
  | .done op r => ResultOk L t log op r
  | _ => False

/-- Linked nodes stay linked and keep their contents, and no slot falls back. -/
structure Keeps (t t' : Table K T) : Prop where
  linked : ∀ a, t.Linked a → t'.Linked a
  heap : ∀ a, t.Linked a → t'.heap a = t.heap a
  advances : Advances t.slots t'.slots

theorem Keeps.holds (h : Keeps t t') (ha : t.Holds L key a) :
    t'.Holds L key a ∧ t'.heap a = t.heap a := by
  have hheap := h.heap a ha.1
  refine ⟨⟨h.linked a ha.1, ?_⟩, hheap⟩
  rw [hheap]
  exact ha.2

theorem ResultOk.keeps {log : History K T} (h : ResultOk L t log op r)
    (hk : Keeps t t') : ResultOk L t' log op r := by
  have hmove {key : K} {b : DataBlock K T} (h : ∃ a, t.Holds L key a ∧ t.heap a = b) :
      ∃ a, t'.Holds L key a ∧ t'.heap a = b := by
    obtain ⟨a, ha, hb⟩ := h
    exact ⟨a, (hk.holds ha).1, (hk.holds ha).2.trans hb⟩
  cases op with
  | get key =>
      cases r with
      | bool b => exact h.elim
      | pair k mapped => exact hmove h
      | outOfRange => exact h
  | mutate m =>
      cases m with
      | insert key mapped =>
          cases r with
          | bool b =>
              cases b with
              | true => exact hmove h
              | false =>
                  obtain ⟨a, ha⟩ := h
                  exact ⟨a, (hk.holds ha).1⟩
          | pair | outOfRange => exact h.elim
      | update | remove => exact h.elim

theorem RunningOk.keeps {log : History K T} (h : RunningOk L t log l)
    (hk : Keeps t t') : RunningOk L t' log l := by
  cases l with
  | level m n currArr =>
      cases m with
      | insert => trivial
      | update | remove => exact h.elim
  | attempt m n fail pos currArr p =>
      cases m with
      | insert key mapped =>
          exact ⟨h.1, h.2.1.trans (hk.advances p), fun a ha => hk.linked a (h.2.2 a ha)⟩
      | update | remove => exact h.elim
  | getEnter | getLevel => trivial
  | getCheck key n pos p =>
      refine ⟨fun a ha => hk.linked a (h.1 a ha), fun hp => ?_⟩
      rcases h.2 hp with harr | ⟨a, ha, hhash⟩
      · exact Or.inl harr
      · refine Or.inr ⟨a, ha, ?_⟩
        rw [hk.heap a (h.1 a ha)]
        exact hhash
  | getFound key a => exact (hk.holds h).1
  | getMiss key => exact h
  | done op r => exact ResultOk.keeps h hk
  | miss | bump | register | fault => exact h.elim

theorem keeps_of_slots (hslots : t'.slots = t.slots)
    (hheap : ∀ a, t.Linked a → t'.heap a = t.heap a) : Keeps t t' where
  linked := by
    rintro a ⟨p, hp⟩
    exact ⟨p, by rw [hslots, hp]⟩
  heap := hheap
  advances := by
    rw [hslots]
    exact Advances.refl _

theorem Transition.keeps {hand : Nat → List Nat} {log : History K T}
    (h : Sound L D t hand) (hrun : RunningOk L t log l)
    (htr : Transition L tid t l t' l') : Keeps t t' := by
  have hheap {key : K} {mapped : T} (a : Nat) (ha : t.Linked a) :
      (newDataNode L tid t key mapped).2.heap a = t.heap a := by
    obtain ⟨p, hp⟩ := ha
    exact h.alloc_heap hp
  cases htr with
  | @link key mapped n fail currArr harr hcas =>
      refine ⟨?_, fun a ha => hheap a ha, ?_⟩
      · rintro a ⟨p, hp⟩
        refine ⟨p, ?_⟩
        rw [setSlot_slots, newDataNode_slots, Function.update_of_ne]
        · exact hp
        · rintro rfl
          rw [hcas] at hp
          cases hp
      · rw [setSlot_slots, newDataNode_slots]
        refine advances_update (Or.inr ?_)
        rw [hcas]
        exact Nat.zero_lt_one
  | insertLost => exact keeps_of_slots (newDataNode_slots (L := L)) fun a ha => hheap a ha
  | @split key mapped n fail old currArr harr hne hcas =>
      refine ⟨?_, fun _ _ => rfl, advances_publish h.wf hcas⟩
      rintro a ⟨p, hp⟩
      by_cases hpp : p = L.keyPath key (n + 1)
      · subst p
        rw [hcas] at hp
        cases hp
        exact ⟨_, (publish_eq_data_iff h.wf hcas).mpr (Or.inl ⟨rfl, rfl⟩)⟩
      · exact ⟨p, (publish_eq_data_iff h.wf hcas).mpr (Or.inr ⟨hpp, hp⟩)⟩
  | replace | replaceLost | unlink => exact hrun.elim
  | bump | register => exact hrun.elim
  | _ => exact keeps_of_slots rfl fun _ _ => rfl

/-- A lost exchange has seen its slot get further, which happens twice at most. -/
theorem retry_runningOk {log : History K T} {n fail : Nat} {pos : Slot Nat}
    {currArr : Option Path} {p : Path} (hfail : fail ≤ pos.rank)
    (hlater : pos.Later (t.slots p)) (hne : t.slots p ≠ pos) :
    RunningOk L t log (retry (.insert key mapped) n fail (t.slots p) currArr p) := by
  have hlt : pos.rank < (t.slots p).rank := by
    rcases hlater with heq | hlt
    · exact absurd heq.symm hne
    · exact hlt
  have hrank := (t.slots p).rank_le
  unfold retry
  rw [if_neg (by unfold kFailLimit; omega)]
  exact ⟨by omega, Slot.Later.refl _, fun a ha => ⟨p, ha⟩⟩

theorem Transition.runningOk {hand : Nat → List Nat} {log : History K T}
    (h : Sound L D t hand) (hpromise : ∀ key, Promised L log key → ∃ a, t.Holds L key a)
    (hrun : RunningOk L t log l) (htr : Transition L tid t l t' l') :
    RunningOk L t' log l' := by
  cases htr with
  | @load m n currArr harr =>
      cases m with
      | insert => exact ⟨Nat.zero_le _, Slot.Later.refl _, fun a ha => ⟨_, ha⟩⟩
      | update | remove => exact hrun.elim
  | @link key mapped n fail currArr harr hcas =>
      have hblock := newDataNode_heap_self L tid t key mapped
      refine ⟨(newDataNode L tid t key mapped).1, ⟨⟨_, Function.update_self ..⟩, ?_⟩, hblock⟩
      exact congrArg DataBlock.hash hblock
  | @insertLost key mapped n fail currArr harr hcas =>
      have hslots : (pushData tid (newDataNode L tid t key mapped).2
          (newDataNode L tid t key mapped).1).slots = t.slots := newDataNode_slots
      rw [← hslots]
      refine retry_runningOk hrun.1 ?_ ?_
      · rw [hslots]
        exact hrun.2.1
      · rw [hslots]
        exact hcas
  | @absent m n fail currArr p hm =>
      cases m with
      | insert key mapped => exact absurd rfl (hm key mapped)
      | update | remove => exact hrun.elim
  | duplicate hsame => exact ⟨_, hrun.2.2 _ rfl, hsame⟩
  | split => trivial
  | @lost m n fail old currArr harr hcas =>
      cases m with
      | insert key mapped => exact retry_runningOk hrun.1 hrun.2.1 hcas
      | update | remove => exact hrun.elim
  | @descend m n fail currArr harr =>
      cases m with
      | insert => trivial
      | update | remove => exact hrun.elim
  | getEnter => trivial
  | @getLoad key n currArr harr =>
      refine ⟨fun a ha => ⟨_, ha⟩, fun hp => ?_⟩
      obtain ⟨a, ha⟩ := hpromise key hp
      rcases ha.next h.valid harr with hnext | hnext
      · exact Or.inl hnext
      · exact Or.inr ⟨a, hnext, ha.2⟩
  | getNull =>
      intro hp
      rcases hrun.2 hp with harr | ⟨a, ha, -⟩
      · cases harr
      · cases ha
  | getOther hne =>
      intro hp
      rcases hrun.2 hp with harr | ⟨a, ha, hhash⟩
      · cases harr
      · cases ha
        exact hne hhash
  | getSame hsame => exact ⟨hrun.1 _ rfl, hsame⟩
  | getDescend => trivial
  | @getFound key a =>
      refine ⟨a, hrun, ?_⟩
      rw [← hrun.2]
  | getMiss => exact hrun
  | rest => exact hrun
  | replace | replaceLost | unlink | miss | bump | register | search => exact hrun.elim

end Inserts

section Winners

variable {K T : Type*} {L : Layout K} {D tid : Nat} {t t' : Table K T}
  {threads : Nat → Option (Local K T)} {started : Nat → Nat} {log : History K T}
  {key : K} {mapped : T} {op : Op K T} {r : Result K T} {hash : BitVec 64}

inductive Winner where
  | logged (i : Nat)
  | running (tid : Nat)

def Won (L : Layout K) (threads : Nat → Option (Local K T)) (log : History K T) :
    Winner → BitVec 64 → Prop
  | .logged i, hash => ∃ c, log[i]? = some c ∧ Wins L hash c
  | .running u, hash => ∃ key mapped,
      threads u = some (.done (.mutate (.insert key mapped)) (.bool true)) ∧
        L.hasher key = hash

structure InsertInv (L : Layout K) (D : Nat) (t : Table K T)
    (threads : Nat → Option (Local K T)) (started : Nat → Nat)
    (log : History K T) : Prop where
  inv : Inv L D t threads
  running : ∀ u l, threads u = some l →
    started u ≤ log.length ∧ RunningOk L t (log.take (started u)) l
  calls : ∀ c ∈ log,
    c.started ≤ log.length ∧ ResultOk L t (log.take c.started) c.op c.result
  winners : Exclusive (Won L threads log)

theorem Won.of_update {w : Winner} {o : Option (Local K T)}
    (h : Won L (Function.update threads tid o) log w hash) :
    (w = .running tid ∧ ∃ key mapped,
      o = some (.done (.mutate (.insert key mapped)) (.bool true)) ∧ L.hasher key = hash) ∨
      Won L threads log w hash ∧ w ≠ .running tid := by
  cases w with
  | logged i => exact Or.inr ⟨h, by simp⟩
  | running u =>
      obtain ⟨key, mapped, hdone, hhash⟩ := h
      by_cases hu : u = tid
      · subst u
        rw [Function.update_self] at hdone
        exact Or.inl ⟨rfl, key, mapped, hdone, hhash⟩
      · rw [Function.update_of_ne hu] at hdone
        exact Or.inr ⟨⟨key, mapped, hdone, hhash⟩, by simp [hu]⟩

theorem ResultOk.holds_of_wins {c : Call (Op K T) (Result K T)} (h : ResultOk L t log c.op c.result)
    (hwins : Wins L hash c) : ∃ a, t.Linked a ∧ (t.heap a).hash = hash := by
  obtain ⟨key, mapped, hop, hresult, rfl⟩ := hwins
  rw [hop, hresult] at h
  obtain ⟨a, ha, -⟩ := h
  exact ⟨a, ha⟩

theorem InsertInv.holds_of_won (h : InsertInv L D t threads started log) {w : Winner}
    (hwon : Won L threads log w hash) : ∃ a, t.Linked a ∧ (t.heap a).hash = hash := by
  cases w with
  | logged i =>
      obtain ⟨c, hc, hwins⟩ := hwon
      exact (h.calls c (List.mem_of_getElem? hc)).2.holds_of_wins hwins
  | running u =>
      obtain ⟨key, mapped, hdone, rfl⟩ := hwon
      obtain ⟨a, ha, -⟩ := (h.running u _ hdone).2
      exact ⟨a, ha⟩

theorem InsertInv.promise (h : InsertInv L D t threads started log) (n : Nat) (key : K)
    (hp : Promised L (log.take n) key) : ∃ a, t.Holds L key a := by
  obtain ⟨c, hc, hwins⟩ := hp
  exact (h.calls c (List.mem_of_mem_take hc)).2.holds_of_wins hwins

theorem Transition.null_of_win {l l' : Local K T} (hrun : RunningOk L t log l)
    (hbusy : ∀ op r, l ≠ .done op r) (htr : Transition L tid t l t' l')
    (hwin : l' = .done (.mutate (.insert key mapped)) (.bool true)) :
    ∃ n, t.slots (L.keyPath key n) = .array ∧ t.slots (L.keyPath key (n + 1)) = .null := by
  have hretry {m : Mutation K T} {n fail : Nat} {pos : Slot Nat} {currArr : Option Path}
      {p : Path} : retry m n fail pos currArr p ≠
        .done (.mutate (.insert key mapped)) (.bool true) := by
    unfold retry
    split
    · cases m <;> simp [failed]
    · simp
  cases htr with
  | link harr hcas =>
      cases hwin
      exact ⟨_, harr, hcas⟩
  | insertLost | lost | replaceLost => exact absurd hwin hretry
  | register => exact hrun.elim
  | rest => exact absurd rfl (hbusy _ _)
  | _ => cases hwin

theorem insertInv_new (h : Inv L D t fun _ => none) (started : Nat → Nat) :
    InsertInv L D t (fun _ => none) started [] where
  inv := h
  running := by
    rintro u l ⟨⟩
  calls := by
    rintro c ⟨⟩
  winners := by
    rintro (i | u) w hash hwon
    · obtain ⟨c, hc, -⟩ := hwon
      simp at hc
    · obtain ⟨key, mapped, hdone, -⟩ := hwon
      cases hdone

theorem InsertInv.invoke (h : InsertInv L D t threads started log) (hnone : threads tid = none)
    (hop : RunningOk L t log (begin op)) :
    InsertInv L D t (Function.update threads tid (some (begin op)))
      (Function.update started tid log.length) log where
  inv := h.inv.invoke hnone op
  running := by
    intro u l hl
    by_cases hu : u = tid
    · subst u
      rw [Function.update_self] at hl ⊢
      rw [← Option.some.inj hl, List.take_length]
      exact ⟨Nat.le_refl _, hop⟩
    · rw [Function.update_of_ne hu] at hl ⊢
      exact h.running u l hl
  calls := h.calls
  winners := by
    refine h.winners.mono fun w hash hwon => ?_
    rcases hwon.of_update with ⟨-, key, mapped, hdone, -⟩ | ⟨hwon, -⟩
    · cases op <;> cases hdone
    · exact hwon

theorem InsertInv.run (hadm : L.Admissible D) (hD : D < maxLevel)
    (h : InsertInv L D t threads started log) {l : Local K T} (hl : threads tid = some l)
    (hbusy : ∀ op r, l ≠ .done op r) :
    InsertInv L D (step L tid t l).1
      (Function.update threads tid (some (step L tid t l).2)) started log := by
  have htr := h.inv.transition hadm hD hl
  obtain ⟨hstarted, hrun⟩ := h.running tid l hl
  have hkeeps := htr.keeps h.inv.sound hrun
  refine ⟨h.inv.step hadm hD hl, ?_,
    fun c hc => ⟨(h.calls c hc).1, (h.calls c hc).2.keeps hkeeps⟩, ?_⟩
  · intro u l' hl'
    by_cases hu : u = tid
    · subst u
      rw [Function.update_self] at hl'
      rw [← Option.some.inj hl']
      exact ⟨hstarted, htr.runningOk h.inv.sound (h.promise _) hrun⟩
    · rw [Function.update_of_ne hu] at hl'
      exact ⟨(h.running u l' hl').1, (h.running u l' hl').2.keeps hkeeps⟩
  · by_cases hwin : ∃ key mapped,
        (step L tid t l).2 = .done (.mutate (.insert key mapped)) (.bool true)
    · obtain ⟨key, mapped, hwin⟩ := hwin
      obtain ⟨n, harr, hslot⟩ := htr.null_of_win hrun hbusy hwin
      refine h.winners.acquire (.running tid) (L.hasher key) ?_ ?_
      · intro w hwon
        obtain ⟨a, ha, hhash⟩ := h.holds_of_won hwon
        exact h.inv.sound.not_holds_of_null harr hslot a ⟨ha, hhash⟩
      · intro w hash hwon
        rcases hwon.of_update with ⟨hw, key', mapped', hdone, rfl⟩ | ⟨hwon, -⟩
        · rw [hwin] at hdone
          cases hdone
          exact Or.inl ⟨hw, rfl⟩
        · exact Or.inr hwon
    · refine h.winners.mono fun w hash hwon => ?_
      rcases hwon.of_update with ⟨-, key, mapped, hdone, -⟩ | ⟨hwon, -⟩
      · exact absurd ⟨key, mapped, Option.some.inj hdone⟩ hwin
      · exact hwon

theorem Won.of_append {w : Winner} {c : Call (Op K T) (Result K T)}
    (h : Won L (Function.update threads tid none) (log ++ [c]) w hash) :
    (w = .logged log.length ∧ Wins L hash c) ∨
      Won L threads log w hash ∧ w ≠ .running tid := by
  cases w with
  | logged i =>
      obtain ⟨c', hc', hwins⟩ := h
      rcases Nat.lt_trichotomy i log.length with hlt | rfl | hgt
      · rw [List.getElem?_append_left hlt] at hc'
        exact Or.inr ⟨⟨c', hc', hwins⟩, by simp⟩
      · simp only [List.getElem?_concat_length, Option.some.injEq] at hc'
        subst c'
        exact Or.inl ⟨rfl, hwins⟩
      · rw [List.getElem?_eq_none (by simp; omega)] at hc'
        cases hc'
  | running u =>
      right
      have hrunning : Won L (Function.update threads tid none) log (.running u) hash := h
      rcases hrunning.of_update with ⟨-, key, mapped, ⟨⟩, -⟩ | hwon
      exact hwon

theorem InsertInv.ret (h : InsertInv L D t threads started log)
    (hdone : threads tid = some (.done op r)) :
    InsertInv L D t (Function.update threads tid none) started
      (log ++ [⟨op, r, started tid⟩]) := by
  obtain ⟨hstarted, hrun⟩ := h.running tid _ hdone
  have htake {n : Nat} (hn : n ≤ log.length) (c : Call (Op K T) (Result K T)) :
      (log ++ [c]).take n = log.take n := List.take_append_of_le_length hn
  refine ⟨h.inv.ret hdone, ?_, ?_, ?_⟩
  · intro u l hl
    by_cases hu : u = tid
    · subst u
      rw [Function.update_self] at hl
      cases hl
    · rw [Function.update_of_ne hu] at hl
      obtain ⟨hle, hrun⟩ := h.running u l hl
      rw [htake hle, List.length_append]
      exact ⟨by omega, hrun⟩
  · intro c hc
    rcases List.mem_append.mp hc with hc | hc
    · obtain ⟨hle, hok⟩ := h.calls c hc
      rw [htake hle, List.length_append]
      exact ⟨by omega, hok⟩
    · rw [List.mem_singleton.mp hc, htake hstarted, List.length_append]
      exact ⟨by simp only; omega, hrun⟩
  · by_cases hwin : ∃ hash, Wins L hash ⟨op, r, started tid⟩
    · obtain ⟨hash, key, mapped, hop, hr, rfl⟩ := hwin
      simp only at hop hr
      subst hop hr
      refine h.winners.transfer (.running tid) (.logged log.length) (L.hasher key)
        ⟨key, mapped, hdone, rfl⟩ ?_
      intro w hash hwon
      rcases hwon.of_append with ⟨hw, key', mapped', hop, -, rfl⟩ | ⟨hwon, hne⟩
      · cases hop
        exact Or.inl ⟨hw, rfl⟩
      · exact Or.inr ⟨hwon, fun hc => hne hc.1⟩
    · refine h.winners.mono fun w hash hwon => ?_
      rcases hwon.of_append with ⟨-, hwins⟩ | ⟨hwon, -⟩
      · exact absurd ⟨hash, hwins⟩ hwin
      · exact hwon

end Winners

section System

variable {K T : Type*} {L : Layout K} {D : Nat} {s s' : State K T} {t₀ : Table K T}

def InsertOrGet (_ : State K T) : Action (Op K T) → Prop
  | .invoke _ (.mutate (.update _ _)) | .invoke _ (.mutate (.remove _)) => False
  | _ => True

theorem InsertInv.next (hadm : L.Admissible D) (hD : D < maxLevel) {a : Action (Op K T)}
    (h : InsertInv L D s.shared s.threads s.started s.log) (hok : InsertOrGet s a)
    (hnext : (program L).next s a = some s') :
    InsertInv L D s'.shared s'.threads s'.started s'.log := by
  rcases Program.next_cases hnext with
    ⟨tid, op, rfl, hnone, rfl⟩ | ⟨tid, l, -, hl, hbusy, rfl⟩ | ⟨tid, op, r, -, hdone, rfl⟩
  · refine h.invoke hnone ?_
    cases op with
    | get key => trivial
    | mutate m =>
        cases m with
        | insert => trivial
        | update | remove => exact hok.elim
  · exact h.run hadm hD hl hbusy
  · exact h.ret hdone

/-- What the calls of a run of insertions and searches can rely on. -/
structure InsertsKept (L : Layout K) (s : State K T) : Prop where
  seen : ∀ (i j : Nat) key mapped r started started',
    s.log[j]? = some ⟨.mutate (.insert key mapped), .bool true, started⟩ →
    s.log[i]? = some ⟨.get key, r, started'⟩ → j < started' → r = .pair key mapped
  once : ∀ (i j : Nat) c c' hash, s.log[i]? = some c → s.log[j]? = some c' →
    Wins L hash c → Wins L hash c' → i = j
  refused : ∀ key mapped,
    (∃ u, s.threads u = some (.done (.mutate (.insert key mapped)) (.bool false))) ∨
      (∃ c ∈ s.log, c.op = .mutate (.insert key mapped) ∧ c.result = .bool false) →
    ∃ a, s.shared.Holds L key a
  tries : ∀ u m n fail pos currArr p,
    s.threads u = some (.attempt m n fail pos currArr p) → fail + 1 < kFailLimit

theorem InsertInv.insertsKept (h : InsertInv L D s.shared s.threads s.started s.log) :
    InsertsKept L s where
  seen := by
    intro i j key mapped r started started' hj hi hlt
    obtain ⟨-, a, ha, hblock⟩ := h.calls _ (List.mem_of_getElem? hj)
    have hget := (h.calls _ (List.mem_of_getElem? hi)).2
    have hpromised : Promised L (s.log.take started') key := by
      refine ⟨⟨.mutate (.insert key mapped), .bool true, started⟩, ?_, key, mapped, rfl, rfl,
        rfl⟩
      rw [List.mem_iff_getElem?]
      exact ⟨j, by rw [List.getElem?_take_of_lt hlt, hj]⟩
    cases r with
    | bool b => exact hget.elim
    | outOfRange => exact absurd hpromised hget
    | pair k m =>
        obtain ⟨b, hb, hblock'⟩ := hget
        obtain ⟨⟨p, hp⟩, hahash⟩ := ha
        obtain ⟨⟨q, hq⟩, hbhash⟩ := hb
        have hab := (h.inv.sound.slot_unique hp hq (hahash.trans hbhash.symm)).2
        rw [← hab, hblock] at hblock'
        cases hblock'
        rfl
  once := by
    intro i j c c' hash hc hc' hwins hwins'
    have hsame := h.winners.eq (.logged i) (.logged j) ⟨c, hc, hwins⟩ ⟨c', hc', hwins'⟩
    exact Winner.logged.inj hsame
  refused := by
    rintro key mapped (⟨u, hdone⟩ | ⟨c, hc, hop, hresult⟩)
    · exact (h.running u _ hdone).2
    · have hok := (h.calls c hc).2
      rw [hop, hresult] at hok
      exact hok
  tries := by
    intro u m n fail pos currArr p hl
    have hrun := (h.running u _ hl).2
    cases m with
    | insert key mapped =>
        have hle := Nat.le_trans hrun.1 pos.rank_le
        unfold kFailLimit
        omega
    | update | remove => exact hrun.elim

/-- However many threads insert and search, and however their steps interleave,
no insertion is lost, doubled, refused without reason or given up. -/
theorem insertsKept_of_reaches (hfits : Fits L) {expectedThreadCount expectedDataNum : Nat}
    {garbage : Nat → DataBlock K T}
    (hreach : Reaches (program L).next InsertOrGet
      (System.start (new expectedThreadCount expectedDataNum garbage)) s) :
    InsertsKept L s := by
  obtain ⟨D, hD, hadm⟩ := hfits
  refine InsertInv.insertsKept (D := D) ?_
  refine hreach.invariant
    (I := fun s => InsertInv L D s.shared s.threads s.started s.log) ?_ ?_
  · exact insertInv_new (inv_new _ _ _) _
  · exact fun s a s' h hok hnext => h.next hadm hD hok hnext

/-- Two threads meet in one root slot: the exchange of the second is lost, it
splits the slot and links its node below. -/
def racingRun : List (Action (Op (BitVec 64) Nat)) :=
  [.invoke 1 (.mutate (.insert 0x11 7)), .invoke 2 (.mutate (.insert 0x21 8)),
    .run 1, .run 2, .run 1, .run 2, .ret 1, .run 2, .run 2, .run 2, .ret 2,
    .invoke 1 (.get 0x21), .run 1, .run 1, .run 1, .run 1, .run 1, .run 1, .ret 1]

theorem insertsKept_racingRun :
    ∃ s, runActions (program identityLayout).next (System.start emptyTable) racingRun = some s ∧
      s.log.length = 3 ∧ InsertsKept identityLayout s := by
  have hview : (runActions (program identityLayout).next (System.start emptyTable) racingRun).map
      (fun s => s.log.length) = some 3 := by
    decide
  obtain ⟨s, hs, hlen⟩ := Option.map_eq_some_iff.mp hview
  refine ⟨s, hs, hlen, insertsKept_of_reaches (fits_of_default rfl (Or.inl rfl))
    (reaches_of_runActions (admits_of_forall ?_) hs)⟩
  simp [racingRun, InsertOrGet]

end System

end HashComp.LockFree
