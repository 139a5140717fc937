import HashComp.LevelHashing.Deadlock
import HashComp.Library.Fairness

namespace HashComp.LevelHashing

open HashComp.Fairness (Path Fair)
open HashComp.Runs
open HashComp.SpinLocks
open HashComp.Threads

section Holds

variable {K V : Type*} [DecidableEq K] {H : Hashing K} {t u : Table K V} {l l' : Local K V}
  {k : K} {x y : Slot}

theorem holds_iff : t.holds k x = true ↔ (t.cells x).token = true ∧ (t.cells x).key = k := by
  simp [Table.holds]

theorem holds_congr (h : u.cells x = t.cells x) : u.holds k x = t.holds k x := by
  rw [Table.holds, h, Table.holds]

theorem ne_of_holds (hx : t.holds k x = true) (hy : (t.cells y).token = false) : x ≠ y := by
  rintro rfl
  rw [(holds_iff.mp hx).1] at hy
  cases hy

/-- Insertions of other keys, and queries. -/
def Spares (k : K) : Op K V → Prop
  | .insert key _ => key ≠ k
  | .search (.query _) => True
  | .search _ | .resize => False

def Local.Moves (t : Table K V) (l : Local K V) (x y : Slot) : Prop :=
  ∃ key value m movements i slots, l = .targetLocked key value m movements i y slots ∧
    x = m.source i ∧ (t.cells y).token = false

theorem Effect.holds (heffect : Effect t l u l') (hsound : t.Sound H) (hl : l.Located H t)
    (hspares : ∀ op, l.op = some op → Spares k op) (hx : t.holds k x = true) :
    u.holds k x = true ∨ ∃ y, l.Moves t x y ∧ u.holds k y = true := by
  cases heffect with
  | rest => exact Or.inl hx
  | @found s slot slots htoken hkey =>
      cases s with
      | query key => exact Or.inl hx
      | update key newValue => cases hspares _ rfl
      | delete key => cases hspares _ rfl
  | filled hfree =>
      rw [holds_congr (cells_put_of_ne (ne_of_holds hx hfree))]
      exact Or.inl hx
  | @moved key value m movements i slot slots hfree =>
      have hmem := hl.2.2 slot List.mem_cons_self
      have hne : slot ≠ m.source i := by
        rintro rfl
        exact source_notMem_targets hsound.half_pos _ _ hmem
      by_cases hsource : x = m.source i
      · subst hsource
        refine Or.inr ⟨slot, ⟨_, _, _, _, _, _, rfl, rfl, hfree⟩, ?_⟩
        rw [holds_iff, cells_relocate_target hne]
        exact ⟨rfl, (holds_iff.mp hx).2⟩
      · rw [holds_congr (cells_relocate_of_ne hsource (ne_of_holds hx hfree))]
        exact Or.inl hx
  | freed =>
      rw [holds_congr (cells_put_of_ne (ne_of_holds hx hl.2.2))]
      exact Or.inl hx

end Holds

section Queries

variable {K V : Type*} {H : Hashing K}
  {t t' : Table K V} {s s' : State K V} {a : Action (Op K V)} {l l' : Local K V} {k : K}
  {x y : Slot} {tid : Nat}

def Local.Awaits (k : K) : Local K V → Slot → Prop
  | .search (.query key) slots, x => key = k ∧ x ∈ slots
  | .searchLocked (.query key) slot slots, x => key = k ∧ x ∈ slot :: slots
  | _, _ => False

def SparingCalls (k : K) (_ : State K V) : Action (Op K V) → Prop
  | .invoke _ op => Spares k op
  | _ => True

theorem SparingCalls.noResize (h : SparingCalls k s a) : NoResize s a := by
  cases a with
  | invoke tid op =>
      rintro rfl
      cases h
  | run | ret => trivial

variable [DecidableEq K]

def Local.Finds (k : K) (t : Table K V) (l : Local K V) : Prop :=
  (∀ slots, l = .search (.query k) slots → ∃ x ∈ slots, t.holds k x = true) ∧
    (∀ slot slots, l = .searchLocked (.query k) slot slots →
      ∃ x ∈ slot :: slots, t.holds k x = true) ∧
    ∀ reply, l = .done (.search (.query k)) reply → ∃ value, reply = .value value

/-- An insertion moves the key from a slot that a query for it has not come to yet to a
slot that the query has passed. -/
def Overtakes (k : K) (s : State K V) : Action (Op K V) → Prop
  | .run tid => ∃ l x y u l', s.threads tid = some l ∧ l.Moves s.shared x y ∧
      s.shared.holds k x = true ∧ s.threads u = some l' ∧ l'.Awaits k x ∧ ¬ l'.Awaits k y
  | _ => False

theorem not_overtakes (h : ∀ key value m movements i slot slots,
    s.threads tid ≠ some (.targetLocked key value m movements i slot slots)) :
    ¬ Overtakes k s (.run tid) := by
  rintro ⟨_, _, _, _, _, hl, ⟨key, value, m, movements, i, slots, rfl, -⟩, -⟩
  exact h key value m movements i _ slots hl

structure Holding (H : Hashing K) (k : K) (s : State K V) : Prop where
  safe : Safe H s
  sound : s.shared.Sound H
  only : Only (Spares k) s
  present : ∃ x, s.shared.holds k x = true

theorem Holding.start (hsound : t.Sound H) (hlocks : ∀ slot, t.locks slot = none)
    (hpresent : ∃ x, t.holds k x = true) : Holding H k (System.start t) where
  safe := Safe.start hlocks
  sound := hsound
  only := ⟨nofun, nofun⟩
  present := hpresent

theorem finds_of_op (h : l.op ≠ some (.search (.query k))) : l.Finds k t := by
  refine ⟨?_, ?_, ?_⟩
  · rintro slots rfl
    exact absurd rfl h
  · rintro slot slots rfl
    exact absurd rfl h
  · rintro reply rfl
    exact absurd rfl h

variable [Inhabited K] [Inhabited V]

theorem Holding.holds_run (h : Holding H k s) (hl : s.threads tid = some l)
    (hx : s.shared.holds k x = true) :
    (step H tid s.shared l).1.holds k x = true ∨
      ∃ y, l.Moves s.shared x y ∧ (step H tid s.shared l).1.holds k y = true := by
  have hlocated := h.safe.located tid l hl
  have hstep : step H tid s.shared l =
      ((step H tid s.shared l).1, (step H tid s.shared l).2) := rfl
  obtain ⟨u, locks, heffect, hshared⟩ := effect_step hlocated hstep
  rw [hshared]
  exact heffect.holds h.sound hlocated (h.only.threads tid l · hl) hx

theorem Holding.next (h : Holding H k s) (hok : SparingCalls k s a)
    (hnext : (program H).next s a = some s') : Holding H k s' where
  safe := h.safe.next hok.noResize hnext
  sound := h.safe.sound_next h.sound hnext
  only := h.only.next h.safe (fun tid op ha => by subst ha; exact hok) hnext
  present := by
    obtain ⟨x, hx⟩ := h.present
    rcases (program H).next_cases hnext with
      ⟨tid, op, rfl, -, rfl⟩ | ⟨tid, l, rfl, hl, -, rfl⟩ | ⟨tid, op, r, rfl, -, rfl⟩
    · exact ⟨x, hx⟩
    · rcases h.holds_run hl hx with hstays | ⟨y, -, hy⟩
      · exact ⟨x, hstays⟩
      · exact ⟨y, hy⟩
    · exact ⟨x, hx⟩

theorem holding_of_reaches (hsound : t.Sound H) (hlocks : ∀ slot, t.locks slot = none)
    (hpresent : ∃ x, t.holds k x = true)
    (h : Reaches (program H).next (SparingCalls k) (System.start t) s) : Holding H k s :=
  h.invariant (I := Holding H k) (Holding.start hsound hlocks hpresent)
    fun _ _ _ hs hok hnext => hs.next hok hnext

theorem finds_step (hsound : t.Sound H) (hpresent : ∃ x, t.holds k x = true)
    (hlocated : l.Located H t) (hfinds : l.Finds k t) (hstep : step H tid t l = (t', l')) :
    l'.Finds k t' := by
  by_cases hop : l.op = some (.search (.query k))
  · cases l with
    | called op =>
        cases hop
        cases hstep
        refine ⟨?_, (by rintro _ _ ⟨⟩), (by rintro _ ⟨⟩)⟩
        rintro slots hslots
        cases hslots
        obtain ⟨x, hx⟩ := hpresent
        have haddr := hsound.placed x (holds_iff.mp hx).1
        rw [(holds_iff.mp hx).2] at haddr
        exact ⟨x, mem_searchOrder_iff.mpr haddr, hx⟩
    | search q slots =>
        cases hop
        obtain ⟨x, hmem, hx⟩ := hfinds.1 slots rfl
        cases slots with
        | nil => cases hmem
        | cons slot slots =>
            rcases acquire_cases t tid slot _ _ with heq | heq | ⟨-, heq⟩ <;>
              cases heq.symm.trans hstep
            · exact hfinds
            · exact ⟨(by rintro _ ⟨⟩), (by rintro _ _ ⟨⟩), (by rintro _ ⟨⟩)⟩
            · refine ⟨(by rintro _ ⟨⟩), ?_, (by rintro _ ⟨⟩)⟩
              rintro _ _ hlocked
              cases hlocked
              exact ⟨x, hmem, hx⟩
    | searchLocked q slot slots =>
        cases hop
        obtain ⟨x, hmem, hx⟩ := hfinds.2.1 slot slots rfl
        rw [step] at hstep
        split at hstep <;> cases hstep
        · refine ⟨(by rintro _ ⟨⟩), (by rintro _ _ ⟨⟩), ?_⟩
          rintro reply hreply
          cases hreply
          exact ⟨_, rfl⟩
        · next hmiss =>
            refine ⟨?_, (by rintro _ _ ⟨⟩), (by rintro _ ⟨⟩)⟩
            rintro _ hslots
            cases hslots
            have hne : x ≠ slot := by
              rintro rfl
              exact hmiss (holds_iff.mp hx)
            exact ⟨x, List.mem_of_ne_of_mem hne hmem, hx⟩
    | done op reply =>
        cases hop
        cases hstep
        exact hfinds
    | scan | scanLocked | source | target | targetLocked | fill | resizing | fault | exited =>
        cases hop
  · rcases op_step hlocated hstep with hsame | rfl
    · exact finds_of_op (hsame ▸ hop)
    · exact ⟨(by rintro _ ⟨⟩), (by rintro _ _ ⟨⟩), (by rintro _ ⟨⟩)⟩

theorem finds_frame (h : Holding H k s) (hl : s.threads tid = some l) {u : Nat}
    (hu : s.threads u = some l') (hok : ¬ Overtakes k s (.run tid)) (hfinds : l'.Finds k s.shared) :
    l'.Finds k (step H tid s.shared l).1 := by
  have hahead : ∀ x, l'.Awaits k x → s.shared.holds k x = true →
      ∃ y, l'.Awaits k y ∧ (step H tid s.shared l).1.holds k y = true := by
    intro x hx hholds
    rcases h.holds_run hl hholds with hstays | ⟨y, hmoves, hy⟩
    · exact ⟨x, hx, hstays⟩
    · by_cases hawaits : l'.Awaits k y
      · exact ⟨y, hawaits, hy⟩
      · exact absurd ⟨l, x, y, u, l', hl, hmoves, hholds, hu, hx, hawaits⟩ hok
  refine ⟨?_, ?_, hfinds.2.2⟩
  · rintro slots rfl
    obtain ⟨x, hmem, hx⟩ := hfinds.1 slots rfl
    obtain ⟨y, hy, hholds⟩ := hahead x ⟨rfl, hmem⟩ hx
    exact ⟨y, hy.2, hholds⟩
  · rintro slot slots rfl
    obtain ⟨x, hmem, hx⟩ := hfinds.2.1 slot slots rfl
    obtain ⟨y, hy, hholds⟩ := hahead x ⟨rfl, hmem⟩ hx
    exact ⟨y, hy.2, hholds⟩

structure Finding (H : Hashing K) (k : K) (s : State K V) : Prop extends Holding H k s where
  finds : ∀ tid l, s.threads tid = some l → l.Finds k s.shared
  answers : ∀ c ∈ s.log, c.op = .search (.query k) → ∃ value, c.result = .value value

theorem Finding.next (h : Finding H k s) (hok : SparingCalls k s a) (hovertakes : ¬ Overtakes k s a)
    (hnext : (program H).next s a = some s') : Finding H k s' := by
  refine ⟨h.toHolding.next hok hnext, ?_, ?_⟩
  · rcases (program H).next_cases hnext with
      ⟨tid, op, rfl, -, rfl⟩ | ⟨tid, l, rfl, hl, -, rfl⟩ | ⟨tid, op, r, rfl, hdone, rfl⟩
    · intro u k' hk
      rcases update_eq_some hk with ⟨-, hnow⟩ | ⟨-, hk⟩
      · cases hnow
        exact ⟨nofun, nofun, nofun⟩
      · exact h.finds u k' hk
    · intro u k' hk
      rcases update_eq_some hk with ⟨-, hnow⟩ | ⟨-, hk⟩
      · cases hnow
        exact finds_step h.sound h.present (h.safe.located tid l hl) (h.finds tid l hl) rfl
      · exact finds_frame h.toHolding hl hk hovertakes (h.finds u k' hk)
    · intro u k' hk
      rcases update_eq_some hk with ⟨-, hnow⟩ | ⟨-, hk⟩
      · cases hnow
      · exact h.finds u k' hk
  · rcases (program H).next_cases hnext with
      ⟨tid, op, rfl, -, rfl⟩ | ⟨tid, l, rfl, -, -, rfl⟩ | ⟨tid, op, r, rfl, hdone, rfl⟩
    · exact h.answers
    · exact h.answers
    · intro c hc hop
      rcases List.mem_append.mp hc with hc | hc
      · exact h.answers c hc hop
      · cases List.mem_singleton.mp hc
        cases hop
        exact (h.finds tid _ hdone).2.2 r rfl

/-- Calls that spare the key and do not move it past a query, whose locks exist and whose
movements take theirs in an order. -/
def FindingCalls (H : Hashing K) (k : K) (s : State K V) (a : Action (Op K V)) : Prop :=
  SparingCalls k s a ∧ ¬ Overtakes k s a ∧ OrderedCalls H s a

theorem finding_of_reaches (hsound : t.Sound H) (hlocks : ∀ slot, t.locks slot = none)
    (hpresent : ∃ x, t.holds k x = true)
    (h : Reaches (program H).next (FindingCalls H k) (System.start t) s) : Finding H k s := by
  refine h.invariant (I := Finding H k) ⟨Holding.start hsound hlocks hpresent, nofun, nofun⟩ ?_
  intro s a s' hs hok hnext
  exact hs.next hok.1 hok.2.1 hnext

/-- A thread is in a query for the key that has not returned. -/
def Querying (k : K) (tid : Nat) (s : State K V) : Prop :=
  ∃ l, s.threads tid = some l ∧ l.op = some (.search (.query k)) ∧ l.returned = none

/-- A query for the key has found it. -/
def Found (k : K) (tid : Nat) (s : State K V) : Prop :=
  ∃ value, s.threads tid = some (.done (.search (.query k)) (.value value))

theorem querying_next (h : Finding H k s) (hfaulted : ∀ tid, ¬ Faulted s' tid)
    (h' : Finding H k s') (hquery : Querying k tid s) (hnext : (program H).next s a = some s') :
    Querying k tid s' ∨ Found k tid s' := by
  obtain ⟨l, hl, hop, hbusy⟩ := hquery
  by_cases hthread : tid = a.thread
  · rcases (program H).next_cases hnext with
      ⟨u, op, rfl, hnone, -⟩ | ⟨u, k', rfl, hk, -, rfl⟩ | ⟨u, op, r, rfl, hdone, -⟩
    · rw [hthread] at hl
      cases hnone.symm.trans hl
    · obtain rfl : tid = u := hthread
      obtain rfl := Option.some.inj (hk.symm.trans hl)
      obtain ⟨l', hl'⟩ : ∃ l', (step H tid s.shared k').2 = l' := ⟨_, rfl⟩
      have hnow : (Function.update s.threads tid (some ((program H).step tid s.shared k').2)) tid =
          some l' := (Function.update_self ..).trans (congrArg some hl')
      have hstep : step H tid s.shared k' =
          ((step H tid s.shared k').1, (step H tid s.shared k').2) := rfl
      have hop' : l'.op = some (.search (.query k)) := by
        rcases op_step (h.safe.located tid k' hl) hstep with hsame | hfault
        · rw [← hl', hsame, hop]
        · exact absurd (hnow.trans (congrArg some (hl'.symm.trans hfault))) (hfaulted tid)
      cases l' with
      | done op reply =>
          cases hop'
          obtain ⟨value, rfl⟩ := (h'.finds tid _ hnow).2.2 reply rfl
          exact Or.inr ⟨value, hnow⟩
      | called | search | searchLocked | scan | scanLocked | source | target | targetLocked
      | fill | resizing | fault | exited => exact Or.inl ⟨_, hnow, hop', rfl⟩
    · rw [hthread] at hl
      cases hdone.symm.trans hl
      cases hbusy
  · exact Or.inl ⟨l, ((program H).next_threads_other hnext hthread).trans hl, hop, hbusy⟩

/-- While a key is in the table, every query for it finds it: no query returns 1, and in a
fair run with finitely many calls every query returns. -/
theorem query_finds_present (hsound : t.Sound H) (hlocks : ∀ slot, t.locks slot = none)
    (hpresent : ∃ x, t.holds k x = true) :
    (∀ s, Reaches (program H).next (FindingCalls H k) (System.start t) s →
      (∃ x, s.shared.holds k x = true) ∧
        (∀ c ∈ s.log, c.op = .search (.query k) → ∃ value, c.result = .value value) ∧
        ∀ tid reply, s.threads tid = some (.done (.search (.query k)) reply) →
          ∃ value, reply = .value value) ∧
      ∀ path : Path (program H).next (FindingCalls H k), path.state 0 = System.start t →
        Fair Action.thread Underway path →
        (∃ N, ∀ n tid op, N ≤ n → path.action n ≠ some (.invoke tid op)) →
          ∀ tid, Fairness.LeadsTo path (Querying k tid) (Found k tid) := by
  refine ⟨fun s h => ?_, fun path hstart hfair hquiet tid n hquery => ?_⟩
  · have hfinding := finding_of_reaches hsound hlocks hpresent h
    refine ⟨hfinding.present, hfinding.answers, fun tid reply hl => ?_⟩
    exact (hfinding.finds tid _ hl).2.2 reply rfl
  · have hreaches : ∀ m, Reaches (program H).next (FindingCalls H k) (System.start t)
        (path.state m) := fun m => hstart ▸ path.reaches (Nat.zero_le m)
    obtain ⟨N, hquiet⟩ := hquiet
    obtain ⟨m, hm, hrested⟩ := exists_rested (fun s a hok => hok.2.2) hlocks hstart hfair hquiet n
    have hkeeps : ∀ s a s', Reaches (program H).next (FindingCalls H k) (System.start t) s →
        Querying k tid s → FindingCalls H k s a → (program H).next s a = some s' →
          Querying k tid s' ∨ Found k tid s' := by
      intro s a s' hs hquery hok hnext
      have hs' := hs.tail hok hnext
      exact querying_next (finding_of_reaches hsound hlocks hpresent hs)
        (not_faulted_of_reaches (fun s a hok => hok.2.2.locksExist) hs')
        (finding_of_reaches hsound hlocks hpresent hs') hquery hnext
    obtain ⟨l, hl, hop, hbusy⟩ | hfound := path.unless hreaches hkeeps hm hquery
    · exact absurd ⟨l, hl, by rw [hop]; exact nofun, hbusy⟩ (hrested tid)
    · exact hfound

def twoCalls : List (Action (Op Nat Nat)) :=
  [.invoke 0 (.search (.query 1)), .invoke 1 (.insert 2 20), .run 0, .run 1, .run 0, .run 1, .run 0,
    .run 1]

/-- A query finds its key while another one is inserted. -/
theorem query_finds_one :
    (∃ s : State Nat Nat, (∃ reply, s.threads 0 = some (.done (.search (.query 1)) reply)) ∧
      ∀ tid reply, s.threads tid = some (.done (.search (.query 1)) reply) →
        ∃ value, reply = .value value) ∧
      ∃ path : Path (program (V := Nat) bits).next (FindingCalls bits 1),
        Fairness.LeadsTo path (Querying 1 0) (Found 1 0) ∧ Found 1 0 (path.state 8) := by
  have hreached : Reached bits 0 (levelInit 2) (loaded 2 [(1, 10)]) :=
    (reached_loaded (by decide) _).1
  have hloaded := idle_of_reached (by decide) hreached
  have hadmits : Admits (program bits).next (FindingCalls bits 1)
      (System.start (loaded 2 [(1, 10)])) twoCalls :=
    ⟨⟨trivial, id, nofun⟩, ⟨nofun, id, nofun⟩,
      ⟨trivial, not_overtakes nofun, by decide +kernel, nofun⟩,
      ⟨trivial, not_overtakes nofun, by decide +kernel, nofun⟩,
      ⟨trivial, not_overtakes nofun, by decide +kernel, nofun⟩,
      ⟨trivial, not_overtakes nofun, by decide +kernel, nofun⟩,
      ⟨trivial, not_overtakes nofun, by decide +kernel, nofun⟩,
      ⟨trivial, not_overtakes nofun, by decide +kernel, nofun⟩, trivial⟩
  obtain ⟨u, hu, hfound, hidle⟩ : ∃ u,
      runActions (program bits).next (System.start (loaded 2 [(1, 10)])) twoCalls = some u ∧
        Found 1 0 u ∧ ∀ tid, ¬ Underway u tid := by
    refine ⟨_, rfl, ⟨10, rfl⟩, ?_⟩
    rintro (_ | _ | tid) ⟨l, hl, -, hbusy⟩
    · cases hl
      cases hbusy
    · cases hl
      cases hbusy
    · cases hl
  obtain ⟨path, hstart, hlater⟩ := (Path.still u).exists_append hadmits hu
  have hrests : ∀ n, 8 ≤ n → path.state n = u ∧ path.action n = none := by
    intro n hn
    obtain ⟨i, rfl⟩ := Nat.exists_eq_add_of_le hn
    exact hlater i
  have hfair : Fair Action.thread Underway path := by
    refine Fairness.fair_of_inactive ?_ (N := 8) fun n tid hn => ?_
    · rintro s a s' tid ⟨l, hl, hbusy⟩ hnext hother
      exact ⟨l, ((program bits).next_threads_other hnext hother.symm).trans hl, hbusy⟩
    · rw [(hrests n hn).1]
      exact hidle tid
  have hquery := query_finds_present (k := 1) hloaded.sound hloaded.unlocked
    ⟨⟨.top, 1, 0⟩, by decide⟩
  obtain ⟨value, hvalue⟩ := hfound
  refine ⟨⟨u, ⟨_, hvalue⟩, (hquery.1 u (reaches_of_runActions hadmits hu)).2.2⟩,
    path, hquery.2 path hstart hfair ⟨8, fun n tid op hn ha => ?_⟩ 0, ?_⟩
  · rw [(hrests n hn).2] at ha
    cases ha
  · rw [(hrests 8 (Nat.le_refl 8)).1]
    exact ⟨value, hvalue⟩

/-- A query that has passed some slots and looks for the key in the others, after an
insertion has moved it. -/
theorem query_misses_overtaken {key : K} {value : V} {before rest : List Slot}
    (hidle : t.Idle H) (hlocks : t.lockCount = t.capacity) (hkey : key ≠ k)
    (horder : t.searchOrder H k = before ++ rest) (hbefore : ∀ x ∈ before, t.holds k x = false)
    (hreply : (t.inserted H key value).2 = .code 0)
    (hrest : ∀ x ∈ rest, (t.inserted H key value).1.holds k x = false) :
    ∃ s, Reaches (program H).next (SparingCalls k) (System.start t) s ∧
      s.threads 0 = some (.done (.search (.query k)) (.code 1)) := by
  have hrun : ∀ tid (s : State K V), SparingCalls k s (.run tid) := fun _ _ => trivial
  have hcovered : ∀ tid op, op ≠ .resize → Covered H tid t (.called op) :=
    fun tid op hop => hidle.covered (l := .called op) hlocks hop tid
  have hlocks' : ∀ u, Kept t u → u.lockCount = u.capacity := fun u hkept => by
    rw [hkept.lockCount, hkept.capacity, hlocks]
  have hresult : t.result H (.insert key value) = some ((t.inserted H key value).1, .code 0) := by
    rw [← hreply]
    rfl
  generalize (t.inserted H key value).1 = u at hresult hrest
  have hkept := kept_of_result hresult nofun
  have hidle' := hidle.result hresult
  have haddresses : ∀ x ∈ rest, u.Addresses H k x := by
    intro x hx
    have hmem : x ∈ t.searchOrder H k := by
      rw [horder]
      exact List.mem_append_right before hx
    exact hkept.sameShape.addresses.mpr (mem_searchOrder_iff.mp hmem)
  -- the query passes the first slots
  have hcall : step H 0 t (.called (.search (.query k))) =
      (t, .search (.query k) (before ++ rest)) := by
    rw [← horder]
    rfl
  have hpass := leads_of_step hcall (leads_search_miss hidle.unlocked hbefore
    ((hcovered 0 (.search (.query k)) nofun).step hcall))
  have hquery : SparingCalls k (System.start t) (.invoke 0 (.search (.query k))) := trivial
  obtain ⟨s₁, hreaches₁, hshared₁, hthreads₁, -⟩ :=
    Program.reaches_call hquery (hrun 0) rfl hpass
  -- the insertion moves the key
  have hinsert := returns_result hidle.unlocked hidle.sound.half_pos 
    (hcovered 1 (.insert key value) nofun) hresult
  have hother : SparingCalls k s₁ (.invoke 1 (.insert key value)) := hkey
  have hidle₁ : s₁.threads 1 = none := by
    rw [hthreads₁]
    rfl
  obtain ⟨s₂, hreaches₂, hshared₂, hthreads₂, -⟩ :=
    Program.reaches_call hother (hrun 1) hidle₁ (hshared₁ ▸ hinsert)
  -- the query looks at the other slots
  have hcovered' : Covered H 0 u (.search (.query k) (rest ++ [])) := by
    rw [List.append_nil]
    exact hidle'.covered (l := .search (.query k) rest) (hlocks' u hkept) haddresses 0
  have hlook := leads_search_miss hidle'.unlocked hrest hcovered'
  rw [List.append_nil] at hlook
  have hhere : s₂.threads 0 = some (.search (.query k) rest) := by
    rw [hthreads₂, hthreads₁]
    rfl
  obtain ⟨s₃, hreaches₃, -, hthreads₃, -⟩ := Program.reaches_run (hrun 0) hhere
    (hshared₂ ▸ hlook.trans (leads_of_step rfl (Leads.refl _)))
  refine ⟨s₃, (hreaches₁.trans hreaches₂).trans hreaches₃, ?_⟩
  rw [hthreads₃]
  exact Function.update_self ..

/-- The keys 1 and 5 have the buckets 1 and 2 of the top level, the others the buckets 0
and 2, which are full. -/
def overtaken : Table Nat Nat :=
  loaded 2 ((1, 1) :: (5, 5) :: (List.range 15).map fun i => (4 * i, i))

theorem reached_overtaken : Reached bits 0 (levelInit 2) overtaken ∧ overtaken.levelSize = 2 :=
  reached_loaded (by decide) _

theorem overtaken_order : overtaken.searchOrder bits 5 =
    ([0, 1, 2, 3].map fun j => ⟨.top, 1, j⟩) ++ (([0, 1, 2, 3].map fun j => ⟨.top, 2, j⟩) ++
      ([0, 1, 2, 3].map fun j => ⟨.bottom, 0, j⟩) ++ [0, 1, 2, 3].map fun j => ⟨.bottom, 1, j⟩) := by
  decide +kernel

theorem overtaken_holds : overtaken.holds 5 ⟨.top, 2, 0⟩ = true ∧
    (∀ x ∈ [0, 1, 2, 3].map fun j => (⟨.top, 1, j⟩ : Slot), overtaken.holds 5 x = false) ∧
    (overtaken.inserted bits 64 0).2 = .code 0 ∧
    ∀ x ∈ ([0, 1, 2, 3].map fun j => (⟨.top, 2, j⟩ : Slot)) ++
        ([0, 1, 2, 3].map fun j => ⟨.bottom, 0, j⟩) ++ [0, 1, 2, 3].map fun j => ⟨.bottom, 1, j⟩,
      (overtaken.inserted bits 64 0).1.holds 5 x = false := by
  decide +kernel

/-- A query for 5 has passed the bucket 1 when an insertion moves 5 there from the bucket
2. -/
theorem query_misses_present : ∃ t : Table Nat Nat, Reached bits 0 (levelInit 2) t ∧
    (∀ s, Reaches (program bits).next (SparingCalls 5) (System.start t) s →
      ∃ x, s.shared.holds 5 x = true) ∧
    ∃ s, Reaches (program bits).next (SparingCalls 5) (System.start t) s ∧
      s.threads 0 = some (.done (.search (.query 5)) (.code 1)) := by
  have hidle : overtaken.Idle bits := idle_of_reached (by decide) reached_overtaken.1
  have hlocks := lockCount_levelInit hidle reached_overtaken.2
    (locks_of_reached (by decide) reached_overtaken.1).1
  refine ⟨overtaken, reached_overtaken.1, fun s hs => ?_, ?_⟩
  · exact (holding_of_reaches hidle.sound hidle.unlocked ⟨_, overtaken_holds.1⟩ hs).present
  · exact query_misses_overtaken hidle hlocks (by decide) overtaken_order overtaken_holds.2.1
      overtaken_holds.2.2.1 overtaken_holds.2.2.2

end Queries

end HashComp.LevelHashing
