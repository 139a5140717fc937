import HashComp.Epoch.LightEpoch
import Mathlib.Data.List.Chain

namespace HashComp.Reentrancy

open HashComp.Epoch

inductive Call where
  | enter
  | leave
deriving DecidableEq

/-- A call of the thread, or a bump by another one. -/
inductive Event (γ : Type*) where
  | call (c : Call)
  | bump
  | bumpWith (context : γ)

section Events

variable {γ : Type*}

def Event.call? : Event γ → Option Call
  | .call c => some c
  | _ => none

def calls (events : List (Event γ)) : List Call :=
  events.filterMap Event.call?

/-- `IsInEpoch`. -/
def isProtected (e : LightEpoch γ) (id : Nat) : Prop :=
  (e.table id).localCurrentEpoch ≠ 0

def perform (id : Nat) (e : LightEpoch γ) : Event γ → LightEpoch γ
  | .call .enter => e.reentrantProtect id
  | .call .leave => e.reentrantUnprotect id
  | .bump => e.bumpCurrentEpoch.1
  | .bumpWith context =>
      match e.bumpCurrentEpochWith kDrainListSize context with
      | some r => r.1
      | none => e.bumpCurrentEpoch.1

def performAll (id : Nat) (e : LightEpoch γ) (events : List (Event γ)) : LightEpoch γ :=
  events.foldl (perform id) e

def NeverWraps (id : Nat) (e : LightEpoch γ) (events : List (Event γ)) : Prop :=
  ∀ p, p ++ [.call .leave] <+: events → ((performAll id e p).table id).reentrant ≠ 0

/-- The thread is in an epoch exactly when it has entered more often than left. -/
structure CounterLaw (id : Nat) (e : LightEpoch γ) (events : List (Event γ)) : Prop where
  inEpoch : isProtected (performAll id e events) id ↔
    (calls events).count .leave < (calls events).count .enter
  neverWraps : NeverWraps id e events

end Events

/-- No prefix leaves more often than it enters. -/
def Nested (cs : List Call) : Prop :=
  ∀ p, p <+: cs → p.count .leave ≤ p.count .enter

theorem nested_iff_take {cs : List Call} :
    Nested cs ↔ ∀ k ≤ cs.length, (cs.take k).count .leave ≤ (cs.take k).count .enter := by
  constructor
  · exact fun h k _ => h _ (List.take_prefix k cs)
  · intro h p hp
    rw [List.prefix_iff_eq_take.mp hp]
    exact h p.length hp.length_le

instance decidableNested : DecidablePred Nested :=
  fun _ => decidable_of_iff _ nested_iff_take.symm

/-- No `LeaveEpoch` follows directly on another one, and a last `LeaveEpoch` leaves
nothing open. -/
structure ClosesAtOnce (cs : List Call) : Prop where
  apart : cs.IsChain fun a b => a = .enter ∨ b = .enter
  closed : cs.getLast? = some .leave → cs.count .enter = cs.count .leave

section Run

variable {γ : Type*} {id : Nat} {e : LightEpoch γ} {events : List (Event γ)}

theorem performAll_concat (id : Nat) (e : LightEpoch γ) (events : List (Event γ)) (x : Event γ) :
    performAll id e (events ++ [x]) = perform id (performAll id e events) x := by
  rw [performAll, List.foldl_append]
  rfl

theorem calls_concat_call (events : List (Event γ)) (c : Call) :
    calls (events ++ [.call c]) = calls events ++ [c] := by
  simp [calls, Event.call?]

theorem calls_concat_of_none (events : List (Event γ)) {x : Event γ} (hx : x.call? = none) :
    calls (events ++ [x]) = calls events := by
  simp [calls, hx]

theorem perform_of_none (id : Nat) (e : LightEpoch γ) {x : Event γ} (hx : x.call? = none) :
    (perform id e x).table = e.table ∧ e.currentEpoch < (perform id e x).currentEpoch := by
  cases x with
  | call c => cases hx
  | bump => exact ⟨bumpCurrentEpoch_table e, by simp [perform]⟩
  | bumpWith context =>
      simp only [perform]
      split
      · rename_i r hr
        simp only [LightEpoch.bumpCurrentEpochWith] at hr
        split at hr
        · rename_i r' hr'
          obtain ⟨j, hj⟩ := exists_tryRegister_of_registerLoop hr'
          obtain ⟨htable, -, hcurrent, -⟩ := tryRegister_spec hj
          rw [← Option.some.inj hr]
          refine ⟨htable.trans (bumpCurrentEpoch_table e), ?_⟩
          rw [hcurrent, bumpCurrentEpoch_currentEpoch]
          exact Nat.lt_succ_self _
        · cases hr
      · exact ⟨bumpCurrentEpoch_table e, by simp⟩

theorem neverWraps_concat {x : Event γ} :
    NeverWraps id e (events ++ [x]) ↔
      NeverWraps id e events ∧
        (x = .call .leave → ((performAll id e events).table id).reentrant ≠ 0) := by
  constructor
  · intro h
    refine ⟨fun p hp => h p (hp.trans (List.prefix_append _ _)), ?_⟩
    rintro rfl
    exact h events (List.prefix_refl _)
  · rintro ⟨h, hx⟩ p hp
    rcases List.prefix_concat_iff.mp hp with heq | hp
    · obtain ⟨rfl, rfl⟩ := List.append_singleton_inj.mp heq
      exact hx rfl
    · exact h p hp

/-- The entry of the thread after the given calls: open after an `EnterEpoch`,
closed after a `LeaveEpoch`. -/
def EntryAfter (e : LightEpoch γ) (id : Nat) : Option Call → Prop
  | some .enter => isProtected e id ∧ (e.table id).reentrant = 1
  | _ => e.table id = ⟨0, 0⟩

theorem EntryAfter.enter {last : Option Call} (h : EntryAfter e id last)
    (hepoch : 0 < e.currentEpoch) : EntryAfter (e.reentrantProtect id) id (some .enter) := by
  unfold LightEpoch.reentrantProtect
  split
  · rename_i hprot
    rcases last with _ | (_ | _)
    · exact absurd (congrArg Entry.localCurrentEpoch h) hprot
    · exact h
    · exact absurd (congrArg Entry.localCurrentEpoch h) hprot
  · rename_i hprot
    have hentry : e.table id = ⟨0, 0⟩ := by
      rcases last with _ | (_ | _)
      · exact h
      · exact absurd h.1 hprot
      · exact h
    simp only [EntryAfter, isProtected, LightEpoch.setEntry, Function.update_self, hentry]
    exact ⟨Nat.ne_of_gt hepoch, rfl⟩

theorem EntryAfter.leave (h : EntryAfter e id (some .enter)) :
    EntryAfter (e.reentrantUnprotect id) id (some .leave) := by
  have hone : (e.table id).reentrant - 1 = 0 := by
    rw [h.2]
    rfl
  simp only [LightEpoch.reentrantUnprotect, hone, if_true, EntryAfter, LightEpoch.setEntry,
    Function.update_self]

theorem EntryAfter.reentrant_iff {last : Option Call} (h : EntryAfter e id last) :
    (e.table id).reentrant ≠ 0 ↔ last = some .enter := by
  rcases last with _ | (_ | _)
  · rw [show e.table id = ⟨0, 0⟩ from h]
    simp
  · rw [h.2]
    simp
  · rw [show e.table id = ⟨0, 0⟩ from h]
    simp

theorem EntryAfter.protected_iff {last : Option Call} (h : EntryAfter e id last) :
    isProtected e id ↔ last = some .enter := by
  rcases last with _ | (_ | _)
  · simp [isProtected, show e.table id = ⟨0, 0⟩ from h]
  · simp [h.1]
  · simp [isProtected, show e.table id = ⟨0, 0⟩ from h]

theorem perform_currentEpoch (id : Nat) (e : LightEpoch γ) (x : Event γ) :
    e.currentEpoch ≤ (perform id e x).currentEpoch := by
  cases x with
  | call c =>
      cases c with
      | enter =>
          obtain ⟨entry, hentry⟩ := reentrantProtect_eq_setEntry e id
          exact Nat.le_of_eq (congrArg LightEpoch.currentEpoch hentry).symm
      | leave =>
          obtain ⟨entry, hentry⟩ := reentrantUnprotect_eq_setEntry e id
          exact Nat.le_of_eq (congrArg LightEpoch.currentEpoch hentry).symm
  | bump => exact Nat.le_of_lt (perform_of_none id e rfl).2
  | bumpWith context => exact Nat.le_of_lt (perform_of_none id e rfl).2

theorem performAll_currentEpoch (id : Nat) (e : LightEpoch γ) (events : List (Event γ)) :
    e.currentEpoch ≤ (performAll id e events).currentEpoch := by
  induction events generalizing e with
  | nil => exact Nat.le_refl _
  | cons x events ih => exact Nat.le_trans (perform_currentEpoch id e x) (ih _)

theorem Nested.of_prefix {cs ds : List Call} (h : Nested cs) (hd : ds <+: cs) : Nested ds :=
  fun p hp => h p (hp.trans hd)

theorem Nested.ne_nil {cs : List Call} (h : Nested (cs ++ [.leave])) : cs ≠ [] := by
  rintro rfl
  exact absurd (h _ (List.prefix_refl _)) (by decide)

/-- The counter does not wrap exactly when no two `LeaveEpoch` are adjacent, and
then the last call decides what the entry holds. -/
theorem neverWraps_iff (events : List (Event γ)) (hepoch : 0 < e.currentEpoch)
    (hidle : e.table id = ⟨0, 0⟩) (hnested : Nested (calls events)) :
    (NeverWraps id e events ↔
        (calls events).IsChain fun a b => a = .enter ∨ b = .enter) ∧
      (NeverWraps id e events →
        EntryAfter (performAll id e events) id (calls events).getLast?) := by
  induction events using List.reverseRecOn with
  | nil =>
      refine ⟨?_, fun _ => hidle⟩
      simp [calls, NeverWraps]
  | append_singleton events x ih =>
      have hpos := Nat.lt_of_lt_of_le hepoch (performAll_currentEpoch id e events)
      rw [neverWraps_concat, performAll_concat]
      rcases hx : x.call? with _ | c
      · rw [calls_concat_of_none events hx] at hnested ⊢
        obtain ⟨hiff, hentry⟩ := ih hnested
        have hne : x ≠ .call .leave := by
          rintro rfl
          cases hx
        refine ⟨by simpa [hne] using hiff, ?_⟩
        rintro ⟨hnever, -⟩
        have htable := (perform_of_none id (performAll id e events) hx).1
        have hbefore := hentry hnever
        unfold EntryAfter isProtected at hbefore ⊢
        rwa [htable]
      · obtain rfl : x = .call c := by
          cases x <;> simp_all [Event.call?]
        rw [calls_concat_call] at hnested ⊢
        obtain ⟨hiff, hentry⟩ := ih (hnested.of_prefix (List.prefix_append _ _))
        rw [List.isChain_append, List.getLast?_concat]
        cases c with
        | enter =>
            refine ⟨by simpa using hiff, ?_⟩
            rintro ⟨hnever, -⟩
            exact (hentry hnever).enter hpos
        | leave =>
            have hlast := List.getLast?_isSome.mpr hnested.ne_nil
            obtain ⟨last, hlast⟩ := Option.isSome_iff_exists.mp hlast
            rw [hlast] at hentry ⊢
            refine ⟨?_, ?_⟩
            · constructor
              · rintro ⟨hnever, hne⟩
                have henter := (hentry hnever).reentrant_iff.mp (hne rfl)
                refine ⟨hiff.mp hnever, List.IsChain.singleton _, ?_⟩
                rintro a ⟨⟩ b -
                exact Or.inl (Option.some.inj henter)
              · rintro ⟨hchain, -, hapart⟩
                have hnever := hiff.mpr hchain
                refine ⟨hnever, fun _ => (hentry hnever).reentrant_iff.mpr ?_⟩
                simpa using hapart last rfl .leave rfl
            · rintro ⟨hnever, hne⟩
              have hbefore := hentry hnever
              rw [hbefore.reentrant_iff.mp (hne rfl)] at hbefore
              exact hbefore.leave

theorem Nested.lt_of_enter {cs : List Call} (h : Nested cs)
    (hlast : cs.getLast? = some .enter) : cs.count .leave < cs.count .enter := by
  obtain ⟨ds, rfl⟩ := List.getLast?_eq_some_iff.mp hlast
  have hle := h ds (List.prefix_append _ _)
  simp only [List.count_append, List.count_singleton]
  exact Nat.lt_succ_of_le hle

/-- The law holds of a sequence of calls exactly when no level is left open by a
`LeaveEpoch` that is followed by another one or by nothing. -/
theorem counterLaw_iff (hepoch : 0 < e.currentEpoch) (hidle : e.table id = ⟨0, 0⟩)
    (hnested : Nested (calls events)) :
    CounterLaw id e events ↔ ClosesAtOnce (calls events) := by
  obtain ⟨hiff, hentry⟩ := neverWraps_iff events hepoch hidle hnested
  have hle := hnested _ (List.prefix_refl _)
  constructor
  · rintro ⟨hin, hnever⟩
    refine ⟨hiff.mp hnever, ?_⟩
    intro hlast
    have hnot : ¬ isProtected (performAll id e events) id := by
      rw [(hentry hnever).protected_iff, hlast]
      simp
    have hge := Nat.le_of_not_lt (mt hin.mpr hnot)
    exact Nat.le_antisymm hge hle
  · rintro ⟨hapart, hclosed⟩
    have hnever := hiff.mpr hapart
    refine ⟨?_, hnever⟩
    rw [(hentry hnever).protected_iff]
    refine ⟨hnested.lt_of_enter, ?_⟩
    intro hlt
    rcases hlast : (calls events).getLast? with _ | (_ | _)
    · rw [List.getLast?_eq_none_iff.mp hlast] at hlt
      exact absurd hlt (Nat.lt_irrefl _)
    · rfl
    · exact absurd (hclosed hlast) (Nat.ne_of_gt hlt)

def separateLevels : List (Event Unit) :=
  [.call .enter, .bumpWith (), .call .leave, .call .enter, .bump]

theorem counterLaw_separateLevels :
    CounterLaw 1 (LightEpoch.new 2) separateLevels ↔ ClosesAtOnce (calls separateLevels) :=
  counterLaw_iff (by decide) rfl (by decide)

/-- The law for every sequence in which no prefix leaves too often. -/
def CounterLaws (γ : Type*) (id : Nat) (e : LightEpoch γ) : Prop :=
  ∀ events, Nested (calls events) → CounterLaw id e events

/-- The inner `LeaveEpoch` of two levels takes the thread out of its epoch. -/
theorem counterLaws_false : ¬ CounterLaws Unit 1 (LightEpoch.new 2) := by
  intro hlaws
  have hlaw := hlaws [.call .enter, .call .enter, .call .leave] (by decide)
  have hin := hlaw.inEpoch.mpr (by decide)
  exact hin (by decide)

end Run

end HashComp.Reentrancy
