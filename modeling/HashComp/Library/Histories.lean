import Mathlib.Logic.Function.Basic

namespace HashComp.Histories

structure Call (ο ρ : Type*) where
  op : ο
  result : ρ
  called : Nat
  returned : Nat
  deriving DecidableEq

structure History (ο ρ : Type*) where
  clock : Nat
  running : Nat → Option (ο × Nat)
  returned : List (Call ο ρ)

section History

variable {ο ρ : Type*} (h : History ο ρ)

def History.start : History ο ρ where
  clock := 0
  running := fun _ => none
  returned := []

def History.tick : History ο ρ :=
  { h with clock := h.clock + 1 }

def History.call (t : Nat) (op : ο) : History ο ρ :=
  { h with
    clock := h.clock + 1
    running := Function.update h.running t (some (op, h.clock)) }

def History.ret (t : Nat) (op : ο) (called : Nat) (result : ρ) : History ο ρ :=
  { clock := h.clock + 1
    running := Function.update h.running t none
    returned := ⟨op, result, called, h.clock⟩ :: h.returned }

/-- A call of this kind was in progress at some time from `first` to `last`. -/
def History.Overlaps (P : ο → Prop) (first last : Nat) : Prop :=
  (∃ c ∈ h.returned, P c.op ∧ first ≤ c.returned ∧ c.called ≤ last) ∨
    ∃ t op called, h.running t = some (op, called) ∧ P op ∧ called ≤ last

def History.Quiet (P : ο → Prop) (first : Nat) : Prop :=
  ¬ h.Overlaps P first h.clock

structure History.Timed : Prop where
  running : ∀ t op called, h.running t = some (op, called) → called < h.clock
  returned : ∀ c ∈ h.returned, c.called < c.returned ∧ c.returned < h.clock

end History

variable {ο ρ : Type*} {h : History ο ρ} {P : ο → Prop} {first last last' t u called : Nat}
  {op : ο} {result : ρ}

theorem History.Overlaps.mono (hlast : last ≤ last') (ho : h.Overlaps P first last) :
    h.Overlaps P first last' := by
  rcases ho with ⟨c, hc, hP, hfirst, hle⟩ | ⟨u, op, called, hu, hP, hle⟩
  · exact Or.inl ⟨c, hc, hP, hfirst, Nat.le_trans hle hlast⟩
  · exact Or.inr ⟨u, op, called, hu, hP, Nat.le_trans hle hlast⟩

theorem History.Overlaps.call (ho : h.Overlaps P first last) (hfree : h.running t = none) (op : ο) :
    (h.call t op).Overlaps P first last := by
  rcases ho with ho | ⟨u, op', called, hu, hP, hle⟩
  · exact Or.inl ho
  · refine Or.inr ⟨u, op', called, ?_, hP, hle⟩
    have hne : u ≠ t := by
      rintro rfl
      rw [hfree] at hu
      cases hu
    exact (Function.update_of_ne hne ..).trans hu

theorem History.Overlaps.ret (ho : h.Overlaps P first last) (hfirst : first ≤ h.clock)
    (hrunning : h.running t = some (op, called)) (result : ρ) :
    (h.ret t op called result).Overlaps P first last := by
  rcases ho with ⟨c, hc, ho⟩ | ⟨u, op', called', hu, hP, hle⟩
  · exact Or.inl ⟨c, List.mem_cons_of_mem _ hc, ho⟩
  · by_cases hut : u = t
    · subst u
      rw [hrunning] at hu
      cases hu
      exact Or.inl ⟨_, List.mem_cons_self, hP, hfirst, hle⟩
    · exact Or.inr ⟨u, op', called', (Function.update_of_ne hut ..).trans hu, hP, hle⟩

theorem History.Quiet.of_tick (hq : h.tick.Quiet P first) : h.Quiet P first :=
  fun ho => hq (ho.mono (Nat.le_succ _))

theorem History.Quiet.of_call (hq : (h.call t op).Quiet P first) (hfree : h.running t = none) :
    h.Quiet P first :=
  fun ho => hq ((ho.call hfree op).mono (Nat.le_succ _))

theorem History.Quiet.of_ret (hq : (h.ret t op called result).Quiet P first)
    (hfirst : first ≤ h.clock) (hrunning : h.running t = some (op, called)) :
    h.Quiet P first :=
  fun ho => hq ((ho.ret hfirst hrunning result).mono (Nat.le_succ _))

theorem History.Quiet.not_running (hq : h.Quiet P first) (ht : h.Timed)
    (hrunning : h.running t = some (op, called)) : ¬ P op :=
  fun hP =>
    hq (Or.inr ⟨t, op, called, hrunning, hP, Nat.le_of_lt (ht.running t op called hrunning)⟩)

theorem History.Timed.tick (ht : h.Timed) : h.tick.Timed where
  running := fun t op called hr => Nat.lt_succ_of_lt (ht.running t op called hr)
  returned := fun c hc => ⟨(ht.returned c hc).1, Nat.lt_succ_of_lt (ht.returned c hc).2⟩

theorem History.Timed.call (ht : h.Timed) (t : Nat) (op : ο) : (h.call t op).Timed where
  running := by
    intro u op' called hu
    by_cases hut : u = t
    · subst u
      have heq := (Function.update_self ..).symm.trans hu
      cases heq
      exact Nat.lt_succ_self _
    · exact Nat.lt_succ_of_lt
        (ht.running u op' called ((Function.update_of_ne hut ..).symm.trans hu))
  returned := fun c hc => ⟨(ht.returned c hc).1, Nat.lt_succ_of_lt (ht.returned c hc).2⟩

theorem History.Timed.ret (ht : h.Timed) (hrunning : h.running t = some (op, called)) (result : ρ) :
    (h.ret t op called result).Timed where
  running := by
    intro u op' called' hu
    by_cases hut : u = t
    · subst u
      have heq := (Function.update_self ..).symm.trans hu
      cases heq
    · exact Nat.lt_succ_of_lt
        (ht.running u op' called' ((Function.update_of_ne hut ..).symm.trans hu))
  returned := by
    intro c hc
    rcases List.mem_cons.mp hc with rfl | hc
    · exact ⟨ht.running t op called hrunning, Nat.lt_succ_self _⟩
    · exact ⟨(ht.returned c hc).1, Nat.lt_succ_of_lt (ht.returned c hc).2⟩

theorem timed_start : (History.start : History ο ρ).Timed where
  running := nofun
  returned := nofun

end HashComp.Histories
