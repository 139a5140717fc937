import Mathlib.Data.Fintype.Card
import Mathlib.Data.Set.Finite.Basic
import Mathlib.Logic.Function.Basic
import Mathlib.Logic.Relation

namespace HashComp.SpinLocks

variable {ω α : Type*} {locks : α → Option ω}
  {held : ω → List α} {stuck stuck' : ω → Prop} {o o' : ω} {a : α} {l : List α}

section Owned

structure Owned (locks : α → Option ω) (held : ω → List α) (stuck : ω → Prop) : Prop where
  locked : ∀ o, ∀ a ∈ held o, locks a = some o
  nodup : ∀ o, (held o).Nodup
  holder : ∀ o a, locks a = some o → a ∈ held o ∨ stuck o

theorem Owned.exclusive (h : Owned locks held stuck) (ho : a ∈ held o) (ho' : a ∈ held o') :
    o = o' :=
  Option.some.inj ((h.locked o a ho).symm.trans (h.locked o' a ho'))

end Owned

section Steps

variable [DecidableEq ω]

theorem Owned.keep (h : Owned locks held stuck) (hl : l = held o ∨ l = [] ∧ stuck' o)
    (hstuck : ∀ p, stuck p → stuck' p) : Owned locks (Function.update held o l) stuck' where
  locked := by
    intro p a ha
    by_cases hp : p = o
    · subst p
      rw [Function.update_self] at ha
      rcases hl with rfl | ⟨rfl, -⟩
      · exact h.locked o a ha
      · cases ha
    · rw [Function.update_of_ne hp] at ha
      exact h.locked p a ha
  nodup := by
    intro p
    by_cases hp : p = o
    · subst p
      rw [Function.update_self]
      rcases hl with rfl | ⟨rfl, -⟩
      · exact h.nodup o
      · exact List.nodup_nil
    · rw [Function.update_of_ne hp]
      exact h.nodup p
  holder := by
    intro p a ha
    by_cases hp : p = o
    · subst p
      rw [Function.update_self]
      rcases hl with rfl | ⟨-, hnow⟩
      · exact (h.holder o a ha).imp_right (hstuck o)
      · exact Or.inr hnow
    · rw [Function.update_of_ne hp]
      exact (h.holder p a ha).imp_right (hstuck p)

variable [DecidableEq α]

theorem Owned.acquire (h : Owned locks held stuck) (hfree : locks a = none)
    (hl : l = a :: held o) (hstuck : ∀ p, stuck p → stuck' p) :
    Owned (Function.update locks a (some o)) (Function.update held o l) stuck' where
  locked := by
    intro p b hb
    have hother : ∀ q, b ∈ held q → Function.update locks a (some o) b = some q := by
      intro q hq
      have hlocked := h.locked q b hq
      have hba : b ≠ a := by
        rintro rfl
        rw [hfree] at hlocked
        cases hlocked
      rw [Function.update_of_ne hba, hlocked]
    by_cases hp : p = o
    · subst p
      rw [Function.update_self, hl] at hb
      rcases List.mem_cons.mp hb with rfl | hb
      · rw [Function.update_self]
      · exact hother o hb
    · rw [Function.update_of_ne hp] at hb
      exact hother p hb
  nodup := by
    intro p
    by_cases hp : p = o
    · subst p
      rw [Function.update_self, hl, List.nodup_cons]
      refine ⟨fun ha => ?_, h.nodup o⟩
      have hlocked := h.locked o a ha
      rw [hfree] at hlocked
      cases hlocked
    · rw [Function.update_of_ne hp]
      exact h.nodup p
  holder := by
    intro p b hb
    by_cases hba : b = a
    · subst b
      rw [Function.update_self] at hb
      cases hb
      rw [Function.update_self, hl]
      exact Or.inl List.mem_cons_self
    · rw [Function.update_of_ne hba] at hb
      by_cases hp : p = o
      · subst p
        rw [Function.update_self, hl]
        exact (h.holder o b hb).imp (List.mem_cons_of_mem a) (hstuck o)
      · rw [Function.update_of_ne hp]
        exact (h.holder p b hb).imp_right (hstuck p)

theorem Owned.release (h : Owned locks held stuck) (hl : held o = a :: l)
    (hstuck : ∀ p, stuck p → stuck' p) :
    Owned (Function.update locks a none) (Function.update held o l) stuck' where
  locked := by
    intro p b hb
    by_cases hp : p = o
    · subst p
      rw [Function.update_self] at hb
      have hnodup := h.nodup o
      rw [hl, List.nodup_cons] at hnodup
      have hba : b ≠ a := by
        rintro rfl
        exact hnodup.1 hb
      rw [Function.update_of_ne hba]
      exact h.locked o b (by rw [hl]; exact List.mem_cons_of_mem a hb)
    · rw [Function.update_of_ne hp] at hb
      have hba : b ≠ a := by
        rintro rfl
        exact hp (h.exclusive hb (by rw [hl]; exact List.mem_cons_self))
      rw [Function.update_of_ne hba]
      exact h.locked p b hb
  nodup := by
    intro p
    by_cases hp : p = o
    · subst p
      rw [Function.update_self]
      have hnodup := h.nodup o
      rw [hl, List.nodup_cons] at hnodup
      exact hnodup.2
    · rw [Function.update_of_ne hp]
      exact h.nodup p
  holder := by
    intro p b hb
    have hba : b ≠ a := by
      rintro rfl
      rw [Function.update_self] at hb
      cases hb
    rw [Function.update_of_ne hba] at hb
    by_cases hp : p = o
    · subst p
      rw [Function.update_self]
      rcases h.holder o b hb with hmem | hnow
      · rw [hl] at hmem
        exact Or.inl (List.mem_of_ne_of_mem hba hmem)
      · exact Or.inr (hstuck o hnow)
    · rw [Function.update_of_ne hp]
      exact (h.holder p b hb).imp_right (hstuck p)

end Steps

section Deadlock

open Relation

variable {edge edge' : α → α → Prop} {wants : ω → Option α} {X : α → Prop}

def Waits (locks : α → Option ω) (wants : ω → Option α) (o o' : ω) : Prop :=
  ∃ a, wants o = some a ∧ locks a = some o'

/-- Owners of whom each waits for another one. -/
structure Deadlock (locks : α → Option ω) (wants : ω → Option α) (D : Set ω) : Prop where
  nonempty : D.Nonempty
  waits : ∀ o ∈ D, ∃ o' ∈ D, o' ≠ o ∧ Waits locks wants o o'

def Acyclic (edge : α → α → Prop) : Prop :=
  ∀ a, ¬ TransGen edge a a

theorem Acyclic.mono (h : Acyclic edge) (hsub : ∀ a b, edge' a b → edge a b) : Acyclic edge' :=
  fun a ha => h a (TransGen.mono hsub a a ha)

/-- A path along which the lock `a` leads to those in `X` takes the last of these
edges, and gets to `a` without them before. -/
theorem path_of_extended (hedge : ∀ b c, edge' b c → edge b c ∨ b = a ∧ X c)
    (hX : ∀ x, X x → ¬ ReflTransGen edge x a) {b c : α} (h : TransGen edge' b c) :
    TransGen edge b c ∨ ReflTransGen edge b a ∧ ∃ x, X x ∧ ReflTransGen edge x c := by
  induction h with
  | single hstep =>
      rcases hedge _ _ hstep with hold | ⟨rfl, hx⟩
      · exact Or.inl (TransGen.single hold)
      · exact Or.inr ⟨ReflTransGen.refl, _, hx, ReflTransGen.refl⟩
  | tail _ hstep ih =>
      rcases hedge _ _ hstep with hold | ⟨rfl, hx⟩
      · rcases ih with hpath | ⟨hto, x, hx, hpath⟩
        · exact Or.inl (hpath.tail hold)
        · exact Or.inr ⟨hto, x, hx, hpath.tail hold⟩
      · rcases ih with hpath | ⟨-, y, hy, hpath⟩
        · exact Or.inr ⟨hpath.to_reflTransGen, _, hx, ReflTransGen.refl⟩
        · exact absurd hpath (hX y hy)

/-- Edges from a lock to others close no circle when none of these leads back to it. -/
theorem Acyclic.extend (h : Acyclic edge) (hedge : ∀ b c, edge' b c → edge b c ∨ b = a ∧ X c)
    (hX : ∀ x, X x → ¬ ReflTransGen edge x a) : Acyclic edge' := by
  intro b hb
  rcases path_of_extended hedge hX hb with hpath | ⟨hto, x, hx, hpath⟩
  · exact h b hpath
  · exact hX x hx (hpath.trans hto)

theorem path_of_waits (hedge : ∀ o a a', locks a = some o → wants o = some a' → edge a a')
    (h : TransGen (Waits locks wants) o o') {a' : α} (ha : wants o = some a)
    (ha' : wants o' = some a') : TransGen edge a a' := by
  induction h generalizing a' with
  | single hstep =>
      obtain ⟨b, hb, hlock⟩ := hstep
      rw [ha] at hb
      cases hb
      exact TransGen.single (hedge _ _ _ hlock ha')
  | tail hpath hstep ih =>
      obtain ⟨b, hb, hlock⟩ := hstep
      exact (ih hb).tail (hedge _ _ _ hlock ha')

/-- Finitely many owners cannot all wait when what each of them holds leads to what
it wants. -/
theorem not_deadlock {D : Set ω} (hfinite : D.Finite) (hacyclic : Acyclic edge)
    (hedge : ∀ o a a', locks a = some o → wants o = some a' → edge a a') :
    ¬ Deadlock locks wants D := by
  intro h
  let r : D → D → Prop := fun o o' => Waits locks wants o' o
  have hwait : ∀ o : D, ∃ o', r o' o := by
    intro o
    obtain ⟨o', ho', -, hwaits⟩ := h.waits o.1 o.2
    exact ⟨⟨o', ho'⟩, hwaits⟩
  have hwant : ∀ o : D, ∃ a, wants o.1 = some a := by
    intro o
    obtain ⟨o', a, ha, -⟩ := hwait o
    exact ⟨a, ha⟩
  have hirrefl : ∀ o, ¬ TransGen r o o := by
    intro o ho
    obtain ⟨a, ha⟩ := hwant o
    have hswap : TransGen (fun p q => r q p) o o := transGen_swap.mpr ho
    have hpath : TransGen (Waits locks wants) o.1 o.1 :=
      TransGen.lift Subtype.val (fun _ _ hpq => hpq) o o hswap
    exact hacyclic a (path_of_waits hedge hpath ha ha)
  have hD : Finite D := hfinite
  have htrans : IsTrans D (TransGen r) := ⟨fun _ _ _ => TransGen.trans⟩
  have hirr : Std.Irrefl (TransGen r) := ⟨hirrefl⟩
  have hwf := Finite.wellFounded_of_trans_of_irrefl (TransGen r)
  have hnone : ∀ o : D, False := by
    intro o
    induction o using hwf.induction with
    | h o ih =>
        obtain ⟨o', ho'⟩ := hwait o
        exact ih o' (TransGen.single ho')
  obtain ⟨o, ho⟩ := h.nonempty
  exact hnone ⟨o, ho⟩

end Deadlock

end HashComp.SpinLocks
