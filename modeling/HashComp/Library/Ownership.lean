import Mathlib.Algebra.BigOperators.Group.Finset.Basic
import Mathlib.Algebra.Order.BigOperators.Group.Finset
import Mathlib.Data.Fintype.BigOperators

namespace HashComp.Ownership

variable {ω α : Type*} {owns owns' : ω → α → Prop}

def Exclusive (owns : ω → α → Prop) : Prop :=
  ∀ ⦃o o' a⦄, owns o a → owns o' a → o = o'

theorem Exclusive.eq (h : Exclusive owns) (o o' : ω) {a : α} (ho : owns o a)
    (ho' : owns o' a) : o = o' :=
  h ho ho'

theorem Exclusive.mono (h : Exclusive owns) (hsub : ∀ o b, owns' o b → owns o b) :
    Exclusive owns' := by
  intro o o' b ho ho'
  exact h (hsub o b ho) (hsub o' b ho')

theorem Exclusive.acquire (h : Exclusive owns) (taker : ω) (a : α) (hfree : ∀ o, ¬ owns o a)
    (hmove : ∀ o b, owns' o b → o = taker ∧ b = a ∨ owns o b) : Exclusive owns' := by
  intro o o' b ho ho'
  rcases hmove o b ho with ⟨rfl, rfl⟩ | ho
  · rcases hmove o' b ho' with ⟨rfl, -⟩ | ho'
    · rfl
    · exact absurd ho' (hfree o')
  · rcases hmove o' b ho' with ⟨rfl, rfl⟩ | ho'
    · exact absurd ho (hfree o)
    · exact h ho ho'

theorem Exclusive.transfer (h : Exclusive owns) (giver taker : ω) (a : α)
    (hgiver : owns giver a)
    (hmove : ∀ o b, owns' o b →
      o = taker ∧ b = a ∨ owns o b ∧ ¬ (o = giver ∧ b = a)) : Exclusive owns' := by
  intro o o' b ho ho'
  rcases hmove o b ho with ⟨rfl, rfl⟩ | ⟨ho, hne⟩
  · rcases hmove o' b ho' with ⟨rfl, -⟩ | ⟨ho', hne'⟩
    · rfl
    · exact absurd ⟨h ho' hgiver, rfl⟩ hne'
  · rcases hmove o' b ho' with ⟨rfl, rfl⟩ | ⟨ho', -⟩
    · exact absurd ⟨h ho hgiver, rfl⟩ hne
    · exact h ho ho'

theorem Exclusive.exchange (h : Exclusive owns) {X : ω → Prop}
    (hin : ∀ o b, X o → owns' o b → ∃ o₁, X o₁ ∧ owns o₁ b)
    (hout : ∀ o b, ¬ X o → owns' o b → owns o b)
    (hX : ∀ o o' b, X o → X o' → owns' o b → owns' o' b → o = o') :
    Exclusive owns' := by
  intro o o' b ho ho'
  by_cases hXo : X o
  · by_cases hXo' : X o'
    · exact hX o o' b hXo hXo' ho ho'
    · obtain ⟨o₁, hX₁, ho₁⟩ := hin o b hXo ho
      rw [h ho₁ (hout o' b hXo' ho')] at hX₁
      exact absurd hX₁ hXo'
  · by_cases hXo' : X o'
    · obtain ⟨o₁, hX₁, ho₁⟩ := hin o' b hXo' ho'
      rw [h ho₁ (hout o b hXo ho)] at hX₁
      exact absurd hX₁ hXo
    · exact h (hout o b hXo ho) (hout o' b hXo' ho')

section Covers

variable {stock stock' : α → Prop}

def Covers (owns : ω → α → Prop) (stock : α → Prop) : Prop :=
  ∀ a, stock a → ∃ o, owns o a

theorem Covers.transfer (h : Covers owns stock) (giver taker : ω) (a : α)
    (htaker : owns' taker a) (hmove : ∀ o b, owns o b → o = giver ∧ b = a ∨ owns' o b) :
    Covers owns' stock := by
  intro b hb
  obtain ⟨o, ho⟩ := h b hb
  rcases hmove o b ho with ⟨-, rfl⟩ | ho'
  · exact ⟨taker, htaker⟩
  · exact ⟨o, ho'⟩

theorem Covers.acquire (h : Covers owns stock) (taker : ω) (a : α) (htaker : owns' taker a)
    (hstock : ∀ b, stock' b → stock b ∨ b = a) (hmove : ∀ o b, owns o b → owns' o b) :
    Covers owns' stock' := by
  intro b hb
  rcases hstock b hb with hb | rfl
  · obtain ⟨o, ho⟩ := h b hb
    exact ⟨o, hmove o b ho⟩
  · exact ⟨taker, htaker⟩

end Covers

section Counts

variable {n t v count count' : Nat} {held held' : Nat → Nat}

def Counts (n : Nat) (held : Nat → Nat) (count : Nat) : Prop :=
  count = ∑ t ∈ Finset.range n, held t

theorem Counts.update (h : Counts n held count) (ht : t < n)
    (hsame : ∀ u, u ≠ t → held' u = held u) (hchange : count' + held t = count + held' t) :
    Counts n held' count' := by
  have hmem := Finset.mem_range.mpr ht
  have hothers : ∑ u ∈ (Finset.range n).erase t, held' u =
      ∑ u ∈ (Finset.range n).erase t, held u :=
    Finset.sum_congr rfl fun u hu => hsame u (Finset.ne_of_mem_erase hu)
  have hafter := Finset.add_sum_erase (Finset.range n) held' hmem
  have hbefore := Finset.add_sum_erase (Finset.range n) held hmem
  unfold Counts at h ⊢
  omega

theorem Counts.eq_zero (h : Counts n held count) (hzero : ∀ t < n, held t = 0) : count = 0 :=
  h.trans (Finset.sum_eq_zero fun t ht => hzero t (Finset.mem_range.mp ht))

theorem counts_zero (hzero : ∀ t < n, held t = 0) : Counts n held 0 :=
  (Finset.sum_eq_zero fun t ht => hzero t (Finset.mem_range.mp ht)).symm

theorem Counts.le (h : Counts n held count) (ht : t < n) : held t ≤ count := by
  rw [h]
  exact Finset.single_le_sum (fun _ _ => Nat.zero_le _) (Finset.mem_range.mpr ht)

end Counts

section Stock

variable [Fintype ω] {free : ω → List α}

/-- The items on all the lists.  It is not to be unfolded owner by owner. -/
@[irreducible] def stock (free : ω → List α) : Multiset α :=
  ∑ o, (free o : Multiset α)

theorem mem_stock_iff {a : α} : a ∈ stock free ↔ ∃ o, a ∈ free o := by
  simp only [stock, Multiset.mem_sum, Finset.mem_univ, true_and, Multiset.mem_coe]

theorem stock_eq_zero (h : ∀ o, free o = []) : stock free = 0 := by
  apply Multiset.eq_zero_of_forall_notMem
  intro a ha
  obtain ⟨o, ho⟩ := mem_stock_iff.mp ha
  rw [h o] at ho
  exact List.not_mem_nil ho

variable [DecidableEq ω]

theorem stock_update (free : ω → List α) (o : ω) (items : List α) :
    stock (Function.update free o items) =
      (items : Multiset α) + ∑ o' ∈ Finset.univ.erase o, (free o' : Multiset α) := by
  rw [stock, ← Finset.add_sum_erase _ _ (Finset.mem_univ o), Function.update_self]
  congr 1
  apply Finset.sum_congr rfl
  intro o' ho'
  rw [Function.update_of_ne (Finset.ne_of_mem_erase ho')]

theorem stock_eq_add (free : ω → List α) (o : ω) :
    stock free = (free o : Multiset α) + ∑ o' ∈ Finset.univ.erase o, (free o' : Multiset α) := by
  rw [stock]
  exact (Finset.add_sum_erase _ _ (Finset.mem_univ o)).symm

theorem stock_push (free : ω → List α) (o : ω) (a : α) :
    stock (Function.update free o (free o ++ [a])) = a ::ₘ stock free := by
  rw [stock_update, stock_eq_add free o, ← Multiset.coe_add, Multiset.coe_singleton, add_right_comm,
    Multiset.add_comm, Multiset.singleton_add]

theorem stock_pop {o : ω} {a : α} {rest : List α} (h : free o = a :: rest) :
    a ::ₘ stock (Function.update free o rest) = stock free := by
  rw [stock_update, stock_eq_add free o, h, ← Multiset.cons_coe, Multiset.cons_add]

end Stock

end HashComp.Ownership
