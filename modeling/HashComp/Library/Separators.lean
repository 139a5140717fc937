import Mathlib.Data.Nat.Basic
import Mathlib.Tactic.Common

namespace HashComp.Separators

section InsertAt

variable {α : Type*}

def insertAt (f : Nat → α) (p : Nat) (v : α) (i : Nat) : α :=
  if i < p then f i else if i = p then v else f (i - 1)

variable {f : Nat → α} {p i : Nat} {v : α}

theorem insertAt_lt (h : i < p) : insertAt f p v i = f i :=
  if_pos h

@[simp] theorem insertAt_self : insertAt f p v p = v := by
  simp [insertAt]

theorem insertAt_gt (h : p < i) : insertAt f p v i = f (i - 1) := by
  rw [insertAt, if_neg (by omega), if_neg (by omega)]

theorem forall_insertAt {P : α → Prop} {n : Nat} (hp : p ≤ n) (hf : ∀ i, i < n → P (f i))
    (hv : P v) : ∀ i, i < n + 1 → P (insertAt f p v i) := by
  intro i hi
  rcases Nat.lt_trichotomy i p with hip | rfl | hip
  · rw [insertAt_lt hip]
    exact hf i (by omega)
  · rwa [insertAt_self]
  · rw [insertAt_gt hip]
    exact hf (i - 1) (by omega)

theorem exists_insertAt {β : Type*} {P : α → β → Prop} {u : Nat → β} {w : β} {n : Nat}
    (hp : p ≤ n) :
    (∃ i, i < n + 1 ∧ P (insertAt f p v i) (insertAt u p w i)) ↔
      P v w ∨ ∃ i, i < n ∧ P (f i) (u i) := by
  constructor
  · rintro ⟨i, hi, h⟩
    rcases Nat.lt_trichotomy i p with hip | rfl | hip
    · rw [insertAt_lt hip, insertAt_lt hip] at h
      exact Or.inr ⟨i, by omega, h⟩
    · rw [insertAt_self, insertAt_self] at h
      exact Or.inl h
    · rw [insertAt_gt hip, insertAt_gt hip] at h
      exact Or.inr ⟨i - 1, by omega, h⟩
  · rintro (h | ⟨i, hi, h⟩)
    · exact ⟨p, by omega, by rwa [insertAt_self, insertAt_self]⟩
    · rcases Nat.lt_or_ge i p with hip | hip
      · exact ⟨i, by omega, by rwa [insertAt_lt hip, insertAt_lt hip]⟩
      · exact ⟨i + 1, by omega, by
          rwa [insertAt_gt (by omega), insertAt_gt (by omega), Nat.add_sub_cancel]⟩

theorem insertAt_sorted [Preorder α] {n : Nat} (hsorted : ∀ i j, i < j → j < n → f i < f j)
    (hp : p ≤ n) (hbelow : ∀ i, i < p → f i < v) (habove : ∀ i, p ≤ i → i < n → v < f i) :
    ∀ i j, i < j → j < n + 1 → insertAt f p v i < insertAt f p v j := by
  intro i j hij hj
  rcases Nat.lt_trichotomy j p with hjp | rfl | hjp
  · rw [insertAt_lt hjp, insertAt_lt (by omega)]
    exact hsorted i j hij (by omega)
  · rw [insertAt_self, insertAt_lt hij]
    exact hbelow i hij
  · rw [insertAt_gt hjp]
    rcases Nat.lt_trichotomy i p with hip | rfl | hip
    · rw [insertAt_lt hip]
      exact hsorted i (j - 1) (by omega) (by omega)
    · rw [insertAt_self]
      exact habove (j - 1) (by omega) (by omega)
    · rw [insertAt_gt hip]
      exact hsorted (i - 1) (j - 1) (by omega) (by omega)

end InsertAt

section Parts

variable {K A : Type*} {C C' : K → K → A → Prop} {lo hi v : K} {keys keys' : Nat → K}
  {ptrs ptrs' : Nat → Option A} {n m i j : Nat} {l r : A}

def lower (lo : K) (keys : Nat → K) (i : Nat) : K :=
  if i = 0 then lo else keys (i - 1)

def upper (hi : K) (keys : Nat → K) (n i : Nat) : K :=
  if i = n then hi else keys i

@[simp] theorem lower_zero : lower lo keys 0 = lo := rfl

@[simp] theorem lower_succ : lower lo keys (i + 1) = keys i := rfl

@[simp] theorem upper_self : upper hi keys n n = hi := if_pos rfl

theorem upper_of_ne (h : i ≠ n) : upper hi keys n i = keys i := if_neg h

theorem lower_congr (h : ∀ i, i < n → keys' i = keys i) (hi : i ≤ n) :
    lower lo keys' i = lower lo keys i := by
  cases i with
  | zero => rfl
  | succ i => exact h i hi

theorem upper_congr (h : ∀ i, i < n → keys' i = keys i) (hle : i ≤ n) :
    upper hi keys' n i = upper hi keys n i := by
  rcases eq_or_ne i n with rfl | hne
  · rw [upper_self, upper_self]
  · rw [upper_of_ne hne, upper_of_ne hne, h i (by omega)]

theorem lower_insertAt_le (h : i ≤ j) : lower lo (insertAt keys j v) i = lower lo keys i :=
  lower_congr (fun _ hi => insertAt_lt hi) h

theorem lower_insertAt_gt (h : j < i) :
    lower lo (insertAt keys j v) (i + 1) = lower lo keys i := by
  obtain ⟨i, rfl⟩ := Nat.exists_eq_succ_of_ne_zero (Nat.ne_of_gt (Nat.zero_lt_of_lt h))
  exact insertAt_gt h

theorem upper_insertAt_lt (h : i < j) (hj : j ≤ n) :
    upper hi (insertAt keys j v) (n + 1) i = upper hi keys n i := by
  rw [upper_of_ne (by omega), upper_of_ne (by omega), insertAt_lt h]

theorem upper_insertAt_self (hj : j ≤ n) : upper hi (insertAt keys j v) (n + 1) j = v := by
  rw [upper_of_ne (by omega), insertAt_self]

theorem upper_insertAt_gt (h : j ≤ i) (hle : i ≤ n) :
    upper hi (insertAt keys j v) (n + 1) (i + 1) = upper hi keys n i := by
  rcases eq_or_ne i n with rfl | hne
  · rw [upper_self, upper_self]
  · rw [upper_of_ne (by omega), upper_of_ne hne, insertAt_gt (by omega), Nat.add_sub_cancel]

section Order

variable [Preorder K] (hsorted : ∀ i j, i < j → j < n → keys i < keys j)

include hsorted

theorem below_of_lower (hj : j ≤ n) (h : lower lo keys j < v) : ∀ i, i < j → keys i < v := by
  intro i hij
  obtain ⟨j, rfl⟩ := Nat.exists_eq_succ_of_ne_zero (Nat.ne_of_gt (Nat.zero_lt_of_lt hij))
  rcases Nat.eq_or_lt_of_le (Nat.le_of_lt_succ hij) with rfl | hlt
  · exact h
  · exact lt_trans (hsorted i j hlt hj) h

theorem above_of_upper (h : v < upper hi keys n j) : ∀ i, j ≤ i → i < n → v < keys i := by
  intro i hji hi
  rw [upper_of_ne (by omega)] at h
  rcases Nat.eq_or_lt_of_le hji with rfl | hlt
  · exact h
  · exact lt_trans h (hsorted j i hlt hi)

end Order

theorem le_lower [Preorder K] (h : ∀ i, i < n → lo ≤ keys i) (hj : j ≤ n) :
    lo ≤ lower lo keys j := by
  cases j with
  | zero => exact le_refl lo
  | succ j => exact h j hj

theorem upper_le [Preorder K] (h : ∀ i, i < n → keys i ≤ hi) (hj : j ≤ n) :
    upper hi keys n j ≤ hi := by
  rcases eq_or_ne j n with rfl | hne
  · rw [upper_self]
  · rw [upper_of_ne hne]
    exact h j (by omega)

/-- Each of the `n + 1` pointers leads to something that `C` puts between its bounds. -/
def Parts (C : K → K → A → Prop) (lo hi : K) (keys : Nat → K) (ptrs : Nat → Option A)
    (n : Nat) : Prop :=
  ∀ i, i ≤ n → ∃ c, ptrs i = some c ∧ C (lower lo keys i) (upper hi keys n i) c

theorem Parts.congr (h : Parts C lo hi keys ptrs n) (hkeys : ∀ i, i < n → keys' i = keys i)
    (hptrs : ∀ i, i ≤ n → ptrs' i = ptrs i) : Parts C lo hi keys' ptrs' n := by
  intro i hi
  obtain ⟨c, hc, hC⟩ := h i hi
  refine ⟨c, by rw [hptrs i hi, hc], ?_⟩
  rwa [lower_congr hkeys hi, upper_congr hkeys hi]

theorem Parts.imp (h : Parts C lo hi keys ptrs n)
    (himp : ∀ i x y c, i ≤ n → ptrs i = some c → C x y c → C' x y c) :
    Parts C' lo hi keys ptrs n := by
  intro i hi
  obtain ⟨c, hc, hC⟩ := h i hi
  exact ⟨c, hc, himp i _ _ c hi hc hC⟩

theorem Parts.insert (h : Parts C lo hi keys ptrs n) (hj : j ≤ n) (hl : ptrs j = some l)
    (hleft : C' (lower lo keys j) v l) (hright : C' v (upper hi keys n j) r)
    (hother : ∀ i x y c, i ≤ n → i ≠ j → ptrs i = some c → C x y c → C' x y c) :
    Parts C' lo hi (insertAt keys j v) (insertAt ptrs (j + 1) (some r)) (n + 1) := by
  intro i hi
  rcases Nat.lt_trichotomy i j with hij | rfl | hij
  · obtain ⟨c, hc, hC⟩ := h i (by omega)
    refine ⟨c, by rw [insertAt_lt (by omega), hc], ?_⟩
    rw [lower_insertAt_le (by omega), upper_insertAt_lt hij hj]
    exact hother i _ _ c (by omega) (by omega) hc hC
  · refine ⟨l, by rw [insertAt_lt (by omega), hl], ?_⟩
    rwa [lower_insertAt_le (Nat.le_refl _), upper_insertAt_self hj]
  · obtain ⟨i, rfl⟩ := Nat.exists_eq_succ_of_ne_zero (Nat.ne_of_gt (Nat.zero_lt_of_lt hij))
    rcases eq_or_ne i j with rfl | hne
    · refine ⟨r, insertAt_self, ?_⟩
      rwa [lower_succ, insertAt_self, upper_insertAt_gt (Nat.le_refl _) hj]
    · obtain ⟨c, hc, hC⟩ := h i (by omega)
      refine ⟨c, by rw [insertAt_gt (by omega)]; exact hc, ?_⟩
      rw [lower_insertAt_gt (by omega), upper_insertAt_gt (by omega) (by omega)]
      exact hother i _ _ c (by omega) hne hc hC

theorem Parts.left (h : Parts C lo hi keys ptrs n) (hm : m < n) :
    Parts C lo (keys m) keys ptrs m := by
  intro i hi
  obtain ⟨c, hc, hC⟩ := h i (by omega)
  refine ⟨c, hc, ?_⟩
  rw [upper_of_ne (show i ≠ n by omega)] at hC
  rcases eq_or_ne i m with rfl | hne
  · rwa [upper_self]
  · rwa [upper_of_ne hne]

theorem Parts.right (h : Parts C lo hi keys ptrs (m + 1 + n)) :
    Parts C (keys m) hi (fun i => keys (m + 1 + i)) (fun i => ptrs (m + 1 + i)) n := by
  intro i hle
  obtain ⟨c, hc, hC⟩ := h (m + 1 + i) (by omega)
  refine ⟨c, hc, ?_⟩
  have hlower : lower (keys m) (fun i => keys (m + 1 + i)) i = lower lo keys (m + 1 + i) := by
    cases i with
    | zero => rfl
    | succ i => rfl
  have hupper : upper hi (fun i => keys (m + 1 + i)) n i = upper hi keys (m + 1 + n) (m + 1 + i) := by
    rcases eq_or_ne i n with rfl | hne
    · rw [upper_self, upper_self]
    · rw [upper_of_ne hne, upper_of_ne (by omega)]
  rwa [hlower, hupper]

end Parts

end HashComp.Separators
