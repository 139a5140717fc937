import Mathlib.Data.Finset.Card
import Mathlib.Logic.Function.Basic

/-!
Visitors that pass a row of places from the front.  A visitor goes on to the next place
only when another one has the place at which it stands.  As long as there are no more
visitors than places, none of them gets past the last place.  Places are marked while a
visitor has them.
-/

namespace HashComp.SlotScans

variable {ι : Type*} {position : ι → Option Nat} {i j : ι} {n p : Nat}

/-- No more than `n - k` visitors have got as far as place `k`. -/
def Fits (n : Nat) (position : ι → Option Nat) : Prop :=
  ∀ (k : Nat) (crowd : Finset ι), crowd.Nonempty →
    (∀ i ∈ crowd, ∃ p, position i = some p ∧ k ≤ p) → crowd.card + k ≤ n

def Room (n : Nat) (position : ι → Option Nat) : Prop :=
  ∃ visitors : Finset ι, (∀ i, position i ≠ none → i ∈ visitors) ∧ visitors.card < n

theorem fits_none : Fits n (fun _ : ι => none) := by
  rintro k crowd ⟨i, hi⟩ hcrowd
  obtain ⟨p, hp, -⟩ := hcrowd i hi
  cases hp

theorem Fits.lt (h : Fits n position) (hi : position i = some p) : p < n := by
  have hcard := h p {i} (Finset.singleton_nonempty i) fun j hj => by
    obtain rfl := Finset.mem_singleton.mp hj
    exact ⟨p, hi, Nat.le_refl p⟩
  rw [Finset.card_singleton] at hcard
  omega

section Moves

variable [DecidableEq ι]

theorem Fits.others (h : Fits n position) {place : Option Nat} {k : Nat} {crowd : Finset ι}
    (hne : crowd.Nonempty) (hi : i ∉ crowd)
    (hcrowd : ∀ j ∈ crowd, ∃ p, Function.update position i place j = some p ∧ k ≤ p) :
    crowd.card + k ≤ n := by
  refine h k crowd hne fun j hj => ?_
  have hji : j ≠ i := by
    rintro rfl
    exact hi hj
  have hp := hcrowd j hj
  rwa [Function.update_of_ne hji] at hp

theorem Fits.leave (h : Fits n position) : Fits n (Function.update position i none) := by
  intro k crowd hne hcrowd
  refine h.others hne (fun hi => ?_) hcrowd
  obtain ⟨p, hp, -⟩ := hcrowd i hi
  rw [Function.update_self] at hp
  cases hp

theorem Fits.enter (h : Fits n position) (hroom : Room n position) :
    Fits n (Function.update position i (some 0)) := by
  intro k crowd hne hcrowd
  by_cases hi : i ∈ crowd
  · obtain ⟨p, hp, hk⟩ := hcrowd i hi
    rw [Function.update_self] at hp
    obtain rfl := Option.some.inj hp
    obtain ⟨visitors, hall, hcard⟩ := hroom
    have hsub : crowd ⊆ insert i visitors := by
      intro j hj
      rw [Finset.mem_insert]
      by_cases hji : j = i
      · exact Or.inl hji
      · obtain ⟨p, hp, -⟩ := hcrowd j hj
        rw [Function.update_of_ne hji] at hp
        exact Or.inr (hall j (by rw [hp]; exact Option.some_ne_none p))
    have hle := Finset.card_le_card hsub
    have hinsert := Finset.card_insert_le i visitors
    omega
  · exact h.others hne hi hcrowd

/-- Those who have got past a place and the two who stand at it make one crowd. -/
theorem Fits.advance (h : Fits n position) (hi : position i = some p) (hj : position j = some p)
    (hij : j ≠ i) : Fits n (Function.update position i (some (p + 1))) := by
  intro k crowd hne hcrowd
  by_cases hmem : i ∈ crowd
  · obtain ⟨q, hq, hk⟩ := hcrowd i hmem
    rw [Function.update_self] at hq
    obtain rfl := Option.some.inj hq
    have hothers : ∀ l ∈ crowd, l ≠ i → ∃ q, position l = some q ∧ k ≤ q := by
      intro l hl hli
      have hq := hcrowd l hl
      rwa [Function.update_of_ne hli] at hq
    rcases Nat.lt_or_ge p k with hpk | hkp
    · have hnot : j ∉ crowd := by
        intro hjc
        obtain ⟨q, hq, hkq⟩ := hothers j hjc hij
        rw [hj] at hq
        obtain rfl := Option.some.inj hq
        omega
      have hcard := h p (insert j crowd) (Finset.insert_nonempty j crowd) fun l hl => by
        rcases Finset.mem_insert.mp hl with rfl | hl
        · exact ⟨p, hj, Nat.le_refl p⟩
        · by_cases hli : l = i
          · exact ⟨p, hli ▸ hi, Nat.le_refl p⟩
          · obtain ⟨q, hq, hkq⟩ := hothers l hl hli
            exact ⟨q, hq, by omega⟩
      rw [Finset.card_insert_of_notMem hnot] at hcard
      omega
    · refine h k crowd hne fun l hl => ?_
      by_cases hli : l = i
      · exact ⟨p, hli ▸ hi, hkp⟩
      · exact hothers l hl hli
  · exact h.others hne hmem hcrowd

end Moves

section Marks

variable {α : Type*} {marked : α → Bool} {held : ι → Option α} {a : α}

structure Taken (marked : α → Bool) (held : ι → Option α) : Prop where
  marked_iff : ∀ a, marked a = true ↔ ∃ i, held i = some a
  exclusive : ∀ i j a, held i = some a → held j = some a → i = j

theorem taken_none : Taken (fun _ : α => false) (fun _ : ι => none) where
  marked_iff := by simp
  exclusive := by
    intro i j a hi
    cases hi

variable [DecidableEq ι]

/-- A visitor who neither had the place nor gets it changes nothing about who has it. -/
theorem exists_update_iff {o : Option α} {b : α} (ho : o ≠ some b) (hi : held i ≠ some b) :
    (∃ j, Function.update held i o j = some b) ↔ ∃ j, held j = some b := by
  constructor
  · rintro ⟨j, hj⟩
    rcases eq_or_ne j i with rfl | hji
    · rw [Function.update_self] at hj
      exact absurd hj ho
    · rw [Function.update_of_ne hji] at hj
      exact ⟨j, hj⟩
  · rintro ⟨j, hj⟩
    refine ⟨j, ?_⟩
    rwa [Function.update_of_ne]
    rintro rfl
    exact hi hj

variable [DecidableEq α]

theorem Taken.take (h : Taken marked held) (hi : held i = none) (ha : marked a = false) :
    Taken (Function.update marked a true) (Function.update held i (some a)) where
  marked_iff := by
    intro b
    rcases eq_or_ne b a with rfl | hba
    · rw [Function.update_self]
      exact iff_of_true rfl ⟨i, Function.update_self ..⟩
    · rw [Function.update_of_ne hba, h.marked_iff b]
      refine (exists_update_iff (fun hab => hba (Option.some.inj hab).symm) fun hib => ?_).symm
      cases hi.symm.trans hib
  exclusive := by
    have hfree : ∀ j, held j ≠ some a := by
      intro j hj
      rw [(h.marked_iff a).mpr ⟨j, hj⟩] at ha
      cases ha
    intro j k b hj hk
    rcases eq_or_ne j i with rfl | hji <;> rcases eq_or_ne k j with rfl | hkj
    · rfl
    · rw [Function.update_self] at hj
      rw [Function.update_of_ne hkj, ← hj] at hk
      exact absurd hk (hfree k)
    · rfl
    · rw [Function.update_of_ne hji] at hj
      rcases eq_or_ne k i with rfl | hki
      · rw [Function.update_self] at hk
        exact absurd (hj.trans hk.symm) (hfree j)
      · rw [Function.update_of_ne hki] at hk
        exact h.exclusive j k b hj hk

theorem Taken.release (h : Taken marked held) (hi : held i = some a) :
    Taken (Function.update marked a false) (Function.update held i none) where
  marked_iff := by
    intro b
    rcases eq_or_ne b a with rfl | hba
    · rw [Function.update_self]
      refine iff_of_false Bool.false_ne_true ?_
      rintro ⟨j, hj⟩
      rcases eq_or_ne j i with rfl | hji
      · rw [Function.update_self] at hj
        cases hj
      · rw [Function.update_of_ne hji] at hj
        exact hji (h.exclusive j i b hj hi)
    · rw [Function.update_of_ne hba, h.marked_iff b]
      refine (exists_update_iff (Option.some_ne_none b).symm fun hib => hba ?_).symm
      exact Option.some.inj (hib.symm.trans hi)
  exclusive := by
    intro j k b hj hk
    rcases eq_or_ne j i with rfl | hji
    · rw [Function.update_self] at hj
      cases hj
    · rcases eq_or_ne k i with rfl | hki
      · rw [Function.update_self] at hk
        cases hk
      · rw [Function.update_of_ne hji] at hj
        rw [Function.update_of_ne hki] at hk
        exact h.exclusive j k b hj hk

end Marks

end HashComp.SlotScans
