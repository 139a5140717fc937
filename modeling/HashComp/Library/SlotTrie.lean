import Mathlib.Data.List.Basic
import Mathlib.Data.Nat.Find
import Mathlib.Logic.Function.Basic

/-!
Tries whose nodes are arrays of slots.  A slot is named by the indices followed
from the root, so the array published in a slot is named by that slot's own
path and the root array is the slot at the empty path.  The keys of the stored
data are seen only through the index each of them takes at every level.
-/

namespace HashComp.SlotTrie

inductive Slot (α : Type*) where
  | null
  | data (a : α)
  | array
  deriving DecidableEq

abbrev Path := List Nat

abbrev Slots (α : Type*) := Path → Slot α

def pathOf (f : Nat → Nat) (n : Nat) : Path :=
  (List.range n).map f

@[simp] theorem pathOf_zero (f : Nat → Nat) : pathOf f 0 = [] := rfl

theorem pathOf_succ (f : Nat → Nat) (n : Nat) :
    pathOf f (n + 1) = pathOf f n ++ [f n] := by
  simp [pathOf, List.range_succ]

@[simp] theorem pathOf_length (f : Nat → Nat) (n : Nat) :
    (pathOf f n).length = n := by
  simp [pathOf]

theorem pathOf_eq_iff {f g : Nat → Nat} {n : Nat} :
    pathOf f n = pathOf g n ↔ ∀ i < n, f i = g i := by
  simp [pathOf]

theorem getElem?_pathOf {f : Nat → Nat} {n i : Nat} (hi : i < n) :
    (pathOf f n)[i]? = some (f i) := by
  simp [pathOf, hi]

/-- Replace the array cell at `p` by an array of null cells but for cell `i`,
which keeps `a`. -/
def publish {α : Type*} (m : Slots α) (p : Path) (i : Nat) (a : α) : Slots α :=
  fun q =>
    if q = p then .array
    else if q = p ++ [i] then .data a
    else if q.dropLast = p then .null
    else m q

structure WellFormed {α : Type*} (m : Slots α) : Prop where
  root : m [] = .array
  parent : ∀ p i, m (p ++ [i]) ≠ .null → m p = .array

/-- Every datum sits at the indices it chooses itself. -/
def Placed {α : Type*} (frag : α → Nat → Nat) (m : Slots α) : Prop :=
  ∀ p a, m p = .data a → p = pathOf (frag a) p.length

def Shallow {α : Type*} (D : Nat) (m : Slots α) : Prop :=
  ∀ p, m p = .array → p.length ≤ D

def Grows {α : Type*} (m m' : Slots α) : Prop :=
  ∀ p, m p = .array → m' p = .array

def Slot.rank {α : Type*} : Slot α → Nat
  | .null => 0
  | .data _ => 1
  | .array => 2

def Slot.Later {α : Type*} (x y : Slot α) : Prop :=
  x = y ∨ x.rank < y.rank

def Advances {α : Type*} (m m' : Slots α) : Prop :=
  ∀ p, (m p).Later (m' p)

section Slots

variable {α : Type*} {m m' : Slots α} {frag : α → Nat → Nat} {f g : Nat → Nat}
  {p q : Path} {a b : α} {i n D : Nat}

theorem Grows.refl (m : Slots α) : Grows m m := fun _ h => h

theorem grows_update (hp : m p ≠ .array) (s : Slot α) :
    Grows m (Function.update m p s) := by
  intro q hq
  have hne : q ≠ p := by
    rintro rfl
    exact hp hq
  rw [Function.update_of_ne hne]
  exact hq

theorem WellFormed.cell_null (hwf : WellFormed m) (hp : m p ≠ .array) (i : Nat) :
    m (p ++ [i]) = .null := by
  by_contra hne
  exact hp (hwf.parent p i hne)

theorem WellFormed.null_of_dropLast (hwf : WellFormed m) (hp : m p ≠ .array)
    (hqp : q ≠ p) (hq : q.dropLast = p) : m q = .null := by
  rcases List.eq_nil_or_concat q with rfl | ⟨r, j, rfl⟩
  · exact absurd hq hqp
  · rw [List.concat_eq_append] at hq ⊢
    rw [List.dropLast_concat] at hq
    subst r
    exact hwf.cell_null hp j

theorem publish_self : publish m p i a p = .array := by
  simp [publish]

theorem publish_of_length_le (hne : q ≠ p) (hlen : q.length ≤ p.length) :
    publish m p i a q = m q := by
  unfold publish
  rw [if_neg hne, if_neg, if_neg]
  · rintro rfl
    rw [List.length_dropLast] at hlen
    have hnil : q = [] := List.eq_nil_of_length_eq_zero (by omega)
    exact hne (by rw [hnil, List.dropLast_nil])
  · rintro rfl
    rw [List.length_append, List.length_singleton] at hlen
    omega

theorem grows_publish (hwf : WellFormed m) (hp : m p ≠ .array) :
    Grows m (publish m p i a) := by
  intro q hq
  unfold publish
  split
  · rfl
  · rename_i hqp
    rw [if_neg, if_neg, hq]
    · intro hdrop
      rw [hwf.null_of_dropLast hp hqp hdrop] at hq
      cases hq
    · rintro rfl
      rw [hwf.cell_null hp i] at hq
      cases hq

theorem publish_eq_data_iff (hwf : WellFormed m) (hp : m p = .data a) :
    publish m p i a q = .data b ↔
      q = p ++ [i] ∧ b = a ∨ q ≠ p ∧ m q = .data b := by
  have hnot : m p ≠ .array := by simp [hp]
  unfold publish
  by_cases hqp : q = p
  · subst q
    simp
  · rw [if_neg hqp]
    by_cases hcell : q = p ++ [i]
    · subst q
      rw [hwf.cell_null hnot i]
      simp [eq_comm]
    · rw [if_neg hcell]
      by_cases hdrop : q.dropLast = p
      · rw [if_pos hdrop, hwf.null_of_dropLast hnot hqp hdrop]
        simp [hcell]
      · rw [if_neg hdrop]
        simp [hcell, hqp]

theorem publish_eq_array_iff (hwf : WellFormed m) (hp : m p ≠ .array) :
    publish m p i a q = .array ↔ q = p ∨ m q = .array := by
  constructor
  · intro h
    unfold publish at h
    split at h
    · exact Or.inl ‹_›
    · split at h
      · cases h
      · split at h
        · cases h
        · exact Or.inr h
  · rintro (rfl | h)
    · exact publish_self
    · exact grows_publish hwf hp q h

theorem WellFormed.update (hwf : WellFormed m) (hq : m q = .array)
    (hp : m (q ++ [i]) ≠ .array) (s : Slot α) :
    WellFormed (Function.update m (q ++ [i]) s) where
  root := by
    rw [Function.update_of_ne (by simp)]
    exact hwf.root
  parent := by
    intro r j hne
    have hr : m r = .array := by
      by_cases hcell : r ++ [j] = q ++ [i]
      · rw [(List.append_inj' hcell rfl).1]
        exact hq
      · rw [Function.update_of_ne hcell] at hne
        exact hwf.parent r j hne
    exact grows_update hp s r hr

theorem WellFormed.publish (hwf : WellFormed m) (hp : m p = .data a) (i : Nat) :
    WellFormed (publish m p i a) where
  root := grows_publish hwf (by simp [hp]) [] hwf.root
  parent := by
    intro r j hne
    have hnot : m p ≠ .array := by simp [hp]
    rw [publish_eq_array_iff hwf hnot]
    by_cases hrp : r = p
    · exact Or.inl hrp
    · right
      apply hwf.parent r j
      intro hnull
      apply hne
      unfold SlotTrie.publish
      have hself : r ++ [j] ≠ p := by
        rintro rfl
        simp [hp] at hnull
      have hcell : r ++ [j] ≠ p ++ [i] := fun h => hrp (List.append_inj' h rfl).1
      rw [if_neg hself, if_neg hcell, List.dropLast_concat, if_neg hrp, hnull]

theorem WellFormed.array_above (hwf : WellFormed m)
    (hocc : m (pathOf f n) ≠ .null) (hi : i < n) : m (pathOf f i) = .array := by
  induction n with
  | zero => omega
  | succ n ih =>
      have hn : m (pathOf f n) = .array :=
        hwf.parent _ (f n) (by rwa [← pathOf_succ])
      rcases Nat.lt_succ_iff_lt_or_eq.mp hi with hlt | rfl
      · exact ih (by simp [hn]) hlt
      · exact hn

theorem Placed.eq_of_frag_eq (hwf : WellFormed m) (hpl : Placed frag m)
    (hp : m p = .data a) (hq : m q = .data b) (hab : frag a = frag b) :
    p = q := by
  have hp' := hpl p a hp
  have hq' := hpl q b hq
  rw [← hab] at hq'
  rcases Nat.lt_trichotomy p.length q.length with hlt | heq | hgt
  · have harr := hwf.array_above (f := frag a) (by rw [← hq', hq]; simp) hlt
    rw [← hp', hp] at harr
    cases harr
  · rw [hp', hq', heq]
  · have harr := hwf.array_above (f := frag a) (by rw [← hp', hp]; simp) hgt
    rw [← hq', hq] at harr
    cases harr

theorem Placed.data_inj (hwf : WellFormed m) (hpl : Placed frag m)
    (hp : m p = .data a) (hq : m q = .data b) (hab : frag a = frag b) :
    a = b := by
  have hpq := hpl.eq_of_frag_eq hwf hp hq hab
  rw [hpq, hq] at hp
  exact (Slot.data.inj hp).symm

/-- No datum taking the indices `f` is stored when the path of `f` ends in a
slot that is null. -/
theorem Placed.absent_of_null (hwf : WellFormed m) (hpl : Placed frag m)
    (harr : m (pathOf f n) = .array) (hnull : m (pathOf f (n + 1)) = .null)
    (hq : m q = .data b) : frag b ≠ f := by
  rintro rfl
  have hq' := hpl q b hq
  rcases Nat.lt_or_ge n q.length with hlt | hge
  · have hocc : m (pathOf (frag b) q.length) ≠ .null := by
      rw [← hq', hq]
      simp
    rcases Nat.lt_or_eq_of_le (Nat.succ_le_of_lt hlt) with hlt' | heq
    · have := hwf.array_above hocc hlt'
      rw [hnull] at this
      cases this
    · rw [← heq] at hocc
      exact hocc hnull
  · rcases Nat.lt_or_eq_of_le hge with hlt | heq
    · have := hwf.array_above (f := frag b) (by rw [harr]; simp) hlt
      rw [← hq', hq] at this
      cases this
    · rw [← heq, ← hq', hq] at harr
      cases harr

/-- The slot a stored datum's own path meets below an array is that datum's or
another array. -/
theorem Placed.next_of_stored (hwf : WellFormed m) (hpl : Placed frag m)
    (hq : m q = .data b) (harr : m (pathOf (frag b) n) = .array) :
    m (pathOf (frag b) (n + 1)) = .array ∨ m (pathOf (frag b) (n + 1)) = .data b := by
  have hq' := hpl q b hq
  have hocc : m (pathOf (frag b) q.length) = .data b := by rw [← hq', hq]
  have hlt : n < q.length := by
    by_contra hge
    rcases Nat.lt_or_eq_of_le (Nat.le_of_not_lt hge) with hlt | heq
    · have := hwf.array_above (f := frag b) (by rw [harr]; simp) hlt
      rw [hocc] at this
      cases this
    · rw [← heq, hocc] at harr
      cases harr
  rcases Nat.lt_or_eq_of_le (Nat.succ_le_of_lt hlt) with hlt' | heq
  · exact Or.inl (hwf.array_above (by rw [hocc]; simp) hlt')
  · right
    rw [← hocc, ← heq]

theorem Placed.update_data (hpl : Placed frag m) (hp : p = pathOf (frag a) p.length) :
    Placed frag (Function.update m p (.data a)) := by
  intro q b hq
  by_cases hqp : q = p
  · subst q
    rw [Function.update_self] at hq
    rw [← Slot.data.inj hq]
    exact hp
  · rw [Function.update_of_ne hqp] at hq
    exact hpl q b hq

theorem Placed.update_null (hpl : Placed frag m) :
    Placed frag (Function.update m p .null) := by
  intro q b hq
  by_cases hqp : q = p
  · subst q
    rw [Function.update_self] at hq
    cases hq
  · rw [Function.update_of_ne hqp] at hq
    exact hpl q b hq

theorem Placed.publish (hwf : WellFormed m) (hpl : Placed frag m)
    (hp : m p = .data a) : Placed frag (publish m p (frag a p.length) a) := by
  intro q b hq
  rcases (publish_eq_data_iff hwf hp).mp hq with ⟨rfl, rfl⟩ | ⟨-, hq⟩
  · rw [List.length_append, List.length_singleton, pathOf_succ, ← hpl p b hp]
  · exact hpl q b hq

theorem Placed.congr (hpl : Placed frag m) {frag' : α → Nat → Nat}
    (h : ∀ p a, m p = .data a → frag' a = frag a) : Placed frag' m := by
  intro p a hp
  rw [h p a hp]
  exact hpl p a hp

theorem Shallow.update (hsh : Shallow D m) {s : Slot α} (hs : s ≠ .array) :
    Shallow D (Function.update m p s) := by
  intro q hq
  by_cases hqp : q = p
  · subst q
    rw [Function.update_self] at hq
    exact absurd hq hs
  · rw [Function.update_of_ne hqp] at hq
    exact hsh q hq

theorem Shallow.publish (hwf : WellFormed m) (hsh : Shallow D m)
    (hp : m p ≠ .array) (hlen : p.length ≤ D) : Shallow D (publish m p i a) := by
  intro q hq
  rcases (publish_eq_array_iff hwf hp).mp hq with rfl | hq
  · exact hlen
  · exact hsh q hq

/-- Two data that meet in one slot but part within the first `D` levels part
strictly below it. -/
theorem depth_lt_of_part (hpath : pathOf f n = pathOf g n)
    (hpart : ∃ i ≤ D, f i ≠ g i) : n ≤ D := by
  obtain ⟨i, hiD, hi⟩ := hpart
  by_contra hn
  exact hi (pathOf_eq_iff.mp hpath i (by omega))

theorem exists_end (hwf : WellFormed m) (hsh : Shallow D m) (f : Nat → Nat) :
    ∃ n ≤ D, m (pathOf f n) = .array ∧ m (pathOf f (n + 1)) ≠ .array := by
  classical
  have hex : ∃ n, m (pathOf f n) ≠ .array := by
    refine ⟨D + 1, fun harr => ?_⟩
    have := hsh _ harr
    rw [pathOf_length] at this
    omega
  cases hfind : Nat.find hex with
  | zero =>
      have := Nat.find_spec hex
      rw [hfind] at this
      exact absurd hwf.root this
  | succ n =>
      have harr : m (pathOf f n) = .array := by
        by_contra hne
        exact Nat.find_min hex (by omega) hne
      refine ⟨n, ?_, harr, ?_⟩
      · simpa using hsh _ harr
      · rw [← hfind]
        exact Nat.find_spec hex

theorem Slot.rank_le (x : Slot α) : x.rank ≤ 2 := by
  cases x <;> simp [Slot.rank]

theorem Slot.Later.refl (x : Slot α) : x.Later x := Or.inl rfl

theorem Slot.Later.trans {x y z : Slot α} (h : x.Later y) (h' : y.Later z) : x.Later z := by
  rcases h with rfl | h
  · exact h'
  · rcases h' with rfl | h'
    · exact Or.inr h
    · exact Or.inr (Nat.lt_trans h h')

theorem Slot.Later.array {y : Slot α} (h : Slot.array.Later y) : y = .array := by
  rcases h with h | h
  · exact h.symm
  · exact absurd h (Nat.not_lt.mpr y.rank_le)

theorem Advances.refl (m : Slots α) : Advances m m := fun _ => Slot.Later.refl _

theorem Advances.trans {m'' : Slots α} (h : Advances m m') (h' : Advances m' m'') :
    Advances m m'' :=
  fun p => (h p).trans (h' p)

theorem advances_update {s : Slot α} (hs : (m p).Later s) :
    Advances m (Function.update m p s) := by
  intro q
  by_cases hqp : q = p
  · subst q
    rwa [Function.update_self]
  · rw [Function.update_of_ne hqp]
    exact Slot.Later.refl _

theorem advances_publish (hwf : WellFormed m) (hp : m p = .data a) :
    Advances m (publish m p i a) := by
  have hnot : m p ≠ .array := by simp [hp]
  intro q
  unfold publish
  split
  · subst q
    rw [hp]
    exact Or.inr (by simp [Slot.rank])
  · rename_i hqp
    split
    · subst q
      rw [hwf.cell_null hnot i]
      exact Or.inr Nat.zero_lt_one
    · split
      · rename_i hdrop
        exact Or.inl (hwf.null_of_dropLast hnot hqp hdrop)
      · exact Slot.Later.refl _

end Slots

end HashComp.SlotTrie
