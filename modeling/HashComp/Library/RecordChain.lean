import Mathlib.Data.List.Basic
import Mathlib.Logic.Function.Basic

namespace HashComp.RecordChain

variable {R K : Type*} (key : R → K) (previous : R → Nat)

inductive Chain (log : Nat → Option R) (first : Nat) : Nat → List Nat → Prop where
  | nil {a : Nat} (h : a < first) : Chain log first a []
  | cons {a : Nat} {r : R} {l : List Nat} (ha : first ≤ a) (hr : log a = some r)
      (hprev : previous r < a) (hl : Chain log first (previous r) l) : Chain log first a (a :: l)

def firstOf [DecidableEq K] (log : Nat → Option R) (k : K) (l : List Nat) : Option Nat :=
  l.find? fun a => (log a).any fun r => key r = k

section Chain

variable {key previous} {log log' : Nat → Option R} {first a b : Nat} {l l' : List Nat} {r : R}

theorem Chain.unique (h : Chain previous log first a l) (h' : Chain previous log first a l') :
    l = l' := by
  induction h generalizing l' with
  | nil hlt =>
      cases h' with
      | nil => rfl
      | cons hle => exact absurd hle (Nat.not_le.mpr hlt)
  | cons hle hr hprev hl ih =>
      cases h' with
      | nil hlt => exact absurd hle (Nat.not_le.mpr hlt)
      | cons hle' hr' hprev' hl' =>
          rw [hr] at hr'
          cases hr'
          rw [ih hl']

theorem Chain.bounds (h : Chain previous log first a l) (hb : b ∈ l) : first ≤ b ∧ b ≤ a := by
  induction h with
  | nil => cases hb
  | cons hle hr hprev hl ih =>
      rcases List.mem_cons.mp hb with rfl | hb
      · exact ⟨hle, Nat.le_refl _⟩
      · exact ⟨(ih hb).1, Nat.le_trans (ih hb).2 (Nat.le_of_lt hprev)⟩

theorem Chain.pairwise (h : Chain previous log first a l) : l.Pairwise (· > ·) := by
  induction h with
  | nil => exact .nil
  | cons hle hr hprev hl ih =>
      exact List.pairwise_cons.mpr
        ⟨fun b hb => Nat.lt_of_le_of_lt (hl.bounds hb).2 hprev, ih⟩

theorem Chain.record (h : Chain previous log first a l) (hb : b ∈ l) : ∃ r, log b = some r := by
  induction h with
  | nil => cases hb
  | cons hle hr hprev hl ih =>
      rcases List.mem_cons.mp hb with rfl | hb
      · exact ⟨_, hr⟩
      · exact ih hb

theorem Chain.frame (h : Chain previous log first a l)
    (hsame : ∀ b ∈ l, (log' b).map previous = (log b).map previous) :
    Chain previous log' first a l := by
  induction h with
  | nil hlt => exact .nil hlt
  | @cons a r l hle hr hprev hl ih =>
      have ha := hsame a List.mem_cons_self
      rw [hr, Option.map_some, Option.map_eq_some_iff] at ha
      obtain ⟨r', hr', heq⟩ := ha
      refine .cons hle hr' (by rwa [heq]) ?_
      rw [heq]
      exact ih fun b hb => hsame b (List.mem_cons_of_mem _ hb)

theorem Chain.tail (h : Chain previous log first a (a :: l)) (hr : log a = some r) :
    Chain previous log first (previous r) l := by
  cases h with
  | cons hle hr' hprev hl =>
      rw [hr] at hr'
      cases hr'
      exact hl

theorem Chain.eq_nil (h : Chain previous log first a l) (hlt : a < first) : l = [] := by
  cases h with
  | nil => rfl
  | cons hle => exact absurd hle (Nat.not_le.mpr hlt)

theorem Chain.eq_cons (h : Chain previous log first a l) (hle : first ≤ a) :
    ∃ l' r, l = a :: l' ∧ log a = some r ∧ previous r < a ∧
      Chain previous log first (previous r) l' := by
  cases h with
  | nil hlt => exact absurd hle (Nat.not_le.mpr hlt)
  | cons _ hr hprev hl => exact ⟨_, _, rfl, hr, hprev, hl⟩

theorem Chain.update (h : Chain previous log first a l) (hfree : log b = none) (r : R) :
    Chain previous (Function.update log b (some r)) first a l := by
  refine h.frame fun c hc => ?_
  have hcb : c ≠ b := by
    rintro rfl
    obtain ⟨r', hr'⟩ := h.record hc
    rw [hfree] at hr'
    cases hr'
  rw [Function.update_of_ne hcb]

theorem Chain.push (h : Chain previous log first a l) (hfree : log b = none) (hle : first ≤ b)
    (hlt : a < b) (hprev : previous r = a) :
    Chain previous (Function.update log b (some r)) first b (b :: l) := by
  refine .cons hle (Function.update_self ..) (by rwa [hprev]) ?_
  rw [hprev]
  exact h.update hfree r

end Chain

section Search

variable [DecidableEq K] {key previous} {log log' : Nat → Option R} {first a b : Nat}
  {l : List Nat} {r : R} {k : K}

@[simp] theorem firstOf_nil : firstOf key log k [] = none := rfl

theorem firstOf_cons (hr : log a = some r) :
    firstOf key log k (a :: l) = if key r = k then some a else firstOf key log k l := by
  by_cases hk : key r = k
  · simp [firstOf, hr, hk]
  · simp [firstOf, hr, hk]

theorem firstOf_congr (hsame : ∀ b ∈ l, (log' b).map key = (log b).map key) :
    firstOf key log' k l = firstOf key log k l := by
  induction l with
  | nil => rfl
  | cons a l ih =>
      have ha := hsame a List.mem_cons_self
      have hany : ((log' a).any fun r => decide (key r = k)) =
          (log a).any fun r => decide (key r = k) := by
        cases hlog' : log' a with
        | none =>
            rw [hlog', Option.map_none, eq_comm, Option.map_eq_none_iff] at ha
            rw [ha]
        | some r' =>
            rw [hlog', Option.map_some, eq_comm, Option.map_eq_some_iff] at ha
            obtain ⟨r, hr, heq⟩ := ha
            rw [hr, Option.any_some, Option.any_some, heq]
      have htail := ih fun b hb => hsame b (List.mem_cons_of_mem _ hb)
      simp only [firstOf, List.find?_cons] at htail ⊢
      rw [hany, htail]

theorem firstOf_mem (h : firstOf key log k l = some b) : b ∈ l :=
  List.mem_of_find?_eq_some h

theorem firstOf_key (h : firstOf key log k l = some b) : ∃ r, log b = some r ∧ key r = k := by
  have hb := List.find?_some h
  rw [Option.any_eq_true] at hb
  obtain ⟨r, hr, hk⟩ := hb
  exact ⟨r, hr, of_decide_eq_true hk⟩

theorem firstOf_eq_none_iff :
    firstOf key log k l = none ↔ ∀ b ∈ l, ∀ r, log b = some r → key r ≠ k := by
  rw [firstOf, List.find?_eq_none]
  constructor
  · intro h b hb r hr hk
    apply h b hb
    rw [hr, Option.any_some]
    exact decide_eq_true hk
  · intro h b hb hany
    rw [Option.any_eq_true] at hany
    obtain ⟨r, hr, hk⟩ := hany
    exact h b hb r hr (of_decide_eq_true hk)

end Search

section Passes

variable {R : Type*} (previous : R → Nat)

/-- A search from one address gets to another, and the records that it has left
behind all satisfy `p`. -/
inductive Passes (log : Nat → Option R) (p : Nat → R → Prop) : Nat → Nat → Prop where
  | refl (a : Nat) : Passes log p a a
  | step {a b : Nat} {r : R} (hr : log a = some r) (hp : p a r) (hprev : previous r < a)
      (h : Passes log p (previous r) b) : Passes log p a b

variable {previous} {log log' : Nat → Option R} {p q : Nat → R → Prop} {a b c : Nat} {r : R}

theorem Passes.le (h : Passes previous log p a b) : b ≤ a := by
  induction h with
  | refl => exact Nat.le_refl _
  | step _ _ hprev _ ih => exact Nat.le_trans ih (Nat.le_of_lt hprev)

theorem Passes.trans (h : Passes previous log p a b) (h' : Passes previous log p b c) :
    Passes previous log p a c := by
  induction h with
  | refl => exact h'
  | step hr hp hprev _ ih => exact .step hr hp hprev (ih h')

theorem Passes.map (h : Passes previous log p a b)
    (hmap : ∀ c r, log c = some r → p c r →
      ∃ r', log' c = some r' ∧ q c r' ∧ previous r' = previous r) :
    Passes previous log' q a b := by
  induction h with
  | refl => exact .refl _
  | step hr hp hprev _ ih =>
      obtain ⟨r', hr', hq, heq⟩ := hmap _ _ hr hp
      exact .step hr' hq (by rwa [heq]) (by rwa [heq])

theorem Passes.mono (h : Passes previous log p a b) (himp : ∀ c r, p c r → q c r) :
    Passes previous log q a b :=
  h.map fun c r hr hp => ⟨r, hr, himp c r hp, rfl⟩

theorem Passes.head (h : Passes previous log p a b) (hne : a ≠ b) :
    ∃ r, log a = some r ∧ p a r ∧ previous r < a ∧ Passes previous log p (previous r) b := by
  cases h with
  | refl => exact absurd rfl hne
  | step hr hp hprev h => exact ⟨_, hr, hp, hprev, h⟩

theorem Passes.last (h : Passes previous log p a b) :
    a = b ∨ ∃ c r, log c = some r ∧ previous r = b := by
  induction h with
  | refl => exact Or.inl rfl
  | step hr _ _ _ ih =>
      rcases ih with heq | hlast
      · exact Or.inr ⟨_, _, hr, heq⟩
      · exact Or.inr hlast

theorem Passes.split (h : Passes previous log p a b) (h' : Passes previous log q a c)
    (hle : b ≤ c) : Passes previous log p a c ∧ Passes previous log p c b := by
  induction h' with
  | refl => exact ⟨.refl _, h⟩
  | @step a c r hr _ hprev htail ih =>
      have hne : a ≠ b := by
        have := htail.le
        omega
      obtain ⟨r', hr', hp, -, hrest⟩ := h.head hne
      rw [hr] at hr'
      cases hr'
      obtain ⟨hto, hfrom⟩ := ih hrest hle
      exact ⟨.step hr hp hprev hto, hfrom⟩

/-- Two searches that both end where the other one cannot pass end at one address. -/
theorem Passes.ends_unique (h : Passes previous log p a b) (h' : Passes previous log q a c)
    (hb : ∀ r, log b = some r → ¬ q b r) (hc : ∀ r, log c = some r → ¬ p c r) : b = c := by
  rcases Nat.lt_trichotomy b c with hlt | heq | hlt
  · obtain ⟨r, hr, hp, -⟩ := (h.split h' (Nat.le_of_lt hlt)).2.head (Nat.ne_of_gt hlt)
    exact (hc r hr hp).elim
  · exact heq
  · obtain ⟨r, hr, hq, -⟩ := (h'.split h (Nat.le_of_lt hlt)).2.head (Nat.ne_of_gt hlt)
    exact (hb r hr hq).elim

end Passes

end HashComp.RecordChain
