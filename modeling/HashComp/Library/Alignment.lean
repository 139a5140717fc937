import HashComp.Library.BitFields
import Mathlib.Data.List.Pairwise
import Mathlib.Data.List.Basic

namespace HashComp.Alignment

variable {α : Type*} {size : α → Nat} {n m a b base : Nat} {l : List α} {p q : Nat × α}

section Ranges

structure Range where
  start : Nat
  stop : Nat

def Range.Has (s : Range) (address : Nat) : Prop :=
  s.start ≤ address ∧ address < s.stop

def Range.Disjoint (s s' : Range) : Prop :=
  ∀ address, ¬ (s.Has address ∧ s'.Has address)

theorem Range.Disjoint.symm {s s' : Range} (h : s.Disjoint s') : s'.Disjoint s :=
  fun address hboth => h address hboth.symm

theorem disjoint_of_le {s s' : Range} (h : s.stop ≤ s'.start) : s.Disjoint s' := by
  rintro address ⟨⟨-, hlt⟩, ⟨hle, -⟩⟩
  omega

end Ranges

section Rounding

def roundUp (n a : Nat) : Nat := (n + (a - 1)) / a * a

theorem dvd_roundUp : a ∣ roundUp n a := Nat.dvd_mul_left ..

theorem le_roundUp (ha : 0 < a) : n ≤ roundUp n a := by
  have hdiv := Nat.lt_div_mul_add ha (a := n + (a - 1))
  rw [roundUp]
  omega

theorem roundUp_lt (ha : 0 < a) : roundUp n a < n + a := by
  have hdiv := Nat.div_mul_le_self (n + (a - 1)) a
  rw [roundUp]
  omega

theorem roundUp_le_of_dvd (ha : 0 < a) (hle : n ≤ m) (hm : a ∣ m) : roundUp n a ≤ m := by
  obtain ⟨k, rfl⟩ := hm
  have hlt : (n + (a - 1)) / a < k + 1 := by
    rw [Nat.div_lt_iff_lt_mul ha, Nat.add_mul, Nat.one_mul, Nat.mul_comm k]
    omega
  rw [roundUp, Nat.mul_comm a]
  exact Nat.mul_le_mul_right a (Nat.le_of_lt_succ hlt)

end Rounding

section Words

variable {w : BitVec 64}

theorem toNat_add_clear {k : Nat} (hk : k < 64) (hw : w.toNat + 2 ^ k ≤ 2 ^ 64) :
    ((w + (BitVec.ofNat 64 (2 ^ k) - 1)) &&& ~~~(BitVec.ofNat 64 (2 ^ k) - 1)).toNat =
      roundUp w.toNat (2 ^ k) := by
  have hpow : 2 ^ k < 2 ^ 64 := Nat.pow_lt_pow_right (by decide) hk
  have hpos : 0 < 2 ^ k := Nat.two_pow_pos k
  have hmask : BitVec.ofNat 64 (2 ^ k) - 1 = BitFields.mask 0 k := by
    apply BitVec.eq_of_toNat_eq
    rw [BitVec.toNat_sub_of_le, BitVec.toNat_ofNat, BitFields.toNat_mask (by omega),
      Nat.mod_eq_of_lt hpow, Nat.shiftLeft_zero]
    · rfl
    · rw [BitVec.le_def, BitVec.toNat_ofNat, Nat.mod_eq_of_lt hpow]
      exact hpos
  have hsum : (w + BitFields.mask 0 k).toNat = w.toNat + (2 ^ k - 1) := by
    rw [BitVec.toNat_add, BitFields.toNat_mask (by omega), Nat.shiftLeft_zero,
      Nat.mod_eq_of_lt (by omega)]
  rw [hmask, BitFields.toNat_clear, hsum, roundUp]

end Words

section Placing

/-- The pieces with their starts, each right after the one before it. -/
def place (size : α → Nat) (base : Nat) : List α → List (Nat × α)
  | [] => []
  | x :: l => (base, x) :: place size (base + size x) l

theorem start_le (hp : p ∈ place size base l) : base ≤ p.1 := by
  induction l generalizing base with
  | nil => cases hp
  | cons x l ih =>
      rcases List.mem_cons.mp hp with rfl | hp
      · exact Nat.le_refl _
      · exact Nat.le_trans (Nat.le_add_right ..) (ih hp)

theorem mem_of_mem_place (hp : p ∈ place size base l) : p.2 ∈ l := by
  induction l generalizing base with
  | nil => cases hp
  | cons x l ih =>
      rcases List.mem_cons.mp hp with rfl | hp
      · exact List.mem_cons_self
      · exact List.mem_cons_of_mem _ (ih hp)

theorem pairwise_place :
    (place size base l).Pairwise fun p q => p.1 + size p.2 ≤ q.1 := by
  induction l generalizing base with
  | nil => exact .nil
  | cons x l ih => exact .cons (fun _ hq => start_le hq) ih

theorem dvd_place_iff (hbase : a ∣ base) :
    (∀ p ∈ place size base l, a ∣ p.1) ↔ ∀ x ∈ l.dropLast, a ∣ size x := by
  induction l generalizing base with
  | nil => simp [place]
  | cons x l ih =>
      cases l with
      | nil => simp [place, hbase]
      | cons y l =>
          rw [List.dropLast_cons_cons, List.forall_mem_cons, place, List.forall_mem_cons]
          constructor
          · rintro ⟨-, hrest⟩
            have hnext : a ∣ base + size x := hrest (base + size x, y) List.mem_cons_self
            exact ⟨(Nat.dvd_add_right hbase).mp hnext, (ih hnext).mp hrest⟩
          · rintro ⟨hx, hrest⟩
            exact ⟨hbase, (ih (Nat.dvd_add hbase hx)).mpr hrest⟩

end Placing

end HashComp.Alignment
