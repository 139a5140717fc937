import Mathlib.Data.List.Count
import Mathlib.Data.List.Pairwise
import Mathlib.Tactic.Common

namespace HashComp.Thresholds

variable {α β : Type*} {p : α → Bool} {l l' : List α} {a b : α} {i : Nat}

def Threshold (p : α → Bool) (l : List α) : Prop :=
  l.Pairwise fun a b => p b = true → p a = true

def lastOf (p : α → Bool) (l : List α) : Option α :=
  l[l.countP p - 1]?

theorem Threshold.countP_eq_zero (h : Threshold p (a :: l)) (ha : p a = false) :
    l.countP p = 0 := by
  refine List.countP_eq_zero.mpr fun b hb hpb => ?_
  rw [(List.pairwise_cons.mp h).1 b hb hpb] at ha
  cases ha

theorem Threshold.iff_lt (h : Threshold p l) (hi : l[i]? = some a) :
    p a = true ↔ i < l.countP p := by
  induction l generalizing i with
  | nil => cases hi
  | cons b l ih =>
      have htail : Threshold p l := (List.pairwise_cons.mp h).2
      cases hb : p b with
      | true =>
          rw [List.countP_cons_of_pos hb]
          cases i with
          | zero =>
              obtain rfl := Option.some.inj hi
              simp [hb]
          | succ i => rw [ih htail hi, Nat.succ_lt_succ_iff]
      | false =>
          have hzero := Threshold.countP_eq_zero h hb
          rw [List.countP_cons_of_neg (by simp [hb]), hzero]
          cases i with
          | zero =>
              obtain rfl := Option.some.inj hi
              simp [hb]
          | succ i =>
              rw [ih htail hi, hzero]
              simp

theorem countP_append_of_pos (h : Threshold p (l ++ a :: l')) (ha : p a = true) :
    (l ++ a :: l').countP p = l.length + 1 + l'.countP p := by
  have hall : l.countP p = l.length :=
    List.countP_eq_length.mpr fun b hb =>
      (List.pairwise_append.mp h).2.2 b hb a List.mem_cons_self ha
  rw [List.countP_append, List.countP_cons_of_pos ha, hall]
  omega

theorem countP_append_of_neg (h : Threshold p (l ++ a :: l')) (ha : p a = false) :
    (l ++ a :: l').countP p = l.countP p := by
  rw [List.countP_append, List.countP_cons_of_neg (by simp [ha]),
    Threshold.countP_eq_zero (List.pairwise_append.mp h).2.1 ha, Nat.add_zero]

/-- If `p` holds of an element, the last one that it holds of is not before that. -/
theorem lastOf_append_of_pos (h : Threshold p (l ++ a :: l')) (ha : p a = true) :
    lastOf p (l ++ a :: l') = lastOf p (a :: l') := by
  have hindex : l.length + 1 + l'.countP p - 1 = l.length + (l'.countP p + 1 - 1) := by omega
  rw [lastOf, lastOf, countP_append_of_pos h ha, List.countP_cons_of_pos ha, hindex,
    List.getElem?_append_right (Nat.le_add_right _ _), Nat.add_sub_cancel_left]

/-- If `p` does not hold of an element, the last one that it holds of is before that. -/
theorem lastOf_append_of_neg (h : Threshold p (l ++ a :: l')) (ha : p a = false) (hl : l ≠ []) :
    lastOf p (l ++ a :: l') = lastOf p l := by
  have hlt : l.countP p - 1 < l.length := by
    have := List.countP_le_length (p := p) (l := l)
    have := List.length_pos_iff.mpr hl
    omega
  rw [lastOf, lastOf, countP_append_of_neg h ha, List.getElem?_append_left hlt]

theorem lastOf_cons_map {f : α → β} (ha : p a = true) (hb : p b = true) (hf : f a = f b) :
    (lastOf p (a :: l)).map f = (lastOf p (b :: l)).map f := by
  rw [lastOf, lastOf, List.countP_cons_of_pos ha, List.countP_cons_of_pos hb, Nat.add_sub_cancel]
  cases l.countP p with
  | zero => exact congrArg some hf
  | succ i => rfl

end HashComp.Thresholds
