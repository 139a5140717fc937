import Mathlib.Data.BitVec
import Mathlib.Data.Nat.Bitwise
import Mathlib.Logic.Function.Basic
import Mathlib.Tactic.Common
import Mathlib.Tactic.Linarith

/-!
Fields of a word: reading one with a mask, writing the lowest one and adding to one.  Steps
that mix the bits of a word and lose none of them: shifting a word onto itself, multiplying by
a word that has an inverse, adding a constant, and turning the word round.
-/

namespace HashComp.BitFields

variable {w x : BitVec 64} {lo len : Nat}

def mask (lo len : Nat) : BitVec 64 := BitVec.ofNat 64 (2 ^ len - 1) <<< lo

theorem toNat_mask (h : lo + len ≤ 64) : (mask lo len).toNat = (2 ^ len - 1) <<< lo := by
  have hpow : 2 ^ (lo + len) ≤ 2 ^ 64 := Nat.pow_le_pow_right (by decide) h
  have hlen : 2 ^ len ≤ 2 ^ 64 := Nat.pow_le_pow_right (by decide) (by omega)
  have hpos : 0 < 2 ^ len := Nat.two_pow_pos len
  have hlt : (2 ^ len - 1) * 2 ^ lo < 2 ^ 64 := by
    calc (2 ^ len - 1) * 2 ^ lo
        < 2 ^ len * 2 ^ lo := Nat.mul_lt_mul_of_pos_right (by omega) (Nat.two_pow_pos lo)
      _ = 2 ^ (lo + len) := by rw [← pow_add, Nat.add_comm]
      _ ≤ 2 ^ 64 := hpow
  have hones : (BitVec.ofNat 64 (2 ^ len - 1)).toNat = 2 ^ len - 1 := by
    rw [BitVec.toNat_ofNat, Nat.mod_eq_of_lt (by omega)]
  rw [mask, BitVec.toNat_shiftLeft, hones, Nat.mod_eq_of_lt (by rwa [Nat.shiftLeft_eq])]

theorem toNat_append {m n : Nat} {x : BitVec m} {y : BitVec n} :
    (x ++ y).toNat = x.toNat * 2 ^ n + y.toNat := by
  rw [BitVec.toNat_append, ← Nat.shiftLeft_add_eq_or_of_lt y.isLt, Nat.shiftLeft_eq]

theorem toNat_field (h : lo + len ≤ 64) :
    ((w &&& mask lo len) >>> lo).toNat = w.toNat / 2 ^ lo % 2 ^ len := by
  rw [BitVec.toNat_ushiftRight, BitVec.toNat_and, toNat_mask h, Nat.shiftRight_and_distrib,
    Nat.shiftLeft_shiftRight, Nat.and_two_pow_sub_one_eq_mod, Nat.shiftRight_eq_div_pow]

theorem toNat_clear :
    (w &&& ~~~mask 0 len).toNat = w.toNat / 2 ^ len * 2 ^ len := by
  have hclear : w &&& ~~~mask 0 len = (w >>> len) <<< len := by
    refine BitVec.eq_of_getLsbD_eq fun i hi => ?_
    simp only [mask, BitVec.shiftLeft_zero, BitVec.getLsbD_and, BitVec.getLsbD_not,
      BitVec.getLsbD_ofNat, Nat.testBit_two_pow_sub_one, BitVec.getLsbD_shiftLeft,
      BitVec.getLsbD_ushiftRight]
    rcases Nat.lt_or_ge i len with hlt | hge
    · simp [hi, hlt]
    · simp [hi, Nat.not_lt.mpr hge, Nat.add_sub_cancel' hge]
  rw [hclear, BitVec.toNat_shiftLeft, BitVec.toNat_ushiftRight, Nat.shiftRight_eq_div_pow,
    Nat.shiftLeft_eq, Nat.mod_eq_of_lt]
  exact lt_of_le_of_lt (Nat.div_mul_le_self ..) w.isLt

theorem toNat_setLow (hx : x.toNat < 2 ^ len) :
    ((w &&& ~~~mask 0 len) ||| x).toNat = w.toNat / 2 ^ len * 2 ^ len + x.toNat := by
  rw [BitVec.toNat_or, toNat_clear, ← Nat.shiftLeft_eq, Nat.shiftLeft_add_eq_or_of_lt hx]

end HashComp.BitFields

namespace HashComp.BitMixers

open Function

variable {w r : Nat} {c m m' : BitVec w}

/-- Two words that differ in the same way after a shift to the right do not differ. -/
theorem eq_zero_of_eq_shiftRight {x : BitVec w} (hr : 0 < r) (h : x = x >>> r) : x = 0#w := by
  have hnat : x.toNat = x.toNat / 2 ^ r := by
    conv => lhs; rw [h]
    rw [BitVec.toNat_ushiftRight, Nat.shiftRight_eq_div_pow]
  refine BitVec.eq_of_toNat_eq ?_
  rw [BitVec.toNat_zero]
  by_contra hne
  have hlt := Nat.div_lt_self (Nat.pos_of_ne_zero hne) (Nat.one_lt_two_pow (Nat.ne_of_gt hr))
  omega

theorem xorShiftRight_injective (hr : 0 < r) : Injective fun x : BitVec w => x ^^^ x >>> r := by
  intro x y h
  have hxy : x ^^^ y = (x ^^^ y) >>> r := by
    have hshift : x ^^^ x >>> r = y ^^^ y >>> r := h
    rw [BitVec.ushiftRight_xor_distrib]
    refine BitVec.eq_of_getLsbD_eq fun i _ => ?_
    have hbit := congrArg (fun v => BitVec.getLsbD v i) hshift
    simp only [BitVec.getLsbD_xor] at hbit ⊢
    revert hbit
    cases x.getLsbD i <;> cases y.getLsbD i <;> cases (x >>> r).getLsbD i <;>
      cases (y >>> r).getLsbD i <;> simp
  exact BitVec.xor_eq_zero_iff.mp (eq_zero_of_eq_shiftRight hr hxy)

theorem mul_injective (h : m * m' = 1#w) : Injective fun x : BitVec w => x * m := by
  intro x y hxy
  have hmul := congrArg (· * m') hxy
  simp only [BitVec.mul_assoc, h] at hmul
  rwa [BitVec.mul_one, BitVec.mul_one] at hmul

theorem add_injective (c : BitVec w) : Injective fun x : BitVec w => x + c :=
  fun _ _ h => add_right_cancel h

theorem xor_injective (c : BitVec w) : Injective fun x : BitVec w => c ^^^ x := by
  intro x y h
  have hxor := congrArg (c ^^^ ·) h
  simpa only [← BitVec.xor_assoc, BitVec.xor_self, BitVec.zero_xor] using hxor

theorem cross_injective (h : m * m' = 1#w) (c : BitVec w) : Injective fun x : BitVec w => (x ^^^ c) * m :=
  (mul_injective h).comp fun x y hxy => xor_injective c (by simpa only [BitVec.xor_comm] using hxy)

theorem rotate_injective (hr : r ≤ w) : Injective fun x : BitVec w => x <<< r ||| x >>> (w - r) := by
  have hbit : ∀ (x : BitVec w) i, i < w → x.getLsbD i =
      (x <<< r ||| x >>> (w - r)).getLsbD (if i < w - r then i + r else i - (w - r)) := by
    intro x i hi
    rw [BitVec.getLsbD_or, BitVec.getLsbD_shiftLeft, BitVec.getLsbD_ushiftRight]
    split
    · have hout : x.getLsbD (w - r + (i + r)) = false := BitVec.getLsbD_of_ge _ _ (by omega)
      have hlt : i + r < w := by omega
      have hge : ¬ i + r < r := by omega
      simp [hout, hlt, hge]
    · have hin : w - r + (i - (w - r)) = i := by omega
      have hlt : i - (w - r) < r := by omega
      simp [hin, hlt]
  intro x y h
  refine BitVec.eq_of_getLsbD_eq fun i hi => ?_
  rw [hbit x i hi, hbit y i hi]
  exact congrArg (fun v => BitVec.getLsbD v _) h

end HashComp.BitMixers
