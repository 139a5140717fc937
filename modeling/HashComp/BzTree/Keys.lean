import HashComp.Library.ByteMemory
import Mathlib.Algebra.Group.Int.Defs
import Mathlib.Algebra.GroupWithZero.Nat
import Mathlib.Order.Lattice

namespace HashComp.BzTree

open HashComp.ByteMemory

/-- `RecordMetadata::PadKeyLength`, for a length whose padding fits in 16 bits. -/
def padKeyLength (keyLength : Nat) : Nat :=
  (keyLength + 7) / 8 * 8

def padKeyLength16 (keyLength : Nat) : Nat :=
  padKeyLength keyLength % 2 ^ 16

/-- A key that a record can have: its length with the padding and the payload fits in
the 16 bits of `total_len`. -/
structure Key where
  bytes : List Byte
  fits : bytes.length ≤ 65520
deriving DecidableEq

def Key.totalSize (key : Key) : Nat :=
  padKeyLength key.bytes.length + 8

def myMemcmp : (size : Nat) → List Byte → List Byte → Int
  | size + 1, b :: bs, c :: cs => if b ≠ c then b.toInt - c.toInt else myMemcmp size bs cs
  | _, _, _ => 0

def memcmp : (size : Nat) → List Byte → List Byte → Int
  | size + 1, b :: bs, c :: cs => if b ≠ c then b.toNat - c.toNat else memcmp size bs cs
  | _, _, _ => 0

def keyCompare : (key1 key2 : Option (List Byte)) → Int
  | none, _ => -1
  | some _, none => 1
  | some key1, some key2 =>
      let size := min key1.length key2.length
      let cmp := if size < 16 then myMemcmp size key1 key2 else memcmp size key1 key2
      if cmp = 0 then key1.length - key2.length else cmp

/-- The loop of `GetChildIndex` over the results of the comparisons with the keys, with
the number of rounds that it has left. -/
def childIndexLoop (cmp : Nat → Int) (getLe : Bool) : (rounds : Nat) → (left right : Int) → Int
  | 0, left, _ => left
  | rounds + 1, left, right =>
      let mid := (left + right).tdiv 2
      if cmp mid.toNat = 0 then (if getLe then mid - 1 else mid)
      else if right < left then (if cmp mid.toNat ≤ 0 ∧ getLe then mid - 1 else mid)
      else if 0 < cmp mid.toNat then childIndexLoop cmp getLe rounds (mid + 1) right
      else childIndexLoop cmp getLe rounds left (mid - 1)

variable {n : Nat} {key1 key2 : List Byte}

theorem le_padKeyLength (n : Nat) : n ≤ padKeyLength n := by
  rw [padKeyLength]
  omega

theorem myMemcmp_eq_zero_iff (h1 : n ≤ key1.length) (h2 : n ≤ key2.length) :
    myMemcmp n key1 key2 = 0 ↔ key1.take n = key2.take n := by
  induction n generalizing key1 key2 with
  | zero => simp [myMemcmp]
  | succ n ih =>
      obtain ⟨b, bs, rfl⟩ := List.exists_cons_of_length_pos (Nat.zero_lt_of_lt h1)
      obtain ⟨c, cs, rfl⟩ := List.exists_cons_of_length_pos (Nat.zero_lt_of_lt h2)
      simp only [myMemcmp, List.take_succ_cons, List.cons.injEq]
      rw [← ih (Nat.le_of_succ_le_succ h1) (Nat.le_of_succ_le_succ h2)]
      split
      · rename_i hne
        refine ⟨fun h => absurd (BitVec.eq_of_toInt_eq (Int.eq_of_sub_eq_zero h)) hne, fun h => ?_⟩
        exact absurd h.1 hne
      · rename_i heq
        exact ⟨fun h => ⟨not_not.mp heq, h⟩, fun h => h.2⟩

theorem memcmp_eq_zero_iff (h1 : n ≤ key1.length) (h2 : n ≤ key2.length) :
    memcmp n key1 key2 = 0 ↔ key1.take n = key2.take n := by
  induction n generalizing key1 key2 with
  | zero => simp [memcmp]
  | succ n ih =>
      obtain ⟨b, bs, rfl⟩ := List.exists_cons_of_length_pos (Nat.zero_lt_of_lt h1)
      obtain ⟨c, cs, rfl⟩ := List.exists_cons_of_length_pos (Nat.zero_lt_of_lt h2)
      simp only [memcmp, List.take_succ_cons, List.cons.injEq]
      rw [← ih (Nat.le_of_succ_le_succ h1) (Nat.le_of_succ_le_succ h2)]
      split
      · rename_i hne
        refine ⟨fun h => absurd (BitVec.eq_of_toNat_eq ?_) hne, fun h => absurd h.1 hne⟩
        omega
      · rename_i heq
        exact ⟨fun h => ⟨not_not.mp heq, h⟩, fun h => h.2⟩

theorem keyCompare_eq_zero_iff : keyCompare (some key1) (some key2) = 0 ↔ key1 = key2 := by
  have hcmp : ∀ cmp : Int,
      (cmp = 0 ↔ key1.take (min key1.length key2.length) =
        key2.take (min key1.length key2.length)) →
      ((if cmp = 0 then (key1.length : Int) - key2.length else cmp) = 0 ↔ key1 = key2) := by
    intro cmp hiff
    split
    · rename_i hzero
      have htake := hiff.mp hzero
      refine ⟨fun h => ?_, fun h => by rw [h, Int.sub_self]⟩
      have hlen : key1.length = key2.length := by omega
      rwa [hlen, Nat.min_self, List.take_length, ← hlen, List.take_length] at htake
    · rename_i hzero
      exact ⟨fun h => absurd h hzero, fun h => absurd (hiff.mpr (by rw [h])) hzero⟩
  simp only [keyCompare]
  split
  · exact hcmp _ (myMemcmp_eq_zero_iff (Nat.min_le_left ..) (Nat.min_le_right ..))
  · exact hcmp _ (memcmp_eq_zero_iff (Nat.min_le_left ..) (Nat.min_le_right ..))

end HashComp.BzTree
