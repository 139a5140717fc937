import Mathlib.Data.BitVec
import Mathlib.Data.List.Basic
import Mathlib.Tactic.Common

namespace HashComp.ByteMemory

abbrev Byte := BitVec 8

abbrev Word := BitVec 64

/-- The byte at each offset of the block. -/
abbrev Memory := Nat → Byte

def readBytes (m : Memory) (a len : Nat) : List Byte :=
  (List.range len).map fun i => m (a + i)

def writeBytes (m : Memory) (a : Nat) (bytes : List Byte) : Memory :=
  fun i => if a ≤ i then (bytes[i - a]?).getD (m i) else m i

/-- The eight bytes of a word, the lowest one first. -/
def bytesOf (w : Word) : List Byte :=
  (List.range 8).map fun i => w.extractLsb' (8 * i) 8

def wordOf (bytes : List Byte) : Word :=
  bytes.foldr (fun b w => w <<< 8 ||| b.setWidth 64) 0

def readWord (m : Memory) (a : Nat) : Word :=
  (readBytes m a 8).foldr (fun b w => w <<< 8 ||| b.setWidth 64) 0

def writeWord (m : Memory) (a : Nat) (w : Word) : Memory :=
  writeBytes m a (bytesOf w)

def Apart (a len b len' : Nat) : Prop :=
  a + len ≤ b ∨ b + len' ≤ a

variable {m : Memory} {a b len len' k k' i : Nat} {bytes : List Byte} {w : Word}

theorem Apart.symm (h : Apart a len b len') : Apart b len' a len :=
  Or.symm h

theorem Apart.mono (h : Apart a len b len') (hk : k ≤ len) (hk' : k' ≤ len') : Apart a k b k' := by
  rcases h with h | h
  · exact Or.inl (by omega)
  · exact Or.inr (by omega)

@[simp] theorem readBytes_length : (readBytes m a len).length = len := by
  simp [readBytes]

@[simp] theorem bytesOf_length : (bytesOf w).length = 8 := by
  simp [bytesOf]

theorem readBytes_congr {m' : Memory} (h : ∀ i, a ≤ i → i < a + len → m' i = m i) :
    readBytes m' a len = readBytes m a len := by
  refine List.map_congr_left fun i hi => ?_
  have := List.mem_range.mp hi
  exact h (a + i) (by omega) (by omega)

theorem writeBytes_of_outside (h : i < a ∨ a + bytes.length ≤ i) : writeBytes m a bytes i = m i := by
  rw [writeBytes]
  split
  · rw [List.getElem?_eq_none (by omega), Option.getD_none]
  · rfl

theorem readBytes_writeBytes : readBytes (writeBytes m a bytes) a bytes.length = bytes := by
  refine List.ext_getElem readBytes_length fun i hi hi' => ?_
  simp [readBytes, writeBytes, hi']

theorem readBytes_of_apart (h : Apart a bytes.length b len) :
    readBytes (writeBytes m a bytes) b len = readBytes m b len := by
  refine readBytes_congr fun i hlo hhi => writeBytes_of_outside ?_
  rcases h with h | h
  · exact Or.inr (by omega)
  · exact Or.inl (by omega)

theorem readWord_of_apart (h : Apart a bytes.length b 8) :
    readWord (writeBytes m a bytes) b = readWord m b := by
  rw [readWord, readWord, readBytes_of_apart h]

theorem readWord_eq : readWord m a = wordOf (readBytes m a 8) := rfl

theorem getLsbD_wordOf (n k j : Nat) (hj : j < 64) :
    (wordOf ((List.range' k n).map fun i => w.extractLsb' (8 * i) 8)).getLsbD j =
      (decide (j < 8 * n) && w.getLsbD (8 * k + j)) := by
  induction n generalizing k j with
  | zero => simp [wordOf]
  | succ n ih =>
      rw [List.range'_succ, List.map_cons, wordOf, List.foldr_cons, ← wordOf, BitVec.getLsbD_or,
        BitVec.getLsbD_shiftLeft, BitVec.getLsbD_setWidth, BitVec.getLsbD_extractLsb']
      rcases Nat.lt_or_ge j 8 with hlow | hhigh
      · have hlt : j < 8 * (n + 1) := by omega
        simp [hj, hlow, hlt]
      · have hindex : 8 * (k + 1) + (j - 8) = 8 * k + j := by omega
        have hiff : j - 8 < 8 * n ↔ j < 8 * (n + 1) := by omega
        rw [ih (k + 1) (j - 8) (by omega), hindex]
        simp [hj, Nat.not_lt.mpr hhigh, hiff]

theorem wordOf_bytesOf : wordOf (bytesOf w) = w := by
  refine BitVec.eq_of_getLsbD_eq fun j hj => ?_
  rw [bytesOf, List.range_eq_range', getLsbD_wordOf 8 0 j hj, Nat.mul_zero, Nat.zero_add,
    decide_eq_true (by omega), Bool.true_and]

theorem readWord_congr {m' : Memory} (h : ∀ i, a ≤ i → i < a + 8 → m' i = m i) :
    readWord m' a = readWord m a := by
  rw [readWord_eq, readWord_eq, readBytes_congr h]

theorem readWord_writeWord : readWord (writeWord m a w) a = w := by
  have hread : readBytes (writeWord m a w) a (bytesOf w).length = bytesOf w :=
    readBytes_writeBytes
  rw [bytesOf_length] at hread
  rw [readWord_eq, hread, wordOf_bytesOf]

theorem readWord_eq_zero (h : ∀ i, a ≤ i → i < a + 8 → m i = 0) : readWord m a = 0 := by
  have hzero : readWord m a = readWord (fun _ => 0) a := readWord_congr h
  have hblank : readWord (fun _ => 0) a = readWord (fun _ => 0) 0 := rfl
  rw [hzero, hblank]
  decide

theorem readBytes_add : readBytes m a (len + len') = readBytes m a len ++ readBytes m (a + len) len' := by
  simp only [readBytes, List.range_add, List.map_append, List.map_map, Function.comp_def,
    Nat.add_assoc]

theorem readBytes_take (h : k ≤ len) : (readBytes m a len).take k = readBytes m a k := by
  obtain ⟨d, rfl⟩ := Nat.exists_eq_add_of_le h
  rw [readBytes_add, List.take_left' readBytes_length]

theorem readBytes_drop (h : k ≤ len) : (readBytes m a len).drop k = readBytes m (a + k) (len - k) := by
  obtain ⟨d, rfl⟩ := Nat.exists_eq_add_of_le h
  rw [readBytes_add, List.drop_left' readBytes_length, Nat.add_sub_cancel_left]

section LittleEndian

def littleEndian (w : Nat) : List Byte → BitVec w
  | [] => 0#w
  | b :: bs => b.setWidth w ||| littleEndian w bs <<< 8

variable {w n i : Nat} {xs ys : List Byte} {b c : Byte} {x y : BitVec w}

theorem getLsbD_littleEndian :
    (littleEndian w xs).getLsbD i = (decide (i < w) && ((xs[i / 8]?).getD 0).getLsbD (i % 8)) := by
  induction xs generalizing i with
  | nil => simp [littleEndian]
  | cons b bs ih =>
      rw [littleEndian, BitVec.getLsbD_or, BitVec.getLsbD_setWidth, BitVec.getLsbD_shiftLeft, ih]
      rcases Nat.lt_or_ge i 8 with hi | hi
      · rw [Nat.div_eq_of_lt hi, Nat.mod_eq_of_lt hi]
        simp [hi]
      · have hdiv : i / 8 = (i - 8) / 8 + 1 := by omega
        have hmod : (i - 8) % 8 = i % 8 := by omega
        have hhigh : b.getLsbD i = false := BitVec.getLsbD_of_ge b i hi
        rw [hdiv, hmod, hhigh, List.getElem?_cons_succ]
        rcases Nat.lt_or_ge i w with h | h
        · simp [h, Nat.not_lt.mpr hi, Nat.lt_of_le_of_lt (Nat.sub_le i 8) h]
        · simp [Nat.not_lt.mpr h]

theorem littleEndian_append :
    littleEndian w (xs ++ ys) = littleEndian w xs ||| littleEndian w ys <<< (8 * xs.length) := by
  induction xs with
  | nil => simp [littleEndian]
  | cons b bs ih =>
      rw [List.cons_append, littleEndian, ih, littleEndian, List.length_cons, BitVec.shiftLeft_or_distrib,
        BitVec.or_assoc, ← BitVec.shiftLeft_add, Nat.mul_succ]

theorem littleEndian_take (h : w ≤ 8 * n) : littleEndian w (xs.take n) = littleEndian w xs := by
  refine BitVec.eq_of_getLsbD_eq fun i hi => ?_
  rw [getLsbD_littleEndian, getLsbD_littleEndian, List.getElem?_take_of_lt (by omega)]

theorem littleEndian_shiftRight (xs ys : List Byte) (h : 8 * (xs.length + ys.length) ≤ w) :
    littleEndian w (xs ++ ys) >>> (8 * xs.length) = littleEndian w ys := by
  refine BitVec.eq_of_getLsbD_eq fun i hi => ?_
  rw [BitVec.getLsbD_ushiftRight, getLsbD_littleEndian, getLsbD_littleEndian]
  have hdiv : (8 * xs.length + i) / 8 = xs.length + i / 8 := by omega
  have hmod : (8 * xs.length + i) % 8 = i % 8 := by omega
  rw [hdiv, hmod, List.getElem?_append_right (Nat.le_add_right _ _), Nat.add_sub_cancel_left]
  rcases Nat.lt_or_ge (i / 8) ys.length with hlt | hge
  · have hin : 8 * xs.length + i < w := by omega
    simp [hi, hin]
  · simp [List.getElem?_eq_none hge]

theorem low_and_shiftLeft : b.setWidth w &&& x <<< 8 = 0#w := by
  refine BitVec.eq_of_getLsbD_eq fun i hi => ?_
  rw [BitVec.getLsbD_and, BitVec.getLsbD_setWidth, BitVec.getLsbD_shiftLeft, BitVec.getLsbD_zero]
  rcases Nat.lt_or_ge i 8 with h | h
  · simp [h]
  · simp [BitVec.getLsbD_of_ge b i h]

theorem littleEndian_cons_xor :
    littleEndian w (b :: xs) = b.setWidth w ^^^ littleEndian w xs <<< 8 := by
  rw [littleEndian]
  refine BitVec.eq_of_getLsbD_eq fun i hi => ?_
  have hand := congrArg (fun v => BitVec.getLsbD v i) (low_and_shiftLeft (b := b) (x := littleEndian w xs))
  simp only [BitVec.getLsbD_and, BitVec.getLsbD_zero] at hand
  rw [BitVec.getLsbD_or, BitVec.getLsbD_xor]
  revert hand
  cases (BitVec.setWidth w b).getLsbD i <;> cases (littleEndian w xs <<< 8).getLsbD i <;> simp

theorem littleEndian_cons_add :
    littleEndian w (b :: xs) = b.setWidth w + littleEndian w xs <<< 8 := by
  rw [littleEndian, BitVec.add_eq_or_of_and_eq_zero _ _ low_and_shiftLeft]

theorem getLsbD_littleEndian_extract {v : Nat} (word : BitVec v) (a n : Nat) :
    (littleEndian w ((List.range n).map fun j => word.extractLsb' (a + 8 * j) 8)).getLsbD i =
      (decide (i < w) && decide (i < 8 * n) && word.getLsbD (a + i)) := by
  rw [getLsbD_littleEndian, Bool.and_assoc]
  refine congrArg (decide (i < w) && ·) ?_
  rcases Nat.lt_or_ge (i / 8) n with hlt | hge
  · have hin : i < 8 * n := by omega
    have hmod : i % 8 < 8 := Nat.mod_lt _ (by decide)
    have hsum : a + 8 * (i / 8) + i % 8 = a + i := by omega
    rw [List.getElem?_map, List.getElem?_range hlt, Option.map_some, Option.getD_some,
      BitVec.getLsbD_extractLsb', hsum]
    simp [hin, hmod]
  · have hout : ¬ i < 8 * n := by omega
    rw [List.getElem?_eq_none (by simpa using hge)]
    simp [hout]

end LittleEndian

end HashComp.ByteMemory
