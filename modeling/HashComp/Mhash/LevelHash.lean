import HashComp.Library.SlotTrie
import Mathlib.Algebra.Group.Nat.Defs

/-!
The fragments of a 64-bit hash that address the root array and the arrays below
it, and the number of levels that a table gives itself when it is constructed.
Shifting a `size_t` by 64 or more has no defined result, so the shift is a partial
operation here.
-/

namespace HashComp.LevelHash

/-- `get_power2<B>::value`. -/
def getPower2 : Nat → Nat
  | 0 => 1
  | b + 1 => 2 * getPower2 b

theorem getPower2_eq (b : Nat) : getPower2 b = 2 ^ b := by
  induction b with
  | zero => rfl
  | succ b ih => rw [getPower2, ih, Nat.pow_succ, Nat.mul_comm]

def levelHash (hash : BitVec 64) (level arrSize totalLevel : Nat) : Option Nat :=
  if totalLevel * level < 64 then
    some ((hash >>> (totalLevel * level)) &&& BitVec.ofNat 64 (arrSize - 1)).toNat
  else none

/-- The template arguments of a hash trie: its hasher, `HASH_LEVEL` and
`ROOT_HASH_LEVEL`. -/
structure Layout (K : Type*) where
  hasher : K → BitVec 64
  hashLevel : Nat
  rootHashLevel : Nat

namespace Layout

variable {K : Type*} (L : Layout K)

def rootHash (hash : BitVec 64) : Nat :=
  (hash &&& BitVec.ofNat 64 (getPower2 L.rootHashLevel - 1)).toNat

/-- `level_hash`: the fragment that addresses the array of the given level,
which is at least one. -/
def levelHash (hash : BitVec 64) (level : Nat) : Option Nat :=
  LevelHash.levelHash (hash >>> L.rootHashLevel) (level - 1)
    (getPower2 L.hashLevel) L.hashLevel

def fragment (hash : BitVec 64) : Nat → Nat
  | 0 => L.rootHash hash
  | level + 1 =>
      ((hash >>> L.rootHashLevel >>> (L.hashLevel * level)) &&&
        BitVec.ofNat 64 (getPower2 L.hashLevel - 1)).toNat

def keyPath (key : K) : Nat → SlotTrie.Path :=
  SlotTrie.pathOf (L.fragment (L.hasher key))

/-- Levels up to `D` part any two keys that hash differently, and no shift up to
level `D + 1` reaches 64. -/
structure Admissible (D : Nat) : Prop where
  parts : ∀ key key', L.hasher key ≠ L.hasher key' →
    ∃ i ≤ D, L.fragment (L.hasher key) i ≠ L.fragment (L.hasher key') i
  shift : L.hashLevel * D < 64

def Addresses (D : Nat) : Prop :=
  ∀ n < D, L.hashLevel * n < 64

/-- A table of `maxLevel` levels has its deepest arrays at level `D`: deeper ones
cannot be looked into, or are never needed. -/
structure Levels (maxLevel D : Nat) : Prop where
  below : D < maxLevel
  addresses : L.Addresses D
  last : D + 1 = maxLevel ∨ 64 ≤ L.hashLevel * D ∨ L.Admissible D

variable {L}

theorem Admissible.addresses {D : Nat} (h : L.Admissible D) : L.Addresses D :=
  fun _ hn => Nat.lt_of_le_of_lt (Nat.mul_le_mul_left _ (Nat.le_of_lt hn)) h.shift

theorem Admissible.levels {D maxLevel : Nat} (h : L.Admissible D) (hD : D < maxLevel) :
    L.Levels maxLevel D :=
  ⟨hD, h.addresses, Or.inr (Or.inr h)⟩

theorem exists_levels {maxLevel : Nat} (hpos : 0 < maxLevel) :
    ∃ D, L.Levels maxLevel D := by
  suffices h : ∃ D, L.Addresses D ∧ D < maxLevel ∧
      (D + 1 = maxLevel ∨ 64 ≤ L.hashLevel * D) by
    obtain ⟨D, haddr, hD, hlast⟩ := h
    exact ⟨D, hD, haddr, hlast.imp_right Or.inl⟩
  induction maxLevel with
  | zero => exact absurd hpos (Nat.lt_irrefl 0)
  | succ k ih =>
      rcases Nat.eq_zero_or_pos k with rfl | hk
      · exact ⟨0, fun n hn => absurd hn (Nat.not_lt_zero n), Nat.zero_lt_one, Or.inl rfl⟩
      · obtain ⟨D, haddr, hD, hlast⟩ := ih hk
        by_cases hshift : L.hashLevel * D < 64
        · obtain rfl : D + 1 = k := hlast.resolve_right (Nat.not_le.mpr hshift)
          refine ⟨D + 1, fun n hn => ?_, Nat.lt_succ_self _, Or.inl rfl⟩
          exact Nat.lt_of_le_of_lt (Nat.mul_le_mul_left _ (Nat.le_of_lt_succ hn)) hshift
        · exact ⟨D, haddr, Nat.lt_succ_of_lt hD, Or.inr (Nat.not_lt.mp hshift)⟩

theorem keyPath_succ (key : K) (n : Nat) :
    L.keyPath key (n + 1) = L.keyPath key n ++ [L.fragment (L.hasher key) n] :=
  SlotTrie.pathOf_succ _ n

theorem keyPath_ne_succ (key : K) (n : Nat) : L.keyPath key n ≠ L.keyPath key (n + 1) := by
  simp [keyPath_succ]

@[simp] theorem keyPath_length (key : K) (n : Nat) : (L.keyPath key n).length = n :=
  SlotTrie.pathOf_length _ n

theorem levelHash_succ (hash : BitVec 64) {level : Nat}
    (hshift : L.hashLevel * level < 64) :
    L.levelHash hash (level + 1) = some (L.fragment hash (level + 1)) := by
  simp only [levelHash, LevelHash.levelHash, Nat.add_sub_cancel, if_pos hshift, fragment]

theorem levelHash_eq_none_iff (hash : BitVec 64) (level : Nat) :
    L.levelHash hash level = none ↔ 64 ≤ L.hashLevel * (level - 1) := by
  simp [levelHash, LevelHash.levelHash]

theorem testBit_mask (n b : Nat) (hb : b < 64) :
    (BitVec.ofNat 64 (getPower2 n - 1)).getLsbD b = decide (b < n) := by
  rw [BitVec.getLsbD_ofNat, getPower2_eq, Nat.testBit_two_pow_sub_one]
  simp [hb]

theorem testBit_fragment_zero (hash : BitVec 64) {b : Nat} (hb : b < L.rootHashLevel)
    (hb' : b < 64) : (L.fragment hash 0).testBit b = hash.getLsbD b := by
  rw [fragment, rootHash, BitVec.testBit_toNat, BitVec.getLsbD_and, testBit_mask _ _ hb']
  simp [hb]

theorem testBit_fragment_succ (hash : BitVec 64) (level : Nat) {b : Nat}
    (hb : b < L.hashLevel) (hb' : b < 64) :
    (L.fragment hash (level + 1)).testBit b =
      hash.getLsbD (L.rootHashLevel + (L.hashLevel * level + b)) := by
  rw [fragment, BitVec.testBit_toNat, BitVec.getLsbD_and, testBit_mask _ _ hb',
    BitVec.getLsbD_ushiftRight, BitVec.getLsbD_ushiftRight]
  simp [hb]

/-- Two hashes that agree on the fragments of the first `D + 1` levels are equal
when these levels consume all 64 bits. -/
theorem eq_of_fragment_eq {D : Nat} (hcov : 64 ≤ L.rootHashLevel + L.hashLevel * D)
    {hash hash' : BitVec 64} (h : ∀ i ≤ D, L.fragment hash i = L.fragment hash' i) :
    hash = hash' := by
  apply BitVec.eq_of_getLsbD_eq
  intro b hb
  by_cases hroot : b < L.rootHashLevel
  · rw [← testBit_fragment_zero hash hroot hb, ← testBit_fragment_zero hash' hroot hb,
      h 0 (Nat.zero_le D)]
  · have hpos : 0 < L.hashLevel := by
      rcases Nat.eq_zero_or_pos L.hashLevel with hz | hpos
      · rw [hz] at hcov
        omega
      · exact hpos
    let level := (b - L.rootHashLevel) / L.hashLevel
    let bit := (b - L.rootHashLevel) % L.hashLevel
    have hbit : bit < L.hashLevel := Nat.mod_lt _ hpos
    have hsplit : L.hashLevel * level + bit = b - L.rootHashLevel := Nat.div_add_mod _ _
    have hlevel : level < D := by
      apply Nat.lt_of_mul_lt_mul_left (a := L.hashLevel)
      omega
    have hb64 : bit < 64 := by omega
    have hindex : L.rootHashLevel + (L.hashLevel * level + bit) = b := by omega
    rw [← hindex, ← testBit_fragment_succ hash level hbit hb64,
      ← testBit_fragment_succ hash' level hbit hb64, h (level + 1) hlevel]

theorem admissible_of_covers {D : Nat} (hcov : 64 ≤ L.rootHashLevel + L.hashLevel * D)
    (hshift : L.hashLevel * D < 64) : L.Admissible D where
  parts := by
    intro key key' hne
    by_contra hall
    push Not at hall
    exact hne (eq_of_fragment_eq hcov hall)
  shift := hshift

/-- With four bits a level the 64 bits last for 16 fragments below a four-bit
root and for 13 below a sixteen-bit root. -/
theorem exists_admissible (hlevel : L.hashLevel = 4)
    (hroot : L.rootHashLevel = 4 ∨ L.rootHashLevel = 16) :
    ∃ D ≤ 15, L.Admissible D := by
  rcases hroot with hroot | hroot
  · exact ⟨15, le_rfl, admissible_of_covers (by omega) (by omega)⟩
  · exact ⟨12, by omega, admissible_of_covers (by omega) (by omega)⟩

end Layout

end HashComp.LevelHash

namespace HashComp.Constructor

/-- The loop `for (; num < bound; num += num * ARRAY_SIZE) level++` of the
constructors, which wraps. -/
def countLevels (arraySize bound : BitVec 64) : Nat → BitVec 64 → Nat → Option Nat
  | 0, _, _ => none
  | fuel + 1, num, level =>
      if num < bound then countLevels arraySize bound fuel (num + num * arraySize) (level + 1)
      else some level

def maxLevel (arraySize keySize fuel : Nat) : Option Nat :=
  let num := BitVec.ofNat 64 arraySize
  let totalBit := keySize * 8
  if totalBit < 64 then
    countLevels num (BitVec.ofNat 64 (2 ^ totalBit)) fuel num 1
  else
    (countLevels num (BitVec.allOnes 64 / 2) fuel num 1).map (· + 1)

theorem countLevels_mono {arraySize bound : BitVec 64} {fuel fuel' : Nat} (hle : fuel ≤ fuel')
    {num : BitVec 64} {level n : Nat}
    (h : countLevels arraySize bound fuel num level = some n) :
    countLevels arraySize bound fuel' num level = some n := by
  induction fuel generalizing fuel' num level with
  | zero => cases h
  | succ fuel ih =>
      obtain ⟨k, rfl⟩ := Nat.exists_eq_add_of_le' (Nat.le_trans (Nat.succ_pos fuel) hle)
      simp only [countLevels] at h ⊢
      by_cases hlt : num < bound
      · rw [if_pos hlt] at h ⊢
        exact ih (by omega) h
      · rw [if_neg hlt] at h ⊢
        exact h

theorem maxLevel_mono {arraySize keySize fuel fuel' n : Nat} (hle : fuel ≤ fuel')
    (h : maxLevel arraySize keySize fuel = some n) :
    maxLevel arraySize keySize fuel' = some n := by
  simp only [maxLevel] at h ⊢
  split
  · rename_i hbits
    rw [if_pos hbits] at h
    exact countLevels_mono hle h
  · rename_i hbits
    rw [if_neg hbits] at h
    obtain ⟨level, hlevel, rfl⟩ := Option.map_eq_some_iff.mp h
    exact Option.map_eq_some_iff.mpr ⟨level, countLevels_mono hle hlevel, rfl⟩

theorem le_of_countLevels {arraySize bound : BitVec 64} {fuel : Nat} {num : BitVec 64}
    {level n : Nat} (h : countLevels arraySize bound fuel num level = some n) : level ≤ n := by
  induction fuel generalizing num level with
  | zero => cases h
  | succ fuel ih =>
      simp only [countLevels] at h
      split at h
      · exact Nat.le_of_succ_le (ih h)
      · exact Nat.le_of_eq (Option.some.inj h)

theorem maxLevel_pos {arraySize keySize fuel n : Nat}
    (h : maxLevel arraySize keySize fuel = some n) : 0 < n := by
  simp only [maxLevel] at h
  split at h
  · exact le_of_countLevels h
  · obtain ⟨level, -, rfl⟩ := Option.map_eq_some_iff.mp h
    exact Nat.succ_pos level

/-- For keys of eight bytes `num` wraps three times before it reaches the bound
after seventeen rounds. -/
theorem maxLevel_default {fuel : Nat} (hfuel : 18 ≤ fuel) :
    maxLevel 16 8 fuel = some 19 :=
  maxLevel_mono hfuel (by decide)

theorem maxLevel_eq_default {fuel n : Nat} (h : maxLevel 16 8 fuel = some n) : n = 19 := by
  have hmore := maxLevel_mono (Nat.le_add_right fuel 18) h
  rw [maxLevel_default (Nat.le_add_left 18 fuel)] at hmore
  exact (Option.some.inj hmore).symm

end HashComp.Constructor
