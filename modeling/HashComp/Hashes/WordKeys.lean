import HashComp.Hashes.Variants
import HashComp.Library.BitFields

namespace HashComp.Hashes

open Function
open HashComp.BitMixers
open HashComp.ByteMemory

section Murmur

variable {h : BitVec 32} {b₀ b₁ b₂ b₃ : Byte}

theorem multiplier2_inverse : multiplier2 * 0xe59b19bd#32 = 1#32 := by
  decide

theorem scramble_injective : Injective scramble :=
  (mul_injective multiplier2_inverse).comp
    ((xorShiftRight_injective (by decide : 0 < 24)).comp (mul_injective multiplier2_inverse))

theorem mix2_injective (h : BitVec 32) : Injective (mix2 h) :=
  (xor_injective (h * multiplier2)).comp scramble_injective

theorem finish2_injective : Injective finish2 :=
  (xorShiftRight_injective (by decide : 0 < 15)).comp
    ((mul_injective multiplier2_inverse).comp (xorShiftRight_injective (by decide : 0 < 13)))

/-- The two words at the end of `MurmurHash64B` tell those before the last steps. -/
theorem finish64B_injective {h₁ h₂ g₁ g₂ : BitVec 32} (h : finish64B h₁ h₂ = finish64B g₁ g₂) :
    h₁ = g₁ ∧ h₂ = g₂ := by
  have hpack : ∀ x₁ x₂ y₁ y₂ : BitVec 32,
      x₁.setWidth 64 <<< 32 ||| x₂.setWidth 64 = y₁.setWidth 64 <<< 32 ||| y₂.setWidth 64 →
        x₁ = y₁ ∧ x₂ = y₂ := by
    intro x₁ x₂ y₁ y₂ hxy
    have hbit := fun i => congrArg (fun v => BitVec.getLsbD v i) hxy
    simp only [BitVec.getLsbD_or, BitVec.getLsbD_shiftLeft, BitVec.getLsbD_setWidth] at hbit
    refine ⟨BitVec.eq_of_getLsbD_eq fun i hi => ?_, BitVec.eq_of_getLsbD_eq fun i hi => ?_⟩
    · have hhigh := hbit (i + 32)
      have hlt : i + 32 < 64 := by omega
      have hx : x₂.getLsbD (i + 32) = false := BitVec.getLsbD_of_ge _ _ (Nat.le_add_left 32 i)
      have hy : y₂.getLsbD (i + 32) = false := BitVec.getLsbD_of_ge _ _ (Nat.le_add_left 32 i)
      have hge : ¬ i + 32 < 32 := by omega
      have hin : i < 64 := by omega
      simpa [hlt, hge, hin, hx, hy, hi] using hhigh
    · have hlow := hbit i
      have hlt : i < 64 := by omega
      simpa [hlt, hi] using hlow
  rw [finish64B, finish64B] at h
  obtain ⟨ha₂, hb₂⟩ := hpack _ _ _ _ h
  rw [ha₂] at hb₂
  have hb₁ := cross_injective multiplier2_inverse _ hb₂
  rw [hb₁] at ha₂
  have ha₁ := cross_injective multiplier2_inverse _ ha₂
  rw [ha₁] at hb₁
  have hb₀ := cross_injective multiplier2_inverse _ hb₁
  rw [hb₀] at ha₁
  exact ⟨cross_injective multiplier2_inverse _ ha₁, hb₀⟩

theorem murmurHash64B_bytesOf (key seed : BitVec 64) : murmurHash64B (bytesOf key) seed =
    finish64B (mix2 (seed.setWidth 32 ^^^ 8#32) (key.setWidth 32))
      (mix2 ((seed >>> 32).setWidth 32) ((key >>> 32).setWidth 32)) := by
  have hlow : littleEndian 32 ((List.range 4).map fun j => key.extractLsb' (0 + 8 * j) 8) =
      key.setWidth 32 := by
    refine BitVec.eq_of_getLsbD_eq fun i hi => ?_
    rw [getLsbD_littleEndian_extract, BitVec.getLsbD_setWidth]
    simp [hi]
  have hhigh : littleEndian 32 ((List.range 4).map fun j => key.extractLsb' (32 + 8 * j) 8) =
      (key >>> 32).setWidth 32 := by
    refine BitVec.eq_of_getLsbD_eq fun i hi => ?_
    rw [getLsbD_littleEndian_extract, BitVec.getLsbD_setWidth, BitVec.getLsbD_ushiftRight]
    simp [hi]
  rw [← hlow, ← hhigh]
  rfl

def getHashCodeMur2 (key : Word) : Word :=
  murmurHash64B (bytesOf key) 40343

/-- `MurmurHash64B` gives different keys of 64 bits different hashes, whatever the seed. -/
theorem murmurHash64B_injective (seed : Word) : Injective fun key : Word => murmurHash64B (bytesOf key) seed := by
  intro x y h
  simp only [murmurHash64B_bytesOf] at h
  obtain ⟨h₁, h₂⟩ := finish64B_injective h
  have hlow := mix2_injective _ h₁
  have hhigh := mix2_injective _ h₂
  refine BitVec.eq_of_getLsbD_eq fun i hi => ?_
  rcases Nat.lt_or_ge i 32 with hlt | hge
  · have hbit := congrArg (fun v => BitVec.getLsbD v i) hlow
    simpa [BitVec.getLsbD_setWidth, hlt] using hbit
  · have hbit := congrArg (fun v => BitVec.getLsbD v (i - 32)) hhigh
    have hsum : 32 + (i - 32) = i := by omega
    have hin : i - 32 < 32 := by omega
    simpa [BitVec.getLsbD_setWidth, BitVec.getLsbD_ushiftRight, hsum, hin] using hbit

end Murmur

section GetHashCode

def rotr64 (x : Word) (n : Nat) : Word :=
  x >>> n ||| x <<< (64 - n)

def getHashCode (input : Word) : Word :=
  let hash : Word := 8
  let hash := 40343 * hash + (input &&& 0xFFFF)
  let hash := 40343 * hash + ((input >>> 16) &&& 0xFFFF)
  let hash := 40343 * hash + ((input >>> 32) &&& 0xFFFF)
  let hash := 40343 * hash + input >>> 48
  let hash := 40343 * hash
  rotr64 hash 43

/-- The number that the parts of 16 bits spell to the base 40343, the lowest part first. -/
def digitSum (input : Word) : Nat :=
  ((input.toNat % 65536 * 40343 + input.toNat / 65536 % 65536) * 40343 +
    input.toNat / 65536 ^ 2 % 65536) * 40343 + input.toNat / 65536 ^ 3

theorem rotr64_injective : Injective fun x : Word => rotr64 x 43 := by
  have hturn : ∀ x : Word, rotr64 x 43 = x <<< 21 ||| x >>> (64 - 21) := fun x => by
    rw [rotr64, BitVec.or_comm]
  intro x y h
  simp only [hturn] at h
  exact rotate_injective (by decide : 21 ≤ 64) h

theorem and_low (x : Word) : x &&& 0xFFFF = BitVec.ofNat 64 (x.toNat % 65536) := by
  refine BitVec.eq_of_toNat_eq ?_
  have hlt := x.isLt
  have hand : x.toNat &&& 65535 = x.toNat % 65536 := Nat.and_two_pow_sub_one_eq_mod x.toNat 16
  rw [BitVec.toNat_and, BitVec.toNat_ofNat]
  change x.toNat &&& 65535 = _
  rw [hand]
  omega

theorem getHashCode_eq (input : Word) : getHashCode input =
    rotr64 (BitVec.ofNat 64 (8 * 40343 ^ 4 + digitSum input) * 40343#64) 43 := by
  have hlast : input >>> 48 = BitVec.ofNat 64 (input.toNat / 65536 ^ 3) := by
    refine BitVec.eq_of_toNat_eq ?_
    have hlt := input.isLt
    rw [BitVec.toNat_ushiftRight, Nat.shiftRight_eq_div_pow, BitVec.toNat_ofNat]
    omega
  have hfirst : (input >>> 16).toNat = input.toNat / 65536 := by
    rw [BitVec.toNat_ushiftRight, Nat.shiftRight_eq_div_pow]
  have hsecond : (input >>> 32).toNat = input.toNat / 65536 ^ 2 := by
    rw [BitVec.toNat_ushiftRight, Nat.shiftRight_eq_div_pow, ← Nat.pow_mul 2 16 2]
  have hsum : 8 * 40343 ^ 4 + digitSum input = 40343 * (40343 * (40343 * (40343 * 8 +
      input.toNat % 65536) + input.toNat / 65536 % 65536) + input.toNat / 65536 ^ 2 % 65536) +
        input.toNat / 65536 ^ 3 := by
    rw [digitSum]
    omega
  simp only [getHashCode, and_low, hfirst, hsecond, hlast, hsum, BitVec.ofNat_add, BitVec.ofNat_mul]
  rw [BitVec.mul_comm]
  rfl

theorem digitSum_lt (input : Word) : digitSum input < 2 ^ 64 := by
  have hlt := input.isLt
  rw [digitSum]
  omega

theorem getHashCode_eq_iff {x y : Word} : getHashCode x = getHashCode y ↔ digitSum x = digitSum y := by
  refine ⟨fun h => ?_, fun h => by rw [getHashCode_eq, getHashCode_eq, h]⟩
  have hinverse : (40343#64 : Word) * 0x63a1ce5d64f3b227#64 = 1#64 := by
    decide
  rw [getHashCode_eq, getHashCode_eq] at h
  have hsum := mul_injective hinverse (rotr64_injective h)
  rw [BitVec.ofNat_add, BitVec.ofNat_add] at hsum
  have hdigits := congrArg BitVec.toNat (add_left_cancel hsum)
  rwa [BitVec.toNat_ofNat, BitVec.toNat_ofNat, Nat.mod_eq_of_lt (digitSum_lt x),
    Nat.mod_eq_of_lt (digitSum_lt y)] at hdigits

theorem digitSum_of_lt {x : Word} (hx : x.toNat < 40343 * 65536) :
    digitSum x = (x.toNat % 65536 * 40343 + x.toNat / 65536) * 40343 ^ 2 := by
  have hfirst : x.toNat / 65536 % 65536 = x.toNat / 65536 := Nat.mod_eq_of_lt (by omega)
  have hsecond : x.toNat / 65536 ^ 2 = 0 := Nat.div_eq_of_lt (by omega)
  have hthird : x.toNat / 65536 ^ 3 = 0 := Nat.div_eq_of_lt (by omega)
  rw [digitSum, hfirst, hsecond, hthird]
  omega

theorem getHashCode_injOn {x y : Word} (hx : x.toNat < 40343 * 65536) (hy : y.toNat < 40343 * 65536)
    (h : getHashCode x = getHashCode y) : x = y := by
  have hdigits := getHashCode_eq_iff.mp h
  rw [digitSum_of_lt hx, digitSum_of_lt hy] at hdigits
  have hparts := Nat.eq_of_mul_eq_mul_right (by decide) hdigits
  refine BitVec.eq_of_toNat_eq ?_
  omega

/-- `GetHashCode` gives two keys one code exactly if their parts spell one number, and none of
the keys below `40343 * 2 ^ 16` that of another. -/
theorem getHashCode_collisions :
    (∀ x y, getHashCode x = getHashCode y ↔ digitSum x = digitSum y) ∧
      Set.InjOn getHashCode {key | key.toNat < 40343 * 65536} :=
  ⟨fun _ _ => getHashCode_eq_iff, fun _ hx _ hy h => getHashCode_injOn hx hy h⟩

/-- The key after these has the hash code of the key 1. -/
example : getHashCode 1 = getHashCode (BitVec.ofNat 64 (40343 * 65536)) := by
  decide

end GetHashCode

def number64_1 : Word := 11400714785074694791

def number64_2 : Word := 14029467366897019727

def number64_3 : Word := 1609587929392839161

def number64_4 : Word := 9650029242287828579

def number64_5 : Word := 2870177450012600261

def shiftingHash (x : Word) (r : Nat) : Word :=
  x <<< r ||| x >>> (64 - r)

def laneStep (v word : Word) : Word :=
  shiftingHash (v + word * number64_2) 31 * number64_1

def laneWord (v : Word) : Word :=
  shiftingHash (v * number64_2) 31 * number64_1

structure Lanes where
  v1 : Word
  v2 : Word
  v3 : Word
  v4 : Word

def laneLoop (lanes : Lanes) (data : List Byte) : Lanes × List Byte :=
  let word := fun i => littleEndian 64 ((data.drop (8 * i)).take 8)
  let lanes := ⟨laneStep lanes.v1 (word 0), laneStep lanes.v2 (word 1), laneStep lanes.v3 (word 2),
    laneStep lanes.v4 (word 3)⟩
  let rest := data.drop 32
  if 32 ≤ rest.length then laneLoop lanes rest else (lanes, rest)
termination_by data.length
decreasing_by
  rename_i hrest
  rw [List.length_drop] at hrest ⊢
  omega

def mergeLane (hash v : Word) : Word :=
  (hash ^^^ laneWord v) * number64_1 + number64_4

def restLoop : Word → List Byte → Word × List Byte
  | hash, b₀ :: b₁ :: b₂ :: b₃ :: b₄ :: b₅ :: b₆ :: b₇ :: data =>
      let k1 := laneWord (littleEndian 64 [b₀, b₁, b₂, b₃, b₄, b₅, b₆, b₇])
      restLoop (shiftingHash (hash ^^^ k1) 27 * number64_1 + number64_4) data
  | hash, data => (hash, data)

def restHalf : Word → List Byte → Word × List Byte
  | hash, b₀ :: b₁ :: b₂ :: b₃ :: data =>
      (shiftingHash (hash ^^^ littleEndian 64 [b₀, b₁, b₂, b₃] * number64_1) 23 * number64_2 +
        number64_3, data)
  | hash, data => (hash, data)

def restByte (hash : Word) (b : Byte) : Word :=
  shiftingHash (hash ^^^ b.setWidth 64 * number64_5) 11 * number64_1

def avalanche (hash : Word) : Word :=
  let hash := hash ^^^ hash >>> 33
  let hash := hash * number64_2
  let hash := hash ^^^ hash >>> 29
  let hash := hash * number64_3
  hash ^^^ hash >>> 32

/-- `string_key_hash_computation`.  Words are read the same way for either `align`. -/
def stringKeyHashComputation (data : List Byte) (seed : Word) : Word :=
  match
    if 32 ≤ data.length then
      match laneLoop ⟨seed + number64_1 + number64_2, seed + number64_2, seed + 0, seed - number64_1⟩ data with
      | (⟨v1, v2, v3, v4⟩, rest) =>
          let hash := shiftingHash v1 1 + shiftingHash v2 7 + shiftingHash v3 12 + shiftingHash v4 18
          (mergeLane (mergeLane (mergeLane (mergeLane hash v1) v2) v3) v4, rest)
    else (seed + number64_5, data) with
  | (hash, rest) =>
      match restLoop (hash + BitVec.ofNat 64 data.length) rest with
      | (hash, rest) =>
          match restHalf hash rest with
          | (hash, rest) => avalanche (rest.foldl restByte hash)

section Injectivity

variable {r : Nat}

theorem shiftingHash_injective (hr : r ≤ 64) : Injective fun x => shiftingHash x r :=
  rotate_injective hr

theorem number64_1_inverse : number64_1 * 0x0887493432badb37#64 = 1#64 := by
  decide

theorem number64_2_inverse : number64_2 * 0x0ba79078168d4baf#64 = 1#64 := by
  decide

theorem number64_3_inverse : number64_3 * 0xe9e9f4c41d6df849#64 = 1#64 := by
  decide

theorem laneWord_injective : Injective laneWord :=
  (mul_injective number64_1_inverse).comp
    ((shiftingHash_injective (by decide : 31 ≤ 64)).comp (mul_injective number64_2_inverse))

theorem avalanche_injective : Injective avalanche :=
  (xorShiftRight_injective (by decide : 0 < 32)).comp
    ((mul_injective number64_3_inverse).comp
      ((xorShiftRight_injective (by decide : 0 < 29)).comp
        ((mul_injective number64_2_inverse).comp (xorShiftRight_injective (by decide : 0 < 33)))))

theorem littleEndian_bytesOf (key : Word) : littleEndian 64 (bytesOf key) = key := by
  have hbytes : bytesOf key = (List.range 8).map fun j => key.extractLsb' (0 + 8 * j) 8 := by
    simp only [bytesOf, Nat.zero_add]
  refine BitVec.eq_of_getLsbD_eq fun i hi => ?_
  rw [hbytes, getLsbD_littleEndian_extract]
  simp [hi]

theorem stringKeyHashComputation_bytesOf (key seed : Word) :
    stringKeyHashComputation (bytesOf key) seed =
      avalanche (shiftingHash ((seed + number64_5 + 8#64) ^^^ laneWord key) 27 * number64_1 + number64_4) := by
  conv => rhs; rw [← littleEndian_bytesOf key]
  rfl

/-- Different keys of eight bytes have different hashes for every seed. -/
theorem stringKeyHashComputation_injective (seed : Word) :
    Injective fun key : Word => stringKeyHashComputation (bytesOf key) seed := by
  have hround : Injective fun key : Word =>
      avalanche (shiftingHash ((seed + number64_5 + 8#64) ^^^ laneWord key) 27 * number64_1 + number64_4) :=
    avalanche_injective.comp ((add_injective number64_4).comp ((mul_injective number64_1_inverse).comp
      ((shiftingHash_injective (by decide : 27 ≤ 64)).comp ((xor_injective _).comp laneWord_injective))))
  intro x y h
  simp only [stringKeyHashComputation_bytesOf] at h
  exact hround h

end Injectivity

end HashComp.Hashes
