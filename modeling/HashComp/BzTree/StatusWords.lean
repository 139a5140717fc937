import HashComp.Library.BitFields

namespace HashComp.BzTree.Space

open HashComp.BitFields

/-- `GetRecordCount`. -/
def recordCount (word : BitVec 64) : Nat := ((word &&& mask 44 16) >>> 44).toNat

/-- `GetBlockSize`. -/
def blockSize (word : BitVec 64) : Nat := ((word &&& mask 22 22) >>> 22).toNat

/-- `GetDeletedSize`. -/
def deletedSize (word : BitVec 64) : Nat := ((word &&& mask 0 22) >>> 0).toNat

def isFrozen (word : BitVec 64) : Bool := 0 < word &&& mask 60 1

def setDeleteSize (word : BitVec 64) (size : Nat) : BitVec 64 :=
  (word &&& ~~~mask 0 22) ||| BitVec.ofNat 64 size

def prepareForInsert (word : BitVec 64) (size : Nat) : BitVec 64 :=
  word + (((1 : BitVec 64) <<< 44) + (BitVec.ofNat 64 size <<< 22))

/-- `GetUsedSpace`. -/
def usedSpace (word : BitVec 64) : Nat :=
  32 + blockSize word + recordCount word * 8

structure Counts (word : BitVec 64) (high count block deleted : Nat) : Prop where
  count : recordCount word = count
  block : blockSize word = block
  deleted : deletedSize word = deleted
  high : word.toNat / 2 ^ 60 = high

variable {word : BitVec 64} {high count block deleted size : Nat}

theorem recordCount_eq : recordCount word = word.toNat / 2 ^ 44 % 2 ^ 16 :=
  toNat_field (by decide)

theorem blockSize_eq : blockSize word = word.toNat / 2 ^ 22 % 2 ^ 22 :=
  toNat_field (by decide)

theorem deletedSize_eq : deletedSize word = word.toNat % 2 ^ 22 := by
  rw [deletedSize, toNat_field (by decide), Nat.pow_zero, Nat.div_one]

theorem recordCount_lt : recordCount word < 2 ^ 16 := by
  rw [recordCount_eq]
  exact Nat.mod_lt _ (by decide)

theorem counts_iff : Counts word high count block deleted ↔
    word.toNat = high * 2 ^ 60 + count * 2 ^ 44 + block * 2 ^ 22 + deleted ∧
      count < 2 ^ 16 ∧ block < 2 ^ 22 ∧ deleted < 2 ^ 22 := by
  constructor
  · rintro ⟨hcount, hblock, hdeleted, hhigh⟩
    rw [recordCount_eq] at hcount
    rw [blockSize_eq] at hblock
    rw [deletedSize_eq] at hdeleted
    omega
  · rintro ⟨hword, hcount, hblock, hdeleted⟩
    refine ⟨?_, ?_, ?_, by omega⟩
    · rw [recordCount_eq]
      omega
    · rw [blockSize_eq]
      omega
    · rw [deletedSize_eq]
      omega

theorem Counts.prepareForInsert (h : Counts word high count block deleted)
    (hcount : count + 1 < 2 ^ 16) (hblock : block + size < 2 ^ 22) :
    Counts (prepareForInsert word size) high (count + 1) (block + size) deleted := by
  obtain ⟨hword, -, -, hdeleted⟩ := counts_iff.mp h
  have hlt := word.isLt
  refine counts_iff.mpr ⟨?_, hcount, hblock, hdeleted⟩
  have hone : ((1 : BitVec 64) <<< 44).toNat = 2 ^ 44 := by decide
  have hsize : (BitVec.ofNat 64 size <<< 22).toNat = size * 2 ^ 22 := by
    rw [BitVec.toNat_shiftLeft, BitVec.toNat_ofNat, Nat.shiftLeft_eq]
    omega
  rw [Space.prepareForInsert, BitVec.toNat_add, BitVec.toNat_add, hone, hsize]
  omega

theorem Counts.setDeleteSize (h : Counts word high count block deleted) (hsize : size < 2 ^ 22) :
    Counts (setDeleteSize word size) high count block size := by
  obtain ⟨hword, hcount, hblock, hdeleted⟩ := counts_iff.mp h
  have hnat : (BitVec.ofNat 64 size).toNat = size := by
    rw [BitVec.toNat_ofNat]
    omega
  refine counts_iff.mpr ⟨?_, hcount, hblock, hsize⟩
  rw [Space.setDeleteSize, toNat_setLow (by rwa [hnat]), hnat]
  omega

theorem counts_zero : Counts 0 0 0 0 0 :=
  counts_iff.mpr ⟨rfl, by decide, by decide, by decide⟩

theorem isFrozen_eq_false (h : Counts word 0 count block deleted) : isFrozen word = false := by
  have hlt : word.toNat < 2 ^ 60 := by
    have hhigh := h.high
    omega
  have hzero : (word &&& mask 60 1).toNat = 0 := by
    have hmask : (mask 60 1).toNat = 2 ^ 60 := by
      rw [toNat_mask (by decide)]
      rfl
    rw [BitVec.toNat_and, hmask, Nat.and_two_pow, Nat.testBit_lt_two_pow hlt]
    rfl
  rw [isFrozen, decide_eq_false_iff_not, BitVec.lt_def, hzero]
  exact Nat.lt_irrefl 0

end HashComp.BzTree.Space
