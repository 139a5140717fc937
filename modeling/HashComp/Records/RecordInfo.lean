import Mathlib.Data.BitVec

namespace HashComp.Records

structure RecordInfo where
  previousAddress : BitVec 48
  checkpointVersion : BitVec 13
  invalid : Bool
  tombstone : Bool
  finalBit : Bool
  deriving DecidableEq

namespace RecordInfo

/-- The constructor, of which the version has 16 bits. -/
def new (checkpointVersion : BitVec 16) (finalBit tombstone invalid : Bool)
    (previousAddress : BitVec 48) : RecordInfo where
  previousAddress := previousAddress
  checkpointVersion := checkpointVersion.setWidth 13
  invalid := invalid
  tombstone := tombstone
  finalBit := finalBit

/-- The header that `InternalUpsert`, `InternalRmw`, `InternalDelete` and
`InternalContinuePendingRmw` create in a context of this version. -/
def created (version : BitVec 32) (previousAddress : BitVec 48) : RecordInfo :=
  new (version.setWidth 16) true false false previousAddress

def control (header : RecordInfo) : BitVec 64 :=
  BitVec.ofNat 64 (header.previousAddress.toNat + 2 ^ 48 * header.checkpointVersion.toNat +
    2 ^ 61 * header.invalid.toNat + 2 ^ 62 * header.tombstone.toNat +
    2 ^ 63 * header.finalBit.toNat)

def ofControl (w : BitVec 64) : RecordInfo where
  previousAddress := BitVec.ofNat 48 w.toNat
  checkpointVersion := BitVec.ofNat 13 (w.toNat / 2 ^ 48)
  invalid := w.toNat / 2 ^ 61 % 2 == 1
  tombstone := w.toNat / 2 ^ 62 % 2 == 1
  finalBit := w.toNat / 2 ^ 63 % 2 == 1

variable {version : BitVec 32} {previousAddress : BitVec 48}

theorem toNat_control (header : RecordInfo) : header.control.toNat =
    header.previousAddress.toNat + 2 ^ 48 * header.checkpointVersion.toNat +
      2 ^ 61 * header.invalid.toNat + 2 ^ 62 * header.tombstone.toNat +
      2 ^ 63 * header.finalBit.toNat := by
  have haddress := header.previousAddress.isLt
  have hversion := header.checkpointVersion.isLt
  have hinvalid := header.invalid.toNat_le
  have htombstone := header.tombstone.toNat_le
  have hfinal := header.finalBit.toNat_le
  rw [control, BitVec.toNat_ofNat]
  omega

theorem ofControl_control (header : RecordInfo) : ofControl header.control = header := by
  have hword := toNat_control header
  obtain ⟨address, version, invalid, tombstone, finalBit⟩ := header
  have haddress := address.isLt
  have hversion := version.isLt
  have hbit (b : Bool) (n : Nat) (h : n % 2 = b.toNat) : (n % 2 == 1) = b := by
    cases b <;> simp_all
  have hinvalid := invalid.toNat_le
  have htombstone := tombstone.toNat_le
  have hfinal := finalBit.toNat_le
  dsimp only at hword
  rw [ofControl, hword, mk.injEq]
  refine ⟨BitVec.eq_of_toNat_eq ?_, BitVec.eq_of_toNat_eq ?_, hbit _ _ ?_, hbit _ _ ?_,
    hbit _ _ ?_⟩
  · rw [BitVec.toNat_ofNat]
    omega
  · rw [BitVec.toNat_ofNat]
    omega
  all_goals omega

theorem control_ofControl (w : BitVec 64) : (ofControl w).control = w := by
  have hbit (n : Nat) : (n % 2 == 1).toNat = n % 2 := by
    rcases Nat.mod_two_eq_zero_or_one n with h | h <;> rw [h] <;> rfl
  have hlt := w.isLt
  apply BitVec.eq_of_toNat_eq
  rw [toNat_control, ofControl, BitVec.toNat_ofNat, BitVec.toNat_ofNat, hbit, hbit, hbit]
  omega

theorem control_ne_zero {header : RecordInfo} (h : header.invalid ∨ header.finalBit) :
    header.control ≠ 0 := by
  intro hzero
  have hword := toNat_control header
  have hnat : (0 : BitVec 64).toNat = 0 := rfl
  have htrue : (true : Bool).toNat = 1 := rfl
  rw [hzero, hnat] at hword
  rcases h with hinvalid | hfinal
  · rw [hinvalid, htrue] at hword
    omega
  · rw [hfinal, htrue] at hword
    omega

theorem toNat_checkpointVersion_created :
    (created version previousAddress).checkpointVersion.toNat = version.toNat % 2 ^ 13 := by
  change ((version.setWidth 16).setWidth 13).toNat = _
  rw [BitVec.toNat_setWidth, BitVec.toNat_setWidth, Nat.mod_mod_of_dvd _ (by decide)]

end RecordInfo

end HashComp.Records
