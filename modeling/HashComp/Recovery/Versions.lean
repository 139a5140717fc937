import HashComp.Recovery.Model

namespace HashComp.Recovery

open HashComp.Faster (Phase acquire internalRead findEntry findRecord newRecord)
open HashComp.Phases
open HashComp.Records

variable {v w : BitVec 32} {latest : Nat}

def ShiftDetected (ctx : Faster.Context) (latestRecordVersion : Nat) : Prop :=
  ctx.phase = .prepare ∧ latestRecordVersion > ctx.version

def storedVersion (v : BitVec 32) : Nat := (RecordInfo.created v 0).checkpointVersion.toNat

/-- The tests of the operations and of the recovery see a record of version `v` as the
versions `v` and `w` stand to each other.  `acquire` is the switch on the phase of
`InternalUpsert`, `InternalRmw` and `InternalDelete`. -/
structure Judged (v w : BitVec 32) : Prop where
  read : ∀ phase, ShiftDetected ⟨phase, w.toNat⟩ (storedVersion v) ↔
    ShiftDetected ⟨phase, w.toNat⟩ v.toNat
  update : ∀ phase lock, acquire phase w.toNat (storedVersion v) lock =
    acquire phase w.toNat v.toNat lock
  recovery : ∀ previousAddress,
    (recoverRecord w (RecordInfo.created v previousAddress)).invalid = true ↔ w < v

section Operations

variable {K : Type} [DecidableEq K] {L : Faster.Layout K} {s : Faster.Store K}
  {ctx : Faster.Context} {key : K} {entry : Faster.HashBucketEntry} {address : Nat}

theorem internalRead_shift_iff (hentry : findEntry (L.tag key) (s.buckets (L.idx key)) = some entry)
    (hfound : findRecord s key entry.address = some (address, latest)) :
    internalRead L s ctx key = some (.cprShiftDetected, none) ↔ ShiftDetected ctx latest := by
  simp only [internalRead, hentry, hfound, ShiftDetected]
  constructor
  · intro h
    split at h
    · assumption
    · split at h
      · cases hlog : s.log address <;> rw [hlog] at h <;> cases h
      · split at h
        · cases hlog : s.log address <;> rw [hlog] at h <;> cases h
        · split at h <;> cases h
  · intro h
    rw [if_pos h]

omit [DecidableEq K] in
/-- A record that an operation creates has the stored version of its context. -/
theorem newRecord_checkpointVersion {phase : Phase} {value : BitVec 64} :
    (newRecord ⟨phase, v.toNat⟩ key value entry).checkpointVersion = storedVersion v :=
  RecordInfo.toNat_checkpointVersion_created.symm

end Operations

section Counter

def afterCheckpoint (v : BitVec 32) : BitVec 32 :=
  (stage .checkpointFull v Action.checkpointFull.phases.length).version

theorem afterCheckpoint_eq : afterCheckpoint v = v + 1 := rfl

/-- A new store has version 1, and checkpoints lead from it to every version. -/
theorem exists_checkpoints (v : BitVec 32) : ∃ n, afterCheckpoint^[n] 1 = v := by
  have hrun (n : Nat) : afterCheckpoint^[n] 1 = BitVec.ofNat 32 (n + 1) := by
    induction n with
    | zero => rfl
    | succ n ih =>
        rw [Function.iterate_succ_apply', ih, afterCheckpoint_eq]
        exact (BitVec.ofNat_add ..).symm
  refine ⟨(v - 1).toNat, ?_⟩
  rw [hrun, BitVec.ofNat_add, BitVec.ofNat_toNat, BitVec.setWidth_eq]
  exact BitVec.sub_add_cancel v 1

end Counter

theorem storedVersion_eq : storedVersion v = v.toNat % 2 ^ 13 :=
  RecordInfo.toNat_checkpointVersion_created

/-- `acquire` sees of a version only how it compares with that of the context. -/
theorem acquire_congr {phase : Phase} {lock : Faster.CheckpointLock} {m n k : Nat}
    (hlt : m < k ↔ n < k) (hgt : k < m ↔ k < n) :
    acquire phase k m lock = acquire phase k n lock := by
  cases phase <;> simp only [acquire, gt_iff_lt, hlt, hgt]

theorem recoverRecord_invalid_iff {previousAddress : BitVec 48} :
    (recoverRecord w (RecordInfo.created v previousAddress)).invalid = true ↔
      w.toNat < storedVersion v := by
  have hvalid : (RecordInfo.created v previousAddress).invalid = false := rfl
  have hstored : (RecordInfo.created v previousAddress).checkpointVersion.toNat =
    storedVersion v := rfl
  rw [recoverRecord, hvalid, if_neg Bool.false_ne_true, hstored]
  split
  · rename_i hle
    simp [hvalid, Nat.not_lt.mpr hle]
  · rename_i hlt
    simp [Nat.not_le.mp hlt]

/-- The versions compare alike exactly when the bits that are cut off do not matter. -/
theorem judged_iff : Judged v w ↔ v < 8192 ∨ v < w ∨ w.toNat < v.toNat % 8192 := by
  have hcut : v.toNat % 2 ^ 13 ≤ v.toNat := Nat.mod_le ..
  have hsmall : v < 8192 ↔ v.toNat < 8192 := BitVec.lt_def
  rw [hsmall, BitVec.lt_def]
  constructor
  · intro h
    have hread := h.read .prepare
    simp only [ShiftDetected, true_and, storedVersion_eq] at hread
    have hupdate := h.update .waitFlush ⟨0, 0⟩
    simp only [acquire, storedVersion_eq] at hupdate
    by_contra hnot
    push Not at hnot
    have hlt : v.toNat % 2 ^ 13 < w.toNat := by omega
    rw [if_pos hlt, if_neg (by omega)] at hupdate
    cases hupdate
  · intro h
    have hlt : storedVersion v < w.toNat ↔ v.toNat < w.toNat := by
      rw [storedVersion_eq]
      omega
    have hgt : w.toNat < storedVersion v ↔ w.toNat < v.toNat := by
      rw [storedVersion_eq]
      omega
    refine ⟨fun phase => ?_, fun phase lock => acquire_congr hlt hgt, fun _ => ?_⟩
    · rw [ShiftDetected, ShiftDetected, gt_iff_lt, hgt]
    · rw [recoverRecord_invalid_iff, hgt, BitVec.lt_def]

/-- Version 8192 is stored as version 0. -/
theorem not_judged_8192 : ¬ ∀ v w, Judged v w := by
  intro hall
  have hupdate := (hall 8192 8192).update .waitFlush ⟨0, 0⟩
  rw [storedVersion_eq] at hupdate
  exact absurd hupdate (by decide)

end HashComp.Recovery
