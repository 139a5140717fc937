import HashComp.IndexFile.Submission

namespace HashComp.IndexFile

open Transfers

variable {asserts : Bool} {file : File} {table : InternalHashTable} {size chunk : Nat}

/-- The checkpoint of `table` succeeds with 256 writes that partition the bytes of the
table over the file.  Whatever order they complete in, the recovery from the file reads
the same ranges, and whatever order its reads complete in, every bucket is back. -/
def RoundTrip (asserts : Bool) (file : File) (table : InternalHashTable) : Prop :=
  ∃ writes checkpoint_size,
    table.Checkpoint asserts file = .ok (writes, checkpoint_size) ∧
      writes.length = kNumMergeChunks ∧
      Partition writes (sizeofHashBucket * table.size_) ∧
      ∀ completed, completed.Perm writes →
        ∃ fresh reads,
          InternalHashTable.Recover asserts (file.written table completed) checkpoint_size =
              .ok (fresh, reads) ∧
            reads = writes.map readBack ∧
            ∀ fetches, fetches.Perm reads →
              (fresh.fetched (file.written table completed) fetches).size_ = table.size_ ∧
                ∀ i < table.size_,
                  (fresh.fetched (file.written table completed) fetches).bucketBytes i =
                    table.bucketBytes i

/-- The sizes whose chunks are not empty, whose offsets in the file fit in 32 bits and,
where a misaligned write is refused, whose chunks are a multiple of the alignment. -/
def Saved (asserts : Bool) (file : File) (size : Nat) : Prop :=
  kNumMergeChunks ≤ size ∧ size ≤ 2 ^ 26 ∧
    (asserts = true ∨ file.unbuffered = true → 4 * file.alignment ≤ size)

theorem chunkWrites_eq_blocks (hchunk : chunk ≤ 2 ^ 18) :
    chunkWrites chunk = (List.range kNumMergeChunks).map fun idx =>
      ⟨idx * (chunk * sizeofHashBucket), idx * (chunk * sizeofHashBucket),
        chunk * sizeofHashBucket⟩ := by
  apply List.map_congr_left
  intro idx hidx
  rw [chunkWrite, uint32_of_lt (product_lt (List.mem_range.mp hidx) hchunk), source_eq]

theorem readBack_chunkWrites (hchunk : chunk ≤ 2 ^ 18) :
    (chunkWrites chunk).map readBack = chunkWrites chunk := by
  rw [chunkWrites_eq_blocks hchunk, List.map_map]
  rfl

theorem partition_chunkWrites (hchunk : chunk ≤ 2 ^ 18) :
    Partition (chunkWrites chunk) (kNumMergeChunks * (chunk * sizeofHashBucket)) := by
  rw [chunkWrites_eq_blocks hchunk]
  exact partition_blocks kNumMergeChunks (chunk * sizeofHashBucket) _

theorem offset_eq {t : Transfer} {a : Nat} (hchunk : chunk ≤ 2 ^ 18) (ht : t ∈ chunkWrites chunk)
    (ha : a ∈ t.target) : t.source + (a - t.dest) = a := by
  rw [chunkWrites_eq_blocks hchunk] at ht
  obtain ⟨idx, -, rfl⟩ := List.mem_map.mp ht
  exact Nat.add_sub_of_le ha.1

theorem content_written {completed : List Transfer} {a : Nat} (hchunk : chunk ≤ 2 ^ 18)
    (hperm : completed.Perm (chunkWrites chunk))
    (ha : a < kNumMergeChunks * (chunk * sizeofHashBucket)) :
    (file.written table completed).content a = some (table.buckets_ a) := by
  obtain ⟨t, ht, hat, hcell⟩ :=
    (partition_chunkWrites hchunk).performAll_eq (fun x _ => some (table.buckets_ x))
      file.content hperm ha
  rw [offset_eq hchunk ht hat] at hcell
  exact hcell

theorem buckets_fetched {fresh : InternalHashTable} {fetches : List Transfer} {a : Nat}
    (hchunk : chunk ≤ 2 ^ 18) (hperm : fetches.Perm (chunkWrites chunk))
    (ha : a < kNumMergeChunks * (chunk * sizeofHashBucket)) :
    (fresh.fetched file fetches).buckets_ a = (file.content a).getD (fresh.buckets_ a) := by
  obtain ⟨t, ht, hat, hcell⟩ :=
    (partition_chunkWrites hchunk).performAll_eq (fun x old => (file.content x).getD old)
      fresh.buckets_ hperm ha
  rw [offset_eq hchunk ht hat] at hcell
  exact hcell

theorem roundTrip_of_saved (haccepted : Accepted table.size_)
    (hsaved : Saved asserts file table.size_) : RoundTrip asserts file table := by
  obtain ⟨hmin, hmax, halign⟩ := hsaved
  have hdvd : kNumMergeChunks ∣ table.size_ := dvd_of_isPowerOfTwo rfl haccepted.1 hmin
  obtain ⟨chunk, hsize⟩ := hdvd
  have hpos : 0 < chunk := by
    simp only [kNumMergeChunks] at hsize hmin
    omega
  have hchunk : chunk ≤ 2 ^ 18 := by
    simp only [kNumMergeChunks] at hsize
    omega
  have hbytes : sizeofHashBucket * table.size_ =
      kNumMergeChunks * (chunk * sizeofHashBucket) := by
    rw [hsize, Nat.mul_comm, Nat.mul_assoc]
  have hsector : asserts = true ∨ file.unbuffered = true →
      file.alignment ∣ chunk * sizeofHashBucket := by
    intro henforced
    have hquarter : 4 * (chunk * sizeofHashBucket) = table.size_ := by
      rw [hsize]
      simp only [kNumMergeChunks, sizeofHashBucket]
      omega
    have hpower : IsPowerOfTwo (4 * file.alignment) = true := by
      obtain ⟨i, hi⟩ := isPowerOfTwo_iff.mp file.alignment_power
      exact isPowerOfTwo_iff.mpr ⟨i + 2, by rw [hi, Nat.pow_add, Nat.mul_comm]⟩
    have hdvd := dvd_of_isPowerOfTwo hpower haccepted.1 (halign henforced)
    rw [← hquarter] at hdvd
    exact Nat.dvd_of_mul_dvd_mul_left (by decide) hdvd
  refine ⟨chunkWrites chunk, _, checkpoint_eq_ok hsize hpos (by omega) hsector, ?_, ?_, ?_⟩
  · rw [chunkWrites, List.length_map, List.length_range]
  · rw [hbytes]
    exact partition_chunkWrites hchunk
  · intro completed hcompleted
    have hrecover : InternalHashTable.Recover asserts (file.written table completed)
        (table.size_ * sizeofHashBucket) = .ok _ :=
      recover_eq_ok hsize haccepted.1 hpos (by omega) hsector
    refine ⟨_, _, hrecover, rfl, fun fetches hfetches => ⟨rfl, fun i hi => ?_⟩⟩
    rw [readBack_chunkWrites hchunk] at hfetches
    funext j
    have ha : sizeofHashBucket * i + j < kNumMergeChunks * (chunk * sizeofHashBucket) := by
      have hle := Nat.mul_le_mul_left sizeofHashBucket (Nat.succ_le_of_lt hi)
      rw [← hbytes]
      exact lt_of_lt_of_le (Nat.add_lt_add_left j.isLt _) hle
    show (InternalHashTable.fetched _ _ _).buckets_ _ = table.buckets_ _
    rw [buckets_fetched hchunk hfetches ha, content_written hchunk hcompleted ha]
    rfl

/-- From `2 ^ 27` buckets on, the offsets of the second 128 writes are those of the
first 128 again. -/
theorem dest_wraps (hchunk : 2 ^ 19 ∣ chunk) (idx : Nat) :
    (chunkWrite chunk (idx + 128)).dest = (chunkWrite chunk idx).dest := by
  obtain ⟨m, rfl⟩ := hchunk
  have hsum : (idx + 128) * (2 ^ 19 * m * sizeofHashBucket) =
      idx * (2 ^ 19 * m * sizeofHashBucket) + 2 ^ 32 * m := by
    rw [Nat.add_mul]
    simp only [sizeofHashBucket]
    omega
  simp only [chunkWrite, uint32, hsum, Nat.add_mul_mod_self_left]

theorem chunk_of_large (haccepted : Accepted size) (hsize : 2 ^ 26 < size) :
    2 ^ 19 ∣ size / kNumMergeChunks := by
  obtain ⟨i, rfl⟩ := isPowerOfTwo_iff.mp haccepted.1
  have hi : 26 < i := (Nat.pow_lt_pow_iff_right (by decide)).mp hsize
  have hdiv : 2 ^ i / 2 ^ 8 = 2 ^ (i - 8) := Nat.pow_div (by omega : 8 ≤ i) (by decide)
  show 2 ^ 19 ∣ 2 ^ i / 2 ^ 8
  rw [hdiv]
  exact Nat.pow_dvd_pow 2 (by omega)

theorem saved_of_roundTrip (haccepted : Accepted table.size_)
    (h : RoundTrip asserts file table) : Saved asserts file table.size_ := by
  obtain ⟨writes, checkpoint_size, hcheckpoint, -, hpartition, -⟩ := h
  obtain ⟨rfl, -, halign⟩ := of_checkpoint_eq_ok haccepted.le hcheckpoint
  have hmin : kNumMergeChunks ≤ table.size_ := by
    by_contra hsmall
    have hempty : table.size_ / kNumMergeChunks = 0 := Nat.div_eq_of_lt (not_le.mp hsmall)
    have hfirst : 0 < sizeofHashBucket * table.size_ := Nat.mul_pos (by decide) haccepted.pos
    obtain ⟨t, ht, -, hlt⟩ := (hpartition.covers 0).mpr hfirst
    rw [hempty] at ht
    obtain ⟨idx, -, rfl⟩ := List.mem_map.mp ht
    simp [chunkWrite, uint32] at hlt
  have hpos : 0 < table.size_ / kNumMergeChunks := Nat.div_pos hmin (by decide)
  refine ⟨hmin, ?_, fun henforced => ?_⟩
  · by_contra hlarge
    have hchunk := chunk_of_large haccepted (not_le.mp hlarge)
    have hboth := List.pairwise_map.mp hpartition.disjoint
    have hlen : (List.range kNumMergeChunks).length = 256 := List.length_range
    have hapart := List.pairwise_iff_getElem.mp hboth 0 128 (by omega) (by omega) (by omega)
    simp only [List.getElem_range] at hapart
    have hlength : 0 < table.size_ / kNumMergeChunks * sizeofHashBucket :=
      Nat.mul_pos hpos (by decide)
    have hfirst : (chunkWrite (table.size_ / kNumMergeChunks) 0).dest ∈
        (chunkWrite (table.size_ / kNumMergeChunks) 0).target :=
      ⟨Nat.le_refl _, Nat.lt_add_of_pos_right hlength⟩
    have hsecond : (chunkWrite (table.size_ / kNumMergeChunks) 0).dest ∈
        (chunkWrite (table.size_ / kNumMergeChunks) 128).target := by
      rw [← dest_wraps hchunk 0]
      exact ⟨Nat.le_refl _, Nat.lt_add_of_pos_right hlength⟩
    exact Set.disjoint_left.mp hapart hfirst hsecond
  · have hle := Nat.le_of_dvd (Nat.mul_pos hpos (by decide)) (halign henforced)
    simp only [kNumMergeChunks, sizeofHashBucket] at hle
    omega

theorem buckets_of_block (file : File) (fresh : InternalHashTable) {fetches : List Transfer}
    {idx off : Nat} (hperm : fetches.Perm ((chunkWrites chunk).map readBack))
    (hidx : idx < kNumMergeChunks) (hoff : off < chunk * sizeofHashBucket) :
    (fresh.fetched file fetches).buckets_ (idx * (chunk * sizeofHashBucket) + off) =
      (file.content (uint32 (idx * (chunk * sizeofHashBucket)) + off)).getD
        (fresh.buckets_ (idx * (chunk * sizeofHashBucket) + off)) := by
  have hblocks : (chunkWrites chunk).map readBack = (List.range kNumMergeChunks).map fun i =>
      ⟨uint32 (i * (chunk * sizeofHashBucket)), i * (chunk * sizeofHashBucket),
        chunk * sizeofHashBucket⟩ := by
    rw [chunkWrites, List.map_map]
    apply List.map_congr_left
    intro i _
    simp only [Function.comp_apply, readBack, chunkWrite, source_eq]
  rw [hblocks] at hperm
  have hdisjoint := (hperm.pairwise_iff fun hd => hd.symm).mpr
    (partition_blocks kNumMergeChunks (chunk * sizeofHashBucket) fun i =>
      uint32 (i * (chunk * sizeofHashBucket))).disjoint
  have hmem := hperm.mem_iff.mpr (List.mem_map_of_mem (List.mem_range.mpr hidx))
  have hcell : (fresh.fetched file fetches).buckets_ (idx * (chunk * sizeofHashBucket) + off) = _ :=
    performAll_of_mem hdisjoint hmem ⟨Nat.le_add_right _ _, Nat.add_lt_add_left hoff _⟩
  rw [Nat.add_sub_cancel_left] at hcell
  exact hcell

/-- From `2 ^ 27` buckets on the two halves of a recovered table are the same, whatever
is in the file. -/
theorem halves_equal {fresh : InternalHashTable} {fetches : List Transfer} {a : Nat}
    (hchunk : 2 ^ 19 ∣ chunk) (hfresh : ∀ a, fresh.buckets_ a = 0)
    (hperm : fetches.Perm ((chunkWrites chunk).map readBack))
    (ha : a < 128 * (chunk * sizeofHashBucket)) :
    (fresh.fetched file fetches).buckets_ (a + 128 * (chunk * sizeofHashBucket)) =
      (fresh.fetched file fetches).buckets_ a := by
  have hpos : 0 < chunk * sizeofHashBucket := Nat.pos_of_mul_pos_left (Nat.zero_lt_of_lt ha)
  have hidx : a / (chunk * sizeofHashBucket) < 128 := (Nat.div_lt_iff_lt_mul hpos).mpr ha
  have hoff : a % (chunk * sizeofHashBucket) < chunk * sizeofHashBucket := Nat.mod_lt a hpos
  have hfirst : a = a / (chunk * sizeofHashBucket) * (chunk * sizeofHashBucket) +
      a % (chunk * sizeofHashBucket) := (Nat.div_add_mod' a _).symm
  have hsecond : a + 128 * (chunk * sizeofHashBucket) =
      (a / (chunk * sizeofHashBucket) + 128) * (chunk * sizeofHashBucket) +
        a % (chunk * sizeofHashBucket) := by
    rw [Nat.add_mul]
    omega
  have hdest := dest_wraps hchunk (a / (chunk * sizeofHashBucket))
  simp only [chunkWrite] at hdest
  have hlow : a / (chunk * sizeofHashBucket) < kNumMergeChunks := by
    simp only [kNumMergeChunks]
    omega
  have hhigh : a / (chunk * sizeofHashBucket) + 128 < kNumMergeChunks := by
    simp only [kNumMergeChunks]
    omega
  have hlow := buckets_of_block file fresh hperm hlow hoff
  have hhigh := buckets_of_block file fresh hperm hhigh hoff
  rw [← hfirst, hfresh] at hlow
  rw [← hsecond, hfresh, hdest] at hhigh
  rw [hhigh, hlow]

/-- For every accepted size and every contents of the table, the round trip holds
exactly for the sizes that can be saved. -/
theorem roundTrip_iff_saved (asserts : Bool) (file : File) (table : InternalHashTable)
    (haccepted : Accepted table.size_) :
    RoundTrip asserts file table ↔ Saved asserts file table.size_ :=
  ⟨saved_of_roundTrip haccepted, roundTrip_of_saved haccepted⟩

/-- A new file, on a device of 512-byte sectors, opened with `O_DIRECT`. -/
def emptyFile : File where
  unbuffered := true
  alignment := 512
  alignment_power := rfl
  alignment_line := by decide
  content := fun _ => none

/-- `table_size` buckets, of which the first byte of the first is set. -/
def marked (table_size : Nat) : InternalHashTable where
  size_ := table_size
  buckets_ := fun a => if a = 0 then 1 else 0

theorem roundTrip_iff_saved_2048 :
    Accepted (marked 2048).size_ ∧ RoundTrip true emptyFile (marked 2048) := by
  have haccepted : Accepted (marked 2048).size_ := ⟨rfl, by decide⟩
  refine ⟨haccepted, (roundTrip_iff_saved true emptyFile (marked 2048) haccepted).mpr ?_⟩
  exact ⟨by decide, by decide, fun _ => by decide⟩

/-- A table of `2 ^ 27` buckets is saved and recovered without a failure.  In whatever
order the transfers complete, a bucket of it is lost. -/
theorem marked_lost :
    Accepted (marked (2 ^ 27)).size_ ∧ ¬RoundTrip true emptyFile (marked (2 ^ 27)) ∧
      ∃ writes checkpoint_size,
        (marked (2 ^ 27)).Checkpoint true emptyFile = .ok (writes, checkpoint_size) ∧
          ∀ completed, completed.Perm writes →
            ∃ fresh reads,
              InternalHashTable.Recover true (emptyFile.written (marked (2 ^ 27)) completed)
                  checkpoint_size = .ok (fresh, reads) ∧
                ∀ fetches, fetches.Perm reads →
                  ∃ i < 2 ^ 27,
                    (fresh.fetched (emptyFile.written (marked (2 ^ 27)) completed)
                        fetches).bucketBytes i ≠ (marked (2 ^ 27)).bucketBytes i := by
  have haccepted : Accepted (marked (2 ^ 27)).size_ := ⟨rfl, by decide⟩
  have hsize : (marked (2 ^ 27)).size_ = kNumMergeChunks * 2 ^ 19 := rfl
  have hsector : (512 : Nat) ∣ 2 ^ 19 * sizeofHashBucket := by decide
  refine ⟨haccepted, fun h => ?_, ?_⟩
  · have hmax := (saved_of_roundTrip haccepted h).2.1
    exact absurd hmax (by decide)
  refine ⟨_, _, checkpoint_eq_ok hsize (by decide) (by decide) fun _ => hsector,
    fun completed _ => ⟨_, _, recover_eq_ok hsize haccepted.1 (by decide) (by decide)
      fun _ => hsector, fun fetches hfetches => ?_⟩⟩
  -- one of the two buckets that share an offset in the file
  by_contra hkept
  simp only [not_exists, not_and, not_not] at hkept
  have hequal : (InternalHashTable.fetched ⟨(marked (2 ^ 27)).size_, fun _ => 0⟩
      (emptyFile.written (marked (2 ^ 27)) completed) fetches).buckets_
        (0 + 128 * (2 ^ 19 * sizeofHashBucket)) = _ :=
    halves_equal (Nat.dvd_refl (2 ^ 19)) (fun _ => rfl) hfetches (by decide)
  have hlow := congrFun (hkept 0 (by decide)) ⟨0, by decide⟩
  have hhigh := congrFun (hkept (2 ^ 26) (by decide)) ⟨0, by decide⟩
  have hone : (marked (2 ^ 27)).bucketBytes 0 ⟨0, by decide⟩ = 1 := rfl
  have hzero : (marked (2 ^ 27)).bucketBytes (2 ^ 26) ⟨0, by decide⟩ = 0 := rfl
  rw [hone] at hlow
  rw [hzero] at hhigh
  have hlost : (0 : UInt8) = 1 := hhigh.symm.trans (hequal.trans hlow)
  exact absurd hlost (by decide)

end HashComp.IndexFile
