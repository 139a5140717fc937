import HashComp.IndexFile.Model

namespace HashComp.IndexFile

open Transfers

theorem isPowerOfTwo_iff {x : Nat} : IsPowerOfTwo x = true ↔ x.isPowerOfTwo := by
  rw [← Nat.ne_zero_and_sub_one_eq_zero_iff_isPowerOfTwo]
  simp only [IsPowerOfTwo, Bool.and_eq_true, bne_iff_ne, beq_iff_eq]

theorem dvd_of_isPowerOfTwo {x y : Nat} (hx : IsPowerOfTwo x = true)
    (hy : IsPowerOfTwo y = true) (h : x ≤ y) : x ∣ y := by
  obtain ⟨i, rfl⟩ := isPowerOfTwo_iff.mp hx
  obtain ⟨j, rfl⟩ := isPowerOfTwo_iff.mp hy
  exact Nat.pow_dvd_pow 2 ((Nat.pow_le_pow_iff_right (by decide)).mp h)

theorem Accepted.pos {size : Nat} (h : Accepted size) : 0 < size := by
  obtain ⟨i, rfl⟩ := isPowerOfTwo_iff.mp h.1
  exact Nat.two_pow_pos i

theorem Accepted.le {size : Nat} (h : Accepted size) : size ≤ 2 ^ 30 := by
  obtain ⟨hpower, hmax⟩ := h
  obtain ⟨i, rfl⟩ := isPowerOfTwo_iff.mp hpower
  have hlt : 2 ^ i < 2 ^ 31 := by
    simp only [INT32_MAX] at hmax
    omega
  have hi : i < 31 := (Nat.pow_lt_pow_iff_right (by decide)).mp hlt
  exact Nat.pow_le_pow_right (by decide) (by omega)

theorem uint32_of_lt {n : Nat} (h : n < 2 ^ 32) : uint32 n = n :=
  Nat.mod_eq_of_lt h

section Fallible

variable {ε α β : Type}

theorem bind_eq_ok_iff {x : Except ε α} {f : α → Except ε β} {r : β} :
    (x >>= f) = .ok r ↔ ∃ a, x = .ok a ∧ f a = .ok r := by
  cases x with
  | error e => simp [bind, Except.bind]
  | ok a => simp [bind, Except.bind]

theorem mapM_eq_ok {f : α → Except ε β} {g : α → β} {l : List α}
    (h : ∀ x ∈ l, f x = .ok (g x)) : l.mapM f = .ok (l.map g) := by
  induction l with
  | nil => rfl
  | cons x l ih =>
      have hrest := ih fun y hy => h y (List.mem_cons_of_mem x hy)
      rw [List.mapM_cons, h x List.mem_cons_self, hrest]
      rfl

theorem of_mapM_eq_ok {f : α → Except ε β} {l : List α} {ys : List β} (h : l.mapM f = .ok ys) :
    (∀ x ∈ l, ∃ y, f x = .ok y) ∧
      ∀ g : α → β, (∀ x ∈ l, ∀ y, f x = .ok y → y = g x) → ys = l.map g := by
  induction l generalizing ys with
  | nil =>
      cases h
      exact ⟨fun x hx => (List.not_mem_nil hx).elim, fun g _ => rfl⟩
  | cons x l ih =>
      rw [List.mapM_cons] at h
      obtain ⟨y, hy, h⟩ := bind_eq_ok_iff.mp h
      obtain ⟨zs, hzs, h⟩ := bind_eq_ok_iff.mp h
      cases h
      obtain ⟨hall, hmap⟩ := ih hzs
      constructor
      · intro x' hx'
        rcases List.mem_cons.mp hx' with rfl | hx'
        · exact ⟨y, hy⟩
        · exact hall x' hx'
      · intro g hg
        rw [List.map_cons, hg x List.mem_cons_self y hy,
          hmap g fun x' hx' => hg x' (List.mem_cons_of_mem x hx')]

end Fallible

theorem check_eq_ok_iff {asserts p : Bool} {u : Unit} :
    check asserts p = .ok u ↔ (asserts = true → p = true) := by
  cases asserts <;> cases p <;> simp [check]

def chunkWrite (chunk idx : Nat) : Transfer :=
  { source := sizeofHashBucket * (idx * chunk)
    dest := uint32 (idx * (chunk * sizeofHashBucket))
    length := chunk * sizeofHashBucket }

def readBack (w : Transfer) : Transfer :=
  { source := w.dest, dest := w.source, length := w.length }

variable {asserts : Bool} {file : File} {table : InternalHashTable} {size chunk : Nat}
  {writes : List Transfer} {checkpoint_size : Nat}

theorem submit_eq_ok {t : Transfer}
    (h : file.unbuffered = true →
      file.alignment ∣ t.source ∧ file.alignment ∣ t.dest ∧ file.alignment ∣ t.length) :
    file.submit t = .ok t := by
  apply if_neg
  simp only [Bool.and_eq_true, Bool.not_eq_true', Bool.and_eq_false_iff, beq_eq_false_iff_ne,
    not_and, not_or, not_not]
  intro hunbuffered
  obtain ⟨hsource, hdest, hlength⟩ := h hunbuffered
  exact ⟨⟨Nat.mod_eq_zero_of_dvd hsource, Nat.mod_eq_zero_of_dvd hdest⟩,
    Nat.mod_eq_zero_of_dvd hlength⟩

theorem of_submit_eq_ok {t t' : Transfer} (h : file.submit t = .ok t') :
    t' = t ∧ (file.unbuffered = true → file.alignment ∣ t.length) := by
  simp only [File.submit] at h
  split at h
  · cases h
  · rename_i hrefused
    cases h
    refine ⟨rfl, fun hunbuffered => ?_⟩
    simp only [hunbuffered, Bool.true_and, Bool.not_eq_true', Bool.and_eq_false_iff,
      beq_eq_false_iff_ne, not_or, not_not] at hrefused
    exact Nat.dvd_of_mod_eq_zero hrefused.2

theorem bucket_eq_ok {idx : Nat} (h : idx < table.size_) :
    table.bucket asserts idx = .ok (sizeofHashBucket * idx) := by
  have hcheck : check asserts (decide (idx < table.size_)) = .ok () :=
    check_eq_ok_iff.mpr fun _ => decide_eq_true h
  simp only [InternalHashTable.bucket, hcheck]
  rfl

theorem of_bucket_eq_ok {idx a : Nat} (h : table.bucket asserts idx = .ok a) :
    a = sizeofHashBucket * idx := by
  obtain ⟨_, _, h⟩ := bind_eq_ok_iff.mp h
  cases h
  rfl

theorem product_lt {idx : Nat} (hidx : idx < kNumMergeChunks) (hchunk : chunk ≤ 2 ^ 18) :
    idx * (chunk * sizeofHashBucket) < 2 ^ 32 := by
  have hle : idx * (chunk * sizeofHashBucket) ≤ 255 * (2 ^ 18 * 64) :=
    Nat.mul_le_mul (Nat.le_of_lt_succ hidx) (Nat.mul_le_mul_right 64 hchunk)
  omega

theorem index_eq {idx : Nat} (hidx : idx < kNumMergeChunks) (hchunk : chunk ≤ 2 ^ 22) :
    uint32 (idx * chunk) = idx * chunk := by
  apply uint32_of_lt
  have hle : idx * chunk ≤ 255 * 2 ^ 22 := Nat.mul_le_mul (Nat.le_of_lt_succ hidx) hchunk
  omega

theorem source_eq (idx chunk : Nat) :
    sizeofHashBucket * (idx * chunk) = idx * (chunk * sizeofHashBucket) := by
  rw [Nat.mul_comm, Nat.mul_assoc]

def chunkWrites (chunk : Nat) : List Transfer :=
  (List.range kNumMergeChunks).map (chunkWrite chunk)

theorem chunk_fits (hsize : table.size_ ≤ 2 ^ 30) :
    uint32 (table.size_ / kNumMergeChunks) = table.size_ / kNumMergeChunks ∧
      uint32 (table.size_ / kNumMergeChunks * sizeofHashBucket) =
        table.size_ / kNumMergeChunks * sizeofHashBucket := by
  constructor
  · apply uint32_of_lt
    simp only [kNumMergeChunks]
    omega
  · apply uint32_of_lt
    simp only [kNumMergeChunks, sizeofHashBucket]
    omega

/-- An alignment of the chunks is one of their offsets, wrapped around or not. -/
theorem dvd_uint32 (hpos : 0 < chunk) (hchunk : chunk ≤ 2 ^ 22)
    (hdvd : file.alignment ∣ chunk * sizeofHashBucket) (idx : Nat) :
    file.alignment ∣ uint32 (idx * (chunk * sizeofHashBucket)) := by
  have hle := Nat.le_of_dvd (Nat.mul_pos hpos (by decide)) hdvd
  have hword : file.alignment ∣ 2 ^ 32 := by
    apply dvd_of_isPowerOfTwo file.alignment_power (by decide)
    simp only [sizeofHashBucket] at hle
    omega
  exact (Nat.dvd_mod_iff hword).mpr (Nat.dvd_mul_left_of_dvd hdvd idx)

theorem checkpoint_eq_ok (hsize : table.size_ = kNumMergeChunks * chunk) (hpos : 0 < chunk)
    (hchunk : chunk ≤ 2 ^ 22)
    (halign : asserts = true ∨ file.unbuffered = true →
      file.alignment ∣ chunk * sizeofHashBucket) :
    table.Checkpoint asserts file =
      .ok (chunkWrites chunk, table.size_ * sizeofHashBucket) := by
  have hdiv : table.size_ / kNumMergeChunks = chunk := by
    rw [hsize]
    exact Nat.mul_div_cancel_left chunk (by decide)
  have hbound : table.size_ ≤ 2 ^ 30 := by
    rw [hsize]
    simp only [kNumMergeChunks]
    omega
  obtain ⟨hchunk32, hwrite32⟩ := chunk_fits hbound
  rw [hdiv] at hchunk32 hwrite32
  have hmerge : check asserts (table.size_ % kNumMergeChunks == 0) = .ok () := by
    rw [hsize, Nat.mul_mod_right]
    exact check_eq_ok_iff.mpr fun _ => rfl
  have hsector : check asserts (chunk * sizeofHashBucket % file.alignment == 0) = .ok () := by
    refine check_eq_ok_iff.mpr fun hasserts => ?_
    exact beq_iff_eq.mpr (Nat.mod_eq_zero_of_dvd (halign (.inl hasserts)))
  have hloop : (List.range kNumMergeChunks).mapM (fun idx => do
      let source ← table.bucket asserts (uint32 (idx * chunk))
      file.submit ⟨source, uint32 (idx * (chunk * sizeofHashBucket)),
        chunk * sizeofHashBucket⟩) = .ok (chunkWrites chunk) := by
    apply mapM_eq_ok
    intro idx hidx
    have hidx : idx < kNumMergeChunks := List.mem_range.mp hidx
    have hbucket : idx * chunk < table.size_ := by
      rw [hsize]
      exact Nat.mul_lt_mul_of_pos_right hidx hpos
    rw [index_eq hidx hchunk, bucket_eq_ok hbucket]
    refine submit_eq_ok fun hunbuffered => ?_
    have hdvd := halign (.inr hunbuffered)
    refine ⟨?_, ?_, hdvd⟩
    · rw [source_eq]
      exact Nat.dvd_mul_left_of_dvd hdvd idx
    · exact dvd_uint32 hpos hchunk hdvd idx
  refine bind_eq_ok_iff.mpr ⟨(), hmerge, ?_⟩
  simp only [hdiv, hchunk32, hwrite32]
  refine bind_eq_ok_iff.mpr ⟨(), hsector, ?_⟩
  exact bind_eq_ok_iff.mpr ⟨_, hloop, rfl⟩

/-- A checkpoint that is taken has passed the assertions that are on, and an aligned
transfer is the only one that an unbuffered file takes. -/
theorem of_checkpoint_eq_ok (hsize : table.size_ ≤ 2 ^ 30)
    (h : table.Checkpoint asserts file = .ok (writes, checkpoint_size)) :
    writes = chunkWrites (table.size_ / kNumMergeChunks) ∧
      (asserts = true → kNumMergeChunks ∣ table.size_) ∧
      (asserts = true ∨ file.unbuffered = true →
        file.alignment ∣ table.size_ / kNumMergeChunks * sizeofHashBucket) := by
  obtain ⟨hchunk32, hwrite32⟩ := chunk_fits hsize
  obtain ⟨_, hmerge, h⟩ := bind_eq_ok_iff.mp h
  simp only [hchunk32, hwrite32] at h
  obtain ⟨_, hsector, h⟩ := bind_eq_ok_iff.mp h
  obtain ⟨ws, hloop, h⟩ := bind_eq_ok_iff.mp h
  cases h
  obtain ⟨hall, hmap⟩ := of_mapM_eq_ok hloop
  have hsubmitted : ∀ idx < kNumMergeChunks, ∀ t,
      (do
        let source ← table.bucket asserts (uint32 (idx * (table.size_ / kNumMergeChunks)))
        file.submit ⟨source,
          uint32 (idx * (table.size_ / kNumMergeChunks * sizeofHashBucket)),
          table.size_ / kNumMergeChunks * sizeofHashBucket⟩) = Except.ok t →
      t = chunkWrite (table.size_ / kNumMergeChunks) idx ∧
        (file.unbuffered = true → file.alignment ∣ t.length) := by
    intro idx hidx t ht
    obtain ⟨a, ha, ht⟩ := bind_eq_ok_iff.mp ht
    obtain ⟨rfl, haligned⟩ := of_submit_eq_ok ht
    have hchunk : table.size_ / kNumMergeChunks ≤ 2 ^ 22 := by
      simp only [kNumMergeChunks]
      omega
    rw [index_eq hidx hchunk] at ha
    rw [of_bucket_eq_ok ha] at haligned ⊢
    exact ⟨rfl, haligned⟩
  refine ⟨?_, fun hasserts => ?_, ?_⟩
  · exact hmap _ fun idx hidx t ht => (hsubmitted idx (List.mem_range.mp hidx) t ht).1
  · have hmod := check_eq_ok_iff.mp hmerge hasserts
    exact Nat.dvd_of_mod_eq_zero (beq_iff_eq.mp hmod)
  · rintro (hasserts | hunbuffered)
    · have hmod := check_eq_ok_iff.mp hsector hasserts
      exact Nat.dvd_of_mod_eq_zero (beq_iff_eq.mp hmod)
    · obtain ⟨t, ht⟩ := hall 0 (List.mem_range.mpr (by decide))
      obtain ⟨rfl, hlength⟩ := hsubmitted 0 (by decide) t ht
      exact hlength hunbuffered

theorem initialize_eq_ok {alignment : Nat} (hsize : size < INT32_MAX)
    (hpower : IsPowerOfTwo size = true) (halignment : IsPowerOfTwo alignment = true)
    (hline : kCacheLineBytes ≤ alignment) :
    InternalHashTable.Initialize asserts size alignment =
      .ok { size_ := size, buckets_ := fun _ => 0 } := by
  refine bind_eq_ok_iff.mpr ⟨(), check_eq_ok_iff.mpr fun _ => decide_eq_true hsize, ?_⟩
  refine bind_eq_ok_iff.mpr ⟨(), check_eq_ok_iff.mpr fun _ => hpower, ?_⟩
  refine bind_eq_ok_iff.mpr ⟨(), check_eq_ok_iff.mpr fun _ => halignment, ?_⟩
  exact bind_eq_ok_iff.mpr ⟨(), check_eq_ok_iff.mpr fun _ => decide_eq_true hline, rfl⟩

theorem recover_eq_ok (hsize : size = kNumMergeChunks * chunk) (hpower : IsPowerOfTwo size = true)
    (hpos : 0 < chunk) (hchunk : chunk ≤ 2 ^ 22)
    (halign : asserts = true ∨ file.unbuffered = true →
      file.alignment ∣ chunk * sizeofHashBucket) :
    InternalHashTable.Recover asserts file (size * sizeofHashBucket) =
      .ok ({ size_ := size, buckets_ := fun _ => 0 }, (chunkWrites chunk).map readBack) := by
  have hread : size * sizeofHashBucket / kNumMergeChunks = chunk * sizeofHashBucket := by
    rw [hsize, Nat.mul_assoc]
    exact Nat.mul_div_cancel_left _ (by decide)
  have hread32 : uint32 (chunk * sizeofHashBucket) = chunk * sizeofHashBucket := by
    apply uint32_of_lt
    simp only [sizeofHashBucket]
    omega
  have hdiv : chunk * sizeofHashBucket / sizeofHashBucket = chunk :=
    Nat.mul_div_cancel chunk (by decide)
  have hchunk32 : uint32 chunk = chunk := uint32_of_lt (by omega)
  have hback : size * sizeofHashBucket / sizeofHashBucket = size :=
    Nat.mul_div_cancel size (by decide)
  have hnonempty : 0 < size * sizeofHashBucket := by
    rw [hsize]
    exact Nat.mul_pos (Nat.mul_pos (by decide) hpos) (by decide)
  have hmerge : size * sizeofHashBucket % kNumMergeChunks = 0 := by
    rw [hsize, Nat.mul_assoc]
    exact Nat.mul_mod_right _ _
  have hmax : size < INT32_MAX := by
    rw [hsize]
    simp only [INT32_MAX, kNumMergeChunks]
    omega
  have hloop : (List.range kNumMergeChunks).mapM (fun idx => do
      let dest ← InternalHashTable.bucket asserts { size_ := size, buckets_ := fun _ => 0 }
        (uint32 (idx * chunk))
      file.submit ⟨uint32 (idx * (chunk * sizeofHashBucket)), dest,
        chunk * sizeofHashBucket⟩) = .ok ((chunkWrites chunk).map readBack) := by
    rw [chunkWrites, List.map_map]
    apply mapM_eq_ok
    intro idx hidx
    have hidx : idx < kNumMergeChunks := List.mem_range.mp hidx
    have hbucket : idx * chunk < size := by
      rw [hsize]
      exact Nat.mul_lt_mul_of_pos_right hidx hpos
    rw [index_eq hidx hchunk, bucket_eq_ok hbucket]
    refine submit_eq_ok fun hunbuffered => ?_
    have hdvd := halign (.inr hunbuffered)
    refine ⟨?_, ?_, hdvd⟩
    · exact dvd_uint32 hpos hchunk hdvd idx
    · rw [source_eq]
      exact Nat.dvd_mul_left_of_dvd hdvd idx
  refine bind_eq_ok_iff.mpr ⟨(), check_eq_ok_iff.mpr fun _ => decide_eq_true hnonempty, ?_⟩
  refine bind_eq_ok_iff.mpr ⟨(), check_eq_ok_iff.mpr fun _ => ?_, ?_⟩
  · exact beq_iff_eq.mpr (Nat.mul_mod_left _ _)
  refine bind_eq_ok_iff.mpr ⟨(), check_eq_ok_iff.mpr fun _ => beq_iff_eq.mpr hmerge, ?_⟩
  simp only [hread, hread32, hdiv, hchunk32, hback]
  refine bind_eq_ok_iff.mpr ⟨(), check_eq_ok_iff.mpr fun hasserts => ?_, ?_⟩
  · exact beq_iff_eq.mpr (Nat.mod_eq_zero_of_dvd (halign (.inl hasserts)))
  refine bind_eq_ok_iff.mpr ⟨_, initialize_eq_ok hmax hpower file.alignment_power
    file.alignment_line, ?_⟩
  exact bind_eq_ok_iff.mpr ⟨_, hloop, rfl⟩

end HashComp.IndexFile
