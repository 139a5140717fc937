import HashComp.Lss.Allocation

namespace HashComp.Lss

open HashComp.Alignment
open HashComp.ByteMemory
open HashComp.Records

section Headers

variable {m m' : Memory} {offset : BitVec 32} {segment start : Nat}

theorem headerOffset_write (m : Memory) (header : Nat) (hoffset : offset.toNat < 2 ^ 16) :
    ((headerOffset (writeBytes m header (headerBytes offset)) header).setWidth 32).toNat =
      offset.toNat := by
  have hlow : writeBytes m header (headerBytes offset) header = offset.setWidth 8 := by
    simp [writeBytes, headerBytes]
  have hhigh : writeBytes m header (headerBytes offset) (header + 1) =
      (offset >>> 8).setWidth 8 := by
    simp [writeBytes, headerBytes]
  rw [headerOffset, hlow, hhigh, BitVec.toNat_setWidth, BitFields.toNat_append,
    BitVec.toNat_setWidth, BitVec.toNat_setWidth, BitVec.toNat_ushiftRight,
    Nat.shiftRight_eq_div_pow]
  omega

theorem freeTarget_write (hoffset : offset.toNat ≤ 8000) :
    freeTarget (writeBytes m (segment + kBufferOffset.toNat + offset.toNat) (headerBytes offset))
      (segment + kBufferOffset.toNat + offset.toNat + sizeofHeader.toNat) = segment := by
  have hread := headerOffset_write m (segment + kBufferOffset.toNat + offset.toNat)
    (Nat.lt_of_le_of_lt hoffset (by decide))
  have hbuffer : kBufferOffset.toNat = 14 := rfl
  simp only [freeTarget, Nat.add_sub_cancel, BitVec.toNat_add]
  rw [hread, hbuffer]
  omega

theorem freeTarget_congr (h : ∀ i, start ≤ i + 2 → i < start → m' i = m i) (hstart : 2 ≤ start) :
    freeTarget m' start = freeTarget m start := by
  have hheader : sizeofHeader.toNat = 2 := rfl
  rw [freeTarget, freeTarget, hheader, headerOffset, headerOffset,
    h (start - 2) (by omega) (by omega), h (start - 2 + 1) (by omega) (by omega)]

end Headers

section Fill

variable {r : Request} {segment offset : Nat}

theorem toNat_padAlignment {w : BitVec 64} {k : Nat} {alignment : BitVec 32}
    (hk : alignment.toNat = 2 ^ k) (hw : w.toNat + 2 ^ k ≤ 2 ^ 64) :
    (padAlignment w (alignment.setWidth 64)).toNat = roundUp w.toNat (2 ^ k) := by
  have hlt : 2 ^ k < 2 ^ 32 := hk ▸ alignment.isLt
  have hklt : k < 32 := (Nat.pow_lt_pow_iff_right (by decide)).mp hlt
  have hwidth : alignment.setWidth 64 = BitVec.ofNat 64 (2 ^ k) := by
    apply BitVec.eq_of_toNat_eq
    rw [BitVec.toNat_setWidth, BitVec.toNat_ofNat, hk]
  rw [hwidth]
  exact toNat_add_clear (by omega) hw

theorem toNat_userOffset (hr : r.Proper) (haligned : kCacheLineSize ∣ segment)
    (hbound : segment + sizeofSegmentAllocator ≤ 2 ^ 64) (hoffset : 16 ∣ offset)
    (hroom : offset + r.blockSize.toNat ≤ 8000) :
    r.alignment.toNat ∣
        segment + 14 + offset + (r.userOffset (BitVec.ofNat 64 (segment + 14 + offset))).toNat + 2 ∧
      (r.userOffset (BitVec.ofNat 64 (segment + 14 + offset))).toNat + 2 + r.size.toNat ≤
        r.blockSize.toNat := by
  have hblock := hr.toNat_blockSize
  have hle := le_roundUp (n := r.size.toNat + 2 + (r.alignment.toNat - 16)) (a := 16) (by decide)
  obtain ⟨q, rfl⟩ : 64 ∣ segment := haligned
  obtain ⟨p, rfl⟩ := hoffset
  have hsegment : 64 * q + 8016 ≤ 2 ^ 64 := hbound
  cases r with
  | allocate size =>
      refine ⟨?_, ?_⟩
      · change 16 ∣ 64 * q + 14 + 16 * p + 0 + 2
        omega
      · change 0 + 2 + size.toNat ≤ _
        change size.toNat + 2 + 0 ≤ _ at hle
        omega
  | allocateAligned size alignment =>
      obtain ⟨k, hk⟩ := hr.power
      have hbase : 16 ≤ alignment.toNat := hr.base
      simp only [Request.size, Request.alignment] at hk hle hblock ⊢
      have hdvd : 16 ∣ 2 ^ k := by
        have hfour : 4 ≤ k := (Nat.pow_le_pow_iff_right (by decide)).mp (hk ▸ hbase : 2 ^ 4 ≤ 2 ^ k)
        exact Nat.pow_dvd_pow 2 hfour
      have haddress : (BitVec.ofNat 64 (64 * q + 14 + 16 * p)).toNat = 64 * q + 14 + 16 * p := by
        rw [BitVec.toNat_ofNat]
        exact Nat.mod_eq_of_lt (by omega)
      have hsum : (BitVec.ofNat 64 (64 * q + 14 + 16 * p) + sizeofHeader).toNat =
          64 * q + 16 * p + 16 := by
        rw [BitVec.toNat_add, haddress]
        change (64 * q + 14 + 16 * p + 2) % 2 ^ 64 = _
        omega
      have hpad := toNat_padAlignment hk (w := BitVec.ofNat 64 (64 * q + 14 + 16 * p) + sizeofHeader)
        (by omega)
      rw [hsum] at hpad
      have hlow := le_roundUp (n := 64 * q + 16 * p + 16) (a := 2 ^ k) (by omega)
      have hhigh := roundUp_lt (n := 64 * q + 16 * p + 16) (a := 2 ^ k) (by omega)
      have hround : 2 ^ k ∣ roundUp (64 * q + 16 * p + 16) (2 ^ k) := dvd_roundUp
      have hsixteen := hdvd.trans hround
      have hfill : (Request.userOffset (BitVec.ofNat 64 (64 * q + 14 + 16 * p))
          (.allocateAligned size alignment)).toNat =
            roundUp (64 * q + 16 * p + 16) (2 ^ k) - (64 * q + 16 * p + 16) := by
        rw [Request.userOffset, BitVec.toNat_setWidth, BitVec.toNat_sub, BitVec.toNat_sub, hpad,
          haddress]
        change (2 ^ 64 - 2 + (2 ^ 64 - (64 * q + 14 + 16 * p) + _) % 2 ^ 64) % 2 ^ 64 % 2 ^ 32 = _
        omega
      rw [hfill, hk]
      refine ⟨?_, ?_⟩
      · have hsame : 64 * q + 14 + 16 * p +
            (roundUp (64 * q + 16 * p + 16) (2 ^ k) - (64 * q + 16 * p + 16)) + 2 =
              roundUp (64 * q + 16 * p + 16) (2 ^ k) := by
          omega
        rwa [hsame]
      · omega

end Fill

section Invariant

structure Active (t : ThreadAllocator) (control : BitVec 64) : Prop where
  control : control = SegmentState.control ⟨0, 0⟩
  aligned : 16 ∣ t.segmentOffset.toNat
  offset : t.segmentOffset.toNat ≤ 8000
  allocations : 16 * t.allocations.toNat ≤ t.segmentOffset.toNat
  nonempty : 0 < t.segmentOffset.toNat → 0 < t.allocations.toNat

/-- Threads have different segments, blocks are in segments in use, apart from each other
and below the offset up to which a thread has reserved. -/
structure Sound (s : LssAllocator) : Prop where
  fresh : ∀ u, (s.threads u).segmentAllocator = none → s.threads u = .fresh
  inUse : ∀ u a, (s.threads u).segmentAllocator = some a → a ∈ s.live
  active : ∀ u a, (s.threads u).segmentAllocator = some a → Active (s.threads u) (s.control a)
  unshared : ∀ u v a, (s.threads u).segmentAllocator = some a →
    (s.threads v).segmentAllocator = some a → u = v
  aligned : ∀ a ∈ s.live, kCacheLineSize ∣ a
  bounded : ∀ a ∈ s.live, a + sizeofSegmentAllocator ≤ 2 ^ 64
  apart : ∀ a ∈ s.live, ∀ b ∈ s.live, a ≠ b →
    Apart a sizeofSegmentAllocator b sizeofSegmentAllocator
  home : ∀ b ∈ s.blocks, b.segment ∈ s.live
  usable : ∀ b ∈ s.blocks, b.Usable s.memory
  below : ∀ b ∈ s.blocks, ∀ u, (s.threads u).segmentAllocator = some b.segment →
    b.start + b.request.size.toNat ≤ b.segment + 14 + (s.threads u).segmentOffset.toNat
  disjoint : s.blocks.Pairwise Block.Disjoint

variable {s s' : LssAllocator} {m : AlignedAlloc} {u segment : Nat} {r : Request} {b b' : Block}
  {memory memory' : Memory} {t : ThreadAllocator}

theorem start_sound : Sound (LssAllocator.start memory) where
  fresh := fun _ _ => rfl
  inUse := fun _ _ h => nomatch h
  active := fun _ _ h => nomatch h
  unshared := fun _ _ _ h => nomatch h
  aligned := fun _ h => nomatch h
  bounded := fun _ h => nomatch h
  apart := fun _ h => nomatch h
  home := fun _ h => nomatch h
  usable := fun _ h => nomatch h
  below := fun _ h => nomatch h
  disjoint := .nil

theorem Block.Usable.congr (h : b.Usable memory)
    (hsame : ∀ i, b.start ≤ i + 2 → i < b.start → memory' i = memory i) : b.Usable memory' := by
  have hheader : b.segment + 14 + 2 ≤ b.start := h.header
  exact ⟨h.aligned, h.header, h.inside,
    (freeTarget_congr hsame (by omega)).trans h.found⟩

theorem Block.Usable.disjoint (h : b.Usable memory) (h' : b'.Usable memory')
    (hapart : Apart b.segment sizeofSegmentAllocator b'.segment sizeofSegmentAllocator) :
    b.Disjoint b' := by
  have hheader : b.segment + 14 + 2 ≤ b.start := h.header
  have hheader' : b'.segment + 14 + 2 ≤ b'.start := h'.header
  have hinside : b.start + b.request.size.toNat ≤ b.segment + 14 + 8000 := h.inside
  have hinside' : b'.start + b'.request.size.toNat ≤ b'.segment + 14 + 8000 := h'.inside
  have hbytes : Apart b.segment 8016 b'.segment 8016 := hapart
  change Apart (b.start - 2) (2 + b.request.size.toNat) (b'.start - 2) (2 + b'.request.size.toNat)
  rcases hbytes with hlt | hlt
  · exact Or.inl (by omega)
  · exact Or.inr (by omega)

instance : Std.Symm Block.Disjoint := ⟨fun _ _ h => h.symm⟩

theorem Sound.calls (h : Sound s) (n : Nat) : Sound { s with calls := n } :=
  ⟨h.fresh, h.inUse, h.active, h.unshared, h.aligned, h.bounded, h.apart, h.home, h.usable,
    h.below, h.disjoint⟩

theorem segment_update {v a : Nat}
    (hseg : (Function.update s.threads u t v).segmentAllocator = some a) :
    v = u ∧ t.segmentAllocator = some a ∨ v ≠ u ∧ (s.threads v).segmentAllocator = some a := by
  rcases eq_or_ne v u with rfl | hv
  · rw [Function.update_self] at hseg
    exact Or.inl ⟨rfl, hseg⟩
  · rw [Function.update_of_ne hv] at hseg
    exact Or.inr ⟨hv, hseg⟩

theorem Sound.take (h : Sound s) (hu : (s.threads u).segmentAllocator = none) {n : Nat}
    (hrun : m.run n s.live = some segment) :
    Sound { s with
      threads := Function.update s.threads u { s.threads u with segmentAllocator := some segment }
      control := Function.update s.control segment (SegmentState.control ⟨0, 0⟩)
      live := segment :: s.live } := by
  have hnew : segment ∉ s.live := by
    intro hmem
    have hapart : Apart segment 8016 segment 8016 := m.apart n s.live segment hrun segment hmem
    rcases hapart with hlt | hlt
    all_goals omega
  have hfresh := h.fresh u hu
  refine ⟨fun v hv => ?_, fun v a hv => ?_, fun v a hv => ?_, fun v w a hv hw => ?_,
    fun a ha => ?_, fun a ha => ?_, fun a ha b hb hab => ?_,
    fun b hb => List.mem_cons_of_mem _ (h.home b hb), h.usable, fun b hb v hv => ?_, h.disjoint⟩
  · rcases eq_or_ne v u with rfl | hvu
    · simp only [Function.update_self] at hv
      cases hv
    · simp only [Function.update_of_ne hvu] at hv ⊢
      exact h.fresh v hv
  · rcases segment_update hv with ⟨-, hseg⟩ | ⟨-, hseg⟩
    · cases hseg
      exact List.mem_cons_self
    · exact List.mem_cons_of_mem _ (h.inUse v a hseg)
  · rcases segment_update hv with ⟨rfl, hseg⟩ | ⟨hvu, hseg⟩
    · cases hseg
      simp only [Function.update_self, hfresh]
      exact ⟨rfl, Nat.dvd_zero 16, Nat.zero_le _, Nat.zero_le _, fun hpos => absurd hpos (Nat.lt_irrefl 0)⟩
    · have ha : a ≠ segment := by
        rintro rfl
        exact hnew (h.inUse v a hseg)
      simp only [Function.update_of_ne hvu, Function.update_of_ne ha]
      exact h.active v a hseg
  · rcases segment_update hv with ⟨rfl, hseg⟩ | ⟨-, hseg⟩
    · rcases segment_update hw with ⟨rfl, -⟩ | ⟨-, hseg'⟩
      · rfl
      · cases hseg
        exact absurd (h.inUse w segment hseg') hnew
    · rcases segment_update hw with ⟨rfl, hseg'⟩ | ⟨-, hseg'⟩
      · cases hseg'
        exact absurd (h.inUse v segment hseg) hnew
      · exact h.unshared v w a hseg hseg'
  · rcases List.mem_cons.mp ha with rfl | ha
    · exact m.aligned n s.live a hrun
    · exact h.aligned a ha
  · rcases List.mem_cons.mp ha with rfl | ha
    · exact m.bounded n s.live a hrun
    · exact h.bounded a ha
  · rcases List.mem_cons.mp ha with hsegment | ha'
    · rcases List.mem_cons.mp hb with hsegment' | hb'
      · exact absurd (hsegment.trans hsegment'.symm) hab
      · exact hsegment ▸ m.apart n s.live segment hrun b hb'
    · rcases List.mem_cons.mp hb with hsegment' | hb'
      · exact hsegment' ▸ (m.apart n s.live segment hrun a ha').symm
      · exact h.apart a ha' b hb' hab
  · rcases segment_update hv with ⟨-, hseg⟩ | ⟨hvu, hseg⟩
    · cases hseg
      exact absurd (h.home b hb) hnew
    · simp only [Function.update_of_ne hvu]
      exact h.below b hb v hseg

theorem Sound.apart_header (h : Sound s) (hu : (s.threads u).segmentAllocator = some segment)
    (hb : b ∈ s.blocks) {offset : Nat} (size : Nat)
    (hlow : (s.threads u).segmentOffset.toNat ≤ offset) (hhigh : offset + 2 + size ≤ 8000) :
    b.start + b.request.size.toNat ≤ segment + 14 + offset ∨
      segment + 14 + offset + 2 + size ≤ b.start - 2 := by
  rcases eq_or_ne b.segment segment with hsame | hother
  · have hbelow := h.below b hb u (hsame ▸ hu)
    exact Or.inl (by omega)
  · have hapart : Apart b.segment 8016 segment 8016 :=
      h.apart b.segment (h.home b hb) segment (h.inUse u segment hu) hother
    have hheader : b.segment + 14 + 2 ≤ b.start := (h.usable b hb).header
    have hinside : b.start + b.request.size.toNat ≤ b.segment + 14 + 8000 := (h.usable b hb).inside
    rcases hapart with hlt | hlt
    · exact Or.inl (by omega)
    · exact Or.inr (by omega)

/-- A block is placed from the offset of the thread on, and the thread goes on behind it. -/
theorem Sound.placed (h : Sound s) (hu : (s.threads u).segmentAllocator = some segment)
    {offset : BitVec 32} (hlow : (s.threads u).segmentOffset.toNat ≤ offset.toNat)
    (haligned : r.alignment.toNat ∣ segment + 14 + offset.toNat + 2)
    (hend : offset.toNat + 2 + r.size.toNat ≤ t.segmentOffset.toNat)
    (ht : t.segmentAllocator = some segment) (hactive : Active t (s.control segment)) :
    Sound { s with
      threads := Function.update s.threads u t
      memory := writeBytes s.memory (segment + kBufferOffset.toNat + offset.toNat)
        (headerBytes offset)
      blocks := ⟨segment, segment + kBufferOffset.toNat + offset.toNat + sizeofHeader.toNat, r⟩ ::
        s.blocks } := by
  have hlimit := hactive.offset
  have hbuffer : kBufferOffset.toNat = 14 := rfl
  have hheader : sizeofHeader.toNat = 2 := rfl
  have hapart : ∀ b ∈ s.blocks, _ := fun b hb =>
    h.apart_header hu hb r.size.toNat hlow (by omega)
  refine ⟨fun v hv => ?_, fun v a hv => ?_, fun v a hv => ?_, fun v w a hv hw => ?_, h.aligned,
    h.bounded, h.apart, fun b hb => ?_, fun b hb => ?_, fun b hb v hv => ?_, ?_⟩
  · rcases eq_or_ne v u with rfl | hvu
    · simp only [Function.update_self] at hv
      cases ht.symm.trans hv
    · simp only [Function.update_of_ne hvu] at hv ⊢
      exact h.fresh v hv
  · rcases segment_update hv with ⟨rfl, hseg⟩ | ⟨-, hseg⟩
    · rw [ht] at hseg
      cases hseg
      exact h.inUse v segment hu
    · exact h.inUse v a hseg
  · rcases segment_update hv with ⟨rfl, hseg⟩ | ⟨hvu, hseg⟩
    · rw [ht] at hseg
      cases hseg
      simp only [Function.update_self]
      exact hactive
    · simp only [Function.update_of_ne hvu]
      exact h.active v a hseg
  · have hsame : ∀ v, (Function.update s.threads u t v).segmentAllocator = some a →
        (s.threads v).segmentAllocator = some a := by
      intro v hv
      rcases segment_update hv with ⟨rfl, hseg⟩ | ⟨-, hseg⟩
      · exact hu.trans (ht.symm.trans hseg)
      · exact hseg
    exact h.unshared v w a (hsame v hv) (hsame w hw)
  · rcases List.mem_cons.mp hb with rfl | hb
    · exact h.inUse u segment hu
    · exact h.home b hb
  · rcases List.mem_cons.mp hb with rfl | hb
    · refine ⟨haligned, ?_, ?_, freeTarget_write (by omega)⟩
      · change segment + kBufferOffset.toNat + sizeofHeader.toNat ≤
          segment + kBufferOffset.toNat + offset.toNat + sizeofHeader.toNat
        omega
      · change segment + 14 + offset.toNat + 2 + r.size.toNat ≤ segment + 14 + 8000
        omega
    · refine (h.usable b hb).congr fun i hlo hhi => writeBytes_of_outside ?_
      change i < segment + 14 + offset.toNat ∨ segment + 14 + offset.toNat + 2 ≤ i
      rcases hapart b hb with hbefore | hafter
      · exact Or.inl (by omega)
      · exact Or.inr (by omega)
  · rcases List.mem_cons.mp hb with rfl | hb'
    · rcases segment_update hv with ⟨rfl, -⟩ | ⟨hvu, hseg⟩
      · simp only [Function.update_self]
        omega
      · exact absurd (h.unshared v u segment hseg hu) hvu
    · rcases segment_update hv with ⟨rfl, hseg⟩ | ⟨hvu, hseg⟩
      · have hbelow := h.below b hb' v (hu.trans (ht.symm.trans hseg))
        simp only [Function.update_self]
        omega
      · simp only [Function.update_of_ne hvu]
        exact h.below b hb' v hseg
  · refine List.pairwise_cons.mpr ⟨fun b hb => ?_, h.disjoint⟩
    change Apart (segment + 14 + offset.toNat + 2 - 2) (2 + r.size.toNat) (b.start - 2)
      (2 + b.request.size.toNat)
    have hstart : b.segment + 14 + 2 ≤ b.start := (h.usable b hb).header
    rcases hapart b hb with hbefore | hafter
    · exact Or.inr (by omega)
    · exact Or.inl (by omega)

theorem Sound.release (h : Sound s) (word : BitVec 64)
    (hu : (s.threads u).segmentAllocator = some segment) :
    Sound { s with
      threads := Function.update s.threads u .fresh
      control := Function.update s.control segment word } := by
  have hother : ∀ v a, (Function.update s.threads u ThreadAllocator.fresh v).segmentAllocator =
      some a → v ≠ u ∧ (s.threads v).segmentAllocator = some a := by
    intro v a hv
    rcases segment_update hv with ⟨-, hseg⟩ | hseg
    · cases hseg
    · exact hseg
  refine ⟨fun v hv => ?_, fun v a hv => h.inUse v a (hother v a hv).2, fun v a hv => ?_,
    fun v w a hv hw => h.unshared v w a (hother v a hv).2 (hother w a hw).2, h.aligned, h.bounded,
    h.apart, h.home, h.usable, fun b hb v hv => ?_, h.disjoint⟩
  · rcases eq_or_ne v u with rfl | hvu
    · exact Function.update_self ..
    · simp only [Function.update_of_ne hvu] at hv ⊢
      exact h.fresh v hv
  · obtain ⟨hvu, hseg⟩ := hother v a hv
    have ha : a ≠ segment := by
      rintro rfl
      exact hvu (h.unshared v u a hseg hu)
    simp only [Function.update_of_ne hvu, Function.update_of_ne ha]
    exact h.active v a hseg
  · obtain ⟨hvu, hseg⟩ := hother v b.segment hv
    simp only [Function.update_of_ne hvu]
    exact h.below b hb v hseg

theorem Sound.place_fits (h : Sound s) (hr : r.Proper)
    (hu : (s.threads u).segmentAllocator = some segment)
    (hroom : (s.threads u).segmentOffset.toNat + r.blockSize.toNat ≤ 8000) :
    ∃ s' p, s.place u r segment = .returned s' p ∧ Sound s' := by
  have hactive := h.active u segment hu
  have hsum := hr.toNat_offset hactive.offset
  have hblock := hr.le_blockSize
  have hlive := h.inUse u segment hu
  obtain ⟨haligned, hfill⟩ := toNat_userOffset hr (h.aligned segment hlive)
    (h.bounded segment hlive) hactive.aligned hroom
  have hle : ((s.threads u).reserve r.blockSize).2.segmentOffset ≤ kSegmentSize := by
    change ((s.threads u).segmentOffset + r.blockSize).toNat ≤ 8000
    omega
  have hoffset : ((s.threads u).segmentOffset + r.userOffset (BitVec.ofNat 64
      (segment + 14 + (s.threads u).segmentOffset.toNat))).toNat =
      (s.threads u).segmentOffset.toNat + (r.userOffset (BitVec.ofNat 64
        (segment + 14 + (s.threads u).segmentOffset.toNat))).toNat := by
    rw [BitVec.toNat_add]
    omega
  rw [LssAllocator.place, if_pos hle]
  refine ⟨_, _, rfl, h.placed hu ?_ ?_ ?_ hu ?_⟩
  · exact hoffset ▸ Nat.le_add_right _ _
  · change _ ∣ segment + 14 + ((s.threads u).segmentOffset + r.userOffset (BitVec.ofNat 64
      (segment + 14 + (s.threads u).segmentOffset.toNat))).toNat + 2
    rw [hoffset, ← Nat.add_assoc]
    exact haligned
  · change ((s.threads u).segmentOffset + r.userOffset (BitVec.ofNat 64
      (segment + 14 + (s.threads u).segmentOffset.toNat))).toNat + 2 + r.size.toNat ≤
        ((s.threads u).segmentOffset + r.blockSize).toNat
    omega
  · have hallocations := hactive.allocations
    have hone : ((s.threads u).allocations + 1).toNat = (s.threads u).allocations.toNat + 1 := by
      rw [BitVec.toNat_add]
      change ((s.threads u).allocations.toNat + 1) % 2 ^ 32 = _
      omega
    have hdvd : 16 ∣ r.blockSize.toNat := hr.toNat_blockSize ▸ dvd_roundUp
    refine ⟨hactive.control, ?_, ?_, ?_, fun _ => ?_⟩
    · exact hsum ▸ Nat.dvd_add hactive.aligned hdvd
    · exact hle
    · change 16 * ((s.threads u).allocations + 1).toNat ≤
        ((s.threads u).segmentOffset + r.blockSize).toNat
      omega
    · change 0 < ((s.threads u).allocations + 1).toNat
      omega

theorem Sound.place_full (h : Sound s) (hr : r.Proper) (hfits : r.Fits)
    (hu : (s.threads u).segmentAllocator = some segment)
    (hroom : 8000 < (s.threads u).segmentOffset.toNat + r.blockSize.toNat) :
    ∃ s', s.place u r segment = .again s' ∧ Sound s' ∧ s'.threads u = .fresh := by
  have hactive := h.active u segment hu
  have hsum := hr.toNat_offset hactive.offset
  have hblock := hr.blockSize_le_iff.mpr hfits
  have hlt : ¬ ((s.threads u).reserve r.blockSize).2.segmentOffset ≤ kSegmentSize := by
    change ¬ ((s.threads u).segmentOffset + r.blockSize).toNat ≤ 8000
    omega
  have hnonempty := hactive.nonempty (by omega)
  have hallocations := hactive.allocations
  have hoffset := hactive.offset
  have hword := sealSegment_eq (m := 0) (n := (s.threads u).allocations.toNat + 1) (by decide)
    (by omega)
  rw [BitVec.ofNat_add, BitVec.ofNat_toNat, BitVec.setWidth_eq, decide_eq_false (by omega)] at hword
  have hseal : (sealSegment (s.control segment) ((s.threads u).allocations + 1)).2 = false := by
    rw [hactive.control]
    exact congrArg Prod.snd hword
  rw [LssAllocator.place, if_neg hlt]
  refine ⟨_, rfl, ?_, Function.update_self ..⟩
  change Sound { s with
    threads := _
    control := Function.update s.control segment
      (sealSegment (s.control segment) ((s.threads u).allocations + 1)).1
    live := if (sealSegment (s.control segment) ((s.threads u).allocations + 1)).2 then _
      else s.live }
  rw [hseal]
  exact h.release _ hu

theorem Sound.attempt_fresh (h : Sound s) (hr : r.Proper) (hfits : r.Fits)
    (hu : s.threads u = .fresh) : ∃ s' p, s.attempt m u r = .returned s' p ∧ Sound s' := by
  have hnone : (s.threads u).segmentAllocator = none := by rw [hu]; rfl
  simp only [LssAllocator.attempt, hnone]
  cases hrun : m.run s.calls s.live with
  | none => exact ⟨_, none, rfl, h.calls _⟩
  | some segment =>
      have htake := (h.take hnone hrun).calls (s.calls + 1)
      refine htake.place_fits hr ?_ ?_
      · simp only [Function.update_self]
      · simp only [Function.update_self, hu]
        exact (Nat.zero_add _).trans_le (hr.blockSize_le_iff.mpr hfits)

theorem Sound.call (h : Sound s) (hr : r.Proper) (hfits : r.Fits) :
    ∃ s' p, s.call m u r 2 = some (s', p) ∧ Sound s' := by
  have hreturned : ∀ {s₁ s' : LssAllocator} {p} {fuel : Nat}, s₁.attempt m u r = .returned s' p →
      s₁.call m u r (fuel + 1) = some (s', p) := by
    intro s₁ s' p fuel hattempt
    rw [LssAllocator.call, hattempt]
  cases hu : (s.threads u).segmentAllocator with
  | none =>
      obtain ⟨s', p, hattempt, hs'⟩ := h.attempt_fresh (m := m) hr hfits (h.fresh u hu)
      exact ⟨s', p, hreturned hattempt, hs'⟩
  | some segment =>
      have hplace : s.attempt m u r = s.place u r segment := by
        simp only [LssAllocator.attempt, hu]
      rcases Nat.lt_or_ge 8000 ((s.threads u).segmentOffset.toNat + r.blockSize.toNat) with hfull | hroom
      · obtain ⟨s₁, hagain, hs₁, hfresh⟩ := h.place_full hr hfits hu hfull
        obtain ⟨s', p, hattempt, hs'⟩ := hs₁.attempt_fresh (m := m) hr hfits hfresh
        refine ⟨s', p, ?_, hs'⟩
        rw [LssAllocator.call, hplace, hagain]
        exact hreturned hattempt
      · obtain ⟨s', p, hattempt, hs'⟩ := h.place_fits hr hu hroom
        exact ⟨s', p, hreturned (hplace.trans hattempt), hs'⟩

theorem Sound.store (h : Sound s) (n i : Nat) (byte : Byte) : Sound (s.store n i byte) := by
  unfold LssAllocator.store
  split
  · exact h
  · rename_i b hb
    split
    · rename_i hi
      refine ⟨h.fresh, h.inUse, h.active, h.unshared, h.aligned, h.bounded, h.apart, h.home,
        fun b' hb' => (h.usable b' hb').congr fun j hlo hhi => ?_, h.below, h.disjoint⟩
      have hmem := List.mem_of_getElem? hb
      have hstart : b.segment + 14 + 2 ≤ b.start := (h.usable b hmem).header
      have hstart' : b'.segment + 14 + 2 ≤ b'.start := (h.usable b' hb').header
      refine writeBytes_of_outside ?_
      rw [List.length_singleton]
      rcases eq_or_ne b' b with rfl | hne
      · exact Or.inl (by omega)
      · have hdisjoint : Apart (b'.start - 2) (2 + b'.request.size.toNat) (b.start - 2)
            (2 + b.request.size.toNat) :=
          h.disjoint.forall hb' hmem hne
        rcases hdisjoint with hlt | hlt
        · exact Or.inl (by omega)
        · exact Or.inr (by omega)
    · exact h

theorem Sound.run (h : Sound s) {events : List Event}
    (hproper : ∀ u r, Event.request u r ∈ events → r.Proper ∧ r.Fits) :
    ∃ s', LssAllocator.run m 2 s events = some s' ∧ Sound s' := by
  induction events generalizing s with
  | nil => exact ⟨s, rfl, h⟩
  | cons event events ih =>
      have hrest : ∀ u r, Event.request u r ∈ events → r.Proper ∧ r.Fits :=
        fun u r hmem => hproper u r (List.mem_cons_of_mem _ hmem)
      cases event with
      | request u r =>
          obtain ⟨hr, hfits⟩ := hproper u r List.mem_cons_self
          obtain ⟨s₁, p, hcall, hs₁⟩ := h.call (m := m) (u := u) hr hfits
          obtain ⟨s', hrun, hs'⟩ := ih hs₁ hrest
          refine ⟨s', ?_, hs'⟩
          rw [LssAllocator.run, hcall]
          exact hrun
      | store n i byte =>
          obtain ⟨s', hrun, hs'⟩ := ih (h.store n i byte) hrest
          exact ⟨s', hrun, hs'⟩

end Invariant

section Endless

variable {s : LssAllocator} {u n fuel : Nat} {r : Request} {memory : Memory}

/-- Memory that is not to be had for the first `n` calls, and then for one segment at a
time. -/
def lateMemory (n : Nat) : AlignedAlloc where
  run := fun k live => if n ≤ k ∧ live = [] then some 64 else none
  aligned := by
    intro k live a h
    split at h
    · cases h
      exact ⟨1, rfl⟩
    · cases h
  bounded := by
    intro k live a h
    split at h
    · cases h
      decide
    · cases h
  apart := by
    intro k live a h b hb
    split at h
    · rename_i hlate
      rw [hlate.2] at hb
      cases hb
    · cases h

structure Idle (s : LssAllocator) (n : Nat) : Prop where
  fresh : ∀ u, s.threads u = .fresh
  live : s.live = []
  calls : s.calls = n

theorem Idle.request (h : Idle s n) {late : Nat} (hlate : n < late) (u : Nat) (r : Request)
    (fuel : Nat) :
    ∃ s', s.call (lateMemory late) u r (fuel + 1) = some (s', none) ∧ Idle s' (n + 1) ∧
      s'.blocks = s.blocks := by
  have hrun : (lateMemory late).run s.calls s.live = none := by
    refine if_neg fun hle => ?_
    have := h.calls ▸ hle.1
    omega
  have hattempt : s.attempt (lateMemory late) u r =
      .returned { s with calls := s.calls + 1 } none := by
    simp only [LssAllocator.attempt, h.fresh u, ThreadAllocator.fresh, hrun]
  refine ⟨{ s with calls := s.calls + 1 }, ?_, ⟨h.fresh, h.live, by rw [h.calls]⟩, rfl⟩
  rw [LssAllocator.call, hattempt]

/-- A new segment is destroyed for a block that does not fit, and the call starts over. -/
theorem Idle.call_eq_none (h : Idle s n) {late : Nat} (hlate : late ≤ n) (hr : r.Proper)
    (hfits : ¬ r.Fits) : s.call (lateMemory late) u r fuel = none := by
  induction fuel generalizing s n with
  | zero => rfl
  | succ fuel ih =>
      have hrun : (lateMemory late).run s.calls s.live = some 64 :=
        if_pos ⟨h.calls.symm ▸ hlate, h.live⟩
      have hblock : 8000 < r.blockSize.toNat := Nat.lt_of_not_le fun hle =>
        hfits (hr.blockSize_le_iff.mp hle)
      have hlarge : ¬ (0 + r.blockSize : BitVec 32) ≤ kSegmentSize := by
        have hzero : (0 + r.blockSize : BitVec 32) = r.blockSize := BitVec.zero_add _
        rw [hzero]
        exact Nat.not_le.mpr hblock
      have hword : sealSegment (SegmentState.control ⟨0, 0⟩) (0 + 1) =
          (SegmentState.control ⟨1, 1⟩, true) := by
        decide
      have hattempt : ∃ s', s.attempt (lateMemory late) u r = .again s' ∧ Idle s' (n + 1) := by
        simp only [LssAllocator.attempt, h.fresh u, ThreadAllocator.fresh, hrun,
          LssAllocator.place, Function.update_self, ThreadAllocator.reserve, if_neg hlarge, hword]
        refine ⟨_, rfl, fun v => ?_, ?_, ?_⟩
        · rcases eq_or_ne v u with rfl | hv
          · exact Function.update_self ..
          · simp only [Function.update_of_ne hv, h.fresh v]
        · simp only [h.live, if_true, List.erase_cons_head]
        · simp only [h.calls]
      obtain ⟨s', hagain, hidle⟩ := hattempt
      rw [LssAllocator.call, hagain]
      exact ih hidle (Nat.le_succ_of_le hlate)

theorem Idle.run_eq_none (h : Idle s n) {events : List Event} {late : Nat} {rest : List Event}
    (hnone : s.blocks = [])
    (hlate : late = n + (events.filter fun e => e matches .request _ _).length) (hr : r.Proper)
    (hfits : ¬ r.Fits) :
    LssAllocator.run (lateMemory late) fuel s (events ++ .request u r :: rest) = none := by
  induction events generalizing s n with
  | nil =>
      subst hlate
      rw [List.nil_append, LssAllocator.run, h.call_eq_none (Nat.le_refl _) hr hfits]
  | cons event events ih =>
      cases event with
      | request v r' =>
          cases fuel with
          | zero => rfl
          | succ fuel =>
              simp only [List.filter_cons_of_pos, List.length_cons] at hlate
              have hearly : n < late := by omega
              obtain ⟨s', hcall, hidle, hblocks⟩ := h.request hearly v r' fuel
              rw [List.cons_append, LssAllocator.run, hcall]
              exact ih hidle (hblocks.trans hnone) (by omega)
      | store k i byte =>
          have hstore : s.store k i byte = s := by
            rw [LssAllocator.store, hnone]
            rfl
          rw [List.cons_append, LssAllocator.run, hstore]
          exact ih h hnone hlate

theorem start_idle : Idle (LssAllocator.start memory) 0 :=
  ⟨fun _ => rfl, rfl, rfl⟩

end Endless

/-- Proper requests are all served, whatever memory there is, exactly if their blocks fit
into a segment. -/
theorem serves_iff_fits {events : List Event} {memory : Memory}
    (hproper : ∀ u r, Event.request u r ∈ events → r.Proper) :
    (∀ m, Serves m memory events) ↔ ∀ u r, Event.request u r ∈ events → r.Fits := by
  constructor
  · intro hserves u r hmem
    by_contra hfits
    obtain ⟨before, after, rfl⟩ := List.append_of_mem hmem
    obtain ⟨fuel, s, hrun, -⟩ := hserves (lateMemory
      (0 + (before.filter fun e => e matches .request _ _).length))
    rw [start_idle.run_eq_none rfl rfl (hproper u r hmem) hfits] at hrun
    cases hrun
  · intro hfits m
    have hstart : Sound (LssAllocator.start memory) := start_sound
    obtain ⟨s, hrun, hs⟩ := hstart.run (m := m) fun u r hmem =>
      ⟨hproper u r hmem, hfits u r hmem⟩
    exact ⟨2, s, hrun, hs.usable, hs.disjoint⟩

/-- A block, and one in a second segment that is aligned to 1024 bytes. -/
theorem serves_iff_fits_two : (Request.allocateAligned 100 1024).Proper ∧
    ∀ m, Serves m (fun _ => 0) [.request 0 (.allocate 7000), .store 0 6999 255,
      .request 0 (.allocateAligned 100 1024)] := by
  have haligned : (Request.allocateAligned 100 1024).Proper := ⟨by decide, by decide, 10, rfl⟩
  refine ⟨haligned, (serves_iff_fits fun u r hmem => ?_).mpr fun u r hmem => ?_⟩
  all_goals
    simp only [List.mem_cons, Event.request.injEq, List.not_mem_nil, or_false, reduceCtorEq,
      false_or] at hmem
    rcases hmem with ⟨-, rfl⟩ | ⟨-, rfl⟩
  · exact proper_allocate (by decide)
  · exact haligned
  · decide
  · decide

/-- A block of 7999 bytes is a proper request, and takes more than a segment with its
header. -/
theorem allocate_7999_not_served : (Request.allocate 7999).Proper ∧
    ¬ ∀ m, Serves m (fun _ => 0) [.request 0 (.allocate 7999)] := by
  have hproper : (Request.allocate 7999).Proper := proper_allocate (by decide)
  refine ⟨hproper, fun hserves => ?_⟩
  obtain ⟨fuel, s, hrun, -⟩ := hserves (lateMemory 0)
  rw [LssAllocator.run, start_idle.call_eq_none (Nat.le_refl 0) hproper (by decide)] at hrun
  cases hrun

end HashComp.Lss
