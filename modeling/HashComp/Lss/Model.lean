import HashComp.Records.Layout

/-!
The allocator for contexts of asynchronous calls.  A thread takes blocks from its own
segment, one after the other, and seals the segment when a block does not fit.  The count
of the blocks and the count of those that were freed are in one word.
-/

namespace HashComp.Lss

open HashComp.Alignment
open HashComp.Records

def kSegmentSize : BitVec 32 := 8000

def kBaseAlignment : BitVec 32 := 16

def kCacheLineSize : Nat := 64

def sizeofHeader : BitVec 64 := 2

def kBufferOffset : BitVec 32 := 14

/-- `sizeof(SegmentAllocator)`: the state, the padding and the buffer, rounded up to whole
words. -/
def sizeofSegmentAllocator : Nat := 8016

inductive Request where
  | allocate (size : BitVec 32)
  | allocateAligned (size alignment : BitVec 32)
  deriving DecidableEq

namespace Request

def size : Request → BitVec 32
  | allocate size => size
  | allocateAligned size _ => size

def alignment : Request → BitVec 32
  | allocate _ => kBaseAlignment
  | allocateAligned _ alignment => alignment

def blockSize : Request → BitVec 32
  | allocate size =>
      (padAlignment (size.setWidth 64 + sizeofHeader) (kBaseAlignment.setWidth 64)).setWidth 32
  | allocateAligned size alignment =>
      (padAlignment
        (size.setWidth 64 + sizeofHeader + alignment.setWidth 64 - kBaseAlignment.setWidth 64)
        (kBaseAlignment.setWidth 64)).setWidth 32

structure Proper (r : Request) : Prop where
  size : r.size < kSegmentSize
  base : kBaseAlignment ≤ r.alignment
  power : ∃ k, r.alignment.toNat = 2 ^ k

/-- The size, the header and the largest fill together are no more than a segment. -/
def Fits (r : Request) : Prop :=
  r.size.toNat + 2 + (r.alignment.toNat - 16) ≤ 8000

instance (r : Request) : Decidable r.Fits := inferInstanceAs (Decidable (_ ≤ _))

end Request

structure ThreadAllocator where
  segmentAllocator : Option Nat
  segmentOffset : BitVec 32
  allocations : BitVec 32

def ThreadAllocator.fresh : ThreadAllocator := ⟨none, 0, 0⟩

def ThreadAllocator.reserve (t : ThreadAllocator) (blockSize : BitVec 32) :
    BitVec 32 × ThreadAllocator :=
  (t.segmentOffset, { t with
    segmentOffset := t.segmentOffset + blockSize
    allocations := t.allocations + 1 })

structure SegmentState where
  frees : BitVec 32
  allocations : BitVec 32

def SegmentState.control (state : SegmentState) : BitVec 64 :=
  state.allocations ++ state.frees

def SegmentState.ofControl (control : BitVec 64) : SegmentState :=
  ⟨control.setWidth 32, (control >>> 32).setWidth 32⟩

/-- `SegmentAllocator::Seal`: the word afterwards, and whether nothing is left to free. -/
def sealSegment (control : BitVec 64) (allocations : BitVec 32) : BitVec 64 × Bool :=
  let oldState := SegmentState.ofControl control
  (control + SegmentState.control ⟨1, allocations⟩, allocations == oldState.frees + 1)

/-- `SegmentAllocator::Free`: the word afterwards, and whether nothing is left to free. -/
def freeBlock (control : BitVec 64) : BitVec 64 × Bool :=
  let oldState := SegmentState.ofControl control
  (control + SegmentState.control ⟨1, 0⟩, oldState.allocations == oldState.frees + 1)

section Words

variable {frees allocations : BitVec 32} {state : SegmentState}

@[simp] theorem ofControl_control : SegmentState.ofControl state.control = state := by
  obtain ⟨frees, allocations⟩ := state
  have hf := frees.isLt
  have ha := allocations.isLt
  have hlow : (allocations ++ frees).setWidth 32 = frees := by
    apply BitVec.eq_of_toNat_eq
    rw [BitVec.toNat_setWidth, BitFields.toNat_append]
    omega
  have hhigh : ((allocations ++ frees) >>> 32).setWidth 32 = allocations := by
    apply BitVec.eq_of_toNat_eq
    rw [BitVec.toNat_setWidth, BitVec.toNat_ushiftRight, BitFields.toNat_append,
      Nat.shiftRight_eq_div_pow]
    omega
  rw [SegmentState.ofControl, SegmentState.control, hlow, hhigh]

/-- Counts are added in both halves as long as the lower one does not run over. -/
theorem control_add {other : SegmentState} (h : state.frees.toNat + other.frees.toNat < 2 ^ 32) :
    state.control + other.control =
      SegmentState.control ⟨state.frees + other.frees, state.allocations + other.allocations⟩ := by
  have hf := state.frees.isLt
  have hf' := other.frees.isLt
  apply BitVec.eq_of_toNat_eq
  simp only [SegmentState.control, BitVec.toNat_add, BitFields.toNat_append]
  omega

theorem ofNat_beq {m n : Nat} (hm : m < 2 ^ 32) (hn : n < 2 ^ 32) :
    (BitVec.ofNat 32 m == BitVec.ofNat 32 n) = decide (m = n) := by
  rw [beq_eq_decide]
  refine decide_eq_decide.mpr ⟨fun heq => ?_, fun heq => by rw [heq]⟩
  have hnat := congrArg BitVec.toNat heq
  rwa [BitVec.toNat_ofNat, BitVec.toNat_ofNat, Nat.mod_eq_of_lt hm, Nat.mod_eq_of_lt hn] at hnat

theorem control_count {m : Nat} {x y : BitVec 32} (hm : m + 1 < 2 ^ 32) :
    SegmentState.control ⟨BitVec.ofNat 32 m, x⟩ + SegmentState.control ⟨1, y⟩ =
      SegmentState.control ⟨BitVec.ofNat 32 (m + 1), x + y⟩ := by
  rw [BitVec.ofNat_add]
  refine control_add ?_
  rw [BitVec.toNat_ofNat, Nat.mod_eq_of_lt (by omega)]
  exact hm

theorem sealSegment_eq {m n : Nat} (hm : m + 1 < 2 ^ 32) (hn : n < 2 ^ 32) :
    sealSegment (SegmentState.control ⟨BitVec.ofNat 32 m, 0⟩) (BitVec.ofNat 32 n) =
      (SegmentState.control ⟨BitVec.ofNat 32 (m + 1), BitVec.ofNat 32 n⟩,
        decide (n = m + 1)) := by
  have hzero : (0 : BitVec 32) + BitVec.ofNat 32 n = BitVec.ofNat 32 n := BitVec.zero_add _
  rw [sealSegment, ofControl_control, control_count hm, hzero, ← ofNat_beq hn hm,
    BitVec.ofNat_add]
  rfl

theorem freeBlock_eq {m n : Nat} (hm : m + 1 < 2 ^ 32) (hn : n < 2 ^ 32) :
    freeBlock (SegmentState.control ⟨BitVec.ofNat 32 m, BitVec.ofNat 32 n⟩) =
      (SegmentState.control ⟨BitVec.ofNat 32 (m + 1), BitVec.ofNat 32 n⟩,
        decide (n = m + 1)) := by
  have hzero : BitVec.ofNat 32 n + (0 : BitVec 32) = BitVec.ofNat 32 n := BitVec.add_zero _
  rw [freeBlock, ofControl_control, control_count hm, hzero, ← ofNat_beq hn hm,
    BitVec.ofNat_add]
  rfl

end Words

section Sizes

variable {r : Request}

theorem proper_allocate {size : BitVec 32} (h : size < kSegmentSize) :
    (Request.allocate size).Proper :=
  ⟨h, BitVec.le_refl _, 4, rfl⟩

theorem toNat_padAlignment_base {w : BitVec 64} (hw : w.toNat < 2 ^ 63) :
    (padAlignment w (kBaseAlignment.setWidth 64)).toNat = roundUp w.toNat 16 :=
  toNat_add_clear (k := 4) (by decide) (by omega)

theorem Request.Proper.alignment_le (h : r.Proper) : r.alignment.toNat ≤ 2 ^ 31 := by
  obtain ⟨k, hk⟩ := h.power
  have hlt : 2 ^ k < 2 ^ 32 := hk ▸ r.alignment.isLt
  rw [hk]
  exact Nat.pow_le_pow_right (by decide)
    (Nat.le_of_lt_succ ((Nat.pow_lt_pow_iff_right (by decide)).mp hlt))

theorem Request.Proper.toNat_blockSize (h : r.Proper) :
    r.blockSize.toNat = roundUp (r.size.toNat + 2 + (r.alignment.toNat - 16)) 16 := by
  have hsize : r.size.toNat < 8000 := h.size
  have hbase : 16 ≤ r.alignment.toNat := h.base
  have halign := h.alignment_le
  have hround := roundUp_lt (n := r.size.toNat + 2 + (r.alignment.toNat - 16)) (a := 16) (by decide)
  cases r with
  | allocate size =>
      have hsum : (size.setWidth 64 + sizeofHeader).toNat = size.toNat + 2 := by
        rw [BitVec.toNat_add, BitVec.toNat_setWidth]
        change (size.toNat % 2 ^ 64 + 2) % 2 ^ 64 = _
        omega
      have hlt : size.toNat < 8000 := hsize
      rw [Request.blockSize, BitVec.toNat_setWidth, toNat_padAlignment_base (by omega), hsum]
      exact Nat.mod_eq_of_lt (by have := roundUp_lt (n := size.toNat + 2) (a := 16) (by decide); omega)
  | allocateAligned size alignment =>
      simp only [Request.size, Request.alignment] at hsize hbase halign hround ⊢
      have hsum : (size.setWidth 64 + sizeofHeader + alignment.setWidth 64 -
          kBaseAlignment.setWidth 64).toNat = size.toNat + 2 + (alignment.toNat - 16) := by
        rw [BitVec.toNat_sub, BitVec.toNat_add, BitVec.toNat_add, BitVec.toNat_setWidth,
          BitVec.toNat_setWidth, BitVec.toNat_setWidth]
        change (2 ^ 64 - 16 + ((size.toNat % 2 ^ 64 + 2) % 2 ^ 64 +
          alignment.toNat % 2 ^ 64) % 2 ^ 64) % 2 ^ 64 = _
        omega
      rw [Request.blockSize, BitVec.toNat_setWidth, toNat_padAlignment_base (by omega), hsum]
      exact Nat.mod_eq_of_lt (by omega)

theorem Request.Proper.le_blockSize (h : r.Proper) : 16 ≤ r.blockSize.toNat := by
  obtain ⟨k, hk⟩ := dvd_roundUp (n := r.size.toNat + 2 + (r.alignment.toNat - 16)) (a := 16)
  have hle := le_roundUp (n := r.size.toNat + 2 + (r.alignment.toNat - 16)) (a := 16) (by decide)
  rw [h.toNat_blockSize]
  omega

theorem Request.Proper.blockSize_le_iff (h : r.Proper) : r.blockSize.toNat ≤ 8000 ↔ r.Fits := by
  rw [h.toNat_blockSize]
  constructor
  · intro hle
    exact Nat.le_trans (le_roundUp (by decide)) hle
  · intro hfits
    exact roundUp_le_of_dvd (by decide) hfits (by decide)

theorem Request.Proper.toNat_offset (h : r.Proper) {offset : BitVec 32}
    (hoffset : offset.toNat ≤ 8000) :
    (offset + r.blockSize).toNat = offset.toNat + r.blockSize.toNat := by
  have hsize : r.size.toNat < 8000 := h.size
  have halign := h.alignment_le
  have hround := roundUp_lt (n := r.size.toNat + 2 + (r.alignment.toNat - 16)) (a := 16) (by decide)
  rw [← h.toNat_blockSize] at hround
  rw [BitVec.toNat_add]
  exact Nat.mod_eq_of_lt (by omega)

end Sizes

end HashComp.Lss
