import HashComp.Hlog.Addresses
import HashComp.Library.BitFields
import Mathlib.Data.BitVec

namespace HashComp.Hlog

open HashComp.Faster

def kMaxPage : Nat := 2 ^ 23 - 1

def kMaxOffset : BitVec 32 := 2 ^ 25 - 1

def kMaxNumThreads : Nat := 96

/-- `Address`, with 25 bits for the offset and 23 bits for the page. -/
def address (page offset : BitVec 32) : BitVec 64 :=
  (page.setWidth 23 ++ offset.setWidth 25).setWidth 64

namespace PageOffset

def make (page : BitVec 32) (offset : BitVec 64) : BitVec 64 :=
  page.setWidth 23 ++ offset.setWidth 41

def offset (control : BitVec 64) : BitVec 64 := (control.setWidth 41).setWidth 64

def page (control : BitVec 64) : BitVec 32 := (control >>> 41).setWidth 32

def reserve (control : BitVec 64) (numSlots : BitVec 32) : BitVec 64 :=
  control + make 0 (numSlots.setWidth 64)

def newPage (oldPage : BitVec 32) : BitVec 64 := make (oldPage + 1) 0

end PageOffset

/-- `Allocate`: the page that it closes, or an address. -/
def allocate (control : BitVec 64) (numSlots : BitVec 32) : Except (BitVec 32) (BitVec 64) :=
  if BitVec.ofNat 64 kPageSize < PageOffset.offset control + numSlots.setWidth 64 then
    .error (PageOffset.page control)
  else .ok (address (PageOffset.page control) ((PageOffset.offset control).setWidth 32))

def getTailAddress (control : BitVec 64) : BitVec 64 :=
  let offset := (PageOffset.offset control).setWidth 32
  address (PageOffset.page control) (if offset < kMaxOffset then offset else kMaxOffset)

def System.tailWord (x : System) : BitVec 64 :=
  PageOffset.make (BitVec.ofNat 32 x.tailPage) (BitVec.ofNat 64 x.tailOffset)

structure System.TailFits (x : System) : Prop where
  page : x.tailPage ≤ kMaxPage
  offset : x.tailOffset < 2 ^ 32

/-- The states that the constructors leave. -/
inductive Constructed (c : Config) : System → Prop where
  | startAddress (a : Nat) (page_le : pageOf a ≤ kMaxPage) : Constructed c (.construct c a)
  | invalidPage : Constructed c .start

theorem Constructed.ordered {c : Config} {x : System} (h : Constructed c x) : Ordered c x := by
  cases h with
  | startAddress a _ => exact ordered_construct a
  | invalidPage => exact ordered_start

section Words

variable {p o n : Nat} {x y : System}

theorem toNat_make (hp : p ≤ kMaxPage) (ho : o < 2 ^ 41) :
    (PageOffset.make (BitVec.ofNat 32 p) (BitVec.ofNat 64 o)).toNat = p * 2 ^ 41 + o := by
  rw [kMaxPage] at hp
  have hlow : ((BitVec.ofNat 64 o).setWidth 41).toNat = o := by
    rw [BitVec.toNat_setWidth, BitVec.toNat_ofNat]
    omega
  have hhigh : ((BitVec.ofNat 32 p).setWidth 23).toNat = p := by
    rw [BitVec.toNat_setWidth, BitVec.toNat_ofNat]
    omega
  rw [PageOffset.make, BitFields.toNat_append, hlow, hhigh]

theorem toNat_offset (w : BitVec 64) : (PageOffset.offset w).toNat = w.toNat % 2 ^ 41 := by
  rw [PageOffset.offset, BitVec.toNat_setWidth, BitVec.toNat_setWidth]
  omega

theorem toNat_page (w : BitVec 64) : (PageOffset.page w).toNat = w.toNat / 2 ^ 41 := by
  have hlt := w.isLt
  rw [PageOffset.page, BitVec.toNat_setWidth, BitVec.toNat_ushiftRight,
    Nat.shiftRight_eq_div_pow]
  omega

theorem toNat_address (hp : p ≤ kMaxPage) {v : BitVec 32} (ho : v.toNat < kPageSize) :
    (address (BitVec.ofNat 32 p) v).toNat = pageStart p + v.toNat := by
  rw [kMaxPage] at hp
  rw [kPageSize] at ho
  have hlow : (v.setWidth 25).toNat = v.toNat := by
    rw [BitVec.toNat_setWidth]
    omega
  have hhigh : ((BitVec.ofNat 32 p).setWidth 23).toNat = p := by
    rw [BitVec.toNat_setWidth, BitVec.toNat_ofNat]
    omega
  rw [address, BitVec.toNat_setWidth, BitFields.toNat_append, hlow, hhigh, pageStart, kPageSize]
  omega

end Words

namespace System.TailFits

variable {n : Nat} {x : System}

theorem toNat_tailWord (h : x.TailFits) :
    x.tailWord.toNat = x.tailPage * 2 ^ 41 + x.tailOffset := by
  have hoffset := h.offset
  exact toNat_make h.page (by omega)

theorem offset_tailWord (h : x.TailFits) : (PageOffset.offset x.tailWord).toNat = x.tailOffset := by
  have hoffset := h.offset
  rw [toNat_offset, h.toNat_tailWord]
  omega

theorem page_tailWord (h : x.TailFits) :
    PageOffset.page x.tailWord = BitVec.ofNat 32 x.tailPage := by
  have hoffset := h.offset
  have hpage := h.page
  rw [kMaxPage] at hpage
  apply BitVec.eq_of_toNat_eq
  rw [toNat_page, h.toNat_tailWord, BitVec.toNat_ofNat]
  omega

/-- The reservation adds to the offset, and nothing is carried into the page. -/
theorem reserve_tailWord (h : x.TailFits) (hn : n < kPageSize) :
    PageOffset.reserve x.tailWord (BitVec.ofNat 32 n) =
      { x with tailOffset := x.tailOffset + n }.tailWord := by
  have hoffset := h.offset
  have hpage := h.page
  rw [kPageSize] at hn
  rw [kMaxPage] at hpage
  have hslots : (PageOffset.make 0 ((BitVec.ofNat 32 n).setWidth 64)).toNat = n := by
    have hwide : (BitVec.ofNat 32 n).setWidth 64 = BitVec.ofNat 64 n := by
      apply BitVec.eq_of_toNat_eq
      rw [BitVec.toNat_setWidth, BitVec.toNat_ofNat, BitVec.toNat_ofNat]
      omega
    have hmake := toNat_make (p := 0) (o := n) (Nat.zero_le _) (by omega)
    rw [hwide]
    simpa using hmake
  apply BitVec.eq_of_toNat_eq
  rw [PageOffset.reserve, BitVec.toNat_add, h.toNat_tailWord, hslots]
  refine Eq.trans ?_ (toNat_make (p := x.tailPage) (o := x.tailOffset + n) h.page
    (by omega)).symm
  omega

theorem allocate_tailWord (h : x.TailFits) (hn : n < kPageSize) :
    (kPageSize < x.tailOffset + n →
      allocate x.tailWord (BitVec.ofNat 32 n) = .error (BitVec.ofNat 32 x.tailPage)) ∧
    (x.tailOffset + n ≤ kPageSize → 0 < n →
      ∃ a : BitVec 64, allocate x.tailWord (BitVec.ofNat 32 n) = .ok a ∧
        a.toNat = pageStart x.tailPage + x.tailOffset) := by
  have hoffset := h.offset
  have hsum : (PageOffset.offset x.tailWord + (BitVec.ofNat 32 n).setWidth 64).toNat =
      x.tailOffset + n := by
    rw [kPageSize] at hn
    rw [BitVec.toNat_add, h.offset_tailWord, BitVec.toNat_setWidth, BitVec.toNat_ofNat]
    omega
  have htest : BitVec.ofNat 64 kPageSize <
      PageOffset.offset x.tailWord + (BitVec.ofNat 32 n).setWidth 64 ↔
        kPageSize < x.tailOffset + n := by
    rw [BitVec.lt_def, hsum]
    exact Iff.rfl
  constructor
  · intro hfull
    rw [allocate, if_pos (htest.mpr hfull), h.page_tailWord]
  · intro hroom hpos
    refine ⟨_, by rw [allocate, if_neg fun hlt => absurd (htest.mp hlt) (by omega)], ?_⟩
    have hnarrow : ((PageOffset.offset x.tailWord).setWidth 32).toNat = x.tailOffset := by
      rw [BitVec.toNat_setWidth, h.offset_tailWord]
      omega
    rw [h.page_tailWord, toNat_address h.page (by omega), hnarrow]

theorem getTailAddress_tailWord (h : x.TailFits) : (getTailAddress x.tailWord).toNat =
    pageStart x.tailPage + min (kPageSize - 1) x.tailOffset := by
  have hoffset := h.offset
  have hnarrow : ((PageOffset.offset x.tailWord).setWidth 32).toNat = x.tailOffset := by
    rw [BitVec.toNat_setWidth, h.offset_tailWord]
    omega
  have hmax : kMaxOffset.toNat = kPageSize - 1 := rfl
  have hmin : (if (PageOffset.offset x.tailWord).setWidth 32 < kMaxOffset then
      (PageOffset.offset x.tailWord).setWidth 32 else kMaxOffset).toNat =
        min (kPageSize - 1) x.tailOffset := by
    split
    · rename_i hlt
      rw [BitVec.lt_def] at hlt
      omega
    · rename_i hge
      rw [BitVec.lt_def] at hge
      omega
  have hlt : min (kPageSize - 1) x.tailOffset < kPageSize :=
    Nat.lt_of_le_of_lt (Nat.min_le_left ..) (by decide)
  rw [getTailAddress, h.page_tailWord, toNat_address h.page (by rw [hmin]; exact hlt), hmin]

end System.TailFits

end HashComp.Hlog
