import HashComp.BzTree.Keys
import Mathlib.Data.List.Lex
import Mathlib.Order.Defs.LinearOrder
import Mathlib.Data.Int.Order.Basic

namespace HashComp.BzTree

open HashComp.ByteMemory

class TreeKey (K : Type) extends LinearOrder K where
  key : K → Key
  nonempty : ∀ k, (key k).bytes ≠ []
  keyCompare_lt : ∀ k k', keyCompare (some (key k).bytes) (some (key k').bytes) < 0 ↔ k < k'

namespace TreeKey

variable {K : Type} [TreeKey K] {k k' : K}

def bytes (k : K) : List Byte :=
  (key k).bytes

def totalSize (k : K) : Nat :=
  (key k).totalSize

theorem keyCompare_neg_iff : keyCompare (some (bytes k)) (some (bytes k')) < 0 ↔ k < k' :=
  keyCompare_lt k k'

theorem bytes_inj : bytes k = bytes k' ↔ k = k' := by
  refine ⟨fun h => ?_, fun h => congrArg bytes h⟩
  have hlt : ∀ {a b : K}, bytes a = bytes b → ¬ a < b := by
    intro a b hab
    rw [← keyCompare_neg_iff, keyCompare_eq_zero_iff.mpr hab]
    decide
  exact le_antisymm (not_lt.mp (hlt h.symm)) (not_lt.mp (hlt h))

theorem keyCompare_zero_iff : keyCompare (some (bytes k)) (some (bytes k')) = 0 ↔ k = k' := by
  rw [keyCompare_eq_zero_iff, bytes_inj]

theorem keyCompare_pos_iff : 0 < keyCompare (some (bytes k)) (some (bytes k')) ↔ k' < k := by
  have hneg : keyCompare (some (bytes k)) (some (bytes k')) < 0 ↔ k < k' := keyCompare_neg_iff
  have hzero : keyCompare (some (bytes k)) (some (bytes k')) = 0 ↔ k = k' := keyCompare_zero_iff
  constructor
  · intro h
    refine lt_of_not_ge fun hle => ?_
    rcases hle.lt_or_eq with hlt | heq
    · have := hneg.mpr hlt
      omega
    · have := hzero.mpr heq
      omega
  · intro h
    have hne : ¬ keyCompare (some (bytes k)) (some (bytes k')) < 0 := fun hc =>
      lt_asymm h (hneg.mp hc)
    have hne' : keyCompare (some (bytes k)) (some (bytes k')) ≠ 0 := fun hc =>
      ne_of_gt h (hzero.mp hc)
    omega

end TreeKey

section Ascii

structure AsciiKey where
  key : Key
  nonempty : key.bytes ≠ []
  ascii : ∀ b ∈ key.bytes, b.toNat < 128
deriving DecidableEq

variable {n : Nat} {key1 key2 : List Byte}

theorem myMemcmp_eq_memcmp (h1 : ∀ b ∈ key1, b.toNat < 128) (h2 : ∀ b ∈ key2, b.toNat < 128) :
    myMemcmp n key1 key2 = memcmp n key1 key2 := by
  have hint : ∀ b : Byte, b.toNat < 128 → b.toInt = b.toNat := by
    intro b hb
    rw [BitVec.toInt_eq_toNat_of_lt (by omega)]
  induction n generalizing key1 key2 with
  | zero =>
      rw [myMemcmp, memcmp]
      all_goals simp
  | succ n ih =>
      cases key1 with
      | nil => simp [myMemcmp, memcmp]
      | cons b bs =>
          cases key2 with
          | nil => simp [myMemcmp, memcmp]
          | cons c cs =>
              simp only [myMemcmp, memcmp]
              rw [ih (fun b hb => h1 b (List.mem_cons_of_mem _ hb))
                (fun b hb => h2 b (List.mem_cons_of_mem _ hb)),
                hint b (h1 b List.mem_cons_self), hint c (h2 c List.mem_cons_self)]

/-- A comparison byte by byte, and then the lengths: the order of the words that the bytes
spell. -/
theorem compare_lt_iff {Z : Type*} [LinearOrder Z] (value : Byte → Z)
    (cmp : Nat → List Byte → List Byte → Int) (diff : Byte → Byte → Int) (hneg : ∀ b c, diff b c < 0 ↔ value b < value c)
    (hzero : ∀ b c, b ≠ c → diff b c ≠ 0 ∧ value b ≠ value c)
    (hnil : ∀ n key, cmp n [] key = 0) (hnil' : ∀ n key, cmp n key [] = 0)
    (hcons : ∀ n b bs c cs,
      cmp (n + 1) (b :: bs) (c :: cs) = if b ≠ c then diff b c else cmp n bs cs) :
    (if cmp (min key1.length key2.length) key1 key2 = 0
      then (key1.length : Int) - key2.length
      else cmp (min key1.length key2.length) key1 key2) < 0 ↔
        key1.map value < key2.map value := by
  induction key1 generalizing key2 with
  | nil =>
      rw [hnil, if_pos rfl]
      cases key2 with
      | nil => simp
      | cons c cs =>
          simp only [List.length_nil, List.length_cons, List.map_nil, List.map_cons,
            List.nil_lt_cons, iff_true]
          omega
  | cons b bs ih =>
      cases key2 with
      | nil =>
          rw [hnil', if_pos rfl]
          simp only [List.length_cons, List.length_nil, List.map_cons, List.map_nil,
            List.not_lt_nil, iff_false]
          omega
      | cons c cs =>
          simp only [List.length_cons, Nat.add_min_add_right, hcons, List.map_cons,
            List.cons_lt_cons_iff]
          rcases eq_or_ne b c with rfl | hne
          · have hlen : ((bs.length + 1 : Nat) : Int) - ((cs.length + 1 : Nat) : Int) =
                (bs.length : Int) - cs.length := by omega
            simp only [ne_eq, not_true_eq_false, if_false, lt_self_iff_false, true_and, false_or,
              hlen]
            exact ih
          · obtain ⟨hdiff, hvalue⟩ := hzero b c hne
            simp only [ne_eq, hne, not_false_eq_true, if_true, hdiff, if_false, hvalue, false_and,
              or_false]
            exact hneg b c

theorem memcmp_lt_iff : (if memcmp (min key1.length key2.length) key1 key2 = 0
    then (key1.length : Int) - key2.length else memcmp (min key1.length key2.length) key1 key2) < 0 ↔
      key1.map BitVec.toNat < key2.map BitVec.toNat := by
  refine compare_lt_iff BitVec.toNat memcmp (fun b c => (b.toNat : Int) - c.toNat)
    (fun b c => by omega) (fun b c hne => ?_) (fun n key => by simp [memcmp]) (fun n key => by simp [memcmp])
    fun n b bs c cs => rfl
  have hne' : b.toNat ≠ c.toNat := fun h => hne (BitVec.eq_of_toNat_eq h)
  exact ⟨by omega, hne'⟩

/-- `my_memcmp` and then the lengths: the order of the words in signed bytes. -/
theorem myMemcmp_lt_iff : (if myMemcmp (min key1.length key2.length) key1 key2 = 0
    then (key1.length : Int) - key2.length
    else myMemcmp (min key1.length key2.length) key1 key2) < 0 ↔
      key1.map BitVec.toInt < key2.map BitVec.toInt := by
  refine compare_lt_iff BitVec.toInt myMemcmp (fun b c => b.toInt - c.toInt)
    (fun b c => by omega) (fun b c hne => ?_) (fun n key => by simp [myMemcmp]) (fun n key => by simp [myMemcmp])
    fun n b bs c cs => rfl
  have hne' : b.toInt ≠ c.toInt := fun h => hne (BitVec.eq_of_toInt_eq h)
  exact ⟨by omega, hne'⟩

theorem keyCompare_lt_iff_of_ascii (h1 : ∀ b ∈ key1, b.toNat < 128)
    (h2 : ∀ b ∈ key2, b.toNat < 128) : keyCompare (some key1) (some key2) < 0 ↔
      key1.map BitVec.toNat < key2.map BitVec.toNat := by
  rw [← memcmp_lt_iff]
  simp only [keyCompare, myMemcmp_eq_memcmp h1 h2, ite_self]

namespace AsciiKey

def word (k : AsciiKey) : List Nat :=
  k.key.bytes.map BitVec.toNat

theorem word_injective : Function.Injective word := by
  intro k k' h
  have hbytes : k.key.bytes = k'.key.bytes :=
    List.map_injective_iff.mpr (fun _ _ hb => BitVec.eq_of_toNat_eq hb) h
  obtain ⟨⟨bytes, fits⟩, nonempty, ascii⟩ := k
  obtain ⟨⟨bytes', fits'⟩, nonempty', ascii'⟩ := k'
  cases hbytes
  rfl

instance : LinearOrder AsciiKey :=
  LinearOrder.lift' word word_injective

instance : TreeKey AsciiKey where
  key := key
  nonempty := nonempty
  keyCompare_lt := fun k k' => keyCompare_lt_iff_of_ascii k.ascii k'.ascii

end AsciiKey

end Ascii

section ChildIndex

variable {cmp : Nat → Int} {c n : Nat}

/-- Among `n` keys of which the first `c` are below the one looked for, the search ends
at the last of these, or at the equal key after them if that is looked for. -/
theorem childIndexLoop_spec (getLe : Bool) (rounds : Nat) (left right : Int)
    (hpos : ∀ i, i < n → (0 < cmp i ↔ i < c)) (hzero : ∀ i, i < n → cmp i = 0 → i = c)
    (hc : 1 ≤ c) (hleft : 0 ≤ left) (hlo : left ≤ c) (hhi : (c : Int) ≤ right + 1) (hright : right < n) (heq : c < n → cmp c = 0 → (c : Int) ≤ right)
    (hrounds : right + 1 - left < rounds) :
    childIndexLoop cmp getLe rounds left right =
      if getLe = false ∧ c < n ∧ cmp c = 0 then (c : Int) else c - 1 := by
  induction rounds generalizing left right with
  | zero => omega
  | succ rounds ih =>
      have hmid : 0 ≤ (left + right).tdiv 2 ∧ (left + right).tdiv 2 < n ∧
          (left ≤ right → left ≤ (left + right).tdiv 2 ∧ (left + right).tdiv 2 ≤ right) ∧
          (right < left → (left + right).tdiv 2 = c - 1) := by
        have hdiv : (left + right).tdiv 2 = (left + right) / 2 :=
          Int.tdiv_eq_ediv_of_nonneg (by omega)
        omega
      obtain ⟨hmid₀, hmidn, hin, hout⟩ := hmid
      obtain ⟨mid, hcast⟩ := Int.eq_ofNat_of_zero_le hmid₀
      have hlt : mid < n := by omega
      simp only [childIndexLoop, hcast, Int.toNat_natCast]
      rcases Int.lt_trichotomy (cmp mid) 0 with hneg | hz | hp
      · -- the key is below that of the record
        have hge : c ≤ mid := Nat.le_of_not_lt fun h => by
          have := (hpos mid hlt).mpr h
          omega
        rw [if_neg (by omega), if_neg (by omega), if_neg (by omega)]
        refine ih left (mid - 1) hleft hlo (by omega) (by omega) (fun hcn hcz => ?_) (by omega)
        have hne : mid ≠ c := by
          rintro rfl
          omega
        omega
      · have hmc := hzero mid hlt hz
        subst hmc
        rw [if_pos hz]
        cases getLe with
        | true => simp
        | false => simp [hlt, hz]
      · have hmc := (hpos mid hlt).mp hp
        rw [if_neg (by omega)]
        rcases Decidable.em (right < left) with hend | hgo
        · have hmid' := hout hend
          rw [if_pos hend, if_neg (by omega), if_neg]
          · omega
          · rintro ⟨-, hcn, hcz⟩
            have := heq hcn hcz
            omega
        · rw [if_neg (by omega), if_pos hp]
          exact ih (mid + 1) right (by omega) (by omega) hhi hright heq (by omega)

end ChildIndex

end HashComp.BzTree
