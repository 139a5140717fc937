import HashComp.BzTree.Order
import Mathlib.Data.Set.Basic

namespace HashComp.BzTree

open HashComp.ByteMemory

/-- `KeyCompare` on sizes of 32 bits, whose difference it returns as a signed integer. -/
def keyCompare32 : (key1 key2 : Option (List Byte)) → Int
  | none, _ => -1
  | some _, none => 1
  | some key1, some key2 =>
      let size := min key1.length key2.length
      let cmp := if size < 16 then myMemcmp size key1 key2 else memcmp size key1 key2
      if cmp = 0 then Int.bmod ((key1.length : Int) - key2.length) (2 ^ 32) else cmp

/-- `KeyCompare` is a total order on a set of keys. -/
structure OrdersKeys (S : Set (List Byte)) : Prop where
  antisymmetric : ∀ a ∈ S, ∀ b ∈ S, keyCompare32 (some a) (some b) < 0 ↔
    0 < keyCompare32 (some b) (some a)
  transitive : ∀ a ∈ S, ∀ b ∈ S, ∀ c ∈ S, keyCompare32 (some a) (some b) ≤ 0 →
    keyCompare32 (some b) (some c) ≤ 0 → keyCompare32 (some a) (some c) ≤ 0
  zero_iff : ∀ a ∈ S, ∀ b ∈ S, keyCompare32 (some a) (some b) = 0 ↔ a = b

def signedWord (key : List Byte) : List Int := key.map BitVec.toInt

def unsignedWord (key : List Byte) : List Nat := key.map BitVec.toNat

/-- Two long keys whose signed bytes order them otherwise than the unsigned ones, and a
short one in between. -/
structure Crossed (s x y : List Byte) : Prop where
  short : s.length < 16
  long : 16 ≤ x.length ∧ 16 ≤ y.length
  unsigned : unsignedWord x < unsignedWord y
  after : signedWord y < signedWord s
  before : signedWord s < signedWord x

def Before (a b : List Byte) : Prop :=
  if min a.length b.length < 16 then signedWord a < signedWord b
  else unsignedWord a < unsignedWord b

section Pairs

variable {a b c : List Byte} {S : Set (List Byte)}

theorem signedWord_inj : signedWord a = signedWord b ↔ a = b :=
  (List.map_injective_iff.mpr fun _ _ => BitVec.eq_of_toInt_eq).eq_iff

theorem unsignedWord_inj : unsignedWord a = unsignedWord b ↔ a = b :=
  (List.map_injective_iff.mpr fun _ _ => BitVec.eq_of_toNat_eq).eq_iff

theorem before_iff_of_short (h : a.length < 16 ∨ b.length < 16) :
    Before a b ↔ signedWord a < signedWord b := by
  rw [Before, if_pos (by omega)]

theorem before_iff_of_long (ha : 16 ≤ a.length) (hb : 16 ≤ b.length) :
    Before a b ↔ unsignedWord a < unsignedWord b := by
  rw [Before, if_neg (by omega)]

theorem Before.trichotomy (a b : List Byte) : Before a b ∨ a = b ∨ Before b a := by
  rw [Before, Before, Nat.min_comm b.length]
  split
  · rw [← signedWord_inj]
    exact lt_trichotomy _ _
  · rw [← unsignedWord_inj]
    exact lt_trichotomy _ _

theorem Before.asymm (h : Before a b) : ¬Before b a := by
  rw [Before] at h ⊢
  rw [Nat.min_comm]
  split at h
  · rename_i hsize
    rw [if_pos hsize]
    exact lt_asymm h
  · rename_i hsize
    rw [if_neg hsize]
    exact lt_asymm h

theorem Before.ne (h : Before a b) : a ≠ b := by
  rintro rfl
  exact h.asymm h

theorem Before.ne_nil (h : Before a b) : b ≠ [] := by
  rintro rfl
  rw [before_iff_of_short (Or.inr (by simp))] at h
  exact absurd h (List.not_lt_nil _)

theorem keyCompare32_eq (ha : a.length < 2 ^ 31) (hb : b.length < 2 ^ 31) :
    keyCompare32 (some a) (some b) = keyCompare (some a) (some b) := by
  have hsize : Int.bmod ((a.length : Int) - b.length) (2 ^ 32) = a.length - b.length :=
    Int.bmod_eq_of_le_mul_two (by omega) (by omega)
  simp only [keyCompare32, keyCompare, hsize]

theorem keyCompare_neg_iff : keyCompare (some a) (some b) < 0 ↔ Before a b := by
  simp only [keyCompare, Before]
  split
  · exact myMemcmp_lt_iff
  · exact memcmp_lt_iff

theorem keyCompare_pos_iff : 0 < keyCompare (some a) (some b) ↔ Before b a := by
  have hneg := keyCompare_neg_iff (a := a) (b := b)
  have hzero : keyCompare (some a) (some b) = 0 ↔ a = b := keyCompare_eq_zero_iff
  rcases Before.trichotomy a b with h | h | h
  · have := hneg.mpr h
    exact ⟨fun hpos => by omega, fun hba => absurd hba h.asymm⟩
  · have := hzero.mpr h
    exact ⟨fun hpos => by omega, fun hba => absurd h.symm hba.ne⟩
  · have hle := mt hneg.mp h.asymm
    have hne := mt hzero.mp h.ne.symm
    exact ⟨fun _ => h, fun _ => by omega⟩

theorem keyCompare_nonpos_iff : keyCompare (some a) (some b) ≤ 0 ↔ ¬Before b a := by
  rw [← keyCompare_pos_iff, not_lt]

end Pairs

section Cycles

variable {a b c s x y : List Byte} {S : Set (List Byte)}

theorem Crossed.cycle (h : Crossed s x y) : Before x y ∧ Before y s ∧ Before s x :=
  ⟨(before_iff_of_long h.long.1 h.long.2).mpr h.unsigned,
    (before_iff_of_short (.inr h.short)).mpr h.after,
    (before_iff_of_short (.inl h.short)).mpr h.before⟩

theorem Crossed.of_cycle (hs : s.length < 16) (hx : 16 ≤ x.length) (hy : 16 ≤ y.length)
    (hxy : Before x y) (hys : Before y s) (hsx : Before s x) : Crossed s x y where
  short := hs
  long := ⟨hx, hy⟩
  unsigned := (before_iff_of_long hx hy).mp hxy
  after := (before_iff_of_short (.inr hs)).mp hys
  before := (before_iff_of_short (.inl hs)).mp hsx

/-- Three keys that go round in a circle are one short key and two long ones: of any others
the three pairs are compared by the same order. -/
theorem crossed_of_cycle (hab : Before a b) (hbc : Before b c) (hca : Before c a) :
    Crossed a b c ∨ Crossed b c a ∨ Crossed c a b := by
  have hsigned : ¬((a.length < 16 ∨ b.length < 16) ∧ (b.length < 16 ∨ c.length < 16) ∧
      (c.length < 16 ∨ a.length < 16)) := by
    rintro ⟨h, h', h''⟩
    rw [before_iff_of_short h] at hab
    rw [before_iff_of_short h'] at hbc
    rw [before_iff_of_short h''] at hca
    exact lt_asymm (hab.trans hbc) hca
  rcases Nat.lt_or_ge a.length 16 with ha | ha
  · have hb : 16 ≤ b.length := by omega
    have hc : 16 ≤ c.length := by omega
    exact .inl (.of_cycle ha hb hc hbc hca hab)
  · rcases Nat.lt_or_ge b.length 16 with hb | hb
    · have hc : 16 ≤ c.length := by omega
      exact .inr (.inl (.of_cycle hb hc ha hca hab hbc))
    · rcases Nat.lt_or_ge c.length 16 with hc | hc
      · exact .inr (.inr (.of_cycle hc ha hb hab hbc hca))
      · rw [before_iff_of_long ha hb] at hab
        rw [before_iff_of_long hb hc] at hbc
        rw [before_iff_of_long hc ha] at hca
        exact absurd hca (lt_asymm (hab.trans hbc))

theorem keyCompare32_nonpos_iff (ha : a.length < 2 ^ 31) (hb : b.length < 2 ^ 31) :
    keyCompare32 (some a) (some b) ≤ 0 ↔ ¬Before b a := by
  rw [keyCompare32_eq ha hb]
  exact keyCompare_nonpos_iff

theorem OrdersKeys.not_crossed (h : OrdersKeys S) (hsize : ∀ k ∈ S, k.length < 2 ^ 31)
    (hs : s ∈ S) (hx : x ∈ S) (hy : y ∈ S) : ¬Crossed s x y := by
  intro hcrossed
  obtain ⟨hxy, hys, hsx⟩ := hcrossed.cycle
  have hle := keyCompare32_nonpos_iff (hsize x hx) (hsize y hy)
  have hle' := keyCompare32_nonpos_iff (hsize y hy) (hsize s hs)
  have hxs := h.transitive x hx y hy s hs (hle.mpr hxy.asymm) (hle'.mpr hys.asymm)
  exact (keyCompare32_nonpos_iff (hsize x hx) (hsize s hs)).mp hxs hsx

theorem before_trans_of_not_crossed (h : ∀ s ∈ S, ∀ x ∈ S, ∀ y ∈ S, ¬Crossed s x y) (ha : a ∈ S) (hb : b ∈ S)
    (hc : c ∈ S) (hab : Before a b) (hbc : Before b c) : Before a c := by
  rcases Before.trichotomy a c with hac | rfl | hca
  · exact hac
  · exact absurd hbc hab.asymm
  · rcases crossed_of_cycle hab hbc hca with hcross | hcross | hcross
    · exact absurd hcross (h a ha b hb c hc)
    · exact absurd hcross (h b hb c hc a ha)
    · exact absurd hcross (h c hc a ha b hb)

theorem ordersKeys_of_not_crossed (hsize : ∀ k ∈ S, k.length < 2 ^ 31)
    (h : ∀ s ∈ S, ∀ x ∈ S, ∀ y ∈ S, ¬Crossed s x y) : OrdersKeys S := by
  have heq : ∀ a ∈ S, ∀ b ∈ S, keyCompare32 (some a) (some b) = keyCompare (some a) (some b) :=
    fun a ha b hb => keyCompare32_eq (hsize a ha) (hsize b hb)
  have hle : ∀ a ∈ S, ∀ b ∈ S, keyCompare32 (some a) (some b) ≤ 0 ↔ ¬Before b a :=
    fun a ha b hb => keyCompare32_nonpos_iff (hsize a ha) (hsize b hb)
  refine ⟨fun a ha b hb => ?_, fun a ha b hb c hc hab hbc => ?_, fun a ha b hb => ?_⟩
  · rw [heq a ha b hb, heq b hb a ha, keyCompare_neg_iff, keyCompare_pos_iff]
  · rw [hle a ha b hb] at hab
    rw [hle b hb c hc] at hbc
    rw [hle a ha c hc]
    intro hca
    rcases Before.trichotomy a b with hab' | rfl | hba
    · exact hbc (before_trans_of_not_crossed h hc ha hb hca hab')
    · exact hbc hca
    · exact hab hba
  · rw [heq a ha b hb]
    exact keyCompare_eq_zero_iff

theorem OrdersKeys.before_trans (h : OrdersKeys S) (hsize : ∀ k ∈ S, k.length < 2 ^ 31)
    (ha : a ∈ S) (hb : b ∈ S) (hc : c ∈ S) (hab : Before a b) (hbc : Before b c) : Before a c :=
  before_trans_of_not_crossed (fun _ hs _ hx _ hy => h.not_crossed hsize hs hx hy) ha hb hc hab hbc

/-- `KeyCompare` orders a set of keys if no short key of it is crossed with two long ones. -/
theorem ordersKeys_iff (hsize : ∀ k ∈ S, k.length < 2 ^ 31) :
    OrdersKeys S ↔ ∀ s ∈ S, ∀ x ∈ S, ∀ y ∈ S, ¬Crossed s x y :=
  ⟨fun h _ hs _ hx _ hy => h.not_crossed hsize hs hx hy, ordersKeys_of_not_crossed hsize⟩

end Cycles

theorem crossed_bytes : Crossed [0] (List.replicate 16 0x7f) (List.replicate 16 0x80) := by
  refine ⟨by decide, by decide, ?_, ?_, ?_⟩ <;> decide

theorem ordersKeys_ascii :
    OrdersKeys {[1], [2, 3], List.replicate 16 5} ↔
      ∀ s ∈ ({[1], [2, 3], List.replicate 16 5} : Set (List Byte)),
        ∀ x ∈ ({[1], [2, 3], List.replicate 16 5} : Set (List Byte)),
          ∀ y ∈ ({[1], [2, 3], List.replicate 16 5} : Set (List Byte)), ¬Crossed s x y := by
  refine ordersKeys_iff fun k hk => ?_
  rcases hk with rfl | rfl | rfl <;> decide

/-- A byte string of 0x7f is below one of 0x80, this below a zero byte and the zero byte
below the first. -/
theorem keyCompare_circle :
    keyCompare32 (some (List.replicate 16 0x7f)) (some (List.replicate 16 0x80)) < 0 ∧
      keyCompare32 (some (List.replicate 16 0x80)) (some [0]) < 0 ∧
      keyCompare32 (some [0]) (some (List.replicate 16 0x7f)) < 0 ∧ ¬OrdersKeys Set.univ := by
  have hxs : 0 < keyCompare32 (some (List.replicate 16 0x7f)) (some [0]) := by decide
  refine ⟨by decide, by decide, by decide, fun h => absurd hxs (Int.not_lt.mpr ?_)⟩
  exact h.transitive _ trivial (List.replicate 16 0x80) trivial _ trivial (by decide) (by decide)

end HashComp.BzTree
