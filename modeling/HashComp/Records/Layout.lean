import HashComp.Library.Alignment

namespace HashComp.Records

open HashComp.Alignment

def kCacheLineBytes : Nat := 64

/-- What the compiler knows of a class for keys or values that `Record` admits:
`alignof`, which is `2 ^ log`, and `sizeof`. -/
structure Kind where
  log : Nat
  sizeof : Nat
  alignof_le : 2 ^ log ≤ kCacheLineBytes

def Kind.alignof (k : Kind) : Nat := 2 ^ k.log

/-- The classes `key_t` and `value_t` of a `Record`. -/
structure RecordType where
  key : Kind
  value : Kind

/-- A record that exists, by the `size()` of its key and of its value.  An object has
the `sizeof` bytes of its fixed part. -/
structure Record (T : RecordType) where
  keySize : BitVec 32
  valueSize : BitVec 32
  key_fixed : T.key.sizeof ≤ keySize.toNat
  value_fixed : T.value.sizeof ≤ valueSize.toNat

def sizeofRecordInfo : BitVec 64 := 8

def alignofRecordInfo : BitVec 64 := 8

def padAlignment (size alignment : BitVec 64) : BitVec 64 :=
  (size + (alignment - 1)) &&& ~~~(alignment - 1)

namespace RecordType

variable (T : RecordType)

def keyOffset : BitVec 64 :=
  padAlignment sizeofRecordInfo (BitVec.ofNat 64 T.key.alignof)

def valueOffset (keySize : BitVec 32) : BitVec 64 :=
  padAlignment (keySize.setWidth 64 + T.keyOffset) (BitVec.ofNat 64 T.value.alignof)

def sizeFor (keySize valueSize : BitVec 32) : BitVec 32 :=
  (padAlignment (valueSize.setWidth 64 + T.valueOffset keySize) alignofRecordInfo).setWidth 32

def minDiskKeySize : BitVec 32 :=
  (BitVec.ofNat 64 T.key.sizeof + T.keyOffset).setWidth 32

end RecordType

namespace Record

variable {T : RecordType} (r : Record T)

def size : BitVec 32 := T.sizeFor r.keySize r.valueSize

def minDiskValueSize : BitVec 32 :=
  (BitVec.ofNat 64 T.value.sizeof + T.valueOffset r.keySize).setWidth 32

def diskSize : BitVec 32 :=
  (r.valueSize.setWidth 64 + T.valueOffset r.keySize).setWidth 32

end Record

variable {T : RecordType} {rs : List (Record T)} {r : Record T} {base : Nat}

def ranges (p : Nat × Record T) : List Range :=
  [⟨p.1, p.1 + sizeofRecordInfo.toNat⟩,
    ⟨p.1 + T.keyOffset.toNat, p.1 + T.keyOffset.toNat + p.2.keySize.toNat⟩,
    ⟨p.1 + (T.valueOffset p.2.keySize).toNat,
      p.1 + (T.valueOffset p.2.keySize).toNat + p.2.valueSize.toNat⟩]

/-- The records from an address on, each `size()` bytes after the one before it. -/
def inLog (base : Nat) (rs : List (Record T)) : List (Nat × Record T) :=
  place (fun r => r.size.toNat) base rs

structure Record.Covers (r : Record T) : Prop where
  key : T.keyOffset.toNat + T.key.sizeof ≤ T.minDiskKeySize.toNat
  value : (T.valueOffset r.keySize).toNat + T.value.sizeof ≤ r.minDiskValueSize.toNat
  whole : (T.valueOffset r.keySize).toNat + r.valueSize.toNat ≤ r.diskSize.toNat
  keyValue : T.minDiskKeySize ≤ r.minDiskValueSize
  disk : r.diskSize ≤ r.size

/-- Records one after another are apart, aligned and covered. -/
structure LaidOut (base : Nat) (rs : List (Record T)) : Prop where
  apart : ((inLog base rs).flatMap ranges).Pairwise Range.Disjoint
  keys : ∀ p ∈ inLog base rs, T.key.alignof ∣ p.1 + T.keyOffset.toNat
  values : ∀ p ∈ inLog base rs, T.value.alignof ∣ p.1 + (T.valueOffset p.2.keySize).toNat
  covers : ∀ r ∈ rs, r.Covers

section Extents

def Record.valueEnd (r : Record T) : Nat :=
  r.valueSize.toNat +
    roundUp (r.keySize.toNat + roundUp 8 T.key.alignof) T.value.alignof

def Record.extent (r : Record T) : Nat := roundUp r.valueEnd 8

theorem Kind.alignof_pos (k : Kind) : 0 < k.alignof := Nat.two_pow_pos k.log

theorem toNat_padAlignment {w : BitVec 64} {k : Kind} (hw : w.toNat < 2 ^ 63) :
    (padAlignment w (BitVec.ofNat 64 k.alignof)).toNat = roundUp w.toNat k.alignof := by
  have hle : 2 ^ k.log ≤ 64 := k.alignof_le
  have hlog : k.log < 64 :=
    Nat.lt_of_lt_of_le Nat.lt_two_pow_self hle
  exact toNat_add_clear hlog (by omega)

theorem toNat_keyOffset : T.keyOffset.toNat = roundUp 8 T.key.alignof :=
  toNat_padAlignment (by decide)

theorem keyOffset_lt : T.keyOffset.toNat < 72 := by
  have hlt := roundUp_lt (n := 8) T.key.alignof_pos
  have hle : T.key.alignof ≤ 64 := T.key.alignof_le
  rw [toNat_keyOffset]
  omega

theorem toNat_setWidth_add {v : BitVec 32} {w : BitVec 64} (hw : w.toNat < 2 ^ 63) :
    (v.setWidth 64 + w).toNat = v.toNat + w.toNat := by
  have hv := v.isLt
  rw [BitVec.toNat_add, BitVec.toNat_setWidth, Nat.mod_eq_of_lt (a := v.toNat) (by omega),
    Nat.mod_eq_of_lt (by omega)]

theorem toNat_valueOffset {keySize : BitVec 32} : (T.valueOffset keySize).toNat =
    roundUp (keySize.toNat + roundUp 8 T.key.alignof) T.value.alignof := by
  have hkey := keyOffset_lt (T := T)
  have hsize := keySize.isLt
  have hsum := toNat_setWidth_add (v := keySize) (w := T.keyOffset) (by omega)
  rw [RecordType.valueOffset, toNat_padAlignment (by omega), hsum, toNat_keyOffset]

theorem valueOffset_lt {keySize : BitVec 32} : (T.valueOffset keySize).toNat < 2 ^ 33 := by
  have hkey := keyOffset_lt (T := T)
  have hsize := keySize.isLt
  have hlt := roundUp_lt (n := keySize.toNat + roundUp 8 T.key.alignof) T.value.alignof_pos
  have hle : T.value.alignof ≤ 64 := T.value.alignof_le
  rw [toNat_keyOffset] at hkey
  rw [toNat_valueOffset]
  omega

theorem toNat_diskSize : r.diskSize.toNat = r.valueEnd % 2 ^ 32 := by
  have hlt : (T.valueOffset r.keySize).toNat < 2 ^ 33 := valueOffset_lt
  rw [Record.diskSize, BitVec.toNat_setWidth, toNat_setWidth_add (by omega), toNat_valueOffset]
  rfl

theorem le_keyOffset : 8 ≤ T.keyOffset.toNat := by
  rw [toNat_keyOffset]
  exact le_roundUp T.key.alignof_pos

theorem le_valueOffset {keySize : BitVec 32} :
    keySize.toNat + T.keyOffset.toNat ≤ (T.valueOffset keySize).toNat := by
  rw [toNat_keyOffset, toNat_valueOffset]
  exact le_roundUp T.value.alignof_pos

theorem toNat_sizeFor {keySize valueSize : BitVec 32} : (T.sizeFor keySize valueSize).toNat =
    roundUp (valueSize.toNat + (T.valueOffset keySize).toNat) 8 % 2 ^ 32 := by
  have hlt : (T.valueOffset keySize).toNat < 2 ^ 33 := valueOffset_lt
  have hsize := valueSize.isLt
  have hsum := toNat_setWidth_add (v := valueSize) (w := T.valueOffset keySize) (by omega)
  have hpad := toNat_add_clear (w := valueSize.setWidth 64 + T.valueOffset keySize)
    (k := 3) (by decide) (by omega)
  rw [RecordType.sizeFor, BitVec.toNat_setWidth]
  refine congrArg (· % 2 ^ 32) (Eq.trans hpad ?_)
  rw [hsum]
  rfl

theorem toNat_size : r.size.toNat = r.extent % 2 ^ 32 := by
  rw [Record.size, toNat_sizeFor, toNat_valueOffset]
  rfl

end Extents

section Counts

theorem valueEnd_pos : 0 < r.valueEnd := by
  have hkey := le_roundUp (n := 8) T.key.alignof_pos
  have hvalue := le_roundUp (n := r.keySize.toNat + roundUp 8 T.key.alignof) T.value.alignof_pos
  rw [Record.valueEnd]
  omega

theorem valueEnd_le_extent : r.valueEnd ≤ r.extent := le_roundUp (by decide)

theorem toNat_size_of_lt (h : r.extent < 2 ^ 32) : r.size.toNat = r.extent := by
  rw [toNat_size, Nat.mod_eq_of_lt h]

theorem toNat_sizeof_add {n : Nat} {w : BitVec 64} (h : n + w.toNat < 2 ^ 32) :
    ((BitVec.ofNat 64 n + w).setWidth 32).toNat = n + w.toNat := by
  rw [BitVec.toNat_setWidth, BitVec.toNat_add, BitVec.toNat_ofNat,
    Nat.mod_eq_of_lt (a := n) (by omega), Nat.mod_eq_of_lt (a := n + w.toNat) (by omega),
    Nat.mod_eq_of_lt h]

theorem covers_iff : r.Covers ↔ r.extent < 2 ^ 32 := by
  have hend : r.valueEnd = r.valueSize.toNat + (T.valueOffset r.keySize).toNat := by
    rw [toNat_valueOffset, Record.valueEnd]
  have hle := valueEnd_le_extent (r := r)
  constructor
  · intro h
    have hwhole := h.whole
    rw [toNat_diskSize] at hwhole
    have hlt : r.valueEnd < 2 ^ 32 := by omega
    have hdisk : r.diskSize.toNat ≤ r.size.toNat := h.disk
    rw [toNat_diskSize, toNat_size, Nat.mod_eq_of_lt hlt] at hdisk
    have hextent : r.extent ≤ 2 ^ 32 :=
      roundUp_le_of_dvd (by decide) (Nat.le_of_lt hlt) (by decide)
    refine Nat.lt_of_le_of_ne hextent fun heq => ?_
    rw [heq, Nat.mod_self] at hdisk
    have hpos := valueEnd_pos (r := r)
    omega
  · intro h
    have hkey := r.key_fixed
    have hvalue := r.value_fixed
    have hoffset : r.keySize.toNat + T.keyOffset.toNat ≤ (T.valueOffset r.keySize).toNat :=
      le_valueOffset
    have hminKey : T.minDiskKeySize.toNat = T.key.sizeof + T.keyOffset.toNat :=
      toNat_sizeof_add (by omega)
    have hminValue : r.minDiskValueSize.toNat =
        T.value.sizeof + (T.valueOffset r.keySize).toNat := toNat_sizeof_add (by omega)
    have hdisk : r.diskSize.toNat = r.valueEnd := by
      rw [toNat_diskSize, Nat.mod_eq_of_lt (by omega)]
    refine ⟨by omega, by omega, by omega, ?_, ?_⟩
    · rw [BitVec.le_def]
      omega
    · rw [BitVec.le_def, hdisk, toNat_size_of_lt h]
      exact hle

end Counts

section Order

theorem ranges_spec {p : Nat × Record T} (h : p.2.extent < 2 ^ 32) :
    (ranges p).Pairwise Range.Disjoint ∧
      ∀ s ∈ ranges p, p.1 ≤ s.start ∧ s.stop ≤ p.1 + p.2.size.toNat := by
  obtain ⟨a, r⟩ := p
  have hend : r.valueEnd = r.valueSize.toNat + (T.valueOffset r.keySize).toNat := by
    rw [toNat_valueOffset, Record.valueEnd]
  have hle := valueEnd_le_extent (r := r)
  have hsize := toNat_size_of_lt h
  have hheader : 8 ≤ T.keyOffset.toNat := le_keyOffset
  have hoffset : r.keySize.toNat + T.keyOffset.toNat ≤ (T.valueOffset r.keySize).toNat :=
    le_valueOffset
  have hinfo : sizeofRecordInfo.toNat = 8 := rfl
  dsimp only at hsize ⊢
  constructor
  · simp only [ranges, List.pairwise_cons, List.mem_cons, List.not_mem_nil, or_false,
      forall_eq_or_imp, forall_eq, IsEmpty.forall_iff, implies_true, List.Pairwise.nil, and_true]
    refine ⟨⟨disjoint_of_le ?_, disjoint_of_le ?_⟩, disjoint_of_le ?_⟩ <;> dsimp only <;> omega
  · simp only [ranges, List.mem_cons, List.not_mem_nil, or_false, forall_eq_or_imp, forall_eq]
    omega

theorem apart_of_lt (h : ∀ r ∈ rs, r.extent < 2 ^ 32) :
    ((inLog base rs).flatMap ranges).Pairwise Range.Disjoint := by
  rw [List.pairwise_flatMap]
  refine ⟨fun p hp => (ranges_spec (h _ (mem_of_mem_place hp))).1, ?_⟩
  refine pairwise_place.imp_of_mem fun hp hq hle s hs s' hs' => disjoint_of_le ?_
  have hstop := ((ranges_spec (h _ (mem_of_mem_place hp))).2 s hs).2
  have hstart := ((ranges_spec (h _ (mem_of_mem_place hq))).2 s' hs').1
  omega

end Order

section Types

/-- The records that fit, each of which is as long as the next one needs. -/
structure Spaced (rs : List (Record T)) : Prop where
  fits : ∀ r ∈ rs, r.extent < 2 ^ 32
  key : ∀ r ∈ rs.dropLast, T.key.alignof ∣ r.extent
  value : ∀ r ∈ rs.dropLast, T.value.alignof ∣ r.extent

theorem dvd_inLog_iff {k : Kind} (hbase : kCacheLineBytes ∣ base)
    (hfits : ∀ r ∈ rs, r.extent < 2 ^ 32) :
    (∀ p ∈ inLog base rs, k.alignof ∣ p.1) ↔ ∀ r ∈ rs.dropLast, k.alignof ∣ r.extent := by
  have halign : k.alignof ∣ kCacheLineBytes := by
    have hle : 2 ^ k.log ≤ 2 ^ 6 := k.alignof_le
    exact Nat.pow_dvd_pow 2 ((Nat.pow_le_pow_iff_right (by decide)).mp hle)
  rw [inLog, dvd_place_iff (Nat.dvd_trans halign hbase)]
  refine forall₂_congr fun r hr => ?_
  rw [toNat_size_of_lt (hfits r (List.dropLast_subset _ hr))]

theorem laidOut_iff_spaced (hbase : kCacheLineBytes ∣ base) : LaidOut base rs ↔ Spaced rs := by
  have hkey : T.key.alignof ∣ T.keyOffset.toNat := by
    rw [toNat_keyOffset]
    exact dvd_roundUp
  have hvalue (r : Record T) : T.value.alignof ∣ (T.valueOffset r.keySize).toNat := by
    rw [toNat_valueOffset]
    exact dvd_roundUp
  constructor
  · intro h
    have hfits : ∀ r ∈ rs, r.extent < 2 ^ 32 := fun r hr => covers_iff.mp (h.covers r hr)
    refine ⟨hfits, (dvd_inLog_iff hbase hfits).mp fun p hp => ?_,
      (dvd_inLog_iff hbase hfits).mp fun p hp => ?_⟩
    · exact (Nat.dvd_add_left hkey).mp (h.keys p hp)
    · exact (Nat.dvd_add_left (hvalue p.2)).mp (h.values p hp)
  · intro h
    exact
      { apart := apart_of_lt h.fits
        keys := fun p hp => Nat.dvd_add ((dvd_inLog_iff hbase h.fits).mpr h.key p hp) hkey
        values := fun p hp =>
          Nat.dvd_add ((dvd_inLog_iff hbase h.fits).mpr h.value p hp) (hvalue p.2)
        covers := fun r hr => covers_iff.mpr (h.fits r hr) }

theorem Spaced.of_alignof_le (hkey : T.key.log ≤ 3) (hvalue : T.value.log ≤ 3)
    (hfits : ∀ r ∈ rs, r.extent < 2 ^ 32) : Spaced rs where
  fits := hfits
  key := fun _ _ => Nat.dvd_trans (Nat.pow_dvd_pow 2 hkey) dvd_roundUp
  value := fun _ _ => Nat.dvd_trans (Nat.pow_dvd_pow 2 hvalue) dvd_roundUp

theorem alignof_word_le : 2 ^ 3 ≤ kCacheLineBytes := by decide

/-- The types of `kvcontext.h`: eight bytes for a key and eight for a value. -/
def words : RecordType where
  key := { log := 3, sizeof := 8, alignof_le := by decide }
  value := { log := 3, sizeof := 8, alignof_le := by decide }

def wideKeys : RecordType where
  key := { log := 4, sizeof := 16, alignof_le := by decide }
  value := { log := 3, sizeof := 8, alignof_le := by decide }

def wordRecord : Record words where
  keySize := 8
  valueSize := 8
  key_fixed := by decide
  value_fixed := by decide

def wideRecord : Record wideKeys where
  keySize := 16
  valueSize := 8
  key_fixed := by decide
  value_fixed := by decide

theorem laidOut_words : LaidOut 64 [wordRecord, wordRecord] :=
  (laidOut_iff_spaced (by decide)).mpr
    (Spaced.of_alignof_le (by decide) (by decide) (by decide))

/-- The second record starts 40 bytes after the first, with its key at 56. -/
theorem wide_key_misaligned :
    ¬ ∀ (T : RecordType) (base : Nat) (rs : List (Record T)), kCacheLineBytes ∣ base →
      LaidOut base rs := by
  intro hall
  have hkeys := (hall wideKeys 0 [wideRecord, wideRecord] (by decide)).keys (40, wideRecord)
    (List.mem_cons_of_mem _ List.mem_cons_self)
  exact absurd hkeys (by decide)

end Types

end HashComp.Records
