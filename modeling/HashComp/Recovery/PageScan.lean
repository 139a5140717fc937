import HashComp.Hlog.Model
import HashComp.Library.ByteMemory
import HashComp.Records.Layout
import HashComp.Recovery.Model

namespace HashComp.Recovery

open HashComp.ByteMemory
open HashComp.Faster (kInvalidAddress kPageSize)
open HashComp.Hlog (pageStart)
open HashComp.Records

def Agree (m m' : Memory) (a b : Nat) : Prop :=
  ∀ i, a ≤ i → i < b → m i = m' i

/-- What `Record` uses of the classes `key_t` and `value_t`: `size()` and `GetHash()` of the
object at an offset.  `size()` reads the fixed part of the object only, and the hash the
bytes of the key.  A value that has been reserved and is still zero takes no more bytes than
were reserved. -/
structure Classes (H : Type) where
  layout : RecordType
  keySize : Memory → Nat → BitVec 32
  valueSize : Memory → Nat → BitVec 32
  getHash : Memory → Nat → H
  keySize_congr : ∀ m m' a, Agree m m' a (a + layout.key.sizeof) → keySize m a = keySize m' a
  valueSize_congr : ∀ m m' a, Agree m m' a (a + layout.value.sizeof) →
    valueSize m a = valueSize m' a
  getHash_congr : ∀ m m' a, Agree m m' a (a + (keySize m a).toNat) → getHash m a = getHash m' a
  valueSize_blank : ∀ m a n, layout.value.sizeof ≤ n → Agree m (fun _ => 0) a (a + n) →
    (valueSize m a).toNat ≤ n

structure RecoveryPoint where
  version : BitVec 32
  checkpointStartAddress : Nat

/-- The page, the address in the entry that `FindOrCreateEntry` finds for a hash, and the
offsets at which the scan has met a header, the last one first. -/
structure Scan (H : Type) where
  memory : Memory
  entries : H → Option Nat
  visited : List Nat

namespace Classes

variable {H : Type} (C : Classes H)

def keyAt (a : Nat) : Nat := a + C.layout.keyOffset.toNat

def valueAt (m : Memory) (a : Nat) : Nat :=
  a + (C.layout.valueOffset (C.keySize m (C.keyAt a))).toNat

/-- `size()` of the record at an offset. -/
def size (m : Memory) (a : Nat) : BitVec 32 :=
  C.layout.sizeFor (C.keySize m (C.keyAt a)) (C.valueSize m (C.valueAt m a))

end Classes

variable {H : Type} [DecidableEq H] (C : Classes H) (point : RecoveryPoint) (page : Nat)

/-- `atomic_entry->store`. -/
def Scan.store (s : Scan H) (hash : H) (address : Nat) : Scan H :=
  { s with entries := Function.update s.entries hash (some address) }

def Scan.findOrCreateEntry (s : Scan H) (hash : H) : Scan H :=
  match s.entries hash with
  | none => s.store hash kInvalidAddress
  | some _ => s

def replayRecord (offset : Nat) (s : Scan H) : Scan H :=
  let header := RecordInfo.ofControl (readWord s.memory offset)
  let hash := C.getHash s.memory (C.keyAt offset)
  let s := s.findOrCreateEntry hash
  if header.checkpointVersion.toNat ≤ point.version.toNat then
    s.store hash (pageStart page + offset)
  else
    let s := { s with memory := writeWord s.memory offset { header with invalid := true }.control }
    if header.previousAddress.toNat < point.checkpointStartAddress then
      s.store hash header.previousAddress.toNat
    else s

/-- One turn of the loop of `RecoverFromPage`, and the offset that it goes on to. -/
def visit (offset : Nat) (s : Scan H) : Scan H × Nat :=
  let header := readWord s.memory offset
  if header = 0 then (s, offset + 8)
  else
    let s := { s with visited := offset :: s.visited }
    let s := if (RecordInfo.ofControl header).invalid then s else replayRecord C point page offset s
    (s, offset + (C.size s.memory offset).toNat)

/-- `RecoverFromPage` from an offset to another.  Without fuel it is taken not to return. -/
def recoverFromPage : Nat → Nat → Nat → Scan H → Option (Scan H)
  | 0, _, _, _ => none
  | fuel + 1, fromOffset, toOffset, s =>
      if fromOffset < toOffset then
        let next := visit C point page fromOffset s
        recoverFromPage fuel next.2 toOffset next.1
      else some s

section Records

structure IsRecord (m : Memory) (a e : Nat) : Prop where
  aligned : 8 ∣ a
  within : e ≤ kPageSize
  header : readWord m a ≠ 0
  keyFixed : C.keyAt a + C.layout.key.sizeof ≤ e
  key : C.keyAt a + (C.keySize m (C.keyAt a)).toNat ≤ e
  valueFixed : C.valueAt m a + C.layout.value.sizeof ≤ e
  size_ge : 8 ≤ (C.size m a).toNat
  size_dvd : 8 ∣ (C.size m a).toNat
  size_le : a + (C.size m a).toNat ≤ e

structure Scannable (stop : Nat → Option Nat) (m : Memory) : Prop where
  record : ∀ a e, stop a = some e → IsRecord C m a e
  apart : ∀ a e b e', stop a = some e → stop b = some e' → a < b → e ≤ b
  zeros : ∀ i < kPageSize,
    (∀ a e, stop a = some e → i < a ∨ a + (C.size m a).toNat ≤ i) → m i = 0

def Stands (stop : Nat → Option Nat) (m : Memory) (offset : Nat) : Prop :=
  8 ∣ offset ∧ ∀ a e, stop a = some e → offset ≤ a ∨ a + (C.size m a).toNat ≤ offset

variable {C} {point} {page} {stop : Nat → Option Nat} {m m' : Memory} {a b e i offset : Nat}
  {w : Word} {s s' : Scan H}

omit [DecidableEq H]

theorem Agree.symm (h : Agree m m' a b) : Agree m' m a b :=
  fun i hlo hhi => (h i hlo hhi).symm

theorem Agree.trans {m'' : Memory} (h : Agree m m' a b) (h' : Agree m' m'' a b) :
    Agree m m'' a b :=
  fun i hlo hhi => (h i hlo hhi).trans (h' i hlo hhi)

theorem Agree.mono (h : Agree m m' a b) {a' b' : Nat} (ha : a ≤ a') (hb : b' ≤ b) :
    Agree m m' a' b' :=
  fun i hlo hhi => h i (Nat.le_trans ha hlo) (Nat.lt_of_lt_of_le hhi hb)

theorem Agree.readBytes_eq {n : Nat} (h : Agree m m' a (a + n)) :
    readBytes m a n = readBytes m' a n :=
  readBytes_congr fun i hlo hhi => h i hlo hhi

theorem Agree.readWord_eq (h : Agree m m' a (a + 8)) : readWord m a = readWord m' a :=
  readWord_congr fun i hlo hhi => h i hlo hhi

theorem agree_writeBytes {bytes : List Byte} (h : e ≤ a ∨ a + bytes.length ≤ b) :
    Agree (writeBytes m a bytes) m b e :=
  fun i hlo hhi => writeBytes_of_outside (by omega)

theorem agree_writeWord (h : e ≤ a ∨ a + 8 ≤ b) : Agree (writeWord m a w) m b e :=
  agree_writeBytes (by rwa [bytesOf_length])

theorem le_keyAt : a + 8 ≤ C.keyAt a :=
  Nat.add_le_add_left le_keyOffset a

theorem keySize_le_valueAt : C.keyAt a + (C.keySize m (C.keyAt a)).toNat ≤ C.valueAt m a := by
  have hle : (C.keySize m (C.keyAt a)).toNat + C.layout.keyOffset.toNat ≤
      (C.layout.valueOffset (C.keySize m (C.keyAt a))).toNat := le_valueOffset
  rw [Classes.keyAt] at hle ⊢
  rw [Classes.valueAt, Classes.keyAt]
  omega

structure SameRecord (C : Classes H) (m m' : Memory) (a : Nat) : Prop where
  keySize : C.keySize m (C.keyAt a) = C.keySize m' (C.keyAt a)
  valueAt : C.valueAt m a = C.valueAt m' a
  size : C.size m a = C.size m' a
  hash : C.getHash m (C.keyAt a) = C.getHash m' (C.keyAt a)

theorem IsRecord.same (h : IsRecord C m a e) (hagree : Agree m m' (a + 8) e) :
    SameRecord C m m' a := by
  have hat := le_keyAt (C := C) (a := a)
  have hkeySize : C.keySize m (C.keyAt a) = C.keySize m' (C.keyAt a) :=
    C.keySize_congr m m' _ (hagree.mono hat h.keyFixed)
  have hvalueAt : C.valueAt m a = C.valueAt m' a := by
    rw [Classes.valueAt, Classes.valueAt, hkeySize]
  have hkey := keySize_le_valueAt (C := C) (m := m) (a := a)
  have hvalueSize : C.valueSize m (C.valueAt m a) = C.valueSize m' (C.valueAt m' a) := by
    rw [← hvalueAt]
    exact C.valueSize_congr m m' _ (hagree.mono (by omega) h.valueFixed)
  refine ⟨hkeySize, hvalueAt, ?_, C.getHash_congr m m' _ (hagree.mono hat h.key)⟩
  rw [Classes.size, Classes.size, hkeySize, hvalueSize]

theorem IsRecord.congr (h : IsRecord C m a e) (hagree : Agree m m' (a + 8) e)
    (hheader : readWord m' a ≠ 0) : IsRecord C m' a e := by
  have hsame := h.same hagree
  refine ⟨h.aligned, h.within, hheader, h.keyFixed, ?_, ?_, ?_, ?_, ?_⟩
  · rw [← hsame.keySize]
    exact h.key
  · rw [← hsame.valueAt]
    exact h.valueFixed
  · rw [← hsame.size]
    exact h.size_ge
  · rw [← hsame.size]
    exact h.size_dvd
  · rw [← hsame.size]
    exact h.size_le

theorem Scannable.readWord_eq (h : Scannable C stop m) (hstands : Stands C stop m offset)
    (hlt : offset < kPageSize) (hnone : stop offset = none) : readWord m offset = 0 := by
  obtain ⟨haligned, houtside⟩ := hstands
  have hpage : 8 ∣ kPageSize := by decide
  refine readWord_eq_zero fun i hlo hhi => h.zeros i (by omega) fun a e hstop => ?_
  have hrecord := (h.record a e hstop).aligned
  have hne : a ≠ offset := by
    rintro rfl
    rw [hnone] at hstop
    cases hstop
  rcases houtside a e hstop with hle | hle
  · exact Or.inl (by omega)
  · exact Or.inr (Nat.le_trans hle hlo)

theorem Scannable.setHeader (h : Scannable C stop m) (hstop : stop a = some e) (hw : w ≠ 0) :
    Scannable C stop (writeWord m a w) ∧
      ∀ b e', stop b = some e' → SameRecord C m (writeWord m a w) b := by
  have hagree (b e' : Nat) (hb : stop b = some e') :
      Agree m (writeWord m a w) (b + 8) e' := by
    have hrecord := h.record b e' hb
    have hself := h.record a e hstop
    have hsize := hself.size_ge
    have hend := hself.size_le
    refine (agree_writeWord ?_).symm
    rcases Nat.lt_trichotomy a b with hlt | rfl | hlt
    · have hle := h.apart a e b e' hstop hb hlt
      omega
    · exact Or.inr (le_refl (a + 8))
    · exact Or.inl (h.apart b e' a e hb hstop hlt)
  have hsame (b e' : Nat) (hb : stop b = some e') : SameRecord C m (writeWord m a w) b :=
    (h.record b e' hb).same (hagree b e' hb)
  refine ⟨⟨fun b e' hb => (h.record b e' hb).congr (hagree b e' hb) ?_, h.apart, ?_⟩, hsame⟩
  · by_cases hba : b = a
    · rw [hba, readWord_writeWord]
      exact hw
    · have hother : readWord (writeWord m a w) b = readWord m b := by
        have hb8 := (h.record b e' hb).aligned
        have ha8 := (h.record a e hstop).aligned
        exact (agree_writeWord (by omega)).readWord_eq
      rw [hother]
      exact (h.record b e' hb).header
  · intro i hi houtside
    have hself := h.record a e hstop
    have hsize := hself.size_ge
    have haway := houtside a e hstop
    rw [← (hsame a e hstop).size] at haway
    have hkeep : writeWord m a w i = m i :=
      agree_writeWord (b := i) (e := i + 1) (by omega) i le_rfl (Nat.lt_succ_self i)
    rw [hkeep]
    refine h.zeros i hi fun b e' hb => ?_
    rw [(hsame b e' hb).size]
    exact houtside b e' hb

theorem Scannable.stands_zero (h : Scannable C stop m) (hstands : Stands C stop m offset)
    (hnone : stop offset = none) : Stands C stop m (offset + 8) := by
  obtain ⟨haligned, houtside⟩ := hstands
  refine ⟨by omega, fun a e hstop => ?_⟩
  have hrecord := (h.record a e hstop).aligned
  have hne : a ≠ offset := by
    rintro rfl
    rw [hnone] at hstop
    cases hstop
  rcases houtside a e hstop with hle | hle
  · exact Or.inl (by omega)
  · exact Or.inr (by omega)

theorem Scannable.stands_record (h : Scannable C stop m) (hstands : Stands C stop m a)
    (hstop : stop a = some e) : Stands C stop m (a + (C.size m a).toNat) := by
  have hrecord := h.record a e hstop
  refine ⟨(Nat.dvd_add_right hrecord.aligned).mpr hrecord.size_dvd, fun b e' hb => ?_⟩
  rcases Nat.lt_trichotomy a b with hlt | rfl | hlt
  · exact Or.inl (Nat.le_trans hrecord.size_le (h.apart a e b e' hstop hb hlt))
  · exact Or.inr le_rfl
  · have hle := hstands.2 b e' hb
    omega

theorem Stands.congr (h : Stands C stop m offset)
    (hsame : ∀ b e', stop b = some e' → SameRecord C m m' b) : Stands C stop m' offset := by
  refine ⟨h.1, fun b e' hb => ?_⟩
  rw [← (hsame b e' hb).size]
  exact h.2 b e' hb

end Records

section Visits

variable {C : Classes H} (point : RecoveryPoint) (page : Nat) {stop : Nat → Option Nat}
  {m : Memory} {e n offset fromOffset toOffset : Nat} {s s' : Scan H}

theorem memory_findOrCreateEntry (s : Scan H) (hash : H) :
    (s.findOrCreateEntry hash).memory = s.memory ∧
      (s.findOrCreateEntry hash).visited = s.visited := by
  rw [Scan.findOrCreateEntry]
  split <;> exact ⟨rfl, rfl⟩

theorem replayRecord_spec (C : Classes H) (offset : Nat) (s : Scan H) :
    (replayRecord C point page offset s).visited = s.visited ∧
    ((replayRecord C point page offset s).memory = s.memory ∨
      ∃ w ≠ 0, (replayRecord C point page offset s).memory = writeWord s.memory offset w) := by
  obtain ⟨hmemory, hvisited⟩ :=
    memory_findOrCreateEntry s (C.getHash s.memory (C.keyAt offset))
  have hwrite : ∃ w ≠ 0, writeWord
      (s.findOrCreateEntry (C.getHash s.memory (C.keyAt offset))).memory offset
        { RecordInfo.ofControl (readWord s.memory offset) with invalid := true }.control =
      writeWord s.memory offset w := by
    rw [hmemory]
    exact ⟨_, RecordInfo.control_ne_zero (Or.inl rfl), rfl⟩
  rw [replayRecord]
  split
  · exact ⟨hvisited, Or.inl hmemory⟩
  · dsimp only
    split
    · exact ⟨hvisited, Or.inr hwrite⟩
    · exact ⟨hvisited, Or.inr hwrite⟩

theorem visit_record (h : Scannable C stop s.memory) (hstop : stop offset = some e) :
    Scannable C stop (visit C point page offset s).1.memory ∧
    (∀ b e', stop b = some e' →
      SameRecord C s.memory (visit C point page offset s).1.memory b) ∧
    (visit C point page offset s).1.visited = offset :: s.visited ∧
    (visit C point page offset s).2 = offset + (C.size s.memory offset).toNat := by
  have hheader := (h.record offset e hstop).header
  have hrefl (b e' : Nat) (_ : stop b = some e') : SameRecord C s.memory s.memory b :=
    ⟨rfl, rfl, rfl, rfl⟩
  rw [visit, if_neg hheader]
  dsimp only
  split
  · exact ⟨h, hrefl, rfl, rfl⟩
  · obtain ⟨hvisited, hmemory⟩ := replayRecord_spec point page C offset
      { s with visited := offset :: s.visited }
    rcases hmemory with hmemory | ⟨w, hw, hmemory⟩
    · rw [hmemory]
      exact ⟨h, hrefl, hvisited, rfl⟩
    · obtain ⟨hscannable, hsame⟩ := h.setHeader hstop hw
      rw [hmemory]
      exact ⟨hscannable, hsame, hvisited,
        congrArg (offset + BitVec.toNat ·) (hsame offset e hstop).size.symm⟩

theorem visit_zero (h : Scannable C stop s.memory) (hstands : Stands C stop s.memory offset)
    (hlt : offset < kPageSize) (hnone : stop offset = none) :
    visit C point page offset s = (s, offset + 8) := by
  rw [visit, if_pos (h.readWord_eq hstands hlt hnone)]

/-- The scan ends, and it has met the records of the range in their order, each once. -/
theorem recoverFromPage_spec (h : Scannable C stop s.memory)
    (hstands : Stands C stop s.memory fromOffset) (hto : toOffset ≤ kPageSize)
    (hn : toOffset ≤ fromOffset + n) :
    ∃ t v, recoverFromPage C point page (n + 1) fromOffset toOffset s = some t ∧
      Scannable C stop t.memory ∧ t.visited = v ++ s.visited ∧ v.Pairwise (· > ·) ∧
      ∀ a, a ∈ v ↔ (stop a).isSome ∧ fromOffset ≤ a ∧ a < toOffset := by
  induction n generalizing fromOffset s with
  | zero =>
      refine ⟨s, [], by rw [recoverFromPage, if_neg (by omega)], h, rfl, .nil, fun a => ?_⟩
      simp only [List.not_mem_nil, false_iff]
      omega
  | succ n ih =>
      by_cases hlt : fromOffset < toOffset
      · rw [recoverFromPage, if_pos hlt]
        dsimp only
        cases hstop : stop fromOffset with
        | none =>
            rw [visit_zero point page h hstands (by omega) hstop]
            obtain ⟨t, v, ht, hscannable, hvisited, hpairwise, hmem⟩ :=
              ih h (h.stands_zero hstands hstop) (by omega)
            refine ⟨t, v, ht, hscannable, hvisited, hpairwise, fun a => (hmem a).trans ?_⟩
            constructor
            · rintro ⟨hsome, hle, hltTo⟩
              exact ⟨hsome, by omega, hltTo⟩
            · rintro ⟨hsome, hle, hltTo⟩
              refine ⟨hsome, ?_, hltTo⟩
              obtain ⟨e, he⟩ := Option.isSome_iff_exists.mp hsome
              rcases (h.stands_zero hstands hstop).2 a e he with hnext | hnext
              · exact hnext
              · have hge := (h.record a e he).size_ge
                have haligned := (h.record a e he).aligned
                have hfrom := hstands.1
                have hne : a ≠ fromOffset := by
                  rintro rfl
                  rw [hstop] at he
                  cases he
                omega
        | some e =>
            obtain ⟨hscannable, hsame, hvisited, hnext⟩ :=
              visit_record point page h hstop
            have hrecord := h.record fromOffset e hstop
            have hge := hrecord.size_ge
            have hstands' := (h.stands_record hstands hstop).congr hsame
            rw [← hnext] at hstands'
            obtain ⟨t, v, ht, hend, hall, hpairwise, hmem⟩ :=
              ih hscannable hstands' (by omega)
            refine ⟨t, v ++ [fromOffset], ht, hend, ?_, ?_, fun a => ?_⟩
            · rw [hall, hvisited, List.append_assoc]
              rfl
            · refine List.pairwise_append.mpr ⟨hpairwise, List.pairwise_singleton .., ?_⟩
              intro a ha b hb
              rw [List.mem_singleton.mp hb]
              have hle := ((hmem a).mp ha).2.1
              omega
            · rw [List.mem_append, List.mem_singleton, hmem a]
              constructor
              · rintro (⟨hsome, hle, hltTo⟩ | rfl)
                · exact ⟨hsome, by omega, hltTo⟩
                · exact ⟨by rw [hstop]; rfl, le_rfl, hlt⟩
              · rintro ⟨hsome, hle, hltTo⟩
                by_cases heq : a = fromOffset
                · exact Or.inr heq
                · obtain ⟨e', he'⟩ := Option.isSome_iff_exists.mp hsome
                  have hapart := h.apart fromOffset e a e' hstop he' (by omega)
                  have hsize := hrecord.size_le
                  exact Or.inl ⟨hsome, by omega, hltTo⟩
      · refine ⟨s, [], by rw [recoverFromPage, if_neg hlt], h, rfl, .nil, fun a => ?_⟩
        simp only [List.not_mem_nil, false_iff]
        omega

end Visits

section Locality

variable {C : Classes H} (point : RecoveryPoint) (page : Nat) {stop : Nat → Option Nat}
  {e n offset fromOffset toOffset : Nat} {s s' t : Scan H}

structure SamePage (s s' : Scan H) : Prop where
  memory : Agree s.memory s'.memory 0 kPageSize
  entries : s.entries = s'.entries
  visited : s.visited = s'.visited

omit [DecidableEq H] in
theorem SamePage.writeWord {w : Word} (h : SamePage s s') :
    SamePage { s with memory := writeWord s.memory offset w }
      { s' with memory := writeWord s'.memory offset w } := by
  refine ⟨fun i hlo hhi => ?_, h.entries, h.visited⟩
  have hi := h.memory i hlo hhi
  change ByteMemory.writeWord s.memory offset w i = ByteMemory.writeWord s'.memory offset w i
  rw [ByteMemory.writeWord, ByteMemory.writeWord, writeBytes, writeBytes, hi]

theorem SamePage.store (h : SamePage s s') {hash : H} {address : Nat} :
    SamePage (s.store hash address) (s'.store hash address) :=
  ⟨h.memory, by rw [Scan.store, Scan.store, h.entries], h.visited⟩

theorem SamePage.findOrCreateEntry (h : SamePage s s') {hash : H} :
    SamePage (s.findOrCreateEntry hash) (s'.findOrCreateEntry hash) := by
  rw [Scan.findOrCreateEntry, Scan.findOrCreateEntry, ← h.entries]
  split
  · exact h.store
  · exact h

theorem SamePage.replayRecord (h : SamePage s s')
    (hheader : readWord s.memory offset = readWord s'.memory offset)
    (hhash : C.getHash s.memory (C.keyAt offset) = C.getHash s'.memory (C.keyAt offset)) :
    SamePage (replayRecord C point page offset s) (replayRecord C point page offset s') := by
  rw [Recovery.replayRecord, Recovery.replayRecord, ← hheader, ← hhash]
  split
  · exact h.findOrCreateEntry.store
  · dsimp only
    split
    · exact h.findOrCreateEntry.writeWord.store
    · exact h.findOrCreateEntry.writeWord

theorem SamePage.visit (h : SamePage s s') (hscannable : Scannable C stop s.memory)
    (hstands : Stands C stop s.memory offset) (hlt : offset < kPageSize) :
    SamePage (visit C point page offset s).1 (visit C point page offset s').1 ∧
      (visit C point page offset s).2 = (visit C point page offset s').2 := by
  have hpage : 8 ∣ kPageSize := by decide
  have hfrom := hstands.1
  have hheader : readWord s.memory offset = readWord s'.memory offset :=
    (h.memory.mono (Nat.zero_le _) (by omega)).readWord_eq
  cases hstop : stop offset with
  | none =>
      have hzero := hscannable.readWord_eq hstands hlt hstop
      rw [Recovery.visit, Recovery.visit, ← hheader, if_pos hzero, if_pos hzero]
      exact ⟨h, rfl⟩
  | some e =>
      have hrecord := hscannable.record offset e hstop
      have hsame := hrecord.same (h.memory.mono (Nat.zero_le _) hrecord.within)
      have hnoted : SamePage { s with visited := offset :: s.visited }
          { s' with visited := offset :: s'.visited } :=
        ⟨h.memory, h.entries, congrArg (offset :: ·) h.visited⟩
      have hsizes {t t' : Scan H} (ht : SamePage t t') (hrec : IsRecord C t.memory offset e) :
          offset + (C.size t.memory offset).toNat = offset + (C.size t'.memory offset).toNat := by
        rw [(hrec.same (ht.memory.mono (Nat.zero_le _) hrec.within)).size]
      rw [Recovery.visit, Recovery.visit, ← hheader, if_neg hrecord.header,
        if_neg hrecord.header]
      dsimp only
      split
      · exact ⟨hnoted, hsizes hnoted hrecord⟩
      · rename_i hvalid
        have hreplay := hnoted.replayRecord point page hheader hsame.hash
        refine ⟨hreplay, hsizes hreplay ?_⟩
        have hnext := (visit_record point page hscannable hstop).1
        rw [Recovery.visit, if_neg hrecord.header] at hnext
        dsimp only at hnext
        rw [if_neg hvalid] at hnext
        exact hnext.record offset e hstop

theorem SamePage.recoverFromPage (h : SamePage s s') (hscannable : Scannable C stop s.memory)
    (hstands : Stands C stop s.memory fromOffset) (hto : toOffset ≤ kPageSize)
    (hrun : recoverFromPage C point page n fromOffset toOffset s = some t) :
    ∃ t', recoverFromPage C point page n fromOffset toOffset s' = some t' ∧ SamePage t t' := by
  induction n generalizing fromOffset s s' with
  | zero => cases hrun
  | succ n ih =>
      rw [Recovery.recoverFromPage] at hrun ⊢
      split at hrun
      · rename_i hlt
        obtain ⟨hsame, hnext⟩ := h.visit point page hscannable hstands
          (by omega)
        rw [if_pos hlt]
        dsimp only at hrun ⊢
        rw [← hnext]
        cases hstop : stop fromOffset with
        | none =>
            rw [visit_zero point page hscannable hstands (by omega) hstop] at hrun hsame ⊢
            exact ih hsame hscannable (hscannable.stands_zero hstands hstop) hrun
        | some e =>
            obtain ⟨hkeeps, hrecords, -, hoffset⟩ :=
              visit_record point page hscannable hstop
            have hstands' := (hscannable.stands_record hstands hstop).congr hrecords
            rw [← hoffset] at hstands'
            exact ih hsame hkeeps hstands' hrun
      · rename_i hge
        cases hrun
        rw [if_neg hge]
        exact ⟨s', rfl, h⟩

end Locality

end HashComp.Recovery
