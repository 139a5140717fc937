import HashComp.BzTree.LeafSpace

namespace HashComp.BzTree.Space

open HashComp.Runs

section Ledgers

def Ledger.block (ledger : Ledger) : Nat :=
  ∑ i ∈ Finset.range ledger.count, (ledger.range i).len

def Ledger.deleted (ledger : Ledger) : Nat :=
  ∑ i ∈ Finset.range ledger.count, ledger.gone i

variable {ledger : Ledger} {r : Range} {slot totalLength : Nat}

theorem block_reserved : (ledger.note (.reserved r)).block = ledger.block + r.len := by
  change ∑ i ∈ Finset.range (ledger.count + 1), (Function.update ledger.range ledger.count r i).len
    = _
  rw [Finset.sum_range_succ, Function.update_self]
  congr 1
  refine Finset.sum_congr rfl fun i hi => ?_
  rw [Function.update_of_ne (Nat.ne_of_lt (Finset.mem_range.mp hi))]

theorem deleted_reserved : (ledger.note (.reserved r)).deleted = ledger.deleted := by
  change ∑ i ∈ Finset.range (ledger.count + 1), Function.update ledger.gone ledger.count 0 i = _
  rw [Finset.sum_range_succ, Function.update_self, Nat.add_zero]
  refine Finset.sum_congr rfl fun i hi => ?_
  rw [Function.update_of_ne (Nat.ne_of_lt (Finset.mem_range.mp hi))]

theorem deleted_deleted (hslot : slot < ledger.count) :
    (ledger.note (.deleted slot totalLength)).deleted = ledger.deleted + totalLength := by
  have hmem : slot ∈ Finset.range ledger.count := Finset.mem_range.mpr hslot
  change ∑ i ∈ Finset.range ledger.count,
    Function.update ledger.gone slot (ledger.gone slot + totalLength) i = _
  have hrest : ∑ i ∈ (Finset.range ledger.count).erase slot,
      Function.update ledger.gone slot (ledger.gone slot + totalLength) i =
        ∑ i ∈ (Finset.range ledger.count).erase slot, ledger.gone i :=
    Finset.sum_congr rfl fun i hi => Function.update_of_ne (Finset.ne_of_mem_erase hi) _ _
  rw [Ledger.deleted, ← Finset.add_sum_erase _ _ hmem, hrest, Function.update_self,
    ← Finset.add_sum_erase _ _ hmem]
  omega

def Ledger.bytes (ledger : Ledger) (slot : Nat) : Range :=
  ⟨(ledger.range slot).offset, max (ledger.range slot).len (ledger.copied slot)⟩

theorem bytes_of_copied_le (h : ledger.copied slot ≤ (ledger.range slot).len) :
    ledger.bytes slot = ledger.range slot := by
  rw [Ledger.bytes, Nat.max_eq_left h]

end Ledgers

structure LedgerOk (leaf : Leaf) (ledger : Ledger) (high : Nat) : Prop where
  counts : Counts leaf.status high ledger.count ledger.block ledger.deleted
  lengths : ∀ i < ledger.count, 8 ≤ (ledger.range i).len
  fits : 32 + ledger.count * 8 + ledger.block ≤ leaf.size
  area : ∀ i < ledger.count, leaf.size ≤ (ledger.range i).offset + ledger.block ∧
    (ledger.range i).offset + (ledger.range i).len ≤ leaf.size
  apart : ∀ i < ledger.count, ∀ j < ledger.count, i ≠ j →
    (ledger.range i).offset + (ledger.range i).len ≤ (ledger.range j).offset ∨
      (ledger.range j).offset + (ledger.range j).len ≤ (ledger.range i).offset
  vacant : ∀ i, ledger.count ≤ i → leaf.metadata i = .vacant
  visible : ∀ i offset totalLength, leaf.metadata i = .record true offset totalLength →
    ledger.gone i = 0 ∧ totalLength ≤ (ledger.range i).len
  published : ∀ i offset totalLength, leaf.metadata i = .record true offset totalLength →
    offset = (ledger.range i).offset
  inserting : ∀ i, leaf.metadata i = .inserting → ledger.gone i = 0
  copied : ∀ i < ledger.count, ledger.copied i ≤ (ledger.range i).len
  gone : ∀ i < ledger.count, ledger.gone i ≤ (ledger.range i).len

/-- The space of a leaf is in order: what is used fits, the bytes of the records lie behind
the metadata and apart from each other, what the metadata says of a visible record is where
its bytes are, and each field of the status word counts its own. -/
structure SpaceOk (s : State) : Prop where
  used : usedSpace s.leaf.status ≤ s.leaf.size
  behind : ∀ i < s.ledger.count, 32 + recordCount s.leaf.status * 8 ≤ (s.ledger.bytes i).offset ∧
    (s.ledger.bytes i).offset + (s.ledger.bytes i).len ≤ s.leaf.size
  apart : ∀ i < s.ledger.count, ∀ j < s.ledger.count, i ≠ j →
    (s.ledger.bytes i).offset + (s.ledger.bytes i).len ≤ (s.ledger.bytes j).offset ∨
      (s.ledger.bytes j).offset + (s.ledger.bytes j).len ≤ (s.ledger.bytes i).offset
  published : ∀ i offset totalLength, s.leaf.metadata i = .record true offset totalLength →
    offset = (s.ledger.bytes i).offset
  fields : Counts s.leaf.status s.high s.ledger.count s.ledger.block s.ledger.deleted

theorem LedgerOk.spaceOk {s : State} (h : LedgerOk s.leaf s.ledger s.high) : SpaceOk s := by
  have hcount := h.counts.count
  have hblock := h.counts.block
  have hfits := h.fits
  have hbytes : ∀ {i}, i < s.ledger.count → s.ledger.bytes i = s.ledger.range i :=
    fun hi => bytes_of_copied_le (h.copied _ hi)
  refine ⟨?_, fun i hi => ?_, fun i hi j hj hne => ?_, h.published, h.counts⟩
  · rw [usedSpace, hcount, hblock]
    omega
  · have harea := h.area i hi
    rw [hcount, hbytes hi]
    omega
  · rw [hbytes hi, hbytes hj]
    exact h.apart i hi j hj hne

section Changes

def InsertPc.held : InsertPc → Option Reservation
  | .copy r | .recheckUnique r | .readStatus r | .finalize r _ => some r
  | .retry | .checkUnique _ | .readMeta _ _ | .reserve _ _ => none

def LeafPc.held : LeafPc → Option Reservation
  | .insert _ pc => pc.held
  | _ => none

def InsertPc.LocalOk (split_threshold key_size : Nat) : InsertPc → Prop
  | .readMeta expected _ | .reserve expected _ =>
      usedSpace expected + 8 + totalSize key_size < split_threshold
  | .copy r | .recheckUnique r | .readStatus r | .finalize r _ =>
      48 < split_threshold ∧ r.total = totalSize key_size
  | .retry | .checkUnique _ => True

def LeafPc.LocalOk (split_threshold maxKey : Nat) : LeafPc → Prop
  | .insert key_size pc => key_size ≤ maxKey ∧ pc.LocalOk split_threshold key_size
  | _ => True

inductive Change (split_threshold maxKey : Nat) (leaf : Leaf) (l : LeafPc) :
    Leaf → Event → LeafPc → Prop
  | quiet {l' : LeafPc} (h : l'.held = none ∨ l'.held = l.held) :
      Change split_threshold maxKey leaf l leaf .nothing l'
  | reserve {l' : LeafPc} {key_size : Nat} {recheck : Bool}
      (hroom : usedSpace leaf.status + 8 + totalSize key_size < split_threshold)
      (hheld : l'.held = some ⟨recordCount leaf.status, totalSize key_size, (leaf.size + 2 ^ 32 -
        blockSize (prepareForInsert leaf.status (totalSize key_size))) % 2 ^ 32, recheck⟩) :
      Change split_threshold maxKey leaf l
        { leaf with
          status := prepareForInsert leaf.status (totalSize key_size)
          metadata := leaf.setMetadata (recordCount leaf.status) .inserting }
        (.reserved ⟨(leaf.size + 2 ^ 32 -
          blockSize (prepareForInsert leaf.status (totalSize key_size))) % 2 ^ 32,
          totalSize key_size⟩) l'
  | copied {l' : LeafPc} {r : Reservation} {key_size : Nat} (hT : 48 < split_threshold)
      (hl : l.held = some r)
      (hkey : key_size ≤ maxKey) (htotal : r.total = totalSize key_size)
      (hheld : l'.held = some r ∨ l'.held = some { r with offset := 0 }) :
      Change split_threshold maxKey leaf l leaf (.copied r.slot (copiedSize key_size)) l'
  | finalize {l' : LeafPc} {r : Reservation} (hT : 48 < split_threshold)
      (hl : l.held = some r) (hm : leaf.metadata r.slot = .inserting) (hheld : l'.held = none) :
      Change split_threshold maxKey leaf l
        { leaf with
          metadata := leaf.setMetadata r.slot
            (.record (r.offset ≠ 0) (r.offset % 2 ^ 28) (r.total % 2 ^ 16)) }
        .nothing l'
  | delete {l' : LeafPc} {slot offset totalLength : Nat}
      (hm : leaf.metadata slot = .record true offset totalLength) (hheld : l'.held = none) :
      Change split_threshold maxKey leaf l
        { leaf with
          status := setDeleteSize leaf.status (deletedSize leaf.status + totalLength)
          metadata := leaf.setMetadata slot (.record false offset totalLength) }
        (.deleted slot totalLength) l'

variable {split_threshold maxKey key_size : Nat} {leaf : Leaf} {l : LeafPc} {answer : Uniqueness}
  {found : Option Nat}

theorem least_le_room {word : BitVec 64} : 48 ≤ usedSpace word + 8 + totalSize key_size := by
  rw [usedSpace, totalSize]
  omega

theorem held_phase2 {r : Reservation} : (phase2 r).held = some r := by
  rw [phase2]
  split <;> rfl

theorem localOk_phase2 {r : Reservation} (h : 48 < split_threshold ∧ r.total = totalSize key_size) :
    (phase2 r).LocalOk split_threshold key_size := by
  rw [phase2]
  split <;> exact h

theorem leafStep_change (hok : l.LocalOk split_threshold maxKey) :
    Change split_threshold maxKey leaf l (leafStep split_threshold leaf answer found l).1
      (leafStep split_threshold leaf answer found l).2.1
      (leafStep split_threshold leaf answer found l).2.2 := by
  cases l with
  | insert key_size pc =>
      cases pc with
      | retry =>
          simp only [leafStep, insertStep]
          split <;> exact .quiet (.inl rfl)
      | checkUnique expected =>
          simp only [leafStep, insertStep]
          split
          · exact .quiet (.inl rfl)
          · split <;> exact .quiet (.inl rfl)
      | readMeta expected recheck =>
          simp only [leafStep, insertStep]
          split <;> exact .quiet (.inl rfl)
      | reserve expected recheck =>
          simp only [leafStep, insertStep]
          split
          · next h =>
              obtain ⟨rfl, -⟩ := h
              exact .reserve hok.2 rfl
          · exact .quiet (.inl rfl)
      | copy r => exact .copied hok.2.1 rfl hok.1 hok.2.2 (.inl held_phase2)
      | recheckUnique r =>
          simp only [leafStep, insertStep]
          split
          · exact .quiet (.inl rfl)
          · split
            · exact .copied hok.2.1 rfl hok.1 hok.2.2 (.inr rfl)
            · exact .quiet (.inr rfl)
      | readStatus r =>
          simp only [leafStep, insertStep]
          split
          · exact .quiet (.inl rfl)
          · exact .quiet (.inr rfl)
      | finalize r s =>
          simp only [leafStep, insertStep]
          split
          · next h => exact .finalize hok.2.1 rfl h.2 rfl
          · exact .quiet (.inr held_phase2)
  | delete pc =>
      cases pc with
      | retry =>
          simp only [leafStep, deleteStep]
          split <;> exact .quiet (.inl rfl)
      | search old_status =>
          simp only [leafStep, deleteStep]
          split
          · exact .quiet (.inl rfl)
          · split <;> exact .quiet (.inl rfl)
      | swap old_status slot offset totalLength =>
          simp only [leafStep, deleteStep]
          split
          · next h =>
              obtain ⟨rfl, hm⟩ := h
              exact .delete hm rfl
          · exact .quiet (.inl rfl)
  | done rc => exact .quiet (.inr rfl)
  | aborted => exact .quiet (.inr rfl)

theorem leafStep_localOk (hok : l.LocalOk split_threshold maxKey) :
    (leafStep split_threshold leaf answer found l).2.2.LocalOk split_threshold maxKey := by
  cases l with
  | insert key_size pc =>
      obtain ⟨hkey, hok⟩ := hok
      cases pc with
      | retry =>
          simp only [leafStep, insertStep]
          split
          · trivial
          · exact ⟨hkey, trivial⟩
      | checkUnique expected =>
          simp only [leafStep, insertStep]
          split
          · trivial
          · split
            · trivial
            · next h => exact ⟨hkey, Nat.not_le.mp h⟩
      | readMeta expected recheck =>
          simp only [leafStep, insertStep]
          split
          · exact ⟨hkey, hok⟩
          · exact ⟨hkey, trivial⟩
      | reserve expected recheck =>
          simp only [leafStep, insertStep]
          split
          · exact ⟨hkey, lt_of_le_of_lt least_le_room hok, rfl⟩
          · exact ⟨hkey, trivial⟩
      | copy r => exact ⟨hkey, localOk_phase2 hok⟩
      | recheckUnique r =>
          simp only [leafStep, insertStep]
          split
          · trivial
          · split <;> exact ⟨hkey, hok⟩
      | readStatus r =>
          simp only [leafStep, insertStep]
          split
          · trivial
          · exact ⟨hkey, hok⟩
      | finalize r s =>
          simp only [leafStep, insertStep]
          split
          · trivial
          · exact ⟨hkey, localOk_phase2 hok⟩
  | delete pc =>
      cases pc with
      | retry =>
          simp only [leafStep, deleteStep]
          split <;> trivial
      | search old_status =>
          simp only [leafStep, deleteStep]
          split
          · trivial
          · split <;> trivial
      | swap old_status slot offset totalLength =>
          simp only [leafStep, deleteStep]
          split <;> trivial
  | done rc => trivial
  | aborted => trivial

end Changes

end HashComp.BzTree.Space
