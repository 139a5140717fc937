import HashComp.BzTree.Merging
import Mathlib.Data.List.Forall2

namespace HashComp.BzTree

open HashComp.ByteMemory

structure Entry where
  key : List Byte
  payload : Word
deriving DecidableEq

def Entry.totalLength (e : Entry) : Nat :=
  padKeyLength e.key.length + 8

def recordSpace (entries : List Entry) : Nat :=
  (entries.map (·.totalLength)).sum

def nodeSize (entries : List Entry) : Nat :=
  32 + 8 * entries.length + recordSpace entries

section Space

variable {e : Entry} {entries entries' : List Entry}

theorem padKeyLength_le {k : List Byte} (h : k.length ≤ 65520) :
    padKeyLength k.length ≤ 65520 := by
  rw [padKeyLength]
  omega

theorem totalLength_of_nil (h : e.key = []) : e.totalLength = 8 := by
  rw [Entry.totalLength, h, padKeyLength]
  rfl

@[simp] theorem recordSpace_nil : recordSpace [] = 0 := rfl

@[simp] theorem recordSpace_cons :
    recordSpace (e :: entries) = e.totalLength + recordSpace entries := rfl

@[simp] theorem recordSpace_append :
    recordSpace (entries ++ entries') = recordSpace entries + recordSpace entries' := by
  rw [recordSpace, List.map_append, List.sum_append]
  rfl

theorem nodeSize_congr (h : entries.map Entry.key = entries'.map Entry.key) :
    nodeSize entries = nodeSize entries' := by
  have hspace : ∀ l : List Entry,
      recordSpace l = ((l.map Entry.key).map fun k => padKeyLength k.length + 8).sum := by
    intro l
    rw [List.map_map]
    rfl
  have hlength := congrArg List.length h
  rw [List.length_map, List.length_map] at hlength
  rw [nodeSize, nodeSize, hspace, hspace, h, hlength]

theorem nodeSize_le_append : nodeSize entries ≤ nodeSize (entries ++ entries') := by
  simp only [nodeSize, List.length_append, recordSpace_append]
  omega

theorem length_le_nodeSize : entries.length ≤ nodeSize entries := by
  rw [nodeSize]
  omega

end Space

namespace BaseNode

structure Carries (row? : Option Row) (e : Entry) : Prop where
  exists_row : ∃ row, row? = some row ∧ row.keyLength = e.key.length ∧
    row.totalLength = e.totalLength ∧ row.bytes.length = e.totalLength ∧
      row.bytes.take e.key.length = e.key ∧
        wordOf (row.bytes.drop (padKeyLength e.key.length)) = e.payload

structure HoldsAt (n : BaseNode) (i offset : Nat) (e : Entry) : Prop where
  metadata : n.recordMetadata i = .finalizeForInsert offset e.key.length e.totalLength
  key : readBytes n.data offset e.key.length = e.key
  payload : n.payload offset e.key.length = e.payload

/-- The records of the entries follow each other from metadata entry `i` on and from
`offset` downwards. -/
def Stacked (n : BaseNode) : (i offset : Nat) → List Entry → Prop
  | _, _, [] => True
  | i, offset, e :: entries =>
      n.HoldsAt i (offset - e.totalLength) e ∧
        n.Stacked (i + 1) (offset - e.totalLength) entries

structure SameHeader (n n' : BaseNode) : Prop where
  isLeaf : n'.isLeaf = n.isLeaf
  size : n'.size = n.size
  status : n'.status = n.status

/-- A node with the metadata of another one up to entry `i` and its bytes from `offset` on. -/
structure Extends (n n' : BaseNode) (i offset : Nat) : Prop where
  metadata : ∀ j, j < i → n'.recordMetadata j = n.recordMetadata j
  data : ∀ a, offset ≤ a → n'.data a = n.data a

structure Stores (n : BaseNode) (entries : List Entry) : Prop where
  inner : n.isLeaf = false
  size : n.size = nodeSize entries
  count : n.sortedCount = entries.length
  stacked : n.Stacked 0 n.size entries

section Rows

variable {n n' n'' : BaseNode} {i i' j offset offset' : Nat} {e : Entry} {entries entries' : List Entry}
  {row? : Option Row}

theorem SameHeader.trans (h : SameHeader n n') (h' : SameHeader n' n'') : SameHeader n n'' where
  isLeaf := h'.isLeaf.trans h.isLeaf
  size := h'.size.trans h.size
  status := h'.status.trans h.status

theorem Extends.trans (h : Extends n n' i offset) (h' : Extends n' n'' i' offset') (hi : i ≤ i')
    (hoffset : offset' ≤ offset) : Extends n n'' i offset where
  metadata := fun j hj => (h'.metadata j (by omega)).trans (h.metadata j hj)
  data := fun a ha => (h'.data a (by omega)).trans (h.data a ha)

theorem HoldsAt.extends (h : n.HoldsAt j offset e) (hn : Extends n n' i offset') (hj : j < i)
    (hoffset : offset' ≤ offset) : n'.HoldsAt j offset e where
  metadata := (hn.metadata j hj).trans h.metadata
  key := by
    rw [readBytes_congr fun a ha _ => hn.data a (by omega)]
    exact h.key
  payload := by
    rw [BaseNode.payload, readWord_eq, readBytes_congr fun a ha _ => hn.data a (by omega)]
    exact h.payload

theorem Stacked.extends (h : n.Stacked j offset entries) (hn : Extends n n' i offset')
    (hj : j + entries.length ≤ i) (hoffset : offset' + recordSpace entries ≤ offset) :
    n'.Stacked j offset entries := by
  induction entries generalizing j offset with
  | nil => trivial
  | cons e entries ih =>
      rw [List.length_cons] at hj
      rw [recordSpace_cons] at hoffset
      exact ⟨h.1.extends hn (by omega) (by omega), ih h.2 (by omega) (by omega)⟩

theorem Stacked.congr (h : n.Stacked i offset entries)
    (hm : n'.recordMetadata = n.recordMetadata) (hd : n'.data = n.data) :
    n'.Stacked i offset entries := by
  induction entries generalizing i offset with
  | nil => trivial
  | cons e entries ih =>
      obtain ⟨⟨hmeta, hkey, hpayload⟩, hrest⟩ := h
      refine ⟨⟨by rw [hm, hmeta], by rw [hd, hkey], ?_⟩, ih hrest⟩
      rw [BaseNode.payload, hd]
      exact hpayload

theorem stacked_append : n.Stacked i offset (entries ++ entries') ↔ n.Stacked i offset entries ∧
    n.Stacked (i + entries.length) (offset - recordSpace entries) entries' := by
  induction entries generalizing i offset with
  | nil => simp [Stacked]
  | cons e entries ih =>
      rw [List.cons_append, Stacked, Stacked, ih, and_assoc, List.length_cons, recordSpace_cons,
        Nat.sub_sub, Nat.add_right_comm, Nat.add_assoc]

theorem Stacked.holdsAt (h : n.Stacked i offset entries) (he : entries[j]? = some e) :
    ∃ o, offset - recordSpace entries ≤ o ∧ n.HoldsAt (i + j) o e := by
  induction entries generalizing i j offset with
  | nil => cases he
  | cons e' entries ih =>
      cases j with
      | zero =>
          obtain rfl := Option.some.inj he
          refine ⟨_, ?_, h.1⟩
          rw [recordSpace_cons]
          omega
      | succ j =>
          obtain ⟨o, hle, ho⟩ := ih h.2 he
          refine ⟨o, ?_, by rwa [Nat.add_right_comm, Nat.add_assoc] at ho⟩
          rwa [recordSpace_cons, ← Nat.sub_sub]

theorem HoldsAt.getChildByMetaIndex (h : n.HoldsAt i offset e) :
    n.getChildByMetaIndex i = some e.payload.toNat := by
  rw [BaseNode.getChildByMetaIndex, h.metadata, ← h.payload]
  rfl

theorem HoldsAt.totalLength (h : n.HoldsAt i offset e) :
    (n.recordMetadata i).totalLength = e.totalLength := by
  rw [h.metadata]
  rfl

theorem carries_record {visible : Bool}
    (hm : n.recordMetadata i = .record visible offset e.key.length e.totalLength)
    (hkey : readBytes n.data offset e.key.length = e.key)
    (hpayload : n.payload offset e.key.length = e.payload) :
    Carries (n.dataRow (n.recordMetadata i)) e := by
  have hlen := le_padKeyLength e.key.length
  refine ⟨_, congrArg n.dataRow hm, rfl, rfl, readBytes_length, ?_, ?_⟩
  · rw [readBytes_take (by rw [Entry.totalLength]; omega), hkey]
  · rw [readBytes_drop (by rw [Entry.totalLength]; omega), Entry.totalLength,
      Nat.add_sub_cancel_left, ← readWord_eq]
    exact hpayload

theorem HoldsAt.carries (h : n.HoldsAt i offset e) : Carries (n.dataRow (n.recordMetadata i)) e :=
  carries_record h.metadata h.key h.payload

theorem HoldsAt.rawKey (h : n.HoldsAt i offset e) :
    n.rawKey (n.recordMetadata i) = if e.key = [] then none else some e.key := by
  have hzero : padKeyLength e.key.length = 0 ↔ e.key = [] := by
    rw [← List.length_eq_zero_iff, padKeyLength]
    omega
  rw [h.metadata, RecordMetadata.finalizeForInsert, BaseNode.rawKey]
  simp only [hzero, h.key]

theorem HoldsAt.carries_key (h : n.HoldsAt i offset e) (hkey : e.key ≠ []) :
    Carries (n.keyRow (n.recordMetadata i)) e := by
  rw [keyRow, h.rawKey, if_neg hkey]
  exact h.carries

theorem carries_childRow {key : List Byte} {child : Word} :
    Carries (some (childRow key (padKeyLength key.length + 8) child)) ⟨key, child⟩ := by
  have hlen := le_padKeyLength key.length
  refine ⟨_, rfl, rfl, rfl, ?_, ?_, ?_⟩
  · simp only [childRow, List.length_append, List.length_replicate, bytesOf_length,
      Entry.totalLength]
    omega
  · rw [childRow, List.append_assoc, List.take_left' rfl]
  · have hpad : (key ++ List.replicate (padKeyLength key.length - key.length) 0).length =
        padKeyLength key.length := by
      rw [List.length_append, List.length_replicate]
      omega
    rw [childRow, List.drop_left' hpad]
    exact wordOf_bytesOf

theorem copyRecord_spec (n : BaseNode) (h : Carries row? e)
    (hroom : 32 + (i + 1) * 8 + e.totalLength ≤ offset) :
    ∃ n', copyRecord row? (n, i, offset) = some (n', i + 1, offset - e.totalLength) ∧
      n'.HoldsAt i (offset - e.totalLength) e ∧ SameHeader n n' ∧ Extends n n' i offset := by
  obtain ⟨row, rfl, hkeyLength, htotal, hlength, hkey, hpayload⟩ := h
  have hlen := le_padKeyLength e.key.length
  have hread : readBytes (writeBytes n.data (offset - e.totalLength) row.bytes)
      (offset - e.totalLength) e.totalLength = row.bytes := by
    rw [← hlength]
    exact readBytes_writeBytes
  refine ⟨{ n.setMetadata i (.finalizeForInsert (offset - e.totalLength) e.key.length e.totalLength)
    with data := writeBytes n.data (offset - e.totalLength) row.bytes }, ?_, ⟨?_, ?_, ?_⟩,
    ⟨rfl, rfl, rfl⟩, ⟨?_, ?_⟩⟩
  · rw [copyRecord, Option.bind_some, if_pos (by rwa [htotal]), htotal, hkeyLength]
  · exact Function.update_self ..
  · have hle : e.key.length ≤ e.totalLength := by
      rw [Entry.totalLength]
      omega
    rw [← readBytes_take hle, hread]
    exact hkey
  · have hle : padKeyLength e.key.length ≤ e.totalLength := Nat.le_add_right _ 8
    have hrest : e.totalLength - padKeyLength e.key.length = 8 := Nat.add_sub_cancel_left ..
    rw [BaseNode.payload, readWord_eq, ← hrest, ← readBytes_drop hle, hread]
    exact hpayload
  · intro j hj
    exact Function.update_of_ne (Nat.ne_of_lt hj) _ _
  · intro a ha
    exact writeBytes_of_outside (Or.inr (by omega))

theorem copyRecords_spec {rows : List (Option Row)} (n : BaseNode)
    (h : List.Forall₂ Carries rows entries)
    (hroom : 32 + (i + entries.length) * 8 + recordSpace entries ≤ offset) :
    ∃ n', copyRecords rows (n, i, offset) =
        some (n', i + entries.length, offset - recordSpace entries) ∧
      n'.Stacked i offset entries ∧ SameHeader n n' ∧ Extends n n' i offset := by
  induction h generalizing n i offset with
  | nil => exact ⟨n, rfl, trivial, ⟨rfl, rfl, rfl⟩, fun _ _ => rfl, fun _ _ => rfl⟩
  | @cons row? e rows entries hrow hrows ih =>
      rw [List.length_cons, recordSpace_cons] at hroom
      have hfirst : 32 + (i + 1) * 8 + e.totalLength ≤ offset := by omega
      obtain ⟨n₁, hcopy, hholds, hheader, hext⟩ := copyRecord_spec n hrow hfirst
      have hrest : 32 + (i + 1 + entries.length) * 8 + recordSpace entries ≤
          offset - e.totalLength := by omega
      obtain ⟨n', hcopies, hstacked, hheader', hext'⟩ := ih n₁ hrest
      refine ⟨n', ?_, ⟨hholds.extends hext' (Nat.lt_succ_self i) (Nat.le_refl _), hstacked⟩,
        hheader.trans hheader', hext.trans hext' (Nat.le_succ i) (Nat.sub_le _ _)⟩
      rw [copyRecords, hcopy, Option.bind_some, hcopies, List.length_cons, recordSpace_cons,
        Nat.sub_sub, Nat.add_assoc i, Nat.add_comm 1]

theorem copyChildren_spec {rows : List (Option Row)} (h : List.Forall₂ Carries rows entries) :
    ∃ n, copyChildren (nodeSize entries) rows = some n ∧ n.Stores entries := by
  have hroom : 32 + (0 + entries.length) * 8 + recordSpace entries ≤ nodeSize entries := by
    rw [nodeSize]
    omega
  obtain ⟨n, hcopy, hstacked, hheader, -⟩ := copyRecords_spec (new false (nodeSize entries)) h hroom
  refine ⟨{ n with sortedCount := entries.length }, ?_, hheader.isLeaf, hheader.size, rfl, ?_⟩
  · rw [copyChildren, hcopy, Option.map_some, Nat.zero_add]
  · have hsize : n.size = nodeSize entries := hheader.size
    rw [← hsize] at hstacked
    exact hstacked.congr rfl rfl

def nodeOf (entries : List Entry) : Option BaseNode :=
  copyChildren (nodeSize entries) (entries.map fun e =>
    some (childRow e.key (padKeyLength e.key.length + 8) e.payload))

theorem exists_stores (entries : List Entry) :
    ∃ n, nodeOf entries = some n ∧ n.Stores entries :=
  copyChildren_spec (List.forall₂_map_left_iff.mpr
    (List.forall₂_same.mpr fun _ _ => carries_childRow))

end Rows

end BaseNode

end HashComp.BzTree
