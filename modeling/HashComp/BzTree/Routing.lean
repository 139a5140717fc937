import HashComp.BzTree.Copies
import HashComp.BzTree.KeyOrder
import HashComp.Library.Thresholds

namespace HashComp.BzTree

open HashComp.ByteMemory
open HashComp.Thresholds

/-- The separator with the bytes `k` is below the key.  The one without bytes is below all
keys. -/
def below (key k : List Byte) : Bool :=
  0 < keyCompare (some key) (if k = [] then none else some k)

/-- The keys of an internal node: the dummy and separators from `S` that ascend. -/
structure Separated (S : Set (List Byte)) (keys : List (List Byte)) : Prop where
  dummy : keys.head? = some []
  members : ∀ k ∈ keys.tail, k ∈ S ∧ k ≠ []
  ascending : keys.tail.Pairwise Before

def route (key : List Byte) (entries : List Entry) : Option Addr :=
  (lastOf (fun e => below key e.key) entries).map (·.payload.toNat)

namespace BaseNode

/-- An internal node with separators from `S`.  An offset below `2 ^ 27` is no epoch. -/
structure WellFormed (S : Set (List Byte)) (n : BaseNode) (entries : List Entry) : Prop where
  stores : n.Stores entries
  separated : Separated S (entries.map (·.key))
  small : n.size ≤ 2 ^ 27

/-- The child that a search goes on with. -/
def childFor (n : BaseNode) (key : List Byte) : Option Addr :=
  n.getChildByMetaIndex (n.getChildIndex key true)

end BaseNode

section Order

variable {S : Set (List Byte)} {a b c k key : List Byte} {keys keys' : List (List Byte)}

@[simp] theorem below_nil : below key [] = true := rfl

theorem below_iff (hk : k ≠ []) : below key k = true ↔ Before k key := by
  rw [below, if_neg hk, decide_eq_true_iff, keyCompare_pos_iff]

theorem Separated.eq_cons (h : Separated S keys) : keys = [] :: keys.tail := by
  cases keys with
  | nil => cases h.dummy
  | cons k keys => rw [Option.some.inj h.dummy, List.tail_cons]

theorem Separated.threshold (h : Separated S keys) (hord : OrdersKeys S)
    (hS : ∀ k ∈ S, k.length < 2 ^ 31) (hkey : key ∈ S) : Threshold (below key) keys := by
  rw [h.eq_cons]
  refine List.pairwise_cons.mpr ⟨fun k _ _ => below_nil, ?_⟩
  refine h.ascending.imp_of_mem fun {a b} ha hb hab hbelow => ?_
  obtain ⟨haS, hane⟩ := h.members a ha
  obtain ⟨hbS, hbne⟩ := h.members b hb
  rw [below_iff hane]
  exact hord.before_trans hS haS hbS hkey hab ((below_iff hbne).mp hbelow)

theorem Separated.of_sublist (h : Separated S keys) (hsub : keys'.Sublist keys)
    (hdummy : keys'.head? = some []) : Separated S keys' :=
  ⟨hdummy, fun k hk => h.members k (hsub.tail.subset hk), h.ascending.sublist hsub.tail⟩

theorem Separated.merge (h : Separated S keys)
    (h' : Separated S ([] :: keys')) (hk : k ∈ S) (hne : k ≠ [])
    (hbelow : ∀ a ∈ keys.tail, Before a k) (habove : ∀ a ∈ keys', Before k a)
    (hord : OrdersKeys S) (hS : ∀ k ∈ S, k.length < 2 ^ 31) : Separated S (keys ++ k :: keys') := by
  have hkeys := h.eq_cons
  have hmembers := h'.members
  rw [List.tail_cons] at hmembers
  rw [hkeys, List.cons_append]
  refine ⟨rfl, fun a ha => ?_, ?_⟩
  · rw [List.tail_cons] at ha
    rcases List.mem_append.mp ha with ha | ha
    · exact h.members a ha
    · rcases List.mem_cons.mp ha with rfl | ha
      · exact ⟨hk, hne⟩
      · exact hmembers a ha
  · rw [List.tail_cons]
    refine List.pairwise_append.mpr ⟨h.ascending,
      List.pairwise_cons.mpr ⟨habove, h'.ascending⟩, fun a ha b hb => ?_⟩
    rcases List.mem_cons.mp hb with rfl | hb
    · exact hbelow a ha
    · exact hord.before_trans hS (h.members a ha).1 hk (hmembers b hb).1 (hbelow a ha)
        (habove b hb)

/-- A list of separators and children is gone through as its parts on either side of a
separator. -/
theorem route_append {L R : List Entry} {d : Entry}
    (ht : Threshold (fun e => below key e.key) (L ++ ⟨k, d.payload⟩ :: R)) (hL : L ≠ [])
    (hd : d.key = []) : route key (L ++ ⟨k, d.payload⟩ :: R) =
      if below key k then route key (d :: R) else route key L := by
  cases hbelow : below key k with
  | true =>
      rw [route, lastOf_append_of_pos ht hbelow, if_pos rfl]
      exact lastOf_cons_map hbelow (by rw [hd, below_nil]) rfl
  | false => rw [route, lastOf_append_of_neg ht hbelow hL, if_neg Bool.false_ne_true, route]

end Order

namespace BaseNode

section Search

variable {S : Set (List Byte)} {n : BaseNode} {entries : List Entry} {key : List Byte} {i : Nat}
  {e : Entry}

theorem Stores.holdsAt (h : n.Stores entries) (he : entries[i]? = some e) :
    ∃ offset, n.HoldsAt i offset e := by
  obtain ⟨offset, -, ho⟩ := h.stacked.holdsAt he
  exact ⟨offset, by rwa [Nat.zero_add] at ho⟩

theorem Stores.getChildByMetaIndex (h : n.Stores entries) (he : entries[i]? = some e) :
    n.getChildByMetaIndex i = some e.payload.toNat := by
  obtain ⟨offset, ho⟩ := h.holdsAt he
  exact ho.getChildByMetaIndex

theorem Stores.rawKey (h : n.Stores entries) (he : entries[i]? = some e) :
    n.rawKey (n.recordMetadata i) = if e.key = [] then none else some e.key := by
  obtain ⟨offset, ho⟩ := h.holdsAt he
  exact ho.rawKey

theorem WellFormed.threshold (h : n.WellFormed S entries) (hord : OrdersKeys S)
    (hS : ∀ k ∈ S, k.length < 2 ^ 31) (hkey : key ∈ S) :
    Threshold (fun e => below key e.key) entries :=
  List.pairwise_map.mp (h.separated.threshold hord hS hkey)

theorem WellFormed.eq_cons (h : n.WellFormed S entries) :
    ∃ e rest, entries = e :: rest ∧ e.key = [] := by
  cases entries with
  | nil => cases h.separated.dummy
  | cons e rest => exact ⟨e, rest, rfl, Option.some.inj h.separated.dummy⟩

theorem WellFormed.countP_pos (h : n.WellFormed S entries) :
    0 < entries.countP fun e => below key e.key := by
  obtain ⟨e, rest, rfl, he⟩ := h.eq_cons
  rw [List.countP_cons_of_pos (by rw [he, below_nil])]
  exact Nat.succ_pos _

theorem WellFormed.eq_countP (h : n.WellFormed S entries)
    (ht : Threshold (fun e => below key e.key) entries) (he : entries[i]? = some e)
    (hzero : keyCompare (some key) (if e.key = [] then none else some e.key) = 0) :
    i = entries.countP fun e => below key e.key := by
  have hne : e.key ≠ [] := by
    intro hnil
    rw [if_pos hnil] at hzero
    exact absurd hzero (by decide : ¬(1 : Int) = 0)
  rw [if_neg hne, keyCompare_eq_zero_iff] at hzero
  have hnot : ¬i < entries.countP fun e => below key e.key := by
    rw [← ht.iff_lt he, below_iff hne, hzero]
    exact fun hself => hself.ne rfl
  refine le_antisymm (Nat.not_lt.mp fun hlt => ?_) (Nat.not_lt.mp hnot)
  -- the entry at the count would be below the key but is not
  obtain ⟨d, rest, rfl, hd⟩ := h.eq_cons
  have hasc : rest.Pairwise fun a b => Before a.key b.key :=
    List.pairwise_map.mp h.separated.ascending
  set c := rest.countP fun e => below key e.key with hc
  have hcount : ((d :: rest).countP fun e => below key e.key) = c + 1 :=
    List.countP_cons_of_pos (by rw [hd, below_nil])
  obtain ⟨i, rfl⟩ := Nat.exists_eq_add_of_lt (Nat.zero_lt_of_lt hlt)
  rw [Nat.zero_add] at he hlt
  rw [hcount] at hlt
  obtain ⟨hi, rfl⟩ := List.getElem?_eq_some_iff.mp (List.getElem?_cons_succ ▸ he)
  have hbefore := List.pairwise_iff_getElem.mp hasc c i (by omega) hi (by omega)
  have hnext : (d :: rest)[c + 1]? = some rest[c] := by
    rw [List.getElem?_cons_succ, List.getElem?_eq_getElem]
  have hbelow : below key rest[c].key = true := by
    rw [← hzero] at hbefore
    by_cases hnil : rest[c].key = []
    · rw [hnil, below_nil]
    · exact (below_iff hnil).mpr hbefore
  have hlast := (ht.iff_lt hnext).mp hbelow
  rw [hcount] at hlast
  exact Nat.lt_irrefl _ hlast

theorem WellFormed.getChildIndex (h : n.WellFormed S entries)
    (ht : Threshold (fun e => below key e.key) entries) :
    n.getChildIndex key true = (entries.countP fun e => below key e.key) - 1 := by
  set c := entries.countP fun e => below key e.key
  have hpos : 0 < c := h.countP_pos
  have hle : c ≤ entries.length := List.countP_le_length
  have hlen : entries.length ≤ nodeSize entries := length_le_nodeSize
  have hsmall := h.small
  have hcount := h.stores.count
  rw [h.stores.size] at hsmall
  have hkey : ∀ i (hi : i < entries.length), n.rawKey (n.recordMetadata i) =
      if entries[i].key = [] then none else some entries[i].key :=
    fun i hi => h.stores.rawKey (List.getElem?_eq_getElem hi)
  have hbelow : ∀ i, i < entries.length →
      (0 < keyCompare (some key) (n.rawKey (n.recordMetadata i)) ↔ i < c) := by
    intro i hi
    rw [hkey i hi, ← ht.iff_lt (List.getElem?_eq_getElem hi), below, decide_eq_true_iff]
  have hzero : ∀ i, i < entries.length →
      keyCompare (some key) (n.rawKey (n.recordMetadata i)) = 0 → i = c := by
    intro i hi hz
    rw [hkey i hi] at hz
    exact h.eq_countP ht (List.getElem?_eq_getElem hi) hz
  have hloop := childIndexLoop_spec true (n.sortedCount + 2) 0 (n.sortedCount - 1) hbelow hzero
    hpos (Int.le_refl 0) (by omega) (by omega) (by omega) (fun hlt _ => by omega) (by omega)
  rw [BaseNode.getChildIndex, hloop, if_neg (by simp)]
  omega

theorem WellFormed.childFor (h : n.WellFormed S entries)
    (ht : Threshold (fun e => below key e.key) entries) :
    n.childFor key = route key entries := by
  set c := entries.countP fun e => below key e.key with hc
  have hpos : 0 < c := h.countP_pos
  have hle : c ≤ entries.length := List.countP_le_length
  have hlt : c - 1 < entries.length := by omega
  have hlast : entries[c - 1]? = some entries[c - 1] := List.getElem?_eq_getElem hlt
  rw [BaseNode.childFor, h.getChildIndex ht, route, lastOf, ← hc, hlast, Option.map_some]
  exact h.stores.getChildByMetaIndex hlast

end Search

end BaseNode

end HashComp.BzTree
