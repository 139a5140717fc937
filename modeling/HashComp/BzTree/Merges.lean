import HashComp.BzTree.Siblings
import HashComp.BzTree.LeafMerges

namespace HashComp.BzTree

open HashComp.ByteMemory

namespace BaseNode

structure InnerSiblings (S : Set (List Byte)) (parent left right : BaseNode)
    (P Q L R : List Entry) (l r d : Entry) : Prop where
  parentOk : parent.WellFormed S (P ++ l :: r :: Q)
  leftOk : left.WellFormed S L
  rightOk : right.WellFormed S (d :: R)
  below : ∀ e ∈ L.tail, Before e.key r.key
  above : ∀ e ∈ R, Before r.key e.key
  fits : nodeSize (L ++ ⟨r.key, d.payload⟩ :: R) ≤ 2 ^ 27

structure LeafSiblings (S : Set (List Byte)) (parameters : ParameterSet)
    (parent left right : BaseNode) (P Q : List Entry) (l r : Entry) : Prop where
  parentOk : parent.WellFormed S (P ++ l :: r :: Q)
  leftOk : left.LeafOk S parameters
  rightOk : right.LeafOk S parameters
  below : ∀ e ∈ left.visibleEntries, ¬Before r.key e.key
  above : ∀ e ∈ right.visibleEntries, Before r.key e.key
  fits : nodeSize (left.visibleEntries ++ right.visibleEntries) ≤ left.size

/-- The node that takes part in `CheckMerge` first is the left one or the right one. -/
def Merges (left right parent : BaseNode) (i : Nat) (newNode : Addr) (n p : BaseNode) : Prop :=
  mergedNodes left right parent i (i + 1) newNode = some (n, p) ∧
    mergedNodes right left parent (i + 1) i newNode = some (n, p)

/-- Merges of siblings with keys of `S` give nodes in order, filled by their records, in
which each key of `S` gets to where it got before. -/
structure MergePreserves (S : Set (List Byte)) : Prop where
  inner : ∀ parent left right P Q L R l r d newNode,
    InnerSiblings S parent left right P Q L R l r d → ∃ n p,
      Merges left right parent P.length newNode n p ∧
        n.WellFormed S (L ++ ⟨r.key, d.payload⟩ :: R) ∧
        p.WellFormed S (P ++ ⟨l.key, BitVec.ofNat 64 newNode⟩ :: Q) ∧
        ∀ key ∈ S, reach childFor (mergedAt P.length n) p key =
          reach childFor (siblingsAt P.length left right) parent key
  leaf : ∀ parameters parent left right P Q l r newNode,
    LeafSiblings S parameters parent left right P Q l r → ∃ n p entries,
      Merges left right parent P.length newNode n p ∧ n.LeafOk S parameters ∧
        n.Packed entries ∧ entries.Pairwise (fun e e' => Before e.key e'.key) ∧
        p.WellFormed S (P ++ ⟨l.key, BitVec.ofNat 64 newNode⟩ :: Q) ∧
        ∀ key ∈ S, reach read (mergedAt P.length n) p key =
          reach read (siblingsAt P.length left right) parent key

section Merge

variable {S : Set (List Byte)} {parameters : ParameterSet} {parent left right n p : BaseNode}
  {P Q L R : List Entry} {l r d : Entry} {newNode : Addr} {k : List Byte}

theorem WellFormed.separator (h : parent.WellFormed S (P ++ l :: r :: Q)) :
    r.key ∈ S ∧ r.key ≠ [] := by
  refine h.separated.members r.key ?_
  cases P <;> simp

theorem merges_iff (h : parent.Stores (P ++ l :: r :: Q)) (hsame : left.isLeaf = right.isLeaf) :
    Merges left right parent P.length newNode n p ↔
      (if left.isLeaf then mergeLeafNodes left right
        else mergeInternalNodes left right r.key) = some n ∧
      parent.deleteRecord P.length (BitVec.ofNat 64 newNode) = some p := by
  have hkey : (parent.rawKey (parent.recordMetadata (P.length + 1))).getD [] = r.key := by
    have hr : (P ++ l :: r :: Q)[P.length + 1]? = some r := by simp
    rw [h.rawKey hr]
    by_cases hnil : r.key = []
    · rw [if_pos hnil, hnil]
      rfl
    · rw [if_neg hnil]
      rfl
  have hinner := h.inner
  have hlt : ¬P.length + 1 < P.length := by omega
  simp only [Merges, mergedNodes, hlt, Nat.lt_succ_self, decide_true, decide_false, if_true,
    Bool.false_eq_true, if_false, hkey, hsame, hinner, ne_eq, not_true_eq_false, or_self, and_self,
    Option.bind_eq_some_iff, Option.map_eq_some_iff, Prod.mk.injEq]
  constructor
  · rintro ⟨n', hn, p', hp, rfl, rfl⟩
    exact ⟨hn, hp⟩
  · rintro ⟨hn, hp⟩
    exact ⟨n, hn, p, hp, rfl, rfl⟩

theorem InnerSiblings.preserves (h : InnerSiblings S parent left right P Q L R l r d)
    (hord : OrdersKeys S) (hS : ∀ k ∈ S, k.length < 2 ^ 31) (newNode : Addr) :
    ∃ n p, Merges left right parent P.length newNode n p ∧
      n.WellFormed S (L ++ ⟨r.key, d.payload⟩ :: R) ∧
      p.WellFormed S (P ++ ⟨l.key, BitVec.ofNat 64 newNode⟩ :: Q) ∧
      ∀ key ∈ S, reach childFor (mergedAt P.length n) p key =
        reach childFor (siblingsAt P.length left right) parent key := by
  obtain ⟨hk, hne⟩ := h.parentOk.separator
  have hd : d.key = [] := Option.some.inj h.rightOk.separated.dummy
  have hR : ∀ e ∈ R, e.key ≠ [] := fun e he =>
    (h.rightOk.separated.members e.key (List.mem_map_of_mem he)).2
  obtain ⟨n, hn, hstores⟩ := mergeInternalNodes_spec r.key h.leftOk.stores h.rightOk.stores hd hR
  obtain ⟨p, hp, hpstores⟩ := deleteRecord_spec h.parentOk.stores (BitVec.ofNat 64 newNode)
  have hleaf : left.isLeaf = right.isLeaf := by rw [h.leftOk.stores.inner, h.rightOk.stores.inner]
  have hsmall : n.size ≤ 2 ^ 27 := by
    rw [hstores.size]
    exact h.fits
  have hnOk := WellFormed.merged hstores hsmall h.leftOk h.rightOk hk hne h.below h.above hord hS
  have hpOk := h.parentOk.deleted hpstores
  refine ⟨n, p, (merges_iff h.parentOk.stores hleaf).mpr ⟨?_, hp⟩, hnOk, hpOk, fun key hkey => ?_⟩
  · rw [h.leftOk.stores.inner, if_neg Bool.false_ne_true, hn]
  · exact reach_merged h.parentOk hpOk hord hS hkey
      (childFor_merged hnOk h.leftOk h.rightOk hord hS hkey)

theorem LeafSiblings.preserves (h : LeafSiblings S parameters parent left right P Q l r)
    (hord : OrdersKeys S) (hS : ∀ k ∈ S, k.length < 2 ^ 31)
    (hnil : [] ∈ S → ∀ k ∈ S, k = []) (newNode : Addr) :
    ∃ n p entries, Merges left right parent P.length newNode n p ∧ n.LeafOk S parameters ∧
      n.Packed entries ∧ entries.Pairwise (fun e e' => Before e.key e'.key) ∧
      p.WellFormed S (P ++ ⟨l.key, BitVec.ofNat 64 newNode⟩ :: Q) ∧
      ∀ key ∈ S, reach read (mergedAt P.length n) p key =
        reach read (siblingsAt P.length left right) parent key := by
  obtain ⟨hk, hne⟩ := h.parentOk.separator
  have hkeys : ∀ e ∈ left.visibleEntries ++ right.visibleEntries, e.key ≠ [] := by
    intro e he hempty
    have hS : e.key ∈ S := (List.mem_append.mp he).elim (h.leftOk.members e) (h.rightOk.members e)
    rw [hempty] at hS
    exact hne (hnil hS r.key hk)
  obtain ⟨n, entries, hn, hnOk, hpacked, hasc, hperm⟩ := mergeLeafNodes_spec h.leftOk h.rightOk
    hord hS hkeys hk h.below h.above h.fits
  obtain ⟨p, hp, hpstores⟩ := deleteRecord_spec h.parentOk.stores (BitVec.ofNat 64 newNode)
  have hleaf : left.isLeaf = right.isLeaf := by rw [h.leftOk.isLeaf, h.rightOk.isLeaf]
  have hpOk := h.parentOk.deleted hpstores
  refine ⟨n, p, entries, (merges_iff h.parentOk.stores hleaf).mpr ⟨?_, hp⟩, hnOk, hpacked, hasc,
    hpOk, fun key hkey => ?_⟩
  · rw [h.leftOk.isLeaf, if_pos rfl, hn]
  · rw [← hpacked.visibleEntries] at hperm
    exact reach_merged h.parentOk hpOk hord hS hkey
      (read_merged hnOk h.leftOk h.rightOk hperm hne h.below h.above)

end Merge

section Failures

variable {S : Set (List Byte)} {k s x y : List Byte}

theorem exists_wellFormed (hk : k ∈ S) (hne : k ≠ []) (hlen : k.length ≤ 65520) :
    ∃ n : BaseNode, n.WellFormed S [⟨[], 0⟩, ⟨k, 0⟩] := by
  obtain ⟨n, -, hn⟩ := exists_stores [⟨[], 0⟩, ⟨k, 0⟩]
  have hpad := padKeyLength_le hlen
  refine ⟨n, hn, ⟨rfl, fun a ha => ?_, List.pairwise_singleton _ _⟩, ?_⟩
  · rw [List.mem_singleton.mp ha]
    exact ⟨hk, hne⟩
  · rw [hn.size]
    simp only [nodeSize, recordSpace_cons, recordSpace_nil, Entry.totalLength, List.length_cons,
      List.length_nil, padKeyLength] at hpad ⊢
    omega

theorem MergePreserves.not_crossed (h : MergePreserves S) (hS : ∀ k ∈ S, k.length ≤ 65520)
    (hs : s ∈ S) (hx : x ∈ S) (hy : y ∈ S) : ¬Crossed s x y := by
  intro hcross
  obtain ⟨hxy, hys, hsx⟩ := hcross.cycle
  obtain ⟨parent, hparent⟩ := exists_wellFormed hy hxy.ne_nil (hS y hy)
  obtain ⟨left, hleft⟩ := exists_wellFormed hx hsx.ne_nil (hS x hx)
  obtain ⟨right, hright⟩ := exists_wellFormed hs hys.ne_nil (hS s hs)
  have hsiblings : InnerSiblings S parent left right [] [] [⟨[], 0⟩, ⟨x, 0⟩] [⟨s, 0⟩] ⟨[], 0⟩
      ⟨y, 0⟩ ⟨[], 0⟩ := by
    refine ⟨hparent, hleft, hright, ?_, ?_, ?_⟩
    · intro e he
      rw [List.mem_singleton.mp he]
      exact hxy
    · intro e he
      rw [List.mem_singleton.mp he]
      exact hys
    · have hpx := padKeyLength_le (hS x hx)
      have hpy := padKeyLength_le (hS y hy)
      have hps := padKeyLength_le (hS s hs)
      have hzero : padKeyLength ([] : List Byte).length = 0 := rfl
      simp only [nodeSize, recordSpace_cons, recordSpace_nil, recordSpace_append,
        Entry.totalLength, List.length_append, List.length_cons, hzero] at hpx hpy hps ⊢
      simp only [List.length_nil]
      omega
  obtain ⟨n, p, -, hn, -⟩ := h.inner _ _ _ _ _ _ _ _ _ _ 0 hsiblings
  have hasc : [x, y, s].Pairwise Before := hn.separated.ascending
  have hxs : Before x s := (List.pairwise_cons.mp hasc).1 s (by simp)
  exact hxs.asymm hsx

theorem before_of_nil (h : k ≠ []) : Before [] k := by
  obtain ⟨b, bs, rfl⟩ := List.exists_cons_of_ne_nil h
  rw [before_iff_of_short (Or.inl (by simp))]
  exact List.nil_lt_cons _ _

theorem mergeLeafNodes_of_nil {left right : BaseNode} {w : Word} (h : left.Packed [⟨[], w⟩]) :
    mergeLeafNodes left right = none := by
  obtain ⟨offset, -, hm⟩ := h.record (i := 0) rfl
  have hcount : left.status.recordCount = 1 := by
    rw [h.status]
    rfl
  have hsorted : left.sortedMetadata = [left.recordMetadata 0] := by
    rw [sortedMetadata, hcount]
    simp [RecordMetadata.isVisible, hm]
  have hrow : left.keyRow (left.recordMetadata 0) = none := by
    rw [hm]
    simp [keyRow, rawKey, padKeyLength]
  rw [mergeLeafNodes, hsorted, List.map_singleton, hrow]
  rfl

theorem MergePreserves.not_nil (h : MergePreserves S) (hS : ∀ k ∈ S, k.length ≤ 65520)
    (hnil : [] ∈ S) (hk : k ∈ S) : k = [] := by
  by_contra hne
  obtain ⟨parent, hparent⟩ := exists_wellFormed hk hne (hS k hk)
  have hrow : Carries (some (childRow [] 8 0)) ⟨[], 0⟩ := carries_childRow
  have hfull : nodeSize [⟨[], 0⟩] ≤ 4096 := by decide
  have hempty : nodeSize [] ≤ 4096 := by decide
  obtain ⟨left, -, hsize, hleft⟩ := copyFrom_spec (.cons hrow .nil) hfull
  obtain ⟨right, -, hsize', hright⟩ := copyFrom_spec .nil hempty
  have hmem : ∀ e ∈ [Entry.mk [] 0], e.key ∈ S := by
    intro e he
    rw [List.mem_singleton.mp he]
    exact hnil
  have hsiblings : LeafSiblings S .default parent left right [] [] ⟨[], 0⟩ ⟨k, 0⟩ := by
    refine ⟨hparent, hleft.leafOk hsize hmem (List.pairwise_singleton _ _),
      hright.leafOk hsize' (fun e he => absurd he List.not_mem_nil) .nil, ?_, ?_, ?_⟩
    · rw [hleft.visibleEntries]
      intro e he
      rw [List.mem_singleton.mp he]
      exact (before_of_nil hne).asymm
    · rw [hright.visibleEntries]
      exact fun e he => absurd he List.not_mem_nil
    · rw [hleft.visibleEntries, hright.visibleEntries, hsize]
      decide
  obtain ⟨n, p, entries, hmerges, -⟩ := h.leaf _ _ _ _ _ _ _ _ 0 hsiblings
  have hn := ((merges_iff hparent.stores (hleft.isLeaf.trans hright.isLeaf.symm)).mp hmerges).1
  rw [hleft.isLeaf, if_pos rfl, mergeLeafNodes_of_nil hleft] at hn
  cases hn

end Failures

/-- Merges preserve the lookups of a set of keys exactly if `KeyCompare` orders these keys
and none of them is empty, or all are. -/
theorem mergePreserves_iff {S : Set (List Byte)} (hS : ∀ k ∈ S, k.length ≤ 65520) :
    MergePreserves S ↔ OrdersKeys S ∧ ([] ∈ S → ∀ k ∈ S, k = []) := by
  have hsize : ∀ k ∈ S, k.length < 2 ^ 31 := fun k hk => by
    have := hS k hk
    omega
  constructor
  · intro h
    refine ⟨ordersKeys_of_not_crossed hsize fun s hs x hx y hy => h.not_crossed hS hs hx hy,
      fun hnil k hk => h.not_nil hS hnil hk⟩
  · rintro ⟨hord, hnil⟩
    refine ⟨fun _ _ _ _ _ _ _ _ _ _ newNode h => ?_, fun _ _ _ _ _ _ _ _ newNode h => ?_⟩
    · exact h.preserves hord hsize newNode
    · exact h.preserves hord hsize hnil newNode

theorem mergePreserves_short : (∀ k ∈ ({[1], [2, 3]} : Set (List Byte)), k.length ≤ 65520) ∧
    MergePreserves {[1], [2, 3]} := by
  have hS : ∀ k ∈ ({[1], [2, 3]} : Set (List Byte)), k.length < 16 := by
    rintro k (rfl | rfl) <;> decide
  have hsize : ∀ k ∈ ({[1], [2, 3]} : Set (List Byte)), k.length ≤ 65520 :=
    fun k hk => Nat.le_trans (Nat.le_of_lt (hS k hk)) (by decide)
  refine ⟨hsize, (mergePreserves_iff hsize).mpr ⟨ordersKeys_of_not_crossed (fun k hk => ?_) ?_, ?_⟩⟩
  · exact Nat.lt_trans (hS k hk) (by decide)
  · exact fun s _ x hx y _ hcross => Nat.not_lt.mpr hcross.long.1 (hS x hx)
  · rintro (h | h) <;> cases h

/-- A merge puts the separators 0x7f.., 0x80.. and 0x00 into one node, where the search for
the last one goes wrong. -/
theorem merge_misroutes :
    ((nodeOf [⟨[], 1⟩, ⟨List.replicate 16 0x80, 2⟩]).bind fun parent =>
      (nodeOf [⟨[], 11⟩, ⟨List.replicate 16 0x7f, 12⟩]).bind fun left =>
        (nodeOf [⟨[], 13⟩, ⟨[0], 14⟩]).bind fun right =>
          (mergedNodes left right parent 0 1 3).map fun (n, p) =>
            (reach childFor (siblingsAt 0 left right) parent [0],
              reach childFor (mergedAt 0 n) p [0])) =
        some (.inr (some 13), .inr (some 11)) ∧
      ¬MergePreserves {k | k.length ≤ 65520} := by
  refine ⟨by decide +kernel, fun h => ?_⟩
  exact h.not_crossed (fun _ hk => hk) (by decide : [(0 : Byte)].length ≤ 65520)
    (by decide : (List.replicate 16 (0x7f : Byte)).length ≤ 65520)
    (by decide : (List.replicate 16 (0x80 : Byte)).length ≤ 65520) crossed_bytes

end BaseNode

end HashComp.BzTree
