import HashComp.IndexBtree.Insertion

namespace HashComp.IndexBtree

open HashComp.CheckedLoops
open HashComp.Separators

def keysOf (n : BtNode) : List Nat :=
  (List.range n.numKeys).map n.keys.slot

def entriesOf (n : BtNode) : List (Nat × Option Addr) :=
  (List.range n.numKeys).map fun i => (n.keys.slot i, n.pointers.slot i)

def childrenOf (n : BtNode) : List (Option Addr) :=
  (List.range (n.numKeys + 1)).map n.pointers.slot

/-- A full node whose keys ascend, and the next allocation gives a new address. -/
structure FullNode (s : Btree) (a : Addr) (n : BtNode) : Prop where
  node : s.nodes a = some n
  full : n.numKeys = order - 1
  sorted : ∀ i j, i < j → j < n.numKeys → n.keys.slot i < n.keys.slot j
  fresh : s.nodes s.fresh = none

/-- The children of a full inner node and the one that comes to them are nodes of the tree
other than the node itself. -/
structure FullInner (s : Btree) (a : Addr) (n : BtNode) (right : Addr) : Prop
    extends FullNode s a n where
  child : ∀ i, i ≤ n.numKeys → ∃ c m, n.pointers.slot i = some c ∧ s.nodes c = some m ∧ c ≠ a
  right : right ≠ a ∧ ∃ m, s.nodes right = some m

/-- `left` and `right` share the entries of the leaf `n` and the new one. -/
structure LeafShares (n left right : BtNode) (key : Nat) (item : Addr) (promoted : Nat) :
    Prop where
  entries : ∃ point, point ≤ n.numKeys ∧
    entriesOf left ++ entriesOf right = (entriesOf n).insertIdx point (key, some item)
  sorted : (keysOf left ++ keysOf right).Pairwise (· < ·)
  below : ∀ k ∈ keysOf left, k < promoted
  above : ∀ k ∈ keysOf right, promoted ≤ k
  room : left.numKeys ≤ order - 1 ∧ right.numKeys ≤ order - 1

/-- `left` and `right` share the children of the inner node `n` and the new one, and all the
keys but the one that goes to the parent. -/
structure InnerShares (n left right : BtNode) (leftIndex key : Nat) (child : Addr)
    (promoted : Nat) : Prop where
  keys : keysOf left ++ promoted :: keysOf right = (keysOf n).insertIdx leftIndex key
  children : childrenOf left ++ childrenOf right =
    (childrenOf n).insertIdx (leftIndex + 1) (some child)
  below : ∀ k ∈ keysOf left, k < promoted
  above : ∀ k ∈ keysOf right, promoted < k
  room : left.numKeys ≤ order - 1 ∧ right.numKeys ≤ order - 1

section Lists

variable {α β : Type*} {f g : Nat → α} {u : Nat → β} {p m k n : Nat} {v : α} {w : β}

theorem map_range_insertAt (hp : p ≤ n) :
    (List.range (n + 1)).map (insertAt f p v) = ((List.range n).map f).insertIdx p v := by
  refine List.ext_getElem ?_ fun i hi hi' => ?_
  · simp [List.length_insertIdx, hp]
  · rw [List.getElem_map, List.getElem_range, List.getElem_insertIdx, insertAt]
    split
    · rw [List.getElem_map, List.getElem_range]
    · split
      · rfl
      · rw [List.getElem_map, List.getElem_range]

theorem insertAt_pair (i : Nat) :
    (insertAt f p v i, insertAt u p w i) = insertAt (fun i => (f i, u i)) p (v, w) i := by
  rw [insertAt, insertAt, insertAt]
  split
  · rfl
  · split <;> rfl

theorem map_range_append {h : Nat → α} (hf : ∀ i, i < m → f i = h i)
    (hg : ∀ i, i < k → g i = h (m + i)) :
    (List.range m).map f ++ (List.range k).map g = (List.range (m + k)).map h := by
  rw [List.range_add, List.map_append, List.map_map]
  congr 1
  · exact List.map_congr_left fun i hi => hf i (List.mem_range.mp hi)
  · exact List.map_congr_left fun i hi => hg i (List.mem_range.mp hi)

end Lists

section Splits

variable {s : Btree} {a : Addr} {n left right : BtNode} {item child : Addr}
  {key leftIndex k : Nat}

theorem mem_keysOf : k ∈ keysOf n ↔ ∃ i, i < n.numKeys ∧ n.keys.slot i = k := by
  simp only [keysOf, List.mem_map, List.mem_range]

theorem mem_childrenOf {c : Option Addr} :
    c ∈ childrenOf n ↔ ∃ i, i ≤ n.numKeys ∧ n.pointers.slot i = c := by
  simp only [childrenOf, List.mem_map, List.mem_range, Nat.lt_succ_iff]

theorem FullNode.ne_fresh (h : FullNode s a n) : a ≠ s.fresh := by
  rintro rfl
  cases h.fresh.symm.trans h.node

theorem LeafShares.of_slots {p : Nat} (hp : p ≤ n.numKeys) (hfull : n.numKeys = order - 1)
    (hsorted : ∀ i j, i < j → j < order →
      insertAt n.keys.slot p key i < insertAt n.keys.slot p key j)
    (hl : left.numKeys = 8) (hr : right.numKeys = 8)
    (hlk : ∀ i, i < 8 → left.keys.slot i = insertAt n.keys.slot p key i)
    (hlp : ∀ i, i < 8 → left.pointers.slot i = insertAt n.pointers.slot p (some item) i)
    (hrk : ∀ i, i < 8 → right.keys.slot i = insertAt n.keys.slot p key (8 + i))
    (hrp : ∀ i, i < 8 → right.pointers.slot i = insertAt n.pointers.slot p (some item) (8 + i)) :
    LeafShares n left right key item (insertAt n.keys.slot p key 8) := by
  have horder : order = 16 := rfl
  constructor
  case entries =>
    refine ⟨p, hp, ?_⟩
    rw [entriesOf, entriesOf, entriesOf, ← map_range_insertAt hp, hfull, hl, hr]
    refine map_range_append (fun i hi => ?_) fun i hi => ?_
    · rw [← insertAt_pair, hlk i hi, hlp i hi]
    · rw [← insertAt_pair, hrk i hi, hrp i hi]
  case sorted =>
    rw [keysOf, keysOf, hl, hr, map_range_append hlk hrk, List.pairwise_map]
    exact (List.pairwise_lt_range (n := 16)).imp_of_mem fun _ hj hij =>
      hsorted _ _ hij (List.mem_range.mp hj)
  case below =>
    intro k hk
    obtain ⟨i, hi, rfl⟩ := mem_keysOf.mp hk
    rw [hlk i (by omega)]
    exact hsorted i 8 (by omega) (by omega)
  case above =>
    intro k hk
    obtain ⟨i, hi, rfl⟩ := mem_keysOf.mp hk
    rw [hrk i (by omega)]
    rcases Nat.eq_zero_or_pos i with rfl | hpos
    · exact Nat.le_refl _
    · exact Nat.le_of_lt (hsorted 8 (8 + i) (by omega) (by omega))
  case room => exact ⟨by omega, by omega⟩

theorem InnerShares.of_slots (hidx : leftIndex ≤ n.numKeys) (hfull : n.numKeys = order - 1)
    (hsorted : ∀ i j, i < j → j < order →
      insertAt n.keys.slot leftIndex key i < insertAt n.keys.slot leftIndex key j)
    (hl : left.numKeys = 7) (hr : right.numKeys = 8)
    (hlk : ∀ i, i < 7 → left.keys.slot i = insertAt n.keys.slot leftIndex key i)
    (hlp : ∀ i, i ≤ 7 →
      left.pointers.slot i = insertAt n.pointers.slot (leftIndex + 1) (some child) i)
    (hrk : ∀ i, i < 8 → right.keys.slot i = insertAt n.keys.slot leftIndex key (8 + i))
    (hrp : ∀ i, i ≤ 8 →
      right.pointers.slot i = insertAt n.pointers.slot (leftIndex + 1) (some child) (8 + i)) :
    InnerShares n left right leftIndex key child (insertAt n.keys.slot leftIndex key 7) := by
  have horder : order = 16 := rfl
  constructor
  case keys =>
    rw [keysOf, keysOf, keysOf, ← map_range_insertAt hidx, hfull, hl, hr]
    have hlast : [insertAt n.keys.slot leftIndex key 7] =
        (List.range 1).map fun i => insertAt n.keys.slot leftIndex key (7 + i) := rfl
    rw [← List.singleton_append, ← List.append_assoc, hlast,
      map_range_append (h := insertAt n.keys.slot leftIndex key) hlk fun _ _ => rfl]
    exact map_range_append (fun _ _ => rfl) hrk
  case children =>
    rw [childrenOf, childrenOf, childrenOf, ← map_range_insertAt (by omega), hfull, hl, hr]
    exact map_range_append (fun i hi => hlp i (Nat.le_of_lt_succ hi))
      fun i hi => hrp i (Nat.le_of_lt_succ hi)
  case below =>
    intro k hk
    obtain ⟨i, hi, rfl⟩ := mem_keysOf.mp hk
    rw [hlk i (by omega)]
    exact hsorted i 7 (by omega) (by omega)
  case above =>
    intro k hk
    obtain ⟨i, hi, rfl⟩ := mem_keysOf.mp hk
    rw [hrk i (by omega)]
    exact hsorted 7 (8 + i) (by omega) (by omega)
  case room => exact ⟨by omega, by omega⟩

theorem splitLeaf_shares (item : Addr) (h : FullNode s a n) (hkey : key ∉ keysOf n) :
    ∃ s' l r promoted, splitLeaf s a key item = .ok (s', promoted, s.fresh) ∧
      s'.nodes a = some l ∧ s'.nodes s.fresh = some r ∧ LeafShares n l r key item promoted := by
  have hfull := h.full
  obtain ⟨p, hp, hbelow, habove, keys, pointers, keys', pointers', hsplit, hk, hptr, hk', hptr'⟩ :=
    splitLeaf_spec key item h.node h.ne_fresh h.full
  have hlt : ∀ i, p ≤ i → i < n.numKeys → key < n.keys.slot i := by
    intro i hpi hi
    have hp' : key < n.keys.slot p :=
      Nat.lt_of_le_of_ne (habove (by omega)) fun heq => hkey (mem_keysOf.mpr ⟨p, by omega, heq.symm⟩)
    rcases Nat.eq_or_lt_of_le hpi with rfl | hpi
    · exact hp'
    · exact Nat.lt_trans hp' (h.sorted p i hpi hi)
  have hsorted := insertAt_sorted h.sorted hp hbelow hlt
  rw [hfull] at hsorted
  refine ⟨_, _, _, _, hsplit, (Btree.put_nodes_of_ne h.ne_fresh).trans Btree.put_nodes_self,
    Btree.put_nodes_self, ?_⟩
  exact .of_slots hp hfull hsorted rfl rfl hk hptr hk' hptr'

theorem splitInner_shares (h : FullInner s a n child) (hidx : leftIndex ≤ n.numKeys)
    (hbelow : ∀ i, i < leftIndex → n.keys.slot i < key)
    (habove : ∀ i, leftIndex ≤ i → i < n.numKeys → key < n.keys.slot i) :
    ∃ s' l r promoted, splitInner s a leftIndex key child = .ok (s', promoted, s.fresh) ∧
      s'.nodes a = some l ∧ s'.nodes s.fresh = some r ∧
      InnerShares n l r leftIndex key child promoted ∧
      (∀ c ∈ childrenOf r, ∃ x m, c = some x ∧ s.nodes x = some m ∧
        s'.nodes x = some { m with parent := some s.fresh }) ∧
      ∀ b, b ≠ a → b ≠ s.fresh → some b ∉ childrenOf r → s'.nodes b = s.nodes b := by
  have hfull := h.full
  have horder : order = 16 := rfl
  have hchild : ∀ i, i ≤ order → ∃ c m,
      insertAt n.pointers.slot (leftIndex + 1) (some child) i = some c ∧ s.nodes c = some m ∧
        c ≠ a := by
    obtain ⟨hne, m, hm⟩ := h.right
    intro i hi
    exact forall_insertAt (P := fun c => ∃ x m, c = some x ∧ s.nodes x = some m ∧ x ≠ a)
      (show leftIndex + 1 ≤ n.numKeys + 1 by omega)
      (fun j hj => h.child j (Nat.le_of_lt_succ hj)) ⟨child, m, rfl, hm, hne⟩ i (by omega)
  obtain ⟨keys, pointers, keys', pointers', r, s₁, s', hsplit, hr, hs₁, hadopt, hk, hptr, hk',
      hptr'⟩ :=
    splitInner_spec key child h.node h.ne_fresh hfull hidx fun i hi => by
      obtain ⟨c, m, hc, hm, -⟩ := hchild i hi
      exact ⟨c, m, hc, hm⟩
  have hnum : r.numKeys = 8 := by rw [hr]
  have hrp : ∀ i, i ≤ 8 →
      r.pointers.slot i = insertAt n.pointers.slot (leftIndex + 1) (some child) (8 + i) := by
    intro i hi
    rw [hr]
    exact hptr' i hi
  -- what the new node takes over is neither of the two nodes
  have hmoved : ∀ i, i ≤ 8 → ∃ c m, r.pointers.slot i = some c ∧ s.nodes c = some m ∧
      c ≠ a ∧ c ≠ s.fresh := by
    intro i hi
    obtain ⟨c, m, hc, hm, hca⟩ := hchild (8 + i) (by omega)
    refine ⟨c, m, (hrp i hi).trans hc, hm, hca, ?_⟩
    rintro rfl
    cases h.fresh.symm.trans hm
  have hkept : ∀ b, (∀ m, s.nodes b = some m → b = a ∨ b = s.fresh) → s'.nodes b = s₁.nodes b := by
    intro b hb
    refine hadopt.other b fun j hj hjb => ?_
    obtain ⟨c, m, hc, hm, hca, hcf⟩ := hmoved j (Nat.le_of_lt_succ hj)
    cases hjb.symm.trans hc
    rcases hb m hm with rfl | rfl
    · exact hca rfl
    · exact hcf rfl
  have hold : ∀ b, b ≠ a → b ≠ s.fresh → s₁.nodes b = s.nodes b := by
    intro b hba hbf
    rw [hs₁, Btree.put_nodes_of_ne hbf, Btree.put_nodes_of_ne hba, Btree.make_nodes_of_ne hbf]
  refine ⟨s', { n with keys, pointers, numKeys := 7, next := some s.fresh }, r, _, hsplit, ?_, ?_,
    ?_, fun c hc => ?_, fun b hba hbf hb => ?_⟩
  · rw [hkept a fun _ _ => .inl rfl, hs₁, Btree.put_nodes_of_ne h.ne_fresh, Btree.put_nodes_self]
  · rw [hkept s.fresh fun _ _ => .inr rfl, hs₁, Btree.put_nodes_self]
  · have hsorted := insertAt_sorted h.sorted hidx hbelow habove
    rw [hfull] at hsorted
    refine .of_slots hidx hfull hsorted rfl hnum hk hptr (fun i hi => ?_) hrp
    rw [hr]
    exact hk' i hi
  · obtain ⟨i, hi, rfl⟩ := mem_childrenOf.mp hc
    obtain ⟨x, m, hx, hm, hxa, hxf⟩ := hmoved i (by omega)
    exact ⟨x, m, hx, hm, hadopt.child i x m (by omega) hx (by rw [hold x hxa hxf, hm])⟩
  · rw [hadopt.other b fun j hj hjb => hb (mem_childrenOf.mpr ⟨j, by omega, hjb⟩), hold b hba hbf]

/-- Splits share out the entries and the children in order, wherever the new one goes. -/
theorem splits_keep_order :
    (∀ (s : Btree) (a : Addr) (n : BtNode) (key : Nat) (item : Addr),
      FullNode s a n → key ∉ keysOf n →
        ∃ s' l r promoted, splitLeaf s a key item = .ok (s', promoted, s.fresh) ∧
          s'.nodes a = some l ∧ s'.nodes s.fresh = some r ∧
          LeafShares n l r key item promoted) ∧
    ∀ (s : Btree) (a : Addr) (n : BtNode) (leftIndex key : Nat) (right : Addr),
      FullInner s a n right → leftIndex ≤ n.numKeys →
      (∀ i, i < leftIndex → n.keys.slot i < key) →
      (∀ i, leftIndex ≤ i → i < n.numKeys → key < n.keys.slot i) →
        ∃ s' l r promoted, splitInner s a leftIndex key right = .ok (s', promoted, s.fresh) ∧
          s'.nodes a = some l ∧ s'.nodes s.fresh = some r ∧
          InnerShares n l r leftIndex key right promoted ∧
          (∀ c ∈ childrenOf r, ∃ x m, c = some x ∧ s.nodes x = some m ∧
            s'.nodes x = some { m with parent := some s.fresh }) ∧
          ∀ b, b ≠ a → b ≠ s.fresh → some b ∉ childrenOf r → s'.nodes b = s.nodes b :=
  ⟨fun _ _ _ _ item h hkey => splitLeaf_shares item h hkey,
    fun _ _ _ _ _ _ h hidx hbelow habove => splitInner_shares h hidx hbelow habove⟩

theorem Shape.fullNode {B : Nat} {g : Plan} {hole : Option (Addr × Addr)} (h : Shape B s g hole)
    (ha : s.nodes a = some n) (hfull : n.numKeys = order - 1) : FullNode s a n :=
  ⟨ha, hfull, (h.nodes a n ha).keyed.sorted, h.fresh s.fresh (Nat.le_refl _)⟩

theorem Shape.fullInner {B : Nat} {g : Plan} {l r p : Addr} {ln pn : BtNode}
    (h : Shape B s g (some (l, r))) (hl : s.nodes l = some ln) (hlp : ln.parent = some p)
    (hp : s.nodes p = some pn) (hfull : pn.numKeys = order - 1) : FullInner s p pn r := by
  obtain ⟨⟨-, rn, -, hr, -⟩, hlevel, -, -⟩ := h.hole l r rfl
  obtain ⟨-, -, -, hpl, -⟩ := h.under hl hlp fun x hx => by
    cases hx
    exact h.hole_ne rfl
  refine ⟨h.fullNode hp hfull, fun i hi => ?_, ?_, rn, hr⟩
  · obtain ⟨c, hc, ⟨m, hm, -⟩, hcl, -⟩ := ((h.nodes p pn hp).inner (by omega)).2 i hi
    refine ⟨c, m, hc, hm, ?_⟩
    rintro rfl
    omega
  · rintro rfl
    omega

end Splits

section Example

def fullOfEven (isLeaf : Bool) : BtNode where
  pointers := ⟨fun i => some (i + 1)⟩
  isLeaf := isLeaf
  keys := ⟨fun i => 2 * i + 2⟩
  parent := none
  numKeys := 15
  next := none

def treeOfEven (isLeaf : Bool) : Btree where
  raw := fun _ => ⟨⟨fun _ => none⟩, ⟨fun _ => 0⟩⟩
  nodes := fun
    | 0 => some (fullOfEven isLeaf)
    | a + 1 => if a < 17 then some { fullOfEven true with numKeys := 0, parent := some 0 } else none
  fresh := 18
  root := 0
  itemNext := fun _ => none
  curLeaf := fun _ => none
  curIdx := fun _ => 0

theorem fullNode_treeOfEven (isLeaf : Bool) :
    FullNode (treeOfEven isLeaf) 0 (fullOfEven isLeaf) := by
  refine ⟨rfl, rfl, fun i j hij _ => ?_, rfl⟩
  show 2 * i + 2 < 2 * j + 2
  omega

theorem fullInner_treeOfEven : FullInner (treeOfEven false) 0 (fullOfEven false) 17 := by
  refine ⟨fullNode_treeOfEven false, fun i hi => ?_, by decide, _, rfl⟩
  have hlt : i < 17 := Nat.lt_of_le_of_lt hi (by decide)
  refine ⟨i + 1, { fullOfEven true with numKeys := 0, parent := some 0 }, rfl, ?_,
    Nat.succ_ne_zero i⟩
  exact if_pos hlt

theorem splits_treeOfEven :
    (∃ s' l r promoted, splitLeaf (treeOfEven true) 0 15 99 = .ok (s', promoted, 18) ∧
      s'.nodes 0 = some l ∧ s'.nodes 18 = some r ∧
      LeafShares (fullOfEven true) l r 15 99 promoted) ∧
    ∃ s' l r promoted, splitInner (treeOfEven false) 0 0 1 17 = .ok (s', promoted, 18) ∧
      s'.nodes 0 = some l ∧ s'.nodes 18 = some r ∧
      InnerShares (fullOfEven false) l r 0 1 17 promoted := by
  refine ⟨splits_keep_order.1 _ _ _ 15 99 (fullNode_treeOfEven true) (by decide), ?_⟩
  obtain ⟨s', l, r, promoted, hsplit, hl, hr, hshares, -⟩ :=
    splits_keep_order.2 _ _ _ 0 1 17 fullInner_treeOfEven (by decide)
      (fun i hi => absurd hi (Nat.not_lt_zero i)) fun i _ _ => by
        show 1 < 2 * i + 2
        omega
  exact ⟨s', l, r, promoted, hsplit, hl, hr, hshares⟩

end Example

end HashComp.IndexBtree
