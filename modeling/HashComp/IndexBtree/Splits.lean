import HashComp.IndexBtree.Slots

namespace HashComp.IndexBtree

open HashComp.CheckedLoops
open HashComp.Separators

section Nodes

variable {s : Btree} {a b : Addr} {n m : BtNode} {isLeaf : Bool}

theorem Btree.node_ok (h : s.nodes a = some n) : s.node a = .ok n := by
  rw [Btree.node, h]

@[simp] theorem Btree.put_nodes_self : (s.put a n).nodes a = some n :=
  Function.update_self ..

theorem Btree.put_nodes_of_ne (h : b ≠ a) : (s.put a n).nodes b = s.nodes b :=
  Function.update_of_ne h ..

@[simp] theorem Btree.make_nodes_fresh : (s.make isLeaf).nodes s.fresh = some (s.newNode isLeaf) :=
  Function.update_self ..

theorem Btree.make_nodes_of_ne (h : b ≠ s.fresh) : (s.make isLeaf).nodes b = s.nodes b :=
  Function.update_of_ne h ..

@[simp] theorem Btree.put_fresh : (s.put a n).fresh = s.fresh := rfl
@[simp] theorem Btree.put_root : (s.put a n).root = s.root := rfl
@[simp] theorem Btree.put_itemNext : (s.put a n).itemNext = s.itemNext := rfl
@[simp] theorem Btree.make_fresh : (s.make isLeaf).fresh = s.fresh + 1 := rfl
@[simp] theorem Btree.make_root : (s.make isLeaf).root = s.root := rfl
@[simp] theorem Btree.make_itemNext : (s.make isLeaf).itemNext = s.itemNext := rfl

end Nodes

theorem cut_leaf : cut (order - 1) = 8 := rfl

theorem cut_inner : cut order = 8 := rfl

section Leaf

variable {s : Btree} {leaf : Addr} {n : BtNode} {key : Nat} {item : Addr}

theorem splitLeaf_spec (key : Nat) (item : Addr) (hn : s.nodes leaf = some n) (hne : leaf ≠ s.fresh)
    (hfull : n.numKeys = order - 1) :
    ∃ p, p ≤ n.numKeys ∧ (∀ i, i < p → n.keys.slot i < key) ∧
      (p < n.numKeys → key ≤ n.keys.slot p) ∧
    ∃ keys pointers keys' pointers', splitLeaf s leaf key item =
        .ok (((s.make true).put leaf
          { n with keys, pointers, numKeys := 8, next := some s.fresh }).put s.fresh
          { s.newNode true with
            keys := keys', pointers := pointers', numKeys := 8, next := n.next, parent := n.parent },
          insertAt n.keys.slot p key 8, s.fresh) ∧
      (∀ i, i < 8 → keys.slot i = insertAt n.keys.slot p key i) ∧
      (∀ i, i < 8 → pointers.slot i = insertAt n.pointers.slot p (some item) i) ∧
      (∀ i, i < 8 → keys'.slot i = insertAt n.keys.slot p key (8 + i)) ∧
      ∀ i, i < 8 → pointers'.slot i = insertAt n.pointers.slot p (some item) (8 + i) := by
  have horder : order = 16 := rfl
  obtain ⟨p, hp, hple, hbelow, habove⟩ := insertionPoint_spec key (Nat.le_of_eq hfull)
  obtain ⟨tk, htk, hk⟩ := spread_spec n.keys key
    (⟨(s.raw s.fresh).keys.slot⟩ : Cells order Nat) (Nat.le_of_eq hfull) (by omega) hple
  obtain ⟨tp, htp, hptr⟩ := spread_spec n.pointers (some item)
    (⟨(s.raw s.fresh).pointers.slot⟩ : Cells order (Option Addr))
    (show n.numKeys ≤ order by omega) (by omega) hple
  obtain ⟨k₁, p₁, h₁, hk₁, hp₁⟩ := take_spec { n with numKeys := 0 } BtNode.numKeys tk tp 0 8 rfl
    (by omega) (by omega) (Nat.le_refl _) fun _ _ _ h => h
  obtain ⟨k₂, p₂, h₂, hk₂, hp₂⟩ := take_spec (s.newNode true) (fun _ => 8) tk tp 8 8 rfl (by omega)
    (by omega) (Nat.le_refl _) fun _ _ _ _ => by omega
  obtain ⟨p₃, h₃, hp₃⟩ := clearRest_spec
    (n := { n with keys := k₁, pointers := p₁, numKeys := 8, next := some s.fresh })
    (show 8 ≤ order - 1 by omega)
  obtain ⟨p₄, h₄, hp₄⟩ := clearRest_spec
    (n := { s.newNode true with keys := k₂, pointers := p₂, numKeys := 8, next := n.next })
    (show 8 ≤ order - 1 by omega)
  refine ⟨p, hple, hbelow, habove, k₁, p₃, k₂, p₄, ?_, fun i hi => ?_, fun i hi => ?_,
    fun i hi => ?_, fun i hi => ?_⟩
  · rw [splitLeaf, Btree.node_ok (by rw [Btree.make_nodes_of_ne hne, hn]), ok_bind, if_pos hfull, hp,
      ok_bind, htk, ok_bind, htp, ok_bind, cut_leaf, h₁, ok_bind,
      Btree.node_ok Btree.make_nodes_fresh, ok_bind, show order - 8 = 8 from rfl]
    dsimp only
    rw [h₂, ok_bind]
    dsimp only
    rw [h₃, ok_bind, h₄, ok_bind]
    dsimp only
    rw [Cells.read_ok (by omega), ok_bind, hk₂ 0 (by omega), hk 8 (by omega)]
  · rw [hk₁ i hi, Nat.zero_add, hk i (by omega)]
  · rw [hp₃ i hi]
    show p₁.slot i = _
    rw [hp₁ i hi, Nat.zero_add, hptr i (by omega)]
  · rw [hk₂ i hi, hk (8 + i) (by omega)]
  · rw [hp₄ i hi]
    show p₂.slot i = _
    rw [hp₂ i hi, hptr (8 + i) (by omega)]

end Leaf

section Inner

variable {s s' : Btree} {a q : Addr} {n m : BtNode} {i leftIndex key : Nat} {right : Addr}

/-- The children of `n` below the position `i` have `q` for their parent, and nothing
else has changed. -/
structure Adopted (n : BtNode) (q : Addr) (i : Nat) (s s' : Btree) : Prop where
  rest : s' = { s with nodes := s'.nodes }
  child : ∀ j c m, j < i → n.pointers.slot j = some c → s.nodes c = some m →
    s'.nodes c = some { m with parent := some q }
  other : ∀ a, (∀ j, j < i → n.pointers.slot j ≠ some a) → s'.nodes a = s.nodes a

theorem Adopted.zero : Adopted n q 0 s s :=
  ⟨rfl, fun _ _ _ h => absurd h (Nat.not_lt_zero _), fun _ _ => rfl⟩

theorem Adopted.cases (h : Adopted n q i s s') (hm : s.nodes a = some m) :
    s'.nodes a = some { m with parent := some q } ∨ s'.nodes a = some m := by
  rcases Classical.em (∃ j, j < i ∧ n.pointers.slot j = some a) with ⟨j, hj, hptr⟩ | hnone
  · exact Or.inl (h.child j a m hj hptr hm)
  · refine Or.inr ?_
    rw [h.other a fun j hj hptr => hnone ⟨j, hj, hptr⟩, hm]

theorem Adopted.step {c : Addr} (h : Adopted n q i s s') (hi : i < order)
    (hc : n.pointers.slot i = some c) (hm : s.nodes c = some m) :
    ∃ t, adoptChild q n i s' = .ok t ∧ Adopted n q (i + 1) s t := by
  obtain ⟨m', hm', hparent⟩ : ∃ m', s'.nodes c = some m' ∧
      { m' with parent := some q } = { m with parent := some q } := by
    rcases h.cases hm with h | h
    · exact ⟨_, h, rfl⟩
    · exact ⟨_, h, rfl⟩
  refine ⟨s'.put c { m' with parent := some q }, ?_, ?_, ?_, ?_⟩
  · rw [adoptChild, Cells.read_ok hi, ok_bind, hc, deref, ok_bind, Btree.node_ok hm', ok_bind]
  · rw [Btree.put, h.rest]
  · intro j c' m₁ hj hptr hm₁
    rcases eq_or_ne c' c with rfl | hne
    · rw [hm] at hm₁
      cases hm₁
      rw [Btree.put_nodes_self, hparent]
    · rw [Btree.put_nodes_of_ne hne]
      refine h.child j c' m₁ (Nat.lt_of_le_of_ne (Nat.le_of_lt_succ hj) ?_) hptr hm₁
      rintro rfl
      exact hne (Option.some.inj (hptr.symm.trans hc))
  · intro a ha
    have hne : a ≠ c := by
      rintro rfl
      exact ha i (Nat.lt_succ_self i) hc
    rw [Btree.put_nodes_of_ne hne]
    exact h.other a fun j hj => ha j (Nat.lt_succ_of_lt hj)

theorem adopt_spec (hn : n.numKeys < order)
    (hchild : ∀ i, i ≤ n.numKeys → ∃ c m, n.pointers.slot i = some c ∧ s.nodes c = some m) :
    ∃ s', adopt s q n = .ok s' ∧ Adopted n q (n.numKeys + 1) s s' :=
  forUp_spec (adoptChild q n) (fun i t => Adopted n q i s t) (Nat.zero_le _) Adopted.zero fun i t _ hi h => by
    obtain ⟨c, m, hc, hm⟩ := hchild i (Nat.le_of_lt_succ hi)
    exact h.step (by omega) hc hm

theorem splitInner_spec (key : Nat) (right : Addr) (hn : s.nodes a = some n) (hne : a ≠ s.fresh)
    (hfull : n.numKeys = order - 1) (hidx : leftIndex ≤ n.numKeys)
    (hchild : ∀ i, i ≤ order → ∃ c m,
      insertAt n.pointers.slot (leftIndex + 1) (some right) i = some c ∧ s.nodes c = some m) :
    ∃ keys pointers keys' pointers', ∃ r s₁ s', splitInner s a leftIndex key right =
        .ok (s', insertAt n.keys.slot leftIndex key 7, s.fresh) ∧
      r = { s.newNode false with
        keys := keys', pointers := pointers', numKeys := 8, next := n.next, parent := n.parent } ∧
      s₁ = ((s.make false).put a
        { n with keys, pointers, numKeys := 7, next := some s.fresh }).put s.fresh r ∧
      Adopted r s.fresh 9 s₁ s' ∧
      (∀ i, i < 7 → keys.slot i = insertAt n.keys.slot leftIndex key i) ∧
      (∀ i, i ≤ 7 → pointers.slot i = insertAt n.pointers.slot (leftIndex + 1) (some right) i) ∧
      (∀ i, i < 8 → keys'.slot i = insertAt n.keys.slot leftIndex key (8 + i)) ∧
      ∀ i, i ≤ 8 →
        pointers'.slot i = insertAt n.pointers.slot (leftIndex + 1) (some right) (8 + i) := by
  have horder : order = 16 := rfl
  obtain ⟨tp, htp, hptr⟩ := spread_spec n.pointers (some right)
    (⟨(s.raw s.fresh).pointers.slot⟩ : Cells (order + 1) (Option Addr))
    (show n.numKeys + 1 ≤ order by omega) (by omega)
    (show leftIndex + 1 ≤ n.numKeys + 1 by omega)
  obtain ⟨tk, htk, hk⟩ := spread_spec n.keys key
    (⟨(s.raw s.fresh).keys.slot⟩ : Cells order Nat) (Nat.le_of_eq hfull) (by omega) hidx
  obtain ⟨k₁, p₁, h₁, hk₁, hp₁⟩ := take_spec { n with numKeys := 0 } BtNode.numKeys tk tp 0 7 rfl
    (by omega) (by omega) (by omega) fun _ _ _ h => h
  obtain ⟨k₂, p₂, h₂, hk₂, hp₂⟩ := take_spec { s.newNode false with next := n.next } (fun _ => 7) tk tp
    8 8 rfl (by omega) (by omega) (by omega) fun _ _ _ _ => by omega
  have hlast : ∀ i, i ≤ 8 → (Function.update p₂.slot 8 (tp.slot order)) i =
      insertAt n.pointers.slot (leftIndex + 1) (some right) (8 + i) := by
    intro i hi
    rcases Nat.eq_or_lt_of_le hi with rfl | hlt
    · rw [Function.update_self]
      exact hptr order (by omega)
    · rw [Function.update_of_ne (by omega), hp₂ i hlt, hptr (8 + i) (by omega)]
  let n₁ : BtNode := { n with
    keys := k₁, pointers := ⟨Function.update p₁.slot 7 (tp.slot 7)⟩, numKeys := 7
    next := some s.fresh }
  let r : BtNode := { s.newNode false with
    keys := k₂, pointers := ⟨Function.update p₂.slot 8 (tp.slot order)⟩, numKeys := 8
    next := n.next, parent := n.parent }
  obtain ⟨s', hs', hadopted⟩ := adopt_spec (s := ((s.make false).put a n₁).put s.fresh r)
    (q := s.fresh) (n := r) (show 8 < order by omega) (by
      intro i hi
      obtain ⟨c, m, hc, hm⟩ := hchild (8 + i) (by have : r.numKeys = 8 := rfl; omega)
      refine ⟨c, ?_⟩
      have hcr : r.pointers.slot i = some c := (hlast i hi).trans hc
      rcases eq_or_ne c s.fresh with rfl | hfresh
      · exact ⟨r, hcr, Btree.put_nodes_self⟩
      · rcases eq_or_ne c a with rfl | hca
        · exact ⟨n₁, hcr, by rw [Btree.put_nodes_of_ne hfresh, Btree.put_nodes_self]⟩
        · refine ⟨m, hcr, ?_⟩
          rw [Btree.put_nodes_of_ne hfresh, Btree.put_nodes_of_ne hca, Btree.make_nodes_of_ne hfresh,
            hm])
  refine ⟨n₁.keys, n₁.pointers, r.keys, r.pointers, r, _, s', ?_, rfl, rfl, hadopted,
    fun i hi => ?_, fun i hi => ?_, fun i hi => ?_, hlast⟩
  · rw [splitInner, Btree.node_ok (by rw [Btree.make_nodes_of_ne hne, hn]), ok_bind, htp, ok_bind,
      htk, ok_bind, cut_inner, show 8 - 1 = 7 from rfl, h₁, ok_bind,
      Btree.node_ok Btree.make_nodes_fresh, ok_bind]
    dsimp only
    rw [Cells.read_ok (by omega), ok_bind, Cells.write_ok (by omega), ok_bind,
      Cells.read_ok (by omega), ok_bind, show order - 8 = 8 from rfl, h₂, ok_bind,
      Cells.read_ok (by omega), ok_bind, Cells.write_ok (by omega), ok_bind]
    dsimp only
    rw [hs', ok_bind, hk 7 (by omega)]
  · exact (hk₁ i hi).trans (by rw [Nat.zero_add, hk i (by omega)])
  · show Function.update p₁.slot 7 (tp.slot 7) i = _
    rcases Nat.eq_or_lt_of_le hi with rfl | hlt
    · rw [Function.update_self, hptr 7 (by omega)]
    · rw [Function.update_of_ne (by omega), hp₁ i hlt, Nat.zero_add, hptr i (by omega)]
  · exact (hk₂ i hi).trans (hk (8 + i) (by omega))

end Inner

end HashComp.IndexBtree
