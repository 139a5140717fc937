import HashComp.IndexBtree.Splits

namespace HashComp.IndexBtree

open HashComp.CheckedLoops
open HashComp.Separators

abbrev Nodes := Addr → Option BtNode

/-- The height of each node, and the keys it is for: those from `lo` and below `hi`. -/
structure Plan where
  level : Addr → Nat
  lo : Addr → Nat
  hi : Addr → Nat

/-- While the parent of `left` does not point to `right` yet, it takes `left` to be for
the keys of both. -/
def Plan.top (g : Plan) (hole : Option (Addr × Addr)) (c : Addr) : Nat :=
  match hole with
  | some (left, right) => if c = left then g.hi right else g.hi c
  | none => g.hi c

structure Child (nodes : Nodes) (g : Plan) (hole : Option (Addr × Addr)) (p : Addr) (lo hi : Nat)
    (c : Addr) : Prop where
  node : ∃ m, nodes c = some m ∧ m.parent = some p
  level : g.level c + 1 = g.level p
  lo : g.lo c = lo
  hi : g.top hole c = hi

def PointsTo (nodes : Nodes) (p c : Addr) : Prop :=
  ∃ m i, nodes p = some m ∧ i ≤ m.numKeys ∧ m.pointers.slot i = some c

structure Keyed (lo hi : Nat) (n : BtNode) : Prop where
  sorted : ∀ i j, i < j → j < n.numKeys → n.keys.slot i < n.keys.slot j
  within : ∀ i, i < n.numKeys → lo ≤ n.keys.slot i ∧ n.keys.slot i < hi

def Inner (nodes : Nodes) (g : Plan) (hole : Option (Addr × Addr)) (a : Addr) (n : BtNode) : Prop :=
  1 ≤ n.numKeys ∧
    Parts (Child nodes g hole a) (g.lo a) (g.hi a) n.keys.slot n.pointers.slot n.numKeys

/-- A leaf is the last one, or `next` leads to the leaf of the keys after its own. -/
def Linked (B : Nat) (nodes : Nodes) (g : Plan) (a : Addr) (n : BtNode) : Prop :=
  (n.next = none ∧ g.hi a = B) ∨
    ∃ b m, n.next = some b ∧ nodes b = some m ∧ g.level b = 0 ∧ g.lo b = g.hi a

structure NodeOk (B : Nat) (nodes : Nodes) (root : Addr) (g : Plan) (hole : Option (Addr × Addr))
    (a : Addr) (n : BtNode) : Prop where
  kind : n.isLeaf = true ↔ g.level a = 0
  range : g.lo a < g.hi a
  keyed : Keyed (g.lo a) (g.hi a) n
  filled : 1 ≤ n.numKeys ∨ (g.lo a = 0 ∧ g.hi a = B)
  inner : g.level a ≠ 0 → Inner nodes g hole a n
  linked : g.level a = 0 → Linked B nodes g a n
  le : g.level a ≤ g.level root
  parent : a ≠ root → (∀ l, hole ≠ some (l, a)) →
    ∃ p, n.parent = some p ∧ g.level p = g.level a + 1 ∧ PointsTo nodes p a

structure SplitOff (nodes : Nodes) (root : Addr) (g : Plan) (left right : Addr) : Prop where
  nodes : ∃ l r, nodes left = some l ∧ nodes right = some r ∧ r.parent = l.parent
  level : g.level right = g.level left
  hi : g.hi left = g.lo right
  root : right ≠ root

structure Shape (B : Nat) (s : Btree) (g : Plan) (hole : Option (Addr × Addr)) : Prop where
  nodes : ∀ a n, s.nodes a = some n → NodeOk B s.nodes s.root g hole a n
  fresh : ∀ a, s.fresh ≤ a → s.nodes a = none
  root : ∃ r, s.nodes s.root = some r ∧ r.parent = none
  rootLo : g.lo s.root = 0
  rootHi : g.top hole s.root = B
  depth : g.level s.root < s.fresh
  hole : ∀ l r, hole = some (l, r) → SplitOff s.nodes s.root g l r

section Facts

variable {B : Nat} {s s' : Btree} {nodes nodes' : Nodes} {g g' : Plan} {hole hole' : Option (Addr × Addr)}
  {a b c l r p : Addr} {n m : BtNode} {i j lo hi : Nat}

theorem Plan.top_none : g.top none c = g.hi c := rfl

theorem Plan.top_left : g.top (some (l, r)) l = g.hi r := if_pos rfl

theorem Plan.top_of_ne (h : c ≠ l) : g.top (some (l, r)) c = g.hi c := if_neg h

theorem Shape.lt_fresh (h : Shape B s g hole) (ha : s.nodes a = some n) : a < s.fresh := by
  refine Nat.lt_of_not_le fun hle => ?_
  rw [h.fresh a hle] at ha
  cases ha

theorem Shape.lo_lt_top (h : Shape B s g hole) (ha : s.nodes a = some n) : g.lo a < g.top hole a := by
  have hrange := (h.nodes a n ha).range
  cases hole with
  | none => exact hrange
  | some lr =>
      obtain ⟨l, r⟩ := lr
      rcases eq_or_ne a l with rfl | hne
      · have hoff := h.hole a r rfl
        obtain ⟨-, rn, -, hr, -⟩ := hoff.nodes
        have := (h.nodes r rn hr).range
        rw [Plan.top_left]
        exact Nat.lt_trans hrange (by rw [hoff.hi]; exact this)
      · rwa [Plan.top_of_ne hne]

theorem Shape.ptr_inj (h : Shape B s g hole) (ha : s.nodes a = some n) (hlevel : g.level a ≠ 0)
    (hi : i ≤ n.numKeys) (hj : j ≤ n.numKeys) (hpi : n.pointers.slot i = some c)
    (hpj : n.pointers.slot j = some c) : i = j := by
  have hok := h.nodes a n ha
  have hinner := (hok.inner hlevel).2
  -- the range of the child at the smaller index ends before that of the other one begins
  have key : ∀ i j, i < j → j ≤ n.numKeys → n.pointers.slot i = some c →
      n.pointers.slot j ≠ some c := by
    intro i j hij hj hpi hpj
    obtain ⟨x, hx, hi⟩ := hinner i (by omega)
    obtain ⟨y, hy, hj'⟩ := hinner j hj
    cases hpi.symm.trans hx
    cases hpj.symm.trans hy
    obtain ⟨m, hm, -⟩ := hi.node
    have hlt := h.lo_lt_top hm
    rw [hi.hi, hj'.lo, upper_of_ne (by omega)] at hlt
    obtain ⟨j, rfl⟩ := Nat.exists_eq_succ_of_ne_zero (n := j) (by omega)
    rw [lower_succ] at hlt
    rcases Nat.eq_or_lt_of_le (Nat.le_of_lt_succ hij) with rfl | hlt'
    · exact Nat.lt_irrefl _ hlt
    · exact Nat.lt_asymm hlt (hok.keyed.sorted i j hlt' hj)
  rcases Nat.lt_trichotomy i j with hlt | rfl | hgt
  · exact absurd hpj (key i j hlt hj hpi)
  · rfl
  · exact absurd hpi (key j i hgt hi hpj)

theorem Shape.root_ne (h : Shape B s g hole) (ha : s.nodes a = some n) (hp : n.parent = some p) :
    s.root ≠ a := by
  rintro rfl
  obtain ⟨r, hr, hnone⟩ := h.root
  rw [ha] at hr
  cases hr
  rw [hp] at hnone
  cases hnone

theorem Shape.under (h : Shape B s g hole) (ha : s.nodes a = some n) (hp : n.parent = some p)
    (hhole : ∀ l, hole ≠ some (l, a)) :
    ∃ pn i, s.nodes p = some pn ∧ g.level p = g.level a + 1 ∧ i ≤ pn.numKeys ∧
      pn.pointers.slot i = some a ∧
      Child s.nodes g hole p (lower (g.lo p) pn.keys.slot i)
        (upper (g.hi p) pn.keys.slot pn.numKeys i) a := by
  obtain ⟨p', hp', hlevel, pn, i, hpn, hi, hptr⟩ :=
    (h.nodes a n ha).parent (h.root_ne ha hp).symm hhole
  rw [hp] at hp'
  cases hp'
  obtain ⟨c, hc, hchild⟩ := ((h.nodes p pn hpn).inner (by omega)).2 i hi
  rw [hptr] at hc
  cases hc
  exact ⟨pn, i, hpn, hlevel, hi, hptr, hchild⟩

theorem Shape.hole_ne (h : Shape B s g (some (l, r))) : l ≠ r := by
  rintro rfl
  obtain ⟨⟨ln, -, hl, -⟩, -, hmid, -⟩ := h.hole l l rfl
  have := (h.nodes l ln hl).range
  omega

theorem Shape.child_of_hole {ln pn : BtNode} (h : Shape B s g (some (l, r)))
    (hl : s.nodes l = some ln) (hlp : ln.parent = some p) (hp : s.nodes p = some pn)
    (hj : j ≤ pn.numKeys) (hptr : pn.pointers.slot j = some l) :
    g.level p = g.level l + 1 ∧
      Child s.nodes g (some (l, r)) p (lower (g.lo p) pn.keys.slot j)
        (upper (g.hi p) pn.keys.slot pn.numKeys j) l := by
  obtain ⟨pn', i, hp', hpl, hi, hpi, hcl⟩ := h.under hl hlp fun x hx => by
    cases hx
    exact h.hole_ne rfl
  rw [hp] at hp'
  cases hp'
  obtain rfl := h.ptr_inj hp (by omega) hi hj hpi hptr
  exact ⟨hpl, hcl⟩

theorem Shape.parent_of_ptr (h : Shape B s g hole) (ha : s.nodes a = some n)
    (hlevel : g.level a ≠ 0) (hi : i ≤ n.numKeys) (hptr : n.pointers.slot i = some c) :
    ∃ m, s.nodes c = some m ∧ m.parent = some a ∧ g.level c + 1 = g.level a := by
  obtain ⟨x, hx, hchild⟩ := ((h.nodes a n ha).inner hlevel).2 i hi
  rw [hptr] at hx
  cases hx
  obtain ⟨m, hm, hp⟩ := hchild.node
  exact ⟨m, hm, hp, hchild.level⟩

theorem Child.frame (h : Child nodes g hole p lo hi c)
    (hnode : ∀ m, nodes c = some m → m.parent = some p →
      ∃ m', nodes' c = some m' ∧ m'.parent = some p)
    (hc : g'.level c = g.level c) (hp : g'.level p = g.level p) (hlo : g'.lo c = g.lo c)
    (hhi : g'.top hole' c = g.top hole c) : Child nodes' g' hole' p lo hi c := by
  obtain ⟨m, hm, hparent⟩ := h.node
  exact ⟨hnode m hm hparent, by rw [hc, hp, h.level], by rw [hlo, h.lo], by rw [hhi, h.hi]⟩

/-- The link of a leaf is good for a node whose keys end at the same place, while the
leaf after it and its plan stay. -/
theorem Linked.frame {n' : BtNode} (h : Linked B nodes g a n) (hnext : n'.next = n.next)
    (ha : g'.hi b = g.hi a)
    (hb : ∀ b m, nodes b = some m → (∃ m', nodes' b = some m') ∧ g'.level b = g.level b ∧
      g'.lo b = g.lo b) : Linked B nodes' g' b n' := by
  rcases h with ⟨hnone, hB⟩ | ⟨b, m, hnb, hm, hlevel, hlo⟩
  · exact Or.inl ⟨by rw [hnext, hnone], by rw [ha, hB]⟩
  · obtain ⟨⟨m', hm'⟩, hl, hlo'⟩ := hb b m hm
    exact Or.inr ⟨b, m', by rw [hnext, hnb], hm', by rw [hl, hlevel], by rw [hlo', hlo, ha]⟩

end Facts

end HashComp.IndexBtree
