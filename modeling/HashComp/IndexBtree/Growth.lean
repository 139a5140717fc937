import HashComp.IndexBtree.Shape

namespace HashComp.IndexBtree

open HashComp.CheckedLoops
open HashComp.Separators

structure SameSlots (m m' : BtNode) : Prop where
  isLeaf : m'.isLeaf = m.isLeaf
  keys : m'.keys = m.keys
  pointers : m'.pointers = m.pointers
  numKeys : m'.numKeys = m.numKeys

section Frame

variable {B : Nat} {nodes nodes' : Nodes} {root root' : Addr} {g g' : Plan}
  {hole hole' : Option (Addr × Addr)} {b p c : Addr} {m m' : BtNode}

theorem SameSlots.refl : SameSlots m m := ⟨rfl, rfl, rfl, rfl⟩

theorem PointsTo.frame (h : PointsTo nodes p c)
    (hp : ∀ m, nodes p = some m → ∃ m', nodes' p = some m' ∧ SameSlots m m') :
    PointsTo nodes' p c := by
  obtain ⟨m, i, hm, hi, hptr⟩ := h
  obtain ⟨m', hm', hsame⟩ := hp m hm
  exact ⟨m', i, hm', by rwa [hsame.numKeys], by rw [hsame.pointers, hptr]⟩

theorem Keyed.frame {lo hi : Nat} (h : Keyed lo hi m) (hsame : SameSlots m m') :
    Keyed lo hi m' := by
  refine ⟨fun i j hij hj => ?_, fun i hi => ?_⟩
  · rw [hsame.keys]
    exact h.sorted i j hij (by rwa [← hsame.numKeys])
  · rw [hsame.keys]
    exact h.within i (by rwa [← hsame.numKeys])

structure Extends (nodes : Nodes) (g g' : Plan) : Prop where
  level : ∀ c m, nodes c = some m → g'.level c = g.level c
  lo : ∀ c m, nodes c = some m → g'.lo c = g.lo c

theorem Extends.refl : Extends nodes g g := ⟨fun _ _ _ => rfl, fun _ _ _ => rfl⟩

theorem NodeOk.frame (h : NodeOk B nodes root g hole b m) (hb : nodes b = some m)
    (hsame : SameSlots m m') (hext : Extends nodes g g') (hhi : g'.hi b = g.hi b)
    (hchild : ∀ c cm, nodes c = some cm → cm.parent = some b → g.level c + 1 = g.level b →
      (∃ cm', nodes' c = some cm' ∧ cm'.parent = some b) ∧ g'.top hole' c = g.top hole c)
    (hle : g.level root ≤ g'.level root')
    (hlinked : g.level b = 0 → Linked B nodes' g' b m')
    (hparent : b ≠ root' → (∀ l, hole' ≠ some (l, b)) →
      ∃ p, m'.parent = some p ∧ g'.level p = g.level b + 1 ∧ PointsTo nodes' p b) :
    NodeOk B nodes' root' g' hole' b m' := by
  have hlevel := hext.level b m hb
  have hlo := hext.lo b m hb
  refine ⟨?_, ?_, ?_, ?_, fun h0 => ?_, fun h0 => ?_, ?_, fun hr hh => ?_⟩
  · rw [hsame.isLeaf, h.kind, hlevel]
  · rw [hlo, hhi]
    exact h.range
  · rw [hlo, hhi]
    exact h.keyed.frame hsame
  · rw [hsame.numKeys, hlo, hhi]
    exact h.filled
  · obtain ⟨hpos, hparts⟩ := h.inner (by rwa [hlevel] at h0)
    rw [Inner, hsame.numKeys, hsame.keys, hsame.pointers, hlo, hhi]
    refine ⟨hpos, hparts.imp fun i x y c _ _ hc => ?_⟩
    obtain ⟨cm, hcm, hcp⟩ := hc.node
    obtain ⟨hnode, htop⟩ := hchild c cm hcm hcp hc.level
    refine hc.frame (fun cm' hcm' _ => ?_) (hext.level c cm hcm) hlevel (hext.lo c cm hcm) htop
    obtain ⟨x, hx, hxp⟩ := hnode
    exact ⟨x, hx, hxp⟩
  · exact hlinked (by rwa [hlevel] at h0)
  · rw [hlevel]
    exact Nat.le_trans h.le hle
  · rw [hlevel]
    exact hparent hr hh

end Frame

section Keys

variable {lo hi v j : Nat} {n n' : BtNode}

theorem Keyed.insert (h : Keyed lo hi n) (hj : j ≤ n.numKeys)
    (hbelow : ∀ i, i < j → n.keys.slot i < v) (habove : ∀ i, j ≤ i → i < n.numKeys → v < n.keys.slot i)
    (hlo : lo ≤ v) (hhi : v < hi) (hnum : n'.numKeys = n.numKeys + 1)
    (hkeys : ∀ i, i ≤ n.numKeys → n'.keys.slot i = insertAt n.keys.slot j v i) :
    Keyed lo hi n' := by
  refine ⟨fun x y hxy hy => ?_, fun x hx => ?_⟩
  · rw [hkeys x (by omega), hkeys y (by omega)]
    exact insertAt_sorted h.sorted hj hbelow habove x y hxy (by omega)
  · rw [hkeys x (by omega)]
    exact forall_insertAt (P := fun v => lo ≤ v ∧ v < hi) hj h.within ⟨hlo, hhi⟩ x (by omega)

end Keys

section Steps

variable {B : Nat} {s s' : Btree} {g : Plan} {a l r p q : Addr} {n n' : BtNode} {k : Nat}

theorem Shape.setLeaf (h : Shape B s g none) (ha : s.nodes a = some n) (hlevel : g.level a = 0)
    (hkind : n'.isLeaf = n.isLeaf) (hparent : n'.parent = n.parent) (hnext : n'.next = n.next)
    (hnum : n.numKeys ≤ n'.numKeys) (hkeyed : Keyed (g.lo a) (g.hi a) n') :
    Shape B (s.put a n') g none := by
  have hnode : ∀ c m, s.nodes c = some m →
      ∃ m', (s.put a n').nodes c = some m' ∧ m'.parent = m.parent := by
    intro c m hc
    rcases eq_or_ne c a with rfl | hne
    · rw [ha] at hc
      cases hc
      exact ⟨n', Btree.put_nodes_self, hparent⟩
    · exact ⟨m, by rw [Btree.put_nodes_of_ne hne, hc], rfl⟩
  have hlinked : ∀ c m m', Linked B s.nodes g c m → m'.next = m.next →
      Linked B (s.put a n').nodes g c m' := by
    intro c m m' hc hsame
    refine hc.frame hsame rfl fun b m hb => ⟨?_, rfl, rfl⟩
    obtain ⟨m', hm', -⟩ := hnode b m hb
    exact ⟨m', hm'⟩
  -- the node above another one is not the leaf
  have habove : ∀ b p, g.level p = g.level b + 1 → PointsTo s.nodes p b →
      PointsTo (s.put a n').nodes p b := by
    intro b p hp hpt
    refine hpt.frame fun m hm => ⟨m, ?_, SameSlots.refl⟩
    rw [Btree.put_nodes_of_ne (by rintro rfl; omega), hm]
  have hold := h.nodes a n ha
  refine ⟨fun b m hb => ?_, fun b hb => ?_, ?_, h.rootLo, h.rootHi, h.depth,
    fun _ _ hh => by cases hh⟩
  · rcases eq_or_ne b a with rfl | hne
    · rw [Btree.put_nodes_self] at hb
      cases hb
      refine ⟨by rw [hkind, hold.kind], hold.range, hkeyed,
        hold.filled.imp (fun h => Nat.le_trans h hnum) id, fun h0 => absurd hlevel h0,
        fun h0 => hlinked b n n' (hold.linked h0) hnext, hold.le, fun hr hh => ?_⟩
      obtain ⟨p, hp, hpl, hpt⟩ := hold.parent hr hh
      exact ⟨p, by rw [hparent, hp], hpl, habove b p hpl hpt⟩
    · rw [Btree.put_nodes_of_ne hne] at hb
      have hok := h.nodes b m hb
      refine hok.frame hb SameSlots.refl Extends.refl rfl (fun c cm hc hcp _ => ⟨?_, rfl⟩)
        (Nat.le_refl _) (fun h0 => hlinked b m m (hok.linked h0) rfl) fun hr hh => ?_
      · obtain ⟨m', hm', hmp⟩ := hnode c cm hc
        exact ⟨m', hm', by rw [hmp, hcp]⟩
      · obtain ⟨p, hp, hpl, hpt⟩ := hok.parent hr hh
        exact ⟨p, hp, hpl, habove b p hpl hpt⟩
  · rw [Btree.put_nodes_of_ne (Nat.ne_of_gt (Nat.lt_of_lt_of_le (h.lt_fresh ha) hb))]
    exact h.fresh b hb
  · obtain ⟨r, hr, hnone⟩ := h.root
    obtain ⟨r', hr', hp⟩ := hnode s.root r hr
    exact ⟨r', hr', by rw [hp, hnone]⟩

theorem Shape.place {ln pn : BtNode} {j : Nat} (h : Shape B s g (some (l, r)))
    (hl : s.nodes l = some ln) (hlp : ln.parent = some p) (hp : s.nodes p = some pn)
    (hj : j ≤ pn.numKeys) (hptr : pn.pointers.slot j = some l)
    (hkind : n'.isLeaf = pn.isLeaf) (hparent : n'.parent = pn.parent)
    (hnum : n'.numKeys = pn.numKeys + 1)
    (hkeys : ∀ i, i ≤ pn.numKeys → n'.keys.slot i = insertAt pn.keys.slot j (g.hi l) i)
    (hptrs : ∀ i, i ≤ pn.numKeys + 1 →
      n'.pointers.slot i = insertAt pn.pointers.slot (j + 1) (some r) i) :
    Shape B (s.put p n') g none := by
  obtain ⟨⟨ln', rn, hl', hr, hrp⟩, hlevel, hmid, -⟩ := h.hole l r rfl
  rw [hl] at hl'
  cases hl'
  obtain ⟨hpl, hcl⟩ := h.child_of_hole hl hlp hp hj hptr
  have hlroot : s.root ≠ l := h.root_ne hl hlp
  have hold := h.nodes p pn hp
  obtain ⟨hpos, hparts⟩ := hold.inner (by omega)
  have hlr : g.lo l < g.hi l := (h.nodes l ln hl).range
  have hrr : g.lo r < g.hi r := (h.nodes r rn hr).range
  have hlower : lower (g.lo p) pn.keys.slot j < g.hi l := by
    rw [← hcl.lo]
    exact hlr
  have hupper : g.hi l < upper (g.hi p) pn.keys.slot pn.numKeys j := by
    rw [← hcl.hi, Plan.top_left, hmid]
    exact hrr
  have hnode : ∀ c m, s.nodes c = some m →
      ∃ m', (s.put p n').nodes c = some m' ∧ m'.parent = m.parent := by
    intro c m hc
    rcases eq_or_ne c p with rfl | hcp
    · rw [hp] at hc
      cases hc
      exact ⟨n', Btree.put_nodes_self, hparent⟩
    · exact ⟨m, by rw [Btree.put_nodes_of_ne hcp, hc], rfl⟩
  have hchild : ∀ c lo hi hi', Child s.nodes g (some (l, r)) p lo hi c → g.hi c = hi' →
      Child (s.put p n').nodes g none p lo hi' c := by
    rintro c lo hi hi' ⟨⟨m, hm, hmp⟩, hc, hclo, -⟩ hhi
    obtain ⟨m', hm', hmp'⟩ := hnode c m hm
    exact ⟨⟨m', hm', by rw [hmp', hmp]⟩, hc, hclo, hhi⟩
  -- a child of the parent keeps its pointer, at the same place or one higher
  have hpoints : ∀ c, PointsTo s.nodes p c → PointsTo (s.put p n').nodes p c := by
    rintro c ⟨m, x, hm, hx, hmx⟩
    rw [hp] at hm
    cases hm
    rcases Nat.lt_or_ge x (j + 1) with hxj | hxj
    · exact ⟨n', x, Btree.put_nodes_self, by omega, by rw [hptrs x (by omega), insertAt_lt hxj, hmx]⟩
    · refine ⟨n', x + 1, Btree.put_nodes_self, by omega, ?_⟩
      rw [hptrs (x + 1) (by omega), insertAt_gt (by omega), Nat.add_sub_cancel, hmx]
  have hpr : PointsTo (s.put p n').nodes p r :=
    ⟨n', j + 1, Btree.put_nodes_self, by omega, by rw [hptrs (j + 1) (by omega), insertAt_self]⟩
  have habove : ∀ b bn, s.nodes b = some bn → b ≠ s.root →
      ∃ x, bn.parent = some x ∧ g.level x = g.level b + 1 ∧ PointsTo (s.put p n').nodes x b := by
    intro b bn hb hbroot
    rcases eq_or_ne b r with rfl | hbr
    · rw [hr] at hb
      cases hb
      exact ⟨p, by rw [hrp, hlp], by omega, hpr⟩
    · obtain ⟨x, hx, hxl, hpt⟩ := (h.nodes b bn hb).parent hbroot (by
        intro y hy
        cases hy
        exact hbr rfl)
      refine ⟨x, hx, hxl, ?_⟩
      rcases eq_or_ne x p with rfl | hxp
      · exact hpoints b hpt
      · exact hpt.frame fun m hm => ⟨m, by rw [Btree.put_nodes_of_ne hxp, hm], SameSlots.refl⟩
  have hlinked : ∀ b m, Linked B s.nodes g b m → Linked B (s.put p n').nodes g b m := by
    intro b m hb
    refine hb.frame rfl rfl fun c cm hc => ⟨?_, rfl, rfl⟩
    obtain ⟨m', hm', -⟩ := hnode c cm hc
    exact ⟨m', hm'⟩
  refine ⟨fun b m hb => ?_, fun b hb => ?_, ?_, h.rootLo, ?_, h.depth, fun _ _ hh => by cases hh⟩
  · rcases eq_or_ne b p with rfl | hbp
    · rw [Btree.put_nodes_self] at hb
      cases hb
      refine ⟨by rw [hkind, hold.kind], hold.range, ?_, Or.inl (by omega), fun _ => ⟨by omega, ?_⟩,
        fun h0 => absurd h0 (by omega), hold.le, fun hbroot _ => ?_⟩
      · refine hold.keyed.insert hj (below_of_lower hold.keyed.sorted hj hlower)
          (above_of_upper hold.keyed.sorted hupper) ?_ ?_ hnum hkeys
        · exact Nat.le_of_lt (Nat.lt_of_le_of_lt
            (le_lower (fun i hi => (hold.keyed.within i hi).1) hj) hlower)
        · exact Nat.lt_of_lt_of_le hupper
            (upper_le (fun i hi => Nat.le_of_lt (hold.keyed.within i hi).2) hj)
      · rw [hnum]
        refine Parts.congr (Parts.insert hparts hj hptr (hchild l _ _ _ hcl rfl) ?_ ?_)
          (fun x hx => hkeys x (by omega)) hptrs
        · refine ⟨?_, by omega, hmid.symm, ?_⟩
          · obtain ⟨m', hm', hmp'⟩ := hnode r rn hr
            exact ⟨m', hm', by rw [hmp', hrp, hlp]⟩
          · rw [← hcl.hi]
            exact Plan.top_left.symm
        · intro x lo hi c hx hxj hcx hc
          refine hchild c lo hi hi hc ?_
          rw [← hc.hi, Plan.top_of_ne]
          rintro rfl
          exact hxj (h.ptr_inj hp (by omega) hx hj hcx hptr)
      · rw [hparent]
        exact habove b pn hp hbroot
    · rw [Btree.put_nodes_of_ne hbp] at hb
      have hok := h.nodes b m hb
      refine hok.frame hb SameSlots.refl Extends.refl rfl (fun c cm hc hcp _ => ⟨?_, ?_⟩)
        (Nat.le_refl _) (fun h0 => hlinked b m (hok.linked h0)) fun hr _ => habove b m hb hr
      · obtain ⟨m', hm', hmp⟩ := hnode c cm hc
        exact ⟨m', hm', by rw [hmp, hcp]⟩
      · -- `left` is not a child of another node
        refine (Plan.top_of_ne ?_).symm
        rintro rfl
        rw [hl] at hc
        cases hc
        rw [hlp] at hcp
        exact hbp (Option.some.inj hcp).symm
  · rw [Btree.put_nodes_of_ne (Nat.ne_of_gt (Nat.lt_of_lt_of_le (h.lt_fresh hp) hb))]
    exact h.fresh b hb
  · obtain ⟨r, hr, hnone⟩ := h.root
    obtain ⟨r', hr', hp⟩ := hnode s.root r hr
    exact ⟨r', hr', by rw [hp, hnone]⟩
  · have := h.rootHi
    rwa [Plan.top_of_ne hlroot] at this

def Plan.withRoot (g : Plan) (q : Addr) (level B : Nat) : Plan where
  level := Function.update g.level q level
  lo := Function.update g.lo q 0
  hi := Function.update g.hi q B

structure NewRoot (s s' : Btree) (l r : Addr) (k : Nat) : Prop where
  root : s'.root = s.fresh
  fresh : s'.fresh = s.fresh + 1
  top : ∃ m, s'.nodes s.fresh = some m ∧ m.isLeaf = false ∧ m.parent = none ∧ m.numKeys = 1 ∧
    m.keys.slot 0 = k ∧ m.pointers.slot 0 = some l ∧ m.pointers.slot 1 = some r
  left : ∀ m, s.nodes l = some m →
    s'.nodes l = some { m with parent := some s.fresh, next := some r }
  right : ∀ m, s.nodes r = some m → s'.nodes r = some { m with parent := some s.fresh }
  other : ∀ b, b ≠ s.fresh → b ≠ l → b ≠ r → s'.nodes b = s.nodes b

section NewRoot

variable {ln rn m : BtNode} {k : Nat}

theorem Plan.withRoot_level_self {q level B : Nat} : (g.withRoot q level B).level q = level :=
  Function.update_self ..

theorem Plan.withRoot_lo_self {q level B : Nat} : (g.withRoot q level B).lo q = 0 :=
  Function.update_self ..

theorem Plan.withRoot_hi_self {q level B : Nat} : (g.withRoot q level B).hi q = B :=
  Function.update_self ..

theorem Plan.withRoot_hi {q level B : Nat} (hc : c ≠ q) : (g.withRoot q level B).hi c = g.hi c :=
  Function.update_of_ne hc ..

theorem Shape.extends_withRoot {hole : Option (Addr × Addr)} {level : Nat} (h : Shape B s g hole) :
    Extends s.nodes g (g.withRoot s.fresh level B) where
  level := fun _ _ hc => Function.update_of_ne (Nat.ne_of_lt (h.lt_fresh hc)) ..
  lo := fun _ _ hc => Function.update_of_ne (Nat.ne_of_lt (h.lt_fresh hc)) ..

/-- The old nodes keep their slots, and their parents but for the two halves. -/
theorem NewRoot.node (hs : NewRoot s s' l r k) (hm : s.nodes c = some m) (hne : c ≠ s.fresh) :
    ∃ m', s'.nodes c = some m' ∧ SameSlots m m' ∧ (c ≠ l → m'.next = m.next) ∧
      (c ≠ l → c ≠ r → m'.parent = m.parent) ∧ (c = l ∨ c = r → m'.parent = some s.fresh) := by
  rcases eq_or_ne c l with rfl | hcl
  · exact ⟨_, hs.left m hm, ⟨rfl, rfl, rfl, rfl⟩, fun hne => absurd rfl hne,
      fun hne => absurd rfl hne, fun _ => rfl⟩
  · rcases eq_or_ne c r with rfl | hcr
    · exact ⟨_, hs.right m hm, ⟨rfl, rfl, rfl, rfl⟩, fun _ => rfl, fun _ hne => absurd rfl hne,
        fun _ => rfl⟩
    · refine ⟨m, by rw [hs.other c hne hcl hcr, hm], SameSlots.refl, fun _ => rfl,
        fun _ _ => rfl, ?_⟩
      rintro (h | h)
      · exact absurd h hcl
      · exact absurd h hcr

theorem Shape.newRoot_top (h : Shape B s g (some (s.root, r))) (hl : s.nodes s.root = some ln)
    (hr : s.nodes r = some rn) (hs : NewRoot s s' s.root r (g.hi s.root))
    (hm : s'.nodes s.fresh = some m) :
    NodeOk B s'.nodes s'.root (g.withRoot s.fresh (g.level s.root + 1) B) none s.fresh m := by
  obtain ⟨-, hlevel, hmid, -⟩ := h.hole s.root r rfl
  have hB : g.hi r = B := by rw [← h.rootHi, Plan.top_left]
  have hrange := (h.nodes r rn hr).range
  obtain ⟨tm, htm, htleaf, -, htn, htk, ht0, ht1⟩ := hs.top
  rw [htm] at hm
  cases hm
  have hext : Extends s.nodes g (g.withRoot s.fresh (g.level s.root + 1) B) := h.extends_withRoot
  have hchild : ∀ c m lo hi, s.nodes c = some m → c = s.root ∨ c = r → g.lo c = lo → g.hi c = hi →
      Child s'.nodes (g.withRoot s.fresh (g.level s.root + 1) B) none s.fresh lo hi c := by
    intro c m lo hi hc hlor hclo hchi
    have hne := Nat.ne_of_lt (h.lt_fresh hc)
    obtain ⟨m', hm', -, -, -, hmp⟩ := hs.node hc hne
    refine ⟨⟨m', hm', hmp hlor⟩, ?_, by rw [hext.lo c m hc, hclo], ?_⟩
    · rw [Plan.withRoot_level_self, hext.level c m hc]
      rcases hlor with rfl | rfl
      · rfl
      · rw [hlevel]
    · rw [Plan.top_none, Plan.withRoot_hi hne, hchi]
  refine ⟨?_, ?_, ⟨?_, ?_⟩, Or.inl (Nat.le_of_eq htn.symm),
    fun _ => ⟨Nat.le_of_eq htn.symm, ?_⟩, ?_, ?_, ?_⟩
  · rw [htleaf, Plan.withRoot_level_self]
    exact ⟨fun hf => (Bool.false_ne_true hf).elim, fun h0 => absurd h0 (Nat.succ_ne_zero _)⟩
  · rw [Plan.withRoot_lo_self, Plan.withRoot_hi_self, ← hB]
    exact Nat.lt_of_le_of_lt (Nat.zero_le _) hrange
  · intro i j hij hj
    omega
  · intro i hi
    obtain rfl : i = 0 := by omega
    rw [htk, Plan.withRoot_lo_self, Plan.withRoot_hi_self, ← hB, hmid]
    exact ⟨Nat.zero_le _, hrange⟩
  · rw [htn]
    intro i hi
    rcases Nat.eq_or_lt_of_le hi with rfl | hlt
    · refine ⟨r, ht1, ?_⟩
      rw [lower_succ, upper_self, htk, Plan.withRoot_hi_self]
      exact hchild r rn _ _ hr (Or.inr rfl) hmid.symm hB
    · obtain rfl : i = 0 := by omega
      refine ⟨s.root, ht0, ?_⟩
      rw [lower_zero, upper_of_ne (by omega), htk, Plan.withRoot_lo_self]
      exact hchild s.root ln _ _ hl (Or.inl rfl) h.rootLo rfl
  · intro h0
    rw [Plan.withRoot_level_self] at h0
    omega
  · rw [hs.root]
  · intro hne
    exact absurd hs.root.symm hne

theorem Shape.newRoot_old (h : Shape B s g (some (s.root, r))) (hl : s.nodes s.root = some ln)
    (hlp : ln.parent = none) (hr : s.nodes r = some rn)
    (hs : NewRoot s s' s.root r (g.hi s.root)) (hbm : s.nodes b = some m) {m' : BtNode}
    (hm' : s'.nodes b = some m') :
    NodeOk B s'.nodes s'.root (g.withRoot s.fresh (g.level s.root + 1) B) none b m' := by
  obtain ⟨-, hlevel, hmid, -⟩ := h.hole s.root r rfl
  have hold : ∀ b m, s.nodes b = some m → b ≠ s.fresh := fun b m hb =>
    Nat.ne_of_lt (h.lt_fresh hb)
  have hbq := hold b m hbm
  have hext : Extends s.nodes g (g.withRoot s.fresh (g.level s.root + 1) B) := h.extends_withRoot
  have hhi : ∀ c, c ≠ s.fresh → (g.withRoot s.fresh (g.level s.root + 1) B).hi c = g.hi c :=
    fun c hc => Plan.withRoot_hi hc
  have hexists : ∀ b m, s.nodes b = some m → (∃ m', s'.nodes b = some m') ∧
      (g.withRoot s.fresh (g.level s.root + 1) B).level b = g.level b ∧
      (g.withRoot s.fresh (g.level s.root + 1) B).lo b = g.lo b := by
    intro b m hb
    obtain ⟨m', hm', -⟩ := hs.node hb (hold b m hb)
    exact ⟨⟨m', hm'⟩, hext.level b m hb, hext.lo b m hb⟩
  obtain ⟨m'', hm'', hsame, hnext, hparent, hup⟩ := hs.node hbm hbq
  rw [hm'] at hm''
  cases hm''
  have hok := h.nodes b m hbm
  refine hok.frame hbm hsame hext (hhi b hbq) (fun c cm hc hcp hcl => ?_) ?_ (fun h0 => ?_)
    fun hbr hh => ?_
  · -- neither half is a child of an old node
    have hcroot : c ≠ s.root := by
      rintro rfl
      rw [hl] at hc
      cases hc
      rw [hlp] at hcp
      cases hcp
    have hcr : c ≠ r := by
      rintro rfl
      have := hok.le
      omega
    obtain ⟨cm', hcm', -, -, hp, -⟩ := hs.node hc (hold c cm hc)
    refine ⟨⟨cm', hcm', by rw [hp hcroot hcr, hcp]⟩, ?_⟩
    rw [Plan.top_none, hhi c (hold c cm hc), Plan.top_of_ne hcroot]
  · rw [hs.root, Plan.withRoot_level_self]
    exact Nat.le_succ _
  · rcases eq_or_ne b s.root with rfl | hbl
    · obtain ⟨r', hr', -⟩ := hs.node hr (hold r rn hr)
      refine Or.inr ⟨r, r', ?_, hr', ?_, ?_⟩
      · have := hs.left m hbm
        rw [hm'] at this
        cases this
        rfl
      · rw [hext.level r rn hr, hlevel, h0]
      · rw [hext.lo r rn hr, hhi _ hbq, hmid]
    · exact (hok.linked h0).frame (hnext hbl) (hhi b hbq) hexists
  · rcases Classical.em (b = s.root ∨ b = r) with hlor | hnone
    · obtain ⟨tm, htm, -, -, htn, -, ht0, ht1⟩ := hs.top
      refine ⟨s.fresh, hup hlor, ?_, ?_⟩
      · rcases hlor with rfl | rfl
        · exact Plan.withRoot_level_self
        · rw [Plan.withRoot_level_self, hlevel]
      · rcases hlor with rfl | rfl
        · exact ⟨tm, 0, htm, Nat.zero_le _, ht0⟩
        · exact ⟨tm, 1, htm, Nat.le_of_eq htn.symm, ht1⟩
    · obtain ⟨hbl, hbr⟩ := not_or.mp hnone
      obtain ⟨p, hp, hpl, hpt⟩ := hok.parent hbl (by
        intro x hx
        cases hx
        exact hbr rfl)
      obtain ⟨pm, -, hpm, -⟩ := id hpt
      refine ⟨p, by rw [hparent hbl hbr, hp], by rw [hext.level p pm hpm, hpl],
        hpt.frame fun m hm => ?_⟩
      obtain ⟨m', hm', hsame, -⟩ := hs.node hm (hold p m hm)
      exact ⟨m', hm', hsame⟩

theorem Shape.newRoot (h : Shape B s g (some (l, r))) (hl : s.nodes l = some ln)
    (hlp : ln.parent = none) (hs : NewRoot s s' l r (g.hi l)) :
    Shape B s' (g.withRoot s.fresh (g.level l + 1) B) none := by
  obtain ⟨⟨ln', rn, -, hr, -⟩, -⟩ := h.hole l r rfl
  -- only the root has no parent
  obtain rfl : l = s.root := by
    refine Classical.byContradiction fun hne => ?_
    obtain ⟨p, hp, -⟩ := (h.nodes l ln hl).parent hne (by
      intro x hx
      cases hx
      exact h.hole_ne rfl)
    rw [hlp] at hp
    cases hp
  obtain ⟨tm, htm, -, htp, -⟩ := hs.top
  refine ⟨fun b m hb => ?_, fun b hb => ?_, ?_, ?_, ?_, ?_, fun _ _ hh => by cases hh⟩
  · rcases eq_or_ne b s.fresh with rfl | hbq
    · exact h.newRoot_top hl hr hs hb
    · obtain ⟨bm, hbm⟩ : ∃ bm, s.nodes b = some bm := by
        rcases eq_or_ne b s.root with rfl | hbl
        · exact ⟨ln, hl⟩
        · rcases eq_or_ne b r with rfl | hbr
          · exact ⟨rn, hr⟩
          · exact ⟨m, by rw [← hs.other b hbq hbl hbr, hb]⟩
      exact h.newRoot_old hl hlp hr hs hbm hb
  · rw [hs.fresh] at hb
    have hgone : ∀ c m, s.nodes c = some m → b ≠ c := fun c m hc =>
      Nat.ne_of_gt (Nat.lt_trans (h.lt_fresh hc) hb)
    rw [hs.other b (Nat.ne_of_gt hb) (hgone _ _ hl) (hgone _ _ hr)]
    exact h.fresh b (Nat.le_of_lt hb)
  · rw [hs.root]
    exact ⟨tm, htm, htp⟩
  · rw [hs.root, Plan.withRoot_lo_self]
  · rw [hs.root, Plan.top_none, Plan.withRoot_hi_self]
  · rw [hs.root, hs.fresh, Plan.withRoot_level_self]
    exact Nat.succ_lt_succ h.depth

end NewRoot

end Steps

end HashComp.IndexBtree
