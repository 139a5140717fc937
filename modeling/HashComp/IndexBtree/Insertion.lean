import HashComp.IndexBtree.Halving

namespace HashComp.IndexBtree

open HashComp.CheckedLoops
open HashComp.Separators

def Bounded (s : Btree) : Prop :=
  ∀ a n, s.nodes a = some n → n.numKeys ≤ order - 1

structure Sound (B : Nat) (s : Btree) (g : Plan) : Prop where
  shape : Shape B s g none
  bounded : Bounded s

/-- The nodes above `left` can take up its right half: the node above it has room and
`left` is not its first child, or it is full, `left` is not its last child, and the
nodes above it can take up its right half in turn. -/
inductive Room (past : Past) (s : Btree) : Addr → Prop where
  | root {left : Addr} {n : BtNode} (hl : s.nodes left = some n) (hp : n.parent = none) :
      Room past s left
  | place {left p : Addr} {n pn : BtNode} (hl : s.nodes left = some n) (hp : n.parent = some p)
      (hpn : s.nodes p = some pn) (hroom : pn.numKeys < order - 1)
      (hfirst : pn.pointers.slot 0 ≠ some left) : Room past s left
  | split {left p : Addr} {n pn : BtNode} (hl : s.nodes left = some n) (hp : n.parent = some p)
      (hpn : s.nodes p = some pn) (hfull : ¬ pn.numKeys < order - 1)
      (hlast : pn.pointers.slot pn.numKeys ≠ some left ∨ past ≠ none) (hup : Room past s p) :
      Room past s left

/-- The call finds a leaf with room or with the key, or the nodes above the leaf can
take up its right half. -/
def Fits (past : Past) (s : Btree) (key : Nat) : Prop :=
  ∃ leaf n, findLeaf s key .read s.fresh s.root none = .ok (leaf, none) ∧ s.nodes leaf = some n ∧
    (n.numKeys < order - 1 ∨ (∃ i, i < n.numKeys ∧ n.keys.slot i = key) ∨ Room past s leaf)

def Row (n : BtNode) (k : Nat) (v : Option Addr) : Prop :=
  ∃ i, i < n.numKeys ∧ n.keys.slot i = k ∧ n.pointers.slot i = v

def Entry (nodes : Nodes) (k : Nat) (v : Option Addr) : Prop :=
  ∃ a n, nodes a = some n ∧ n.isLeaf = true ∧ Row n k v

def LeavesIn (nodes nodes' : Nodes) : Prop :=
  ∀ a n, nodes a = some n → n.isLeaf = true → ∃ n', nodes' a = some n' ∧ SameSlots n n'

section Leaves

variable {nodes nodes' nodes'' : Nodes} {k : Nat} {v : Option Addr}

theorem LeavesIn.refl : LeavesIn nodes nodes := fun _ n hn _ => ⟨n, hn, SameSlots.refl⟩

theorem LeavesIn.trans (h : LeavesIn nodes nodes') (h' : LeavesIn nodes' nodes'') :
    LeavesIn nodes nodes'' := by
  intro a n hn hleaf
  obtain ⟨n', hn', hsame⟩ := h a n hn hleaf
  obtain ⟨n'', hn'', hsame'⟩ := h' a n' hn' (by rw [hsame.isLeaf, hleaf])
  exact ⟨n'', hn'', by rw [hsame'.isLeaf, hsame.isLeaf], by rw [hsame'.keys, hsame.keys],
    by rw [hsame'.pointers, hsame.pointers], by rw [hsame'.numKeys, hsame.numKeys]⟩

theorem Entry.frame (h : Entry nodes k v) (hin : LeavesIn nodes nodes') : Entry nodes' k v := by
  obtain ⟨a, n, hn, hleaf, i, hi, hk, hv⟩ := h
  obtain ⟨n', hn', hsame⟩ := hin a n hn hleaf
  exact ⟨a, n', hn', by rw [hsame.isLeaf, hleaf], i, by rwa [hsame.numKeys], by rw [hsame.keys, hk],
    by rw [hsame.pointers, hv]⟩

end Leaves

section Search

variable {B : Nat} {s : Btree} {g : Plan} {a b c p : Addr} {n m : BtNode} {key d fuel : Nat}

theorem Shape.unique (h : Shape B s g none) (ha : s.nodes a = some n) (hb : s.nodes b = some m)
    (hlevel : g.level a = g.level b) (halo : g.lo a ≤ key) (hahi : key < g.hi a)
    (hblo : g.lo b ≤ key) (hbhi : key < g.hi b) : a = b := by
  have hno : ∀ x l, (none : Option (Addr × Addr)) ≠ some (l, x) := fun _ _ hh => by cases hh
  obtain ⟨d, hd⟩ := Nat.exists_eq_add_of_le (h.nodes a n ha).le
  induction d generalizing a b n m with
  | zero =>
      have hroot : ∀ x xm, s.nodes x = some xm → g.level x = g.level s.root → x = s.root := by
        intro x xm hx hxl
        refine Classical.byContradiction fun hne => ?_
        obtain ⟨p, -, hpl, pm, -, hpm, -⟩ := (h.nodes x xm hx).parent hne (hno x)
        have := (h.nodes p pm hpm).le
        omega
      rw [hroot a n ha (by omega), hroot b m hb (by omega)]
  | succ d ih =>
      have hne : ∀ x, g.level x = g.level a → x ≠ s.root := by
        rintro x hx rfl
        omega
      obtain ⟨p, hp, -⟩ := (h.nodes a n ha).parent (hne a rfl) (hno a)
      obtain ⟨q, hq, -⟩ := (h.nodes b m hb).parent (hne b hlevel.symm) (hno b)
      obtain ⟨pn, i, hpn, hpl, hi, hpi, hca⟩ := h.under ha hp (hno a)
      obtain ⟨qn, j, hqn, hql, hj, hqj, hcb⟩ := h.under hb hq (hno b)
      have hin : ∀ x xm y i, s.nodes x = some xm → i ≤ xm.numKeys →
          g.lo y = lower (g.lo x) xm.keys.slot i → g.hi y = upper (g.hi x) xm.keys.slot xm.numKeys i →
          g.lo y ≤ key → key < g.hi y → g.lo x ≤ key ∧ key < g.hi x := by
        intro x xm y i hx hi hlo hhi hylo hyhi
        have hkeyed := (h.nodes x xm hx).keyed
        rw [hlo] at hylo
        rw [hhi] at hyhi
        exact ⟨Nat.le_trans (le_lower (fun i hi => (hkeyed.within i hi).1) hi) hylo,
          Nat.lt_of_lt_of_le hyhi (upper_le (fun i hi => Nat.le_of_lt (hkeyed.within i hi).2) hi)⟩
      have hpin := hin p pn a i hpn hi hca.lo hca.hi halo hahi
      have hqin := hin q qn b j hqn hj hcb.lo hcb.hi hblo hbhi
      obtain rfl := ih hpn hqn (by omega) hpin.1 hpin.2 hqin.1 hqin.2 (by omega)
      rw [hpn] at hqn
      cases hqn
      -- the key stands at one pointer only
      have hkeyed := (h.nodes p pn hpn).keyed
      have hlt : ∀ x y i j, i < j → j ≤ pn.numKeys → g.lo y = lower (g.lo p) pn.keys.slot j →
          g.hi x = upper (g.hi p) pn.keys.slot pn.numKeys i → key < g.hi x → ¬ g.lo y ≤ key := by
        intro x y i j hij hj hlo hhi hxhi hylo
        rw [hhi] at hxhi
        rw [hlo] at hylo
        obtain ⟨j, rfl⟩ := Nat.exists_eq_succ_of_ne_zero (n := j) (by omega)
        exact Nat.not_lt.mpr hylo
          (above_of_upper hkeyed.sorted hxhi j (Nat.le_of_lt_succ hij) (by omega))
      have hij : i = j := by
        rcases Nat.lt_trichotomy i j with hij | rfl | hij
        · exact absurd hblo (hlt a b i j hij hj hcb.lo hca.hi hahi)
        · rfl
        · exact absurd halo (hlt b a j i hij hi hca.lo hcb.hi hbhi)
      cases hij
      exact Option.some.inj (hpi.symm.trans hqj)

def Climbs (s : Btree) (g : Plan) (c : Addr) (e : Option Addr) : Prop :=
  ∀ x, e = some x → ∀ fuel, g.level s.root ≤ fuel + g.level c → climb s x fuel c = .ok ()

theorem climbs_child {x : Addr} (h : Shape B s g none) (hc : s.nodes c = some n)
    (hp : n.parent = some p) (hpm : s.nodes p = some m) (hl : g.level p = g.level c + 1)
    (hx : x = p ∨ Climbs s g p (some x)) : Climbs s g c (some x) := by
  rintro _ hx' fuel hfuel
  cases hx'
  have := (h.nodes p m hpm).le
  obtain ⟨fuel, rfl⟩ := Nat.exists_eq_succ_of_ne_zero (n := fuel) (by omega)
  rw [climb, Btree.node_ok hc, ok_bind, hp, deref, ok_bind]
  split
  · rfl
  · rename_i hne
    exact hx.resolve_left (fun he => hne he.symm) x rfl fuel (by omega)

theorem Climbs.cleanup {e : Option Addr} (h : Shape B s g none) (hc : Climbs s g c e) :
    cleanup s c e = .ok () := by
  cases e with
  | none => rfl
  | some x => exact hc x rfl s.fresh (Nat.le_trans (Nat.le_of_lt h.depth) (Nat.le_add_right _ _))

theorem findLeaf_spec (key : Nat) (h : Shape B s g none) (hb : Bounded s) (hc : s.nodes c = some n)
    (hd : g.level c = d) (hfuel : d < fuel) (hlo : g.lo c ≤ key) (hhi : key < g.hi c) :
    ∃ leaf m, s.nodes leaf = some m ∧ g.level leaf = 0 ∧ g.lo leaf ≤ key ∧ key < g.hi leaf ∧
      (∀ e, findLeaf s key .read fuel c e = .ok (leaf, e)) ∧
      ∀ e, Climbs s g c e → ∃ e', findLeaf s key .insert fuel c e = .ok (leaf, e') ∧
        cleanup s leaf e' = .ok () := by
  have hok := h.nodes c n hc
  induction d generalizing c n fuel with
  | zero =>
      obtain ⟨fuel, rfl⟩ := Nat.exists_eq_succ_of_ne_zero (Nat.ne_of_gt hfuel)
      have hleaf : n.isLeaf = true := hok.kind.mpr hd
      refine ⟨c, n, hc, hd, hlo, hhi, fun e => ?_, fun e he => ⟨e, ?_, he.cleanup h⟩⟩
      · rw [findLeaf, Btree.node_ok hc, ok_bind, if_pos hleaf]
      · rw [findLeaf, Btree.node_ok hc, ok_bind, if_pos hleaf]
  | succ d ih =>
      obtain ⟨fuel, rfl⟩ := Nat.exists_eq_succ_of_ne_zero (Nat.ne_of_gt (Nat.zero_lt_of_lt hfuel))
      have hleaf : n.isLeaf ≠ true := fun ht => by
        have := hok.kind.mp ht
        omega
      obtain ⟨i, hi, hbelow, habove, hchild⟩ := childFor_spec key (hb c n hc)
      obtain ⟨child, hptr, ⟨m, hm, hmp⟩, hcl, hclo, hchi⟩ := (hok.inner (by omega)).2 i hi
      rw [hptr, deref] at hchild
      have hlo' : g.lo child ≤ key := by
        rw [hclo]
        cases i with
        | zero => exact hlo
        | succ i => exact hbelow i (Nat.lt_succ_self i)
      have hhi' : key < g.hi child := by
        rw [← Plan.top_none (g := g), hchi]
        rcases eq_or_ne i n.numKeys with rfl | hne
        · rwa [upper_self]
        · rw [upper_of_ne hne]
          exact habove (by omega)
      obtain ⟨leaf, lm, hlm, hll, hllo, hlhi, hread, hinsert⟩ :=
        ih hm (by omega) (Nat.lt_of_succ_lt_succ hfuel) hlo' hhi' (h.nodes child m hm)
      refine ⟨leaf, lm, hlm, hll, hllo, hlhi, fun e => ?_, fun e he => ?_⟩
      · rw [findLeaf, Btree.node_ok hc, ok_bind, if_neg hleaf, hchild, ok_bind]
        exact hread e
      · rw [findLeaf, Btree.node_ok hc, ok_bind, if_neg hleaf, hchild, ok_bind]
        dsimp only
        rw [Btree.node_ok hm, ok_bind]
        split
        · refine hinsert _ (climbs_child h hm hmp hc (by omega) ?_)
          cases e with
          | none => exact Or.inl rfl
          | some x => exact Or.inr he
        · rw [he.cleanup h, ok_bind]
          exact hinsert none fun x hx => by cases hx

end Search

section Room

variable {B fuel key : Nat} {past : Past} {s s' : Btree} {g : Plan} {hole : Option (Addr × Addr)}
  {a l p r : Addr} {n ln pn : BtNode} {i j : Nat}

/-- The nodes above `a` are the same in both heaps, and `a` has the same parent. -/
structure SameAbove (s s' : Btree) (g : Plan) (a : Addr) : Prop where
  node : ∀ b m, s.nodes b = some m → g.level a < g.level b → s'.nodes b = some m
  parent : ∀ m, s.nodes a = some m → ∃ m', s'.nodes a = some m' ∧ m'.parent = m.parent

theorem SameAbove.up (h : SameAbove s s' g a) (hp : s.nodes p = some pn)
    (hl : g.level p = g.level a + 1) : SameAbove s s' g p := by
  refine ⟨fun b m hb hlt => h.node b m hb (by omega), fun m hm => ?_⟩
  rw [hp] at hm
  cases hm
  exact ⟨pn, h.node p pn hp (by omega), rfl⟩

theorem Room.mono (h : Shape B s g hole) (ha : s.nodes a = some n)
    (hhole : ∀ x l, g.level a ≤ g.level x → hole ≠ some (l, x))
    (hsame : SameAbove s s' g a) (hroom : Room past s a) : Room past s' a := by
  induction hroom generalizing n with
  | root hl hp =>
      obtain ⟨m', hm', hmp⟩ := hsame.parent _ hl
      exact .root hm' (by rw [hmp, hp])
  | place hl hp hpn hfew hfirst =>
      obtain ⟨m', hm', hmp⟩ := hsame.parent _ hl
      obtain ⟨-, -, -, hpl, -⟩ := h.under hl hp fun x => hhole _ x (Nat.le_refl _)
      exact .place hm' (by rw [hmp, hp]) (hsame.node _ _ hpn (by omega)) hfew hfirst
  | split hl hp hpn hfull hlast _ ih =>
      obtain ⟨m', hm', hmp⟩ := hsame.parent _ hl
      obtain ⟨-, -, -, hpl, -⟩ := h.under hl hp fun x => hhole _ x (Nat.le_refl _)
      exact .split hm' (by rw [hmp, hp]) (hsame.node _ _ hpn (by omega)) hfull hlast
        (ih hpn (fun x y hx => hhole x y (by omega))
          (hsame.up hpn hpl))

theorem Room.of_same (h : Shape B s g hole) (ha : s.nodes a = some n)
    (hhole : ∀ x l, g.level a ≤ g.level x → hole ≠ some (l, x))
    (hsame : SameAbove s s' g a) (hroom : Room past s' a) : Room past s a := by
  induction hroom generalizing n with
  | root hl hp =>
      obtain ⟨m', hm', hmp⟩ := hsame.parent _ ha
      rw [hl] at hm'
      cases hm'
      exact .root ha (by rw [← hmp, hp])
  | place hl hp hpn hfew hfirst =>
      obtain ⟨m', hm', hmp⟩ := hsame.parent _ ha
      rw [hl] at hm'
      cases hm'
      rw [hmp] at hp
      obtain ⟨pm, -, hpm, hpl, -⟩ := h.under ha hp fun x => hhole _ x (Nat.le_refl _)
      rw [hsame.node _ _ hpm (by omega)] at hpn
      cases hpn
      exact .place ha hp hpm hfew hfirst
  | split hl hp hpn hfull hlast _ ih =>
      obtain ⟨m', hm', hmp⟩ := hsame.parent _ ha
      rw [hl] at hm'
      cases hm'
      rw [hmp] at hp
      obtain ⟨pm, -, hpm, hpl, -⟩ := h.under ha hp fun x => hhole _ x (Nat.le_refl _)
      rw [hsame.node _ _ hpm (by omega)] at hpn
      cases hpn
      exact .split ha hp hpm hfull hlast
        (ih hpm (fun x y hx => hhole x y (by omega))
          (hsame.up hpm hpl))

end Room

section Parent

variable {B fuel key : Nat} {past : Past} {s s' : Btree} {g : Plan} {a l p r : Addr}
  {n ln pn : BtNode} {i j : Nat}

structure Settled (B : Nat) (s s' : Btree) (g' : Plan) : Prop where
  sound : Sound B s' g'
  leaves : LeavesIn s.nodes s'.nodes
  leaves' : LeavesIn s'.nodes s.nodes
  itemNext : s'.itemNext = s.itemNext

theorem insertIdx_place (h : Shape B s g (some (l, r))) (hl : s.nodes l = some ln)
    (hlp : ln.parent = some p) (hp : s.nodes p = some pn) (hj : j ≤ pn.numKeys)
    (hptr : pn.pointers.slot j = some l) :
    (∀ i, i < j → pn.keys.slot i < g.hi l) ∧ (j < pn.numKeys → g.hi l ≤ pn.keys.slot j) := by
  obtain ⟨⟨ln', rn, -, hr, -⟩, -, hmid, -⟩ := h.hole l r rfl
  obtain ⟨-, hcl⟩ := h.child_of_hole hl hlp hp hj hptr
  have hkeyed := (h.nodes p pn hp).keyed
  have hlower : lower (g.lo p) pn.keys.slot j < g.hi l := by
    rw [← hcl.lo]
    exact (h.nodes l ln hl).range
  have hupper : g.hi l < upper (g.hi p) pn.keys.slot pn.numKeys j := by
    rw [← hcl.hi, Plan.top_left, hmid]
    exact (h.nodes r rn hr).range
  exact ⟨below_of_lower hkeyed.sorted hj hlower, fun hlt =>
    Nat.le_of_lt (above_of_upper hkeyed.sorted hupper j (Nat.le_refl _) hlt)⟩

theorem insertIntoNewRoot_spec (key : Nat) (h : Shape B s g (some (l, r))) (hl : s.nodes l = some ln) :
    ∃ s', insertIntoNewRoot s l key r = .ok s' ∧ NewRoot s s' l r key ∧
      s'.itemNext = s.itemNext := by
  have horder : order = 16 := rfl
  obtain ⟨⟨ln', rn, -, hr, -⟩, -⟩ := h.hole l r rfl
  have hlq : l ≠ s.fresh := Nat.ne_of_lt (h.lt_fresh hl)
  have hrq : r ≠ s.fresh := Nat.ne_of_lt (h.lt_fresh hr)
  have hlr := h.hole_ne
  have hkey : (s.newNode false).keys.write 0 key =
      .ok ⟨Function.update (s.newNode false).keys.slot 0 key⟩ := Cells.write_ok (by omega)
  have hp₀ : (s.newNode false).pointers.write 0 (some l) =
      .ok ⟨Function.update (s.newNode false).pointers.slot 0 (some l)⟩ := Cells.write_ok (by omega)
  let pointers : Cells order (Option Addr) :=
    ⟨Function.update (Function.update (s.newNode false).pointers.slot 0 (some l)) 1 (some r)⟩
  have hp₁ : (⟨Function.update (s.newNode false).pointers.slot 0 (some l)⟩ :
      Cells order (Option Addr)).write 1 (some r) = .ok pointers := Cells.write_ok (by omega)
  have hroom : (s.newNode false).numKeys + 1 < order := by
    show 0 + 1 < order
    omega
  let top : BtNode := { s.newNode false with
    keys := ⟨Function.update (s.newNode false).keys.slot 0 key⟩, pointers, numKeys := 1
    parent := none }
  let s₁ := (s.make false).put s.fresh top
  have hl₁ : s₁.nodes l = some ln := by
    rw [Btree.put_nodes_of_ne hlq, Btree.make_nodes_of_ne hlq, hl]
  let s₂ := s₁.put l { ln with parent := some s.fresh }
  have hr₂ : s₂.nodes r = some rn := by
    rw [Btree.put_nodes_of_ne hlr.symm, Btree.put_nodes_of_ne hrq, Btree.make_nodes_of_ne hrq, hr]
  let s₃ := s₂.put r { rn with parent := some s.fresh }
  have hl₃ : s₃.nodes l = some { ln with parent := some s.fresh } := by
    rw [Btree.put_nodes_of_ne hlr, Btree.put_nodes_self]
  let s₄ := s₃.put l { ln with parent := some s.fresh, next := some r }
  refine ⟨{ s₄ with root := s.fresh }, ?_, ⟨rfl, rfl, ⟨top, ?_, rfl, rfl, rfl, ?_, ?_, ?_⟩,
    fun m hm => ?_, fun m hm => ?_, fun b hb hbl hbr => ?_⟩, rfl⟩
  · rw [insertIntoNewRoot, Btree.node_ok Btree.make_nodes_fresh, ok_bind, hkey, ok_bind, hp₀, ok_bind,
      hp₁, ok_bind, if_pos hroom]
    show ((s₁.node l) >>= _) = _
    rw [Btree.node_ok hl₁, ok_bind]
    show ((s₂.node r) >>= _) = _
    rw [Btree.node_ok hr₂, ok_bind]
    show ((s₃.node l) >>= _) = _
    rw [Btree.node_ok hl₃, ok_bind]
    rfl
  · show s₄.nodes s.fresh = _
    rw [Btree.put_nodes_of_ne hlq.symm, Btree.put_nodes_of_ne hrq.symm,
      Btree.put_nodes_of_ne hlq.symm, Btree.put_nodes_self]
  · exact Function.update_self 0 key (s.newNode false).keys.slot
  · show Function.update (Function.update (s.newNode false).pointers.slot 0 (some l)) 1 (some r) 0 = _
    rw [Function.update_of_ne (by decide), Function.update_self]
  · show Function.update (Function.update (s.newNode false).pointers.slot 0 (some l)) 1 (some r) 1 = _
    rw [Function.update_self]
  · rw [hl] at hm
    cases hm
    exact Btree.put_nodes_self
  · rw [hr] at hm
    cases hm
    show s₄.nodes r = _
    rw [Btree.put_nodes_of_ne hlr.symm, Btree.put_nodes_self]
  · show s₄.nodes b = _
    rw [Btree.put_nodes_of_ne hbl, Btree.put_nodes_of_ne hbr, Btree.put_nodes_of_ne hbl,
      Btree.put_nodes_of_ne hb, Btree.make_nodes_of_ne hb]

theorem NewRoot.settled (h : Shape B s g (some (l, r))) (hb : Bounded s)
    (hl : s.nodes l = some ln) (hlp : ln.parent = none) (hs : NewRoot s s' l r (g.hi l))
    (hitems : s'.itemNext = s.itemNext) : ∃ g', Settled B s s' g' := by
  have horder : order = 16 := rfl
  obtain ⟨⟨ln', rn, hl', hr, -⟩, -⟩ := h.hole l r rfl
  rw [hl] at hl'
  cases hl'
  obtain ⟨t, ht, htleaf, -, htnum, -⟩ := hs.top
  -- an old node keeps its slots, and every node but the root is an old one
  have hnew : ∀ a n, s.nodes a = some n → ∃ n', s'.nodes a = some n' ∧ SameSlots n n' := by
    intro a n ha
    rcases eq_or_ne a l with rfl | hal
    · exact ⟨_, hs.left n ha, ⟨rfl, rfl, rfl, rfl⟩⟩
    · rcases eq_or_ne a r with rfl | har
      · exact ⟨_, hs.right n ha, ⟨rfl, rfl, rfl, rfl⟩⟩
      · exact ⟨n, by rw [hs.other a (Nat.ne_of_lt (h.lt_fresh ha)) hal har, ha], SameSlots.refl⟩
  have hold : ∀ a n', s'.nodes a = some n' → n' = t ∨ ∃ n, s.nodes a = some n ∧ SameSlots n' n := by
    intro a n' ha
    rcases eq_or_ne a s.fresh with rfl | haq
    · rw [ht] at ha
      exact Or.inl (Option.some.inj ha).symm
    · refine Or.inr ?_
      rcases eq_or_ne a l with rfl | hal
      · rw [hs.left ln hl] at ha
        cases ha
        exact ⟨ln, hl, ⟨rfl, rfl, rfl, rfl⟩⟩
      · rcases eq_or_ne a r with rfl | har
        · rw [hs.right rn hr] at ha
          cases ha
          exact ⟨rn, hr, ⟨rfl, rfl, rfl, rfl⟩⟩
        · rw [hs.other a haq hal har] at ha
          exact ⟨n', ha, SameSlots.refl⟩
  refine ⟨_, ⟨h.newRoot hl hlp hs, fun a n' ha => ?_⟩, fun a n ha _ => hnew a n ha,
    fun a n' ha hleaf => ?_, hitems⟩
  · rcases hold a n' ha with rfl | ⟨n, hn, hsame⟩
    · omega
    · rw [← hsame.numKeys]
      exact hb a n hn
  · rcases hold a n' ha with rfl | hn
    · rw [htleaf] at hleaf
      cases hleaf
    · exact hn

theorem place_settled (h : Shape B s g (some (l, r))) (hb : Bounded s)
    (hl : s.nodes l = some ln) (hlp : ln.parent = some p) (hp : s.nodes p = some pn)
    (hj : j ≤ pn.numKeys) (hptr : pn.pointers.slot j = some l) (hroom : pn.numKeys < order - 1)
    (hpos : 1 ≤ j) : ∃ n', placeInParent pn j (g.hi l) r = .ok n' ∧ Settled B s (s.put p n') g := by
  obtain ⟨keys, pointers, hplace, hkeys, hptrs⟩ := placeInParent_ok (g.hi l) r hroom
    hpos hj
  obtain ⟨hpl, -⟩ := h.child_of_hole hl hlp hp hj hptr
  have hleaf : pn.isLeaf ≠ true := fun ht => by
    have := (h.nodes p pn hp).kind.mp ht
    omega
  refine ⟨_, hplace, ⟨h.place hl hlp hp hj hptr rfl rfl rfl hkeys hptrs, fun a m ha => ?_⟩,
    fun a m ha hm => ?_, fun a m ha hm => ?_, rfl⟩
  · rcases eq_or_ne a p with rfl | hap
    · rw [Btree.put_nodes_self] at ha
      cases ha
      exact hroom
    · rw [Btree.put_nodes_of_ne hap] at ha
      exact hb a m ha
  · refine ⟨m, ?_, SameSlots.refl⟩
    rw [Btree.put_nodes_of_ne ?_, ha]
    rintro rfl
    rw [hp] at ha
    cases ha
    exact hleaf hm
  · rcases eq_or_ne a p with rfl | hap
    · rw [Btree.put_nodes_self] at ha
      cases ha
      exact absurd hm hleaf
    · exact ⟨m, by rw [← Btree.put_nodes_of_ne hap, ha], SameSlots.refl⟩

structure Raised (B : Nat) (s s' : Btree) (g : Plan) (p : Addr) (k : Nat) : Prop where
  shape : Shape B s' (g.split p s.fresh k) (some (p, s.fresh))
  bounded : Bounded s'
  node : ∃ n, s'.nodes p = some n
  above : SameAbove s s' g p
  leaves : LeavesIn s.nodes s'.nodes
  leaves' : LeavesIn s'.nodes s.nodes
  root : s'.root = s.root
  itemNext : s'.itemNext = s.itemNext

theorem splitInner_raised (h : Shape B s g (some (l, r))) (hb : Bounded s)
    (hl : s.nodes l = some ln) (hlp : ln.parent = some p) (hp : s.nodes p = some pn)
    (hj : j ≤ pn.numKeys) (hptr : pn.pointers.slot j = some l) (hfull : pn.numKeys = order - 1) :
    ∃ s' k, splitInner s p j (g.hi l) r = .ok (s', k, s.fresh) ∧ Raised B s s' g p k := by
  have horder : order = 16 := rfl
  have hpq : p ≠ s.fresh := Nat.ne_of_lt (h.lt_fresh hp)
  obtain ⟨hpl, -⟩ := h.child_of_hole hl hlp hp hj hptr
  have hleaf : pn.isLeaf = false := by
    refine Bool.eq_false_iff.mpr fun ht => ?_
    have := (h.nodes p pn hp).kind.mp ht
    omega
  -- the node with the new key in it, before it is split
  let nv : BtNode := { pn with
    keys := ⟨insertAt pn.keys.slot j (g.hi l)⟩
    pointers := ⟨insertAt pn.pointers.slot (j + 1) (some r)⟩
    numKeys := pn.numKeys + 1 }
  have hv : Shape B (s.put p nv) g none :=
    h.place hl hlp hp hj hptr rfl rfl rfl (fun _ _ => rfl) (fun _ _ => rfl)
  have hnv : (s.put p nv).nodes p = some nv := Btree.put_nodes_self
  have hvp : g.level p ≠ 0 := by omega
  have hnum : nv.numKeys = 16 := by
    show pn.numKeys + 1 = 16
    omega
  have hold : ∀ b m, b ≠ p → (s.put p nv).nodes b = some m → s.nodes b = some m := by
    intro b m hbp hm
    rwa [Btree.put_nodes_of_ne hbp] at hm
  have hchild : ∀ i, i ≤ order → ∃ c m,
      insertAt pn.pointers.slot (j + 1) (some r) i = some c ∧ s.nodes c = some m := by
    intro i hi
    obtain ⟨c, hc, ⟨m, hm, -⟩, hcl, -⟩ :=
      ((hv.nodes p nv hnv).inner hvp).2 i (show i ≤ nv.numKeys by omega)
    exact ⟨c, m, hc, hold c m (by rintro rfl; omega) hm⟩
  obtain ⟨keys, pointers, keys', pointers', m, s₁, s', hsplit, hm, hs₁, hadopt, hk, hpt, hk', hpt'⟩ :=
    splitInner_spec (g.hi l) r hp hpq hfull hj hchild
  let n₁ : BtNode := { pn with keys, pointers, numKeys := 7, next := some s.fresh }
  have hat : SplitAt (s.put p nv) s₁ p nv n₁ m := by
    subst hs₁
    refine ⟨rfl, rfl, ?_, Btree.put_nodes_self, ⟨rfl, ?_⟩, ⟨rfl, ?_⟩, ⟨rfl, ?_⟩,
      fun b hbp hbq => ?_⟩
    · rw [Btree.put_nodes_of_ne hpq, Btree.put_nodes_self]
    · rw [hm]
      exact hleaf.symm
    · rw [hm]
    · rw [hm]
    · have hbq' : b ≠ s.fresh := hbq
      rw [Btree.put_nodes_of_ne hbq', Btree.put_nodes_of_ne hbp, Btree.make_nodes_of_ne hbq',
        Btree.put_nodes_of_ne hbp]
  have hhalves := Halves.of_inner hv hnv hvp hnum hat hadopt rfl (by rw [hm]) hk hpt
    (fun i hi => by rw [hm]; exact hk' i hi) (fun i hi => by rw [hm]; exact hpt' i hi)
  have hfrom : ∀ b b', b ≠ p → s'.nodes b = some b' →
      b = s.fresh ∧ b' = m ∨ ∃ bm, s.nodes b = some bm ∧ SameSlots b' bm := by
    intro b b' hbp hb'
    rcases eq_or_ne b s.fresh with rfl | hbq
    · have := hhalves.right
      rw [show (s.put p nv).fresh = s.fresh from rfl, hb'] at this
      exact Or.inl ⟨rfl, Option.some.inj this⟩
    · obtain ⟨bm, hbm⟩ := (hhalves.old b b' hb').resolve_left hbq
      obtain ⟨m', hm', hsame, -⟩ := hhalves.other b bm hbp hbm
      rw [hb'] at hm'
      cases hm'
      exact Or.inr ⟨bm, hold b bm hbp hbm,
        ⟨hsame.isLeaf.symm, hsame.keys.symm, hsame.pointers.symm, hsame.numKeys.symm⟩⟩
  refine ⟨s', nv.keys.slot 7, hsplit, hv.split hnv hhalves, fun b b' hb' => ?_, ⟨n₁, hhalves.left⟩,
    ⟨fun b bm hbm hlt => ?_, fun bm hbm => ?_⟩, fun b bm hbm hleaf' => ?_,
    fun b b' hb' hleaf' => ?_, hhalves.root, by rw [hadopt.rest, hs₁]; rfl⟩
  · rcases eq_or_ne b p with rfl | hbp
    · rw [hhalves.left] at hb'
      cases hb'
      show 7 ≤ order - 1
      omega
    · rcases hfrom b b' hbp hb' with ⟨-, rfl⟩ | ⟨bm, hbm, hsame⟩
      · rw [hm]
        show 8 ≤ order - 1
        omega
      · rw [← hsame.numKeys]
        exact hb b bm hbm
  · have hbp : b ≠ p := by
      rintro rfl
      exact Nat.lt_irrefl _ hlt
    have hbq : b ≠ s.fresh := Nat.ne_of_lt (h.lt_fresh hbm)
    -- a node above `p` is not one of its children
    rw [hadopt.other b fun i hi hbi => ?_, hat.other b hbp hbq, Btree.put_nodes_of_ne hbp, hbm]
    rw [hm] at hbi
    obtain ⟨c, hc, ⟨cm, hcm, -⟩, hcl, -⟩ :=
      ((hv.nodes p nv hnv).inner hvp).2 (8 + i) (show 8 + i ≤ nv.numKeys by omega)
    rw [show nv.pointers.slot (8 + i) = some b from (hpt' i (by omega)).symm.trans hbi] at hc
    cases hc
    omega
  · rw [hp] at hbm
    cases hbm
    exact ⟨n₁, hhalves.left, rfl⟩
  · have hbp : b ≠ p := by
      rintro rfl
      rw [hp] at hbm
      cases hbm
      rw [hleaf] at hleaf'
      cases hleaf'
    obtain ⟨m', hm', hsame, -⟩ :=
      hhalves.other b bm hbp (by rw [Btree.put_nodes_of_ne hbp, hbm])
    exact ⟨m', hm', hsame⟩
  · have hbp : b ≠ p := by
      rintro rfl
      rw [hhalves.left] at hb'
      cases hb'
      exact absurd hleaf' (by rw [show n₁.isLeaf = pn.isLeaf from rfl, hleaf]; decide)
    rcases hfrom b b' hbp hb' with ⟨-, rfl⟩ | hold
    · rw [hm] at hleaf'
      cases hleaf'
    · exact hold

theorem Settled.trans {s₁ s₂ s₃ : Btree} {g' : Plan} {k : Nat} (h' : Settled B s₂ s₃ g')
    (h : Raised B s₁ s₂ g p k) : Settled B s₁ s₃ g' :=
  ⟨h'.sound, h.leaves.trans h'.leaves, h'.leaves'.trans h.leaves', by rw [h'.itemNext, h.itemNext]⟩

theorem insertIntoParent_root (hl : s.nodes l = some ln) (hlp : ln.parent = none) :
    insertIntoParent past (fuel + 1) s l key r = insertIntoNewRoot s l key r := by
  rw [insertIntoParent, Btree.node_ok hl, ok_bind]
  simp only [hlp]

theorem insertIntoParent_under (hl : s.nodes l = some ln) (hlp : ln.parent = some p)
    (hp : s.nodes p = some pn) :
    insertIntoParent past (fuel + 1) s l key r = (do
      let idx ← insertIdx past s p pn key pn.numKeys 0
      if pn.numKeys < order - 1 then do
        let n ← placeInParent pn idx key r
        .ok (s.put p n)
      else do
        let (s, kPrime, newNode) ← splitInner s p idx key r
        insertIntoParent past fuel s p kPrime newNode) := by
  rw [insertIntoParent, Btree.node_ok hl, ok_bind]
  simp only [hlp, Btree.node_ok hp, ok_bind]

/-- The insertion of a separator gets through exactly when there is room above. -/
theorem insertIntoParent_spec (past : Past) (fuel : Nat) (h : Shape B s g (some (l, r)))
    (hb : Bounded s) (hl : s.nodes l = some ln) (hfuel : g.level s.root < g.level l + fuel) :
    (Room past s l → ∃ s' g', insertIntoParent past fuel s l (g.hi l) r = .ok s' ∧
      Settled B s s' g') ∧
    (¬ Room past s l → insertIntoParent past fuel s l (g.hi l) r = .error .outOfRange) := by
  induction fuel generalizing s g l r ln with
  | zero =>
      have := (h.nodes l ln hl).le
      omega
  | succ fuel ih =>
      cases hlp : ln.parent with
      | none =>
          obtain ⟨s', hs', hnew, hitems⟩ := insertIntoNewRoot_spec (g.hi l) h hl
          obtain ⟨g', hsettled⟩ := hnew.settled h hb hl hlp hitems
          rw [insertIntoParent_root hl hlp]
          exact ⟨fun _ => ⟨s', g', hs', hsettled⟩, fun hno => absurd (.root hl hlp) hno⟩
      | some p =>
          obtain ⟨pn, j, hp, hpl, hj, hptr, -⟩ := h.under hl hlp fun x hx => by
            cases hx
            exact h.hole_ne rfl
          have hlevel : g.level p ≠ 0 := by omega
          have hbound := hb p pn hp
          obtain ⟨hbelow, habove⟩ := insertIdx_place h hl hlp hp hj hptr
          -- the parent of `left` is `p` for the condition too
          have hroom_inv : Room past s l →
              (pn.numKeys < order - 1 ∧ pn.pointers.slot 0 ≠ some l) ∨
              (¬ pn.numKeys < order - 1 ∧ (pn.pointers.slot pn.numKeys ≠ some l ∨ past ≠ none) ∧
                Room past s p) := by
            intro hroom
            cases hroom with
            | root hl' hp' =>
                rw [hl] at hl'
                cases hl'
                rw [hlp] at hp'
                cases hp'
            | place hl' hp' hpn hfew hfirst =>
                rw [hl] at hl'
                cases hl'
                rw [hlp] at hp'
                cases hp'
                rw [hp] at hpn
                cases hpn
                exact Or.inl ⟨hfew, hfirst⟩
            | split hl' hp' hpn hfull hlast hup =>
                rw [hl] at hl'
                cases hl'
                rw [hlp] at hp'
                cases hp'
                rw [hp] at hpn
                cases hpn
                exact Or.inr ⟨hfull, hlast, hup⟩
          rw [insertIntoParent_under hl hlp hp]
          rcases Nat.lt_or_ge pn.numKeys (order - 1) with hfew | hfull
          · rw [insertIdx_ok hbound hj hbelow habove (Or.inl (by omega)), ok_bind, if_pos hfew]
            rcases Nat.eq_zero_or_pos j with rfl | hpos
            · -- the shift loop runs past position zero
              rw [placeInParent_fault hfew ((h.nodes p pn hp).inner hlevel).1, error_bind]
              refine ⟨fun hroom => ?_, fun _ => rfl⟩
              rcases hroom_inv hroom with ⟨-, hfirst⟩ | ⟨hfull, -⟩
              · exact absurd hptr hfirst
              · exact absurd hfew hfull
            · obtain ⟨n', hplace, hsettled⟩ := place_settled h hb hl hlp hp hj hptr hfew hpos
              rw [hplace, ok_bind]
              refine ⟨fun _ => ⟨_, g, rfl, hsettled⟩, fun hno => ?_⟩
              refine absurd (.place hl hlp hp hfew fun h0 => ?_) hno
              have := h.ptr_inj hp hlevel hj (Nat.zero_le _) hptr h0
              omega
          · have hnum : pn.numKeys = order - 1 := by omega
            rcases Classical.em (j < order - 1 ∨ past ≠ none) with hpast | hpast
            · obtain ⟨s', k, hsplit, hraised⟩ := splitInner_raised h hb hl hlp hp hj hptr hnum
              obtain ⟨n₁, hn₁⟩ := hraised.node
              have hpq : p ≠ s.fresh := Nat.ne_of_lt (h.lt_fresh hp)
              obtain ⟨rm, hrm, -⟩ := h.root
              have hih := ih hraised.shape hraised.bounded hn₁ (by
                rw [hraised.root, Plan.split_level hpq,
                  Plan.split_level (Nat.ne_of_lt (h.lt_fresh hrm))]
                omega)
              rw [Plan.split_hi_old hpq] at hih
              have hhole : ∀ x y, g.level p ≤ g.level x →
                  (some (l, r) : Option (Addr × Addr)) ≠ some (y, x) := by
                intro x y hx hxy
                cases hxy
                have := (h.hole l r rfl).level
                omega
              rw [insertIdx_ok hbound hj hbelow habove hpast, ok_bind, if_neg (by omega), hsplit,
                ok_bind]
              refine ⟨fun hroom => ?_, fun hno => ?_⟩
              · have hup : Room past s p := by
                  rcases hroom_inv hroom with ⟨hfew, -⟩ | ⟨-, -, hup⟩
                  · exact absurd hfew (by omega)
                  · exact hup
                obtain ⟨s₂, g₂, hs₂, hsettled⟩ := hih.1 (hup.mono h hp hhole hraised.above)
                exact ⟨s₂, g₂, hs₂, hsettled.trans hraised⟩
              · refine hih.2 fun hup => hno ?_
                refine .split hl hlp hp (by omega) ?_ (hup.of_same h hp hhole hraised.above)
                rcases hpast with hlt | hpast
                · refine Or.inl fun hlast => ?_
                  have := h.ptr_inj hp hlevel hj (Nat.le_refl _) hptr hlast
                  omega
                · exact Or.inr hpast
            · -- the search reads one key past the array
              obtain ⟨hge, hnone⟩ := not_or.mp hpast
              obtain rfl : past = none := Classical.byContradiction hnone
              obtain rfl : j = pn.numKeys := by omega
              rw [insertIdx_fault hnum hbelow, error_bind]
              refine ⟨fun hroom => ?_, fun _ => rfl⟩
              rcases hroom_inv hroom with ⟨hfew, -⟩ | ⟨-, hlast, -⟩
              · exact absurd hfew (by omega)
              · exact (hlast.resolve_right fun hne => hne rfl) hptr |>.elim

end Parent

end HashComp.IndexBtree
