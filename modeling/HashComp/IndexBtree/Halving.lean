import HashComp.IndexBtree.Growth

namespace HashComp.IndexBtree

open HashComp.CheckedLoops
open HashComp.Separators

/-- The plan with the keys of `a` from `k` on given to `q`. -/
def Plan.split (g : Plan) (a q : Addr) (k : Nat) : Plan where
  level := Function.update g.level q (g.level a)
  lo := Function.update g.lo q k
  hi := Function.update (Function.update g.hi a k) q (g.hi a)

/-- The state in which the node `n` at `a` has been split into `n₁` and the new node `r`
at the key `k`. -/
structure Halves (s s' : Btree) (g : Plan) (a : Addr) (n n₁ r : BtNode) (k : Nat) : Prop where
  root : s'.root = s.root
  fresh : s'.fresh = s.fresh + 1
  left : s'.nodes a = some n₁
  right : s'.nodes s.fresh = some r
  leaf : n₁.isLeaf = n.isLeaf ∧ r.isLeaf = n.isLeaf
  parent : n₁.parent = n.parent ∧ r.parent = n.parent
  next : n₁.next = some s.fresh ∧ r.next = n.next
  range : g.lo a < k ∧ k < g.hi a
  keyed : Keyed (g.lo a) k n₁ ∧ Keyed k (g.hi a) r
  filled : 1 ≤ n₁.numKeys ∧ 1 ≤ r.numKeys
  inner : g.level a ≠ 0 →
    Inner s'.nodes (g.split a s.fresh k) (some (a, s.fresh)) a n₁ ∧
      Inner s'.nodes (g.split a s.fresh k) (some (a, s.fresh)) s.fresh r
  other : ∀ b m, b ≠ a → s.nodes b = some m → ∃ m', s'.nodes b = some m' ∧ SameSlots m m' ∧
    m'.next = m.next ∧ (m.parent ≠ some a → m'.parent = m.parent)
  below : ∀ c m, s.nodes c = some m → m.parent = some a → ∃ m' p, s'.nodes c = some m' ∧
    m'.parent = some p ∧ (p = a ∨ p = s.fresh) ∧ PointsTo s'.nodes p c
  gone : ∀ b, s.fresh < b → s'.nodes b = none
  old : ∀ b m, s'.nodes b = some m → b = s.fresh ∨ ∃ m, s.nodes b = some m

section Plan

variable {g : Plan} {a b q : Addr} {k : Nat}

theorem Plan.split_level_new : (g.split a q k).level q = g.level a := Function.update_self ..

theorem Plan.split_level (h : b ≠ q) : (g.split a q k).level b = g.level b :=
  Function.update_of_ne h ..

theorem Plan.split_lo_new : (g.split a q k).lo q = k := Function.update_self ..

theorem Plan.split_lo (h : b ≠ q) : (g.split a q k).lo b = g.lo b := Function.update_of_ne h ..

theorem Plan.split_hi_new : (g.split a q k).hi q = g.hi a := Function.update_self ..

theorem Plan.split_hi_old (h : a ≠ q) : (g.split a q k).hi a = k := by
  show Function.update (Function.update g.hi a k) q (g.hi a) a = k
  rw [Function.update_of_ne h, Function.update_self]

theorem Plan.split_hi (h : b ≠ q) (hba : b ≠ a) : (g.split a q k).hi b = g.hi b := by
  show Function.update (Function.update g.hi a k) q (g.hi a) b = g.hi b
  rw [Function.update_of_ne h, Function.update_of_ne hba]

theorem Plan.split_top (h : b ≠ q) : (g.split a q k).top (some (a, q)) b = g.hi b := by
  rcases eq_or_ne b a with rfl | hba
  · rw [Plan.top_left, Plan.split_hi_new]
  · rw [Plan.top_of_ne hba, Plan.split_hi h hba]

end Plan

section Split

variable {B : Nat} {s s' s₁ : Btree} {g : Plan} {a : Addr} {n n₁ r : BtNode} {k : Nat}

theorem Shape.split (h : Shape B s g none) (ha : s.nodes a = some n)
    (hs : Halves s s' g a n n₁ r k) :
    Shape B s' (g.split a s.fresh k) (some (a, s.fresh)) := by
  have hold : ∀ b m, s.nodes b = some m → b ≠ s.fresh := fun b m hb => Nat.ne_of_lt (h.lt_fresh hb)
  have haq := hold a n ha
  have hok := h.nodes a n ha
  have hext : Extends s.nodes g (g.split a s.fresh k) :=
    ⟨fun c m hc => Plan.split_level (hold c m hc), fun c m hc => Plan.split_lo (hold c m hc)⟩
  have hslots : ∀ b m, b ≠ a → s.nodes b = some m → ∃ m', s'.nodes b = some m' ∧ SameSlots m m' := by
    intro b m hba hb
    obtain ⟨m', hm', hsame, -⟩ := hs.other b m hba hb
    exact ⟨m', hm', hsame⟩
  have hexists : ∀ b m, s.nodes b = some m → (∃ m', s'.nodes b = some m') ∧
      (g.split a s.fresh k).level b = g.level b ∧ (g.split a s.fresh k).lo b = g.lo b := by
    intro b m hb
    refine ⟨?_, hext.level b m hb, hext.lo b m hb⟩
    rcases eq_or_ne b a with rfl | hba
    · exact ⟨n₁, hs.left⟩
    · obtain ⟨m', hm', -⟩ := hslots b m hba hb
      exact ⟨m', hm'⟩
  -- a node keeps the node above it, or has one of the halves there
  have habove : ∀ b m m', s.nodes b = some m → s'.nodes b = some m' → b ≠ s.root →
      ∃ p, m'.parent = some p ∧ (g.split a s.fresh k).level p = g.level b + 1 ∧
        PointsTo s'.nodes p b := by
    intro b m m' hb hb' hroot
    obtain ⟨p, hp, hpl, hpt⟩ := (h.nodes b m hb).parent hroot (fun _ hh => by cases hh)
    rcases eq_or_ne p a with rfl | hpa
    · obtain ⟨m'', x, hm'', hx, hxor, hxpt⟩ := hs.below b m hb hp
      rw [hb'] at hm''
      cases hm''
      refine ⟨x, hx, ?_, hxpt⟩
      rcases hxor with rfl | rfl
      · rw [Plan.split_level haq, hpl]
      · rw [Plan.split_level_new, hpl]
    · have hparent : m'.parent = m.parent := by
        rcases eq_or_ne b a with rfl | hba
        · rw [ha] at hb
          cases hb
          rw [hs.left] at hb'
          cases hb'
          exact hs.parent.1
        · obtain ⟨m'', hm'', -, -, hsame⟩ := hs.other b m hba hb
          rw [hb'] at hm''
          cases hm''
          exact hsame (by rw [hp]; exact fun he => hpa (Option.some.inj he))
      obtain ⟨pm, hpm⟩ : ∃ pm, s.nodes p = some pm := by
        obtain ⟨pm, -, hpm, -⟩ := hpt
        exact ⟨pm, hpm⟩
      exact ⟨p, by rw [hparent, hp], by rw [hext.level p pm hpm, hpl],
        hpt.frame fun m hm => hslots p m hpa hm⟩
  refine ⟨fun b m hb => ?_, fun b hb => ?_, ?_, ?_, ?_, ?_, fun x y hxy => ?_⟩
  · rcases eq_or_ne b s.fresh with rfl | hbq
    · rw [hs.right] at hb
      cases hb
      refine ⟨?_, ?_, ?_, Or.inl hs.filled.2, fun h0 => (hs.inner ?_).2, fun h0 => ?_, ?_,
        fun _ hh => ?_⟩
      · rw [hs.leaf.2, Plan.split_level_new, hok.kind]
      · rw [Plan.split_lo_new, Plan.split_hi_new]
        exact hs.range.2
      · rw [Plan.split_lo_new, Plan.split_hi_new]
        exact hs.keyed.2
      · rwa [Plan.split_level_new] at h0
      · rw [Plan.split_level_new] at h0
        exact (hok.linked h0).frame hs.next.2 Plan.split_hi_new hexists
      · obtain ⟨rm, hrm, -⟩ := h.root
        rw [Plan.split_level_new, hs.root, hext.level _ rm hrm]
        exact hok.le
      · exact absurd rfl (hh a)
    · rcases eq_or_ne b a with rfl | hba
      · rw [hs.left] at hb
        cases hb
        refine ⟨?_, ?_, ?_, Or.inl hs.filled.1, fun h0 => (hs.inner ?_).1, fun h0 => ?_, ?_,
          fun hroot _ => ?_⟩
        · rw [hs.leaf.1, Plan.split_level hbq, hok.kind]
        · rw [Plan.split_lo hbq, Plan.split_hi_old hbq]
          exact hs.range.1
        · rw [Plan.split_lo hbq, Plan.split_hi_old hbq]
          exact hs.keyed.1
        · rwa [Plan.split_level hbq] at h0
        · rw [Plan.split_level hbq] at h0
          exact Or.inr ⟨s.fresh, r, hs.next.1, hs.right, by rw [Plan.split_level_new, h0],
            by rw [Plan.split_lo_new, Plan.split_hi_old hbq]⟩
        · obtain ⟨rm, hrm, -⟩ := h.root
          rw [Plan.split_level hbq, hs.root, hext.level _ rm hrm]
          exact hok.le
        · rw [Plan.split_level hbq]
          exact habove b n n₁ ha hs.left (by rwa [← hs.root])
      · obtain ⟨bm, hbm⟩ := (hs.old b m hb).resolve_left hbq
        obtain ⟨m', hm', hsame, hnext, hparent⟩ := hs.other b bm hba hbm
        rw [hb] at hm'
        cases hm'
        have hbok := h.nodes b bm hbm
        refine hbok.frame hbm hsame hext (Plan.split_hi hbq hba) (fun c cm hc hcp _ => ⟨?_, ?_⟩) ?_
          (fun h0 => (hbok.linked h0).frame hnext (Plan.split_hi hbq hba) hexists)
          fun hroot _ => habove b bm m hbm hb (by rwa [← hs.root])
        · rcases eq_or_ne c a with rfl | hca
          · rw [ha] at hc
            cases hc
            exact ⟨n₁, hs.left, by rw [hs.parent.1, hcp]⟩
          · obtain ⟨cm', hcm', -, -, hsame⟩ := hs.other c cm hca hc
            refine ⟨cm', hcm', ?_⟩
            rw [hsame (by rw [hcp]; exact fun he => hba (Option.some.inj he)), hcp]
        · exact Plan.split_top (hold c cm hc)
        · obtain ⟨rm, hrm, -⟩ := h.root
          rw [hs.root, hext.level _ rm hrm]
  · rw [hs.fresh] at hb
    exact hs.gone b hb
  · obtain ⟨rm, hrm, hnone⟩ := h.root
    rw [hs.root]
    rcases eq_or_ne s.root a with heq | hne
    · rw [heq] at hrm ⊢
      rw [ha] at hrm
      cases hrm
      exact ⟨n₁, hs.left, by rw [hs.parent.1, hnone]⟩
    · obtain ⟨m', hm', -, -, hsame⟩ := hs.other s.root rm hne hrm
      refine ⟨m', hm', ?_⟩
      rw [hsame (by rw [hnone]; exact fun he => by cases he), hnone]
  · obtain ⟨rm, hrm, -⟩ := h.root
    rw [hs.root, hext.lo _ rm hrm, h.rootLo]
  · obtain ⟨rm, hrm, -⟩ := h.root
    rw [hs.root, Plan.split_top (hold _ rm hrm)]
    exact h.rootHi
  · obtain ⟨rm, hrm, -⟩ := h.root
    rw [hs.root, hs.fresh, hext.level _ rm hrm]
    exact Nat.lt_succ_of_lt h.depth
  · cases hxy
    refine ⟨⟨n₁, r, hs.left, hs.right, by rw [hs.parent.1, hs.parent.2]⟩, ?_, ?_, ?_⟩
    · rw [Plan.split_level_new, Plan.split_level haq]
    · rw [Plan.split_hi_old haq, Plan.split_lo_new]
    · obtain ⟨rm, hrm, -⟩ := h.root
      rw [hs.root]
      exact (hold _ rm hrm).symm

end Split

section Keyed

variable {lo hi t d : Nat} {n n' : BtNode}

theorem Keyed.left (h : Keyed lo hi n) (ht : t < n.numKeys) (hnum : n'.numKeys ≤ t)
    (hkeys : ∀ i, i < n'.numKeys → n'.keys.slot i = n.keys.slot i) :
    Keyed lo (n.keys.slot t) n' := by
  refine ⟨fun i j hij hj => ?_, fun i hi => ?_⟩
  · rw [hkeys i (by omega), hkeys j hj]
    exact h.sorted i j hij (by omega)
  · rw [hkeys i hi]
    exact ⟨(h.within i (by omega)).1, h.sorted i t (by omega) ht⟩

theorem Keyed.right (h : Keyed lo hi n) (ht : t ≤ d) (hnum : d + n'.numKeys ≤ n.numKeys)
    (hkeys : ∀ i, i < n'.numKeys → n'.keys.slot i = n.keys.slot (d + i)) :
    Keyed (n.keys.slot t) hi n' := by
  refine ⟨fun i j hij hj => ?_, fun i hi => ?_⟩
  · rw [hkeys i (by omega), hkeys j hj]
    exact h.sorted _ _ (by omega) (by omega)
  · rw [hkeys i hi]
    refine ⟨?_, (h.within _ (by omega)).2⟩
    rcases Nat.eq_or_lt_of_le (show t ≤ d + i by omega) with heq | hlt
    · exact Nat.le_of_eq (by rw [heq])
    · exact Nat.le_of_lt (h.sorted t (d + i) hlt (by omega))

theorem Keyed.lt_of_pos (h : Keyed lo hi n) (ht : t < n.numKeys) (hpos : 0 < t) :
    lo < n.keys.slot t ∧ n.keys.slot t < hi :=
  ⟨Nat.lt_of_le_of_lt (h.within 0 (by omega)).1 (h.sorted 0 t hpos ht), (h.within t ht).2⟩

end Keyed

/-- The node `n` at `a` has made room for the new node `r`; no parent has changed. -/
structure SplitAt (s s' : Btree) (a : Addr) (n n₁ r : BtNode) : Prop where
  root : s'.root = s.root
  fresh : s'.fresh = s.fresh + 1
  left : s'.nodes a = some n₁
  right : s'.nodes s.fresh = some r
  leaf : n₁.isLeaf = n.isLeaf ∧ r.isLeaf = n.isLeaf
  parent : n₁.parent = n.parent ∧ r.parent = n.parent
  next : n₁.next = some s.fresh ∧ r.next = n.next
  other : ∀ b, b ≠ a → b ≠ s.fresh → s'.nodes b = s.nodes b

section Halves

variable {B : Nat} {s s' s₁ : Btree} {g : Plan} {a b c : Addr} {n n₁ r m : BtNode}

theorem SplitAt.of_old (hs : SplitAt s s' a n n₁ r) (hfresh : ∀ b, s.fresh ≤ b → s.nodes b = none)
    (hb : s.nodes b = some m) (hba : b ≠ a) : s'.nodes b = some m := by
  rw [hs.other b hba ?_, hb]
  rintro rfl
  rw [hfresh s.fresh (Nat.le_refl _)] at hb
  cases hb

theorem SplitAt.gone (hs : SplitAt s s' a n n₁ r) (h : Shape B s g none) (ha : s.nodes a = some n)
    (hb : s.fresh < b) : s'.nodes b = none := by
  rw [hs.other b (Nat.ne_of_gt (Nat.lt_trans (h.lt_fresh ha) hb)) (Nat.ne_of_gt hb)]
  exact h.fresh b (Nat.le_of_lt hb)

theorem SplitAt.old (hs : SplitAt s s' a n n₁ r) (ha : s.nodes a = some n)
    (hb : s'.nodes b = some m) : b = s.fresh ∨ ∃ m, s.nodes b = some m := by
  rcases eq_or_ne b s.fresh with rfl | hbq
  · exact Or.inl rfl
  · rcases eq_or_ne b a with rfl | hba
    · exact Or.inr ⟨n, ha⟩
    · exact Or.inr ⟨m, by rw [← hs.other b hba hbq, hb]⟩

theorem Halves.of_leaf (h : Shape B s g none) (ha : s.nodes a = some n) (hlevel : g.level a = 0)
    (hnum : n.numKeys = 16) (hs : SplitAt s s' a n n₁ r) (hn₁ : n₁.numKeys = 8) (hr : r.numKeys = 8)
    (hleft : ∀ i, i < 8 → n₁.keys.slot i = n.keys.slot i)
    (hright : ∀ i, i < 8 → r.keys.slot i = n.keys.slot (8 + i)) :
    Halves s s' g a n n₁ r (n.keys.slot 8) := by
  have hkeyed := (h.nodes a n ha).keyed
  refine ⟨hs.root, hs.fresh, hs.left, hs.right, hs.leaf, hs.parent, hs.next,
    hkeyed.lt_of_pos (by omega) (by omega),
    ⟨hkeyed.left (by omega) (Nat.le_of_eq hn₁) fun i hi => hleft i (by omega),
      hkeyed.right (Nat.le_refl 8) (by omega) fun i hi => hright i (by omega)⟩,
    ⟨by omega, by omega⟩, fun h0 => absurd hlevel h0, fun b m hba hb => ?_, fun c m hc hp => ?_,
    fun b hb => hs.gone h ha hb, fun b m hb => hs.old ha hb⟩
  · exact ⟨m, hs.of_old h.fresh hb hba, SameSlots.refl, rfl, fun _ => rfl⟩
  · -- a leaf is nobody's parent
    obtain ⟨-, -, -, hl, -⟩ := h.under hc hp fun _ hh => by cases hh
    omega

theorem Halves.of_inner (h : Shape B s g none) (ha : s.nodes a = some n) (hlevel : g.level a ≠ 0)
    (hnum : n.numKeys = 16) (hs : SplitAt s s₁ a n n₁ r) (hadopt : Adopted r s.fresh 9 s₁ s')
    (hn₁ : n₁.numKeys = 7) (hr : r.numKeys = 8)
    (hleft : ∀ i, i < 7 → n₁.keys.slot i = n.keys.slot i)
    (hleftp : ∀ i, i ≤ 7 → n₁.pointers.slot i = n.pointers.slot i)
    (hright : ∀ i, i < 8 → r.keys.slot i = n.keys.slot (8 + i))
    (hrightp : ∀ i, i ≤ 8 → r.pointers.slot i = n.pointers.slot (8 + i)) :
    Halves s s' g a n n₁ r (n.keys.slot 7) := by
  have hok := h.nodes a n ha
  have hkeyed := hok.keyed
  have haq : a ≠ s.fresh := Nat.ne_of_lt (h.lt_fresh ha)
  -- the adopted nodes are the children of `a` on the right
  have hptr : ∀ i c, i < 9 → r.pointers.slot i = some c →
      ∃ m, s.nodes c = some m ∧ m.parent = some a ∧ g.level c + 1 = g.level a := by
    intro i c hi hc
    rw [hrightp i (by omega)] at hc
    exact h.parent_of_ptr ha hlevel (by omega) hc
  have hkeep : ∀ c m, s₁.nodes c = some m → (∀ m, s.nodes c = some m → m.parent ≠ some a) →
      s'.nodes c = some m := by
    intro c m hc hne
    rw [hadopt.other c fun i hi hci => ?_, hc]
    obtain ⟨m', hm', hp, -⟩ := hptr i c hi hci
    exact hne m' hm' hp
  have hleft' : s'.nodes a = some n₁ := hkeep a n₁ hs.left fun m hm hp => by
    obtain ⟨-, -, -, hl, -⟩ := h.under hm hp fun _ hh => by cases hh
    omega
  have hright' : s'.nodes s.fresh = some r := hkeep s.fresh r hs.right fun m hm => by
    rw [h.fresh s.fresh (Nat.le_refl _)] at hm
    cases hm
  have hs₁ : ∀ c m, s.nodes c = some m → c ≠ a → s₁.nodes c = some m := fun c m hc hca =>
    hs.of_old h.fresh hc hca
  -- a child on the left is not adopted, one on the right is
  have hchildl : ∀ i c m, i ≤ 7 → n.pointers.slot i = some c → s.nodes c = some m → c ≠ a →
      s'.nodes c = some m := by
    intro i c m hi hc hm hca
    rw [hadopt.other c fun j hj hcj => ?_, hs₁ c m hm hca]
    rw [hrightp j (by omega)] at hcj
    have := h.ptr_inj ha hlevel (show i ≤ n.numKeys by omega) (show 8 + j ≤ n.numKeys by omega) hc hcj
    omega
  have hchildr : ∀ i c m, i ≤ 8 → n.pointers.slot (8 + i) = some c → s.nodes c = some m → c ≠ a →
      s'.nodes c = some { m with parent := some s.fresh } := fun i c m hi hc hm hca =>
    hadopt.child i c m (by omega) (by rw [hrightp i hi, hc]) (hs₁ c m hm hca)
  have hbelow : ∀ i c, i ≤ 16 → n.pointers.slot i = some c →
      ∃ m, s.nodes c = some m ∧ c ≠ a ∧ c ≠ s.fresh := by
    intro i c hi hc
    obtain ⟨m, hm, -, hl⟩ := h.parent_of_ptr ha hlevel (show i ≤ n.numKeys by omega) hc
    exact ⟨m, hm, by rintro rfl; omega, Nat.ne_of_lt (h.lt_fresh hm)⟩
  have hparts := (hok.inner hlevel).2
  rw [hnum] at hparts
  refine ⟨by rw [hadopt.rest]; exact hs.root, by rw [hadopt.rest]; exact hs.fresh, hleft', hright',
    hs.leaf, hs.parent, hs.next, hkeyed.lt_of_pos (by omega) (by omega),
    ⟨hkeyed.left (by omega) (Nat.le_of_eq hn₁) fun i hi => hleft i (by omega),
      hkeyed.right (show 7 ≤ 8 by omega) (by omega) fun i hi => hright i (by omega)⟩,
    ⟨by omega, by omega⟩, fun _ => ⟨⟨by omega, ?_⟩, ⟨by omega, ?_⟩⟩, fun b m hba hb => ?_, fun c m hc hp => ?_,
    fun b hb => ?_, fun b m hb => ?_⟩
  · rw [hn₁, Plan.split_lo haq, Plan.split_hi_old haq]
    refine Parts.congr ((hparts.left (show 7 < 16 by omega)).imp fun i x y c hi hc hchild => ?_)
      hleft hleftp
    obtain ⟨m, hm, hca, hcq⟩ := hbelow i c (by omega) hc
    refine hchild.frame (fun m' hm' hp => ⟨m', hchildl i c m' hi hc hm' hca, hp⟩)
      (Plan.split_level hcq) (Plan.split_level haq) (Plan.split_lo hcq) ?_
    exact Plan.split_top hcq
  · rw [hr, Plan.split_lo_new, Plan.split_hi_new]
    refine Parts.congr ((Parts.right (m := 7) (n := 8) hparts).imp
      fun i x y c hi hc hchild => ?_) hright hrightp
    obtain ⟨m, hm, hca, hcq⟩ := hbelow (8 + i) c (by omega) hc
    refine ⟨⟨_, hchildr i c m hi hc hm hca, rfl⟩, ?_, ?_, ?_⟩
    · rw [Plan.split_level hcq, Plan.split_level_new, hchild.level]
    · rw [Plan.split_lo hcq, hchild.lo]
    · rw [Plan.split_top hcq]
      exact hchild.hi
  · have hb₁ := hs₁ b m hb hba
    rcases hadopt.cases hb₁ with hb' | hb'
    · refine ⟨_, hb', ⟨rfl, rfl, rfl, rfl⟩, rfl, fun hp => ?_⟩
      have := hkeep b m hb₁ fun m' hm' => by
        rw [hb] at hm'
        cases hm'
        exact hp
      rw [hb'] at this
      exact congrArg BtNode.parent (Option.some.inj this)
    · exact ⟨m, hb', SameSlots.refl, rfl, fun _ => rfl⟩
  · obtain ⟨pn, i, hpn, -, hi, hpi, -⟩ := h.under hc hp fun _ hh => by cases hh
    rw [ha] at hpn
    cases hpn
    obtain ⟨-, -, hca, -⟩ := hbelow i c (by omega) hpi
    rcases Nat.lt_or_ge i 8 with hi8 | hi8
    · exact ⟨m, a, hchildl i c m (by omega) hpi hc hca, hp, Or.inl rfl, n₁, i, hleft', by omega,
        by rw [hleftp i (by omega), hpi]⟩
    · obtain ⟨i, rfl⟩ := Nat.exists_eq_add_of_le hi8
      exact ⟨_, s.fresh, hchildr i c m (by omega) hpi hc hca, rfl, Or.inr rfl, r, i, hright',
        by omega, by rw [hrightp i (by omega), hpi]⟩
  · have hnone := hs.gone h ha hb
    rw [hadopt.other b fun i hi hbi => ?_, hnone]
    obtain ⟨m', hm', -⟩ := hptr i b hi hbi
    exact Nat.lt_asymm hb (h.lt_fresh hm')
  · rcases eq_or_ne b s.fresh with rfl | hbq
    · exact Or.inl rfl
    · rcases Classical.em (∃ i, i < 9 ∧ r.pointers.slot i = some b) with ⟨i, hi, hbi⟩ | hnone
      · obtain ⟨m', hm', -⟩ := hptr i b hi hbi
        exact Or.inr ⟨m', hm'⟩
      · rw [hadopt.other b fun i hi hbi => hnone ⟨i, hi, hbi⟩] at hb
        exact hs.old ha hb

end Halves

end HashComp.IndexBtree
