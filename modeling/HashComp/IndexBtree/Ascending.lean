import HashComp.IndexBtree.Calls
import Mathlib.Data.List.Dedup

namespace HashComp.IndexBtree

open HashComp.CheckedLoops
open HashComp.Separators

/-- `a` is the top of a tree of height `d` for the keys from `lo` and below `hi`: the
keys of its nodes ascend within their separators, all leaves are `d` below it and
every node has the one above it for its parent. -/
def Subtree (s : Btree) : (d : Nat) → (parent : Option Addr) → (lo hi : Nat) → (a : Addr) → Prop
  | 0, parent, lo, hi, a => ∃ n, s.nodes a = some n ∧ n.isLeaf = true ∧ n.parent = parent ∧
      n.numKeys ≤ order - 1 ∧ Keyed lo hi n
  | d + 1, parent, lo, hi, a => ∃ n, s.nodes a = some n ∧ n.isLeaf = false ∧ n.parent = parent ∧
      n.numKeys ≤ order - 1 ∧ Keyed lo hi n ∧ ∀ i, i ≤ n.numKeys → ∃ c,
        n.pointers.slot i = some c ∧
          Subtree s d (some a) (lower lo n.keys.slot i) (upper hi n.keys.slot n.numKeys i) c

inductive ItemChain (next : Addr → Option Addr) : Option Addr → List Addr → Prop where
  | nil : ItemChain next none []
  | cons {x : Addr} {l : List Addr} (h : ItemChain next (next x) l) :
      ItemChain next (some x) (x :: l)

def chainOf (calls : List (Nat × Addr)) (k : Nat) : List Addr :=
  ((calls.filter fun c => c.1 = k).map Prod.snd).reverse

def laterKeys (calls : List (Nat × Addr)) (k : Nat) : List Nat :=
  ((calls.map Prod.fst).dedup).filter fun x => k < x

def nextAll (thdId : Nat) : (count : Nat) → Btree → Except Fault (List (Option Addr))
  | 0, _ => .ok []
  | count + 1, s => do
      let (s, item) ← indexNext s thdId false
      let items ← nextAll thdId count s
      .ok (item :: items)

section Shape

variable {B : Nat} {s : Btree} {g : Plan} {a p : Addr} {n : BtNode} {key : Nat}

theorem Sound.subtree (h : Sound B s g) {d : Nat} (ha : s.nodes a = some n) (hd : g.level a = d) :
    Subtree s d n.parent (g.lo a) (g.hi a) a := by
  have hok := h.shape.nodes a n ha
  induction d generalizing a n with
  | zero => exact ⟨n, ha, hok.kind.mpr hd, rfl, h.bounded a n ha, hok.keyed⟩
  | succ d ih =>
      refine ⟨n, ha, ?_, rfl, h.bounded a n ha, hok.keyed, fun i hi => ?_⟩
      · refine Bool.eq_false_iff.mpr fun ht => ?_
        have := hok.kind.mp ht
        omega
      · obtain ⟨c, hc, ⟨m, hm, hp⟩, hl, hlo, hhi⟩ := (hok.inner (by omega)).2 i hi
        refine ⟨c, hc, ?_⟩
        have hsub := ih hm (by omega) (h.shape.nodes c m hm)
        rw [Plan.top_none] at hhi
        rwa [hp, hlo, hhi] at hsub

/-- A node whose keys go up to the bound of the tree is the last one at its height, and
there is room for what is split off it. -/
theorem Shape.room_of_last (h : Shape B s g none) (ha : s.nodes a = some n)
    (hlast : g.hi a = B) (value : Btree → Addr → Nat) : Room (some value) s a := by
  obtain ⟨d, hd⟩ := Nat.exists_eq_add_of_le (h.nodes a n ha).le
  induction d generalizing a n with
  | zero =>
      have hroot : a = s.root := by
        refine Classical.byContradiction fun hne => ?_
        obtain ⟨p, -, hpl, pm, -, hpm, -⟩ := (h.nodes a n ha).parent hne fun _ hx => by cases hx
        have := (h.nodes p pm hpm).le
        omega
      obtain ⟨r, hr, hnone⟩ := h.root
      rw [← hroot, ha] at hr
      cases hr
      exact .root ha hnone
  | succ d ih =>
      have hne : a ≠ s.root := by
        rintro rfl
        omega
      obtain ⟨p, hp, -⟩ := (h.nodes a n ha).parent hne fun _ hx => by cases hx
      obtain ⟨pn, i, hpn, hpl, hi, hptr, hchild⟩ := h.under ha hp fun _ hx => by cases hx
      have hhi := hchild.hi
      rw [Plan.top_none, hlast] at hhi
      have hple := h.hi_le hpn
      -- the last child of its parent
      have hin : i = pn.numKeys := by
        refine Classical.byContradiction fun hne => ?_
        rw [upper_of_ne hne] at hhi
        have := ((h.nodes p pn hpn).keyed.within i (by omega)).2
        omega
      rw [hin, upper_self] at hhi
      have hlevel : g.level p ≠ 0 := by omega
      rcases Nat.lt_or_ge pn.numKeys (order - 1) with hfew | hfull
      · refine .place ha hp hpn hfew fun h0 => ?_
        have := h.ptr_inj hpn hlevel hi (Nat.zero_le _) hptr h0
        have := ((h.nodes p pn hpn).inner hlevel).1
        omega
      · exact .split ha hp hpn (by omega) (Or.inr nofun) (ih hpn hhi.symm (by omega))

theorem Sound.fits_of_last (h : Sound (B + 1) s g) (hkey : B ≤ key)
    (value : Btree → Addr → Nat) :
    Fits (some value) s key := by
  have hr := h.raise (show B + 1 ≤ key + 1 by omega)
  obtain ⟨rm, hrm, -⟩ := hr.shape.root
  obtain ⟨a, n, ha, hlevel, hlo, hhi, hread, -⟩ := findLeaf_spec key hr.shape hr.bounded
    hrm rfl hr.shape.depth (by rw [hr.shape.rootLo]; exact Nat.zero_le _)
    (by have := hr.shape.rootHi; rw [Plan.top_none] at this; omega)
  refine ⟨a, n, hread none, ha, Or.inr (Or.inr (hr.shape.room_of_last ha ?_ value))⟩
  refine Plan.raise_hi_of_eq (Classical.byContradiction fun hne => ?_)
  rw [Plan.raise_hi_of_ne hne] at hhi
  have := h.shape.hi_le ha
  omega

end Shape

section Chains

variable {next : Addr → Option Addr} {x : Addr} {v : Option Addr} {l : List Addr}

theorem ItemChain.update (h : ItemChain next v l) (hx : x ∉ l) (w : Option Addr) :
    ItemChain (Function.update next x w) v l := by
  induction h with
  | nil => exact .nil
  | @cons y l _ ih =>
      have hyx : y ≠ x := fun he => hx (by rw [he]; exact List.mem_cons_self)
      refine .cons ?_
      rw [Function.update_of_ne hyx]
      exact ih fun hm => hx (List.mem_cons_of_mem _ hm)

end Chains

structure Holds (s : Btree) (chains : Nat → List Addr) : Prop where
  entries : ∀ k v, Entry s.nodes k v → chains k ≠ [] ∧ ItemChain s.itemNext v (chains k)
  covers : ∀ k, chains k ≠ [] → ∃ v, Entry s.nodes k v
  fresh : ∀ x, (∀ k, x ∉ chains k) → s.itemNext x = none

section Holds

variable {B : Nat} {s s' : Btree} {g : Plan} {chains chains' : Nat → List Addr} {key : Nat}
  {item : Addr}

theorem Holds.inserted (h : Holds s chains) (hins : Inserted s s' key item)
    (hitem : ∀ k, item ∉ chains k) (hkey : chains' key = item :: chains key)
    (hother : ∀ k, k ≠ key → chains' k = chains k) : Holds s' chains' := by
  have hmem : ∀ x k, x ∈ chains k → x ∈ chains' k := by
    intro x k hx
    rcases eq_or_ne k key with rfl | hne
    · rw [hkey]
      exact List.mem_cons_of_mem _ hx
    · rwa [hother k hne]
  -- the chains there were stay chains
  have hchain : ∀ v k, ItemChain s.itemNext v (chains k) → ItemChain s'.itemNext v (chains k) := by
    intro v k hc
    rcases hins.items with ⟨w, -, hw⟩ | ⟨-, hsame⟩
    · rw [hw]
      exact hc.update (hitem k) w
    · rwa [hsame]
  have hnew : ItemChain s'.itemNext (some item) (item :: chains key) := by
    refine .cons ?_
    rcases hins.items with ⟨w, he, hw⟩ | ⟨hno, hsame⟩
    · rw [hw, Function.update_self, ← hw]
      exact hchain w key (h.entries key w he).2
    · have hnil : chains key = [] := Classical.byContradiction fun hne => by
        obtain ⟨v, he⟩ := h.covers key hne
        exact hno v he
      rw [hsame, h.fresh item hitem, hnil]
      exact .nil
  refine ⟨fun k v he => ?_, fun k hk => ?_, fun x hx => ?_⟩
  · rcases (hins.entries k v).mp he with ⟨rfl, rfl⟩ | ⟨hne, he⟩
    · rw [hkey]
      exact ⟨List.cons_ne_nil _ _, hnew⟩
    · rw [hother k hne]
      exact ⟨(h.entries k v he).1, hchain v k (h.entries k v he).2⟩
  · rcases eq_or_ne k key with rfl | hne
    · exact ⟨some item, (hins.entries k _).mpr (Or.inl ⟨rfl, rfl⟩)⟩
    · obtain ⟨v, he⟩ := h.covers k (by rwa [← hother k hne])
      exact ⟨v, (hins.entries k v).mpr (Or.inr ⟨hne, he⟩)⟩
  · have hxi : x ≠ item := by
      rintro rfl
      exact hx key (by rw [hkey]; exact List.mem_cons_self)
    have hold : s.itemNext x = none := h.fresh x fun k hk => hx k (hmem x k hk)
    rcases hins.items with ⟨w, -, hw⟩ | ⟨-, hsame⟩
    · rw [hw, Function.update_of_ne hxi, hold]
    · rw [hsame, hold]

end Holds

/-- The cursor of the thread stands at a key of a leaf. -/
def At (s : Btree) (g : Plan) (thdId k : Nat) : Prop :=
  ∃ a n, s.curLeaf thdId = some a ∧ s.nodes a = some n ∧ g.level a = 0 ∧
    s.curIdx thdId < n.numKeys ∧ n.keys.slot (s.curIdx thdId) = k

section Walk

variable {B : Nat} {s : Btree} {g : Plan} {chains : Nat → List Addr} {a b : Addr} {n m : BtNode}
  {thdId k x i : Nat} {v : Option Addr} {curLeaf : Nat → Option Addr} {curIdx : Nat → Nat}

theorem Sound.cursor (h : Sound B s g) : Sound B { s with curLeaf, curIdx } g :=
  ⟨⟨h.shape.nodes, h.shape.fresh, h.shape.root, h.shape.rootLo, h.shape.rootHi, h.shape.depth,
    h.shape.hole⟩, h.bounded⟩

theorem Holds.cursor (h : Holds s chains) : Holds { s with curLeaf, curIdx } chains :=
  ⟨h.entries, h.covers, h.fresh⟩

theorem Shape.entry_range (h : Shape B s g none) (he : Entry s.nodes x v) :
    ∃ a n, s.nodes a = some n ∧ g.level a = 0 ∧ g.lo a ≤ x ∧ x < g.hi a ∧ Row n x v := by
  obtain ⟨a, n, ha, hleaf, i, hi, hk, hv⟩ := he
  have hok := h.nodes a n ha
  have hin := hok.keyed.within i hi
  rw [hk] at hin
  exact ⟨a, n, ha, hok.kind.mp hleaf, hin.1, hin.2, i, hi, hk, hv⟩

theorem indexRead_spec (thdId : Nat) (h : Sound B s g) (he : Entry s.nodes k v) :
    ∃ curLeaf curIdx v, indexRead s k thdId = .ok ({ s with curLeaf, curIdx }, v) ∧
      At { s with curLeaf, curIdx } g thdId k ∧ Entry s.nodes k v := by
  have horder : order = 16 := rfl
  obtain ⟨rm, hrm, -⟩ := h.shape.root
  have hkB : k < B := by
    obtain ⟨b, m, hb, -, -, hhi, -⟩ := h.shape.entry_range he
    exact Nat.lt_of_lt_of_le hhi (h.shape.hi_le hb)
  obtain ⟨a, n, ha, hlevel, hlo, hhi, hread, -⟩ := findLeaf_spec k h.shape h.bounded
    hrm rfl h.shape.depth (by rw [h.shape.rootLo]; exact Nat.zero_le _)
    (by have := h.shape.rootHi; rw [Plan.top_none] at this; omega)
  have hbound := h.bounded a n ha
  rcases leafHasKey_spec k hbound with ⟨i, hhas, hi, hik⟩ | ⟨-, hnone⟩
  · refine ⟨Function.update s.curLeaf thdId (some a), Function.update s.curIdx thdId i,
      n.pointers.slot i, ?_, ⟨a, n, Function.update_self .., ha, hlevel, ?_, ?_⟩,
      ⟨a, n, ha, (h.shape.nodes a n ha).kind.mpr hlevel, i, hi, hik, rfl⟩⟩
    · rw [indexRead, hread none, ok_bind]
      dsimp only
      rw [Btree.node_ok ha, ok_bind, hhas, ok_bind]
      dsimp only
      rw [Cells.read_ok (by omega), ok_bind]
    · show Function.update s.curIdx thdId i thdId < n.numKeys
      rwa [Function.update_self]
    · show n.keys.slot (Function.update s.curIdx thdId i thdId) = k
      rwa [Function.update_self]
  · obtain ⟨i, hi, hik, -⟩ := h.shape.row_of_entry ha hlevel hlo hhi he
    exact absurd hik (hnone i hi)

/-- The next position of a cursor: the one after it in the leaf, or the first one of
the next leaf. -/
theorem indexNext_at (h : Sound B s g) (hat : s.curLeaf thdId = some a) (ha : s.nodes a = some n)
    (hi : s.curIdx thdId < n.numKeys) (hb : s.nodes b = some m) (hlevel : g.level b = 0)
    (hx : i < m.numKeys) (hnext : (if n.numKeys ≤ s.curIdx thdId + 1 then (n.next, 0)
      else (some a, s.curIdx thdId + 1)) = (some b, i)) :
    ∃ curLeaf curIdx, indexNext s thdId false =
        .ok ({ s with curLeaf, curIdx }, m.pointers.slot i) ∧
      At { s with curLeaf, curIdx } g thdId (m.keys.slot i) := by
  have horder : order = 16 := rfl
  have hnb := h.bounded a n ha
  have hmb := h.bounded b m hb
  have hleaf : m.isLeaf = true := (h.shape.nodes b m hb).kind.mpr hlevel
  let s₁ : Btree := { s with
    curLeaf := Function.update s.curLeaf thdId (some b)
    curIdx := Function.update s.curIdx thdId i }
  refine ⟨s₁.curLeaf, s₁.curIdx, ?_, b, m, Function.update_self .., hb, hlevel, ?_, ?_⟩
  · rw [indexNext, hat, deref, ok_bind, Btree.node_ok ha, ok_bind, Cells.read_ok (by omega), ok_bind]
    simp only [hnext]
    show (s₁.node b >>= _) = _
    rw [Btree.node_ok (s := s₁) hb, ok_bind, if_pos hleaf, if_neg Bool.false_ne_true, ok_bind,
      Cells.read_ok (by omega), ok_bind]
    rfl
  · show Function.update s.curIdx thdId i thdId < m.numKeys
    rwa [Function.update_self]
  · show m.keys.slot (Function.update s.curIdx thdId i thdId) = _
    rw [Function.update_self]

/-- `index_next` goes to the least key after the one of the cursor, if there is one. -/
theorem indexNext_spec (h : Sound B s g) (hat : At s g thdId k) :
    (∃ s', indexNext s thdId false = .ok (s', none) ∧ ∀ x v, Entry s.nodes x v → x ≤ k) ∨
    ∃ curLeaf curIdx k' v, indexNext s thdId false = .ok ({ s with curLeaf, curIdx }, v) ∧
      At { s with curLeaf, curIdx } g thdId k' ∧ Entry s.nodes k' v ∧ k < k' ∧
      ∀ x w, Entry s.nodes x w → k < x → k' ≤ x := by
  obtain ⟨a, n, hcur, ha, hlevel, hi, rfl⟩ := hat
  have hok := h.shape.nodes a n ha
  have hleaf : n.isLeaf = true := hok.kind.mpr hlevel
  have hlo := (hok.keyed.within _ hi).1
  -- a key of the leaf after the cursor is at a later position
  have hrow : ∀ x w, Entry s.nodes x w → n.keys.slot (s.curIdx thdId) < x → x < g.hi a →
      ∃ j, s.curIdx thdId < j ∧ j < n.numKeys ∧ n.keys.slot j = x := by
    intro x w he hlt hx
    obtain ⟨j, hj, hjk, -⟩ := h.shape.row_of_entry ha hlevel (by omega) hx he
    refine ⟨j, Nat.lt_of_not_le fun hle => ?_, hj, hjk⟩
    rcases Nat.eq_or_lt_of_le hle with heq | hlt'
    · rw [heq] at hjk
      omega
    · have := hok.keyed.sorted j _ hlt' hi
      omega
  rcases Nat.lt_or_ge (s.curIdx thdId + 1) n.numKeys with hmore | hend
  · obtain ⟨c, j, hc, hatc⟩ := indexNext_at h hcur ha hi ha hlevel hmore (if_neg (by omega))
    refine Or.inr ⟨c, j, _, _, hc, hatc, ⟨a, n, ha, hleaf, _, hmore, rfl, rfl⟩,
      hok.keyed.sorted _ _ (Nat.lt_succ_self _) hmore, fun x w he hlt => ?_⟩
    refine Nat.le_of_not_lt fun hgt => ?_
    have hin := (hok.keyed.within _ hmore).2
    obtain ⟨y, hy, hyn, hyk⟩ := hrow x w he hlt (by omega)
    rcases Nat.eq_or_lt_of_le (Nat.succ_le_of_lt hy) with heq | hlt'
    · rw [← heq] at hyk
      exact absurd hyk (Nat.ne_of_gt hgt)
    · have := hok.keyed.sorted _ y hlt' hyn
      have : n.keys.slot (s.curIdx thdId + 1) < n.keys.slot y := this
      omega
  · -- the cursor is at the last key of its leaf
    have hlast : ∀ x w, Entry s.nodes x w → n.keys.slot (s.curIdx thdId) < x → g.hi a ≤ x := by
      intro x w he hlt
      refine Nat.le_of_not_lt fun hx => ?_
      obtain ⟨y, hy, hyn, -⟩ := hrow x w he hlt hx
      omega
    rcases hok.linked hlevel with ⟨hnone, hB⟩ | ⟨b, m, hb, hm, hbl, hblo⟩
    · refine Or.inl ⟨{ s with
        curLeaf := Function.update s.curLeaf thdId none
        curIdx := Function.update s.curIdx thdId 0 }, ?_, fun x w he => ?_⟩
      · have hnb := h.bounded a n ha
        rw [indexNext, hcur, deref, ok_bind, Btree.node_ok ha, ok_bind, Cells.read_ok (by omega),
          ok_bind]
        simp only [if_pos hend, hnone]
      · refine Nat.le_of_not_lt fun hlt => ?_
        obtain ⟨c, cm, hc, -, -, hhi, -⟩ := h.shape.entry_range he
        have := h.shape.hi_le hc
        have := hlast x w he hlt
        omega
    · have hbok := h.shape.nodes b m hm
      have hpos : 1 ≤ m.numKeys := by
        rcases hbok.filled with hpos | ⟨hzero, -⟩
        · exact hpos
        · have := hok.range
          omega
      have hfirst := hbok.keyed.within 0 hpos
      obtain ⟨c, j, hc, hatc⟩ := indexNext_at h hcur ha hi hm hbl hpos (by rw [if_pos hend, hb])
      have hrange := (hok.keyed.within _ hi).2
      refine Or.inr ⟨c, j, _, _, hc, hatc, ⟨b, m, hm, hbok.kind.mpr hbl, 0, hpos, rfl, rfl⟩, by omega,
        fun x w he hlt => ?_⟩
      have hge := hlast x w he hlt
      refine Nat.le_of_not_lt fun hgt => ?_
      obtain ⟨y, hy, hyk, -⟩ := h.shape.row_of_entry hm hbl (by omega) (by omega) he
      rcases Nat.eq_zero_or_pos y with rfl | hy0
      · omega
      · have := hbok.keyed.sorted 0 y hy0 hy
        omega

theorem nextAll_spec (h : Sound B s g) (hh : Holds s chains) (hat : At s g thdId k)
    {later : List Nat} (hsorted : later.Pairwise (· < ·))
    (hmem : ∀ x, x ∈ later ↔ chains x ≠ [] ∧ k < x) :
    ∃ items, nextAll thdId (later.length + 1) s = .ok (items ++ [none]) ∧
      List.Forall₂ (fun v x => ItemChain s.itemNext v (chains x)) items later := by
  induction later generalizing s k with
  | nil =>
      rcases indexNext_spec h hat with ⟨s', hs', -⟩ | ⟨-, -, k', v, -, -, he, hlt, -⟩
      · refine ⟨[], ?_, .nil⟩
        rw [List.length_nil, nextAll, hs', ok_bind]
        rfl
      · exact absurd ((hmem k').mpr ⟨(hh.entries k' v he).1, hlt⟩) List.not_mem_nil
  | cons y later ih =>
      obtain ⟨hy, hrest⟩ := List.pairwise_cons.mp hsorted
      obtain ⟨hyc, hky⟩ := (hmem y).mp List.mem_cons_self
      obtain ⟨w, hew⟩ := hh.covers y hyc
      rcases indexNext_spec h hat with ⟨s', -, hle⟩ | ⟨c, j, k', v, hnext, hat', he, hlt, hleast⟩
      · have := hle y w hew
        omega
      · -- the least later key is the first of the list
        obtain rfl : k' = y := by
          rcases List.mem_cons.mp ((hmem k').mpr ⟨(hh.entries k' v he).1, hlt⟩) with rfl | hin
          · rfl
          · have := hy k' hin
            have := hleast y w hew hky
            omega
        obtain ⟨items, hitems, hall⟩ := ih (s := { s with curLeaf := c, curIdx := j }) h.cursor
          hh.cursor hat' hrest fun x => by
            constructor
            · intro hx
              exact ⟨((hmem x).mp (List.mem_cons_of_mem _ hx)).1, hy x hx⟩
            · rintro ⟨hxc, hxlt⟩
              refine (List.mem_cons.mp ((hmem x).mpr ⟨hxc, by omega⟩)).resolve_left ?_
              omega
        refine ⟨v :: items, ?_, .cons (hh.entries k' v he).2 hall⟩
        rw [List.length_cons, nextAll, hnext, ok_bind]
        dsimp only
        rw [hitems, ok_bind, List.cons_append]

end Walk

section Ascending

variable {B : Nat} {s : Btree} {g : Plan} {calls done todo : List (Nat × Addr)} {k : Nat}

theorem chainOf_concat {c : Nat × Addr} :
    chainOf (calls ++ [c]) k = if c.1 = k then c.2 :: chainOf calls k else chainOf calls k := by
  rw [chainOf, List.filter_append, List.map_append, List.reverse_append]
  split
  · rename_i h
    rw [List.filter_cons_of_pos (p := fun c : Nat × Addr => decide (c.1 = k)) (decide_eq_true h)]
    rfl
  · rename_i h
    rw [List.filter_cons_of_neg (p := fun c : Nat × Addr => decide (c.1 = k)) (by simpa using h)]
    rfl

theorem mem_chainOf {x : Addr} : x ∈ chainOf calls k ↔ (k, x) ∈ calls := by
  simp only [chainOf, List.mem_reverse, List.mem_map, List.mem_filter, decide_eq_true_eq]
  constructor
  · rintro ⟨⟨k', y⟩, ⟨hc, rfl⟩, rfl⟩
    exact hc
  · intro hc
    exact ⟨(k, x), ⟨hc, rfl⟩, rfl⟩

theorem chainOf_ne_nil : chainOf calls k ≠ [] ↔ k ∈ calls.map Prod.fst := by
  rw [List.mem_map]
  constructor
  · intro hne
    obtain ⟨x, hx⟩ := List.exists_mem_of_ne_nil _ hne
    exact ⟨(k, x), mem_chainOf.mp hx, rfl⟩
  · rintro ⟨⟨_, x⟩, hc, rfl⟩
    exact List.ne_nil_of_mem (mem_chainOf.mpr hc)

theorem mem_laterKeys {x : Nat} : x ∈ laterKeys calls k ↔ chainOf calls x ≠ [] ∧ k < x := by
  rw [laterKeys, List.mem_filter, List.mem_dedup, chainOf_ne_nil, decide_eq_true_eq]

theorem laterKeys_sorted (h : calls.Pairwise fun c d => c.1 ≤ d.1) :
    (laterKeys calls k).Pairwise (· < ·) := by
  refine List.Pairwise.filter _ ?_
  have hle : (calls.map Prod.fst).dedup.Pairwise (· ≤ ·) :=
    (List.pairwise_map.mpr h).sublist (List.dedup_sublist _)
  exact (hle.and (List.nodup_dedup _)).imp fun ⟨hle, hne⟩ => Nat.lt_of_le_of_ne hle hne

/-- Calls with keys from `B` on get through, and the tree holds what they insert. -/
theorem Sound.ascending (h : Sound (B + 1) s g) (hh : Holds s (chainOf done))
    (hdone : ∀ c ∈ done, c.1 ≤ B) (hB : ∀ c ∈ todo, B ≤ c.1)
    (hsorted : todo.Pairwise fun c d => c.1 ≤ d.1)
    (hitems : ((done ++ todo).map Prod.snd).Nodup) (value : Btree → Addr → Nat) :
    ∃ s' g' B', insertAll (some value) s todo = .ok s' ∧ Sound (B' + 1) s' g' ∧
      Holds s' (chainOf (done ++ todo)) ∧
      (B' = B ∧ todo = [] ∨ ∃ c ∈ todo, c.1 = B') := by
  induction todo generalizing s g B done with
  | nil => exact ⟨s, g, B, rfl, h, by rwa [List.append_nil], Or.inl ⟨rfl, rfl⟩⟩
  | cons c cs ih =>
      have hc := hB c List.mem_cons_self
      obtain ⟨hle, hrest⟩ := List.pairwise_cons.mp hsorted
      obtain ⟨s₁, g₁, hs₁, hsound, hins⟩ := (indexInsert_spec (some value) c.2
        (h.raise (show B + 1 ≤ c.1 + 1 by omega)) (Nat.lt_succ_self _)).1
        (h.fits_of_last hc value)
      have hfresh : ∀ k, c.2 ∉ chainOf done k := by
        intro k hk
        rw [List.map_append, List.nodup_append] at hitems
        exact hitems.2.2 c.2 (List.mem_map.mpr ⟨_, mem_chainOf.mp hk, rfl⟩) c.2
          (List.mem_map.mpr ⟨c, List.mem_cons_self, rfl⟩) rfl
      have hh₁ : Holds s₁ (chainOf (done ++ [c])) := by
        refine hh.inserted hins hfresh ?_ fun k hne => ?_
        · rw [chainOf_concat, if_pos rfl]
        · rw [chainOf_concat, if_neg hne.symm]
      obtain ⟨s', g', B', hs', hsound', hh', hlast⟩ := ih hsound hh₁
        (fun d hd => by
          rcases List.mem_append.mp hd with hd | hd
          · exact Nat.le_trans (hdone d hd) hc
          · rw [List.mem_singleton.mp hd])
        hle hrest (by rwa [List.append_assoc, List.singleton_append])
      refine ⟨s', g', B', by rw [insertAll_cons hs₁, hs'], hsound', ?_, Or.inr ?_⟩
      · rwa [List.append_assoc, List.singleton_append] at hh'
      · rcases hlast with ⟨rfl, -⟩ | ⟨d, hd, rfl⟩
        · exact ⟨c, List.mem_cons_self, rfl⟩
        · exact ⟨d, List.mem_cons_of_mem _ hd, rfl⟩

theorem holds_init (raw : Addr → RawNode) (curLeaf : Nat → Option Addr) (curIdx : Nat → Nat) :
    Holds (init raw curLeaf curIdx) (chainOf []) := by
  refine ⟨fun k v he => ?_, fun k hk => absurd rfl hk, fun _ _ => rfl⟩
  obtain ⟨a, n, ha, -, i, hi, -⟩ := he
  rcases eq_or_ne a 0 with rfl | hne
  · cases ha.symm.trans Btree.make_nodes_fresh
    exact absurd hi (Nat.not_lt_zero i)
  · cases ha.symm.trans (Btree.make_nodes_of_ne hne)

/-- The thread whose cursor a read sets. -/
def ReadForm.thread : ReadForm → Nat
  | .threadPart thdId _ => thdId
  | .partThread _ thdId => thdId.toNat
  | .part _ | .plain => 0

/-- A read of a key gives the items of that key, newest first, and the walk from it gives
the chains of the later keys in order, and then NULL. -/
def ReadsOn (s : Btree) (calls : List (Nat × Addr)) (k : Nat) (form : ReadForm) : Prop :=
  ∃ fuel s' v items, indexReadForm s k fuel form = .ok (s', v) ∧
    ItemChain s.itemNext v (chainOf calls k) ∧
    nextAll form.thread ((laterKeys calls k).length + 1) s' = .ok (items ++ [none]) ∧
    List.Forall₂ (fun v x => ItemChain s.itemNext v (chainOf calls x)) items (laterKeys calls k)

theorem indexReadForm_partThread (s : Btree) (k fuel : Nat) (partId thdId : Int) :
    indexReadForm s k fuel (.partThread partId thdId) = .error .unfinished := by
  induction fuel generalizing partId thdId with
  | zero => rfl
  | succ fuel ih => exact ih thdId partId

theorem form_of_indexReadForm {fuel : Nat} {form : ReadForm} {out : Btree × Option Addr}
    (h : indexReadForm s k fuel form = .ok out) : ∃ thdId, form = .threadPart thdId 0 := by
  cases fuel with
  | zero => cases h
  | succ fuel =>
      cases form with
      | threadPart thdId partId =>
          rw [indexReadForm] at h
          split at h
          · next hpart => exact ⟨thdId, by rw [hpart]⟩
          · cases h
      | partThread partId thdId => cases (indexReadForm_partThread ..).symm.trans h
      | part partId =>
          rw [indexReadForm, indexReadForm_partThread] at h
          cases h
      | plain => cases h

/-- Calls with keys in ascending order and distinct items build a B+-tree, in which the
reads of a key with a `uint64_t` and an `int64_t` are right, and no others. -/
theorem insertAll_ascending (raw : Addr → RawNode) (curLeaf : Nat → Option Addr)
    (curIdx : Nat → Nat) (value : Btree → Addr → Nat) (calls : List (Nat × Addr))
    (hsorted : calls.Pairwise fun c d => c.1 ≤ d.1) (hitems : (calls.map Prod.snd).Nodup) :
    ∃ s, insertAll (some value) (init raw curLeaf curIdx) calls = .ok s ∧
      (∀ B, (∀ c ∈ calls, c.1 ≤ B) → ∃ d, Subtree s d none 0 (B + 1) s.root) ∧
      ∀ k ∈ calls.map Prod.fst, ∀ form,
        ReadsOn s calls k form ↔ ∃ thdId, form = .threadPart thdId 0 := by
  obtain ⟨s, g, B, hs, hsound, hholds, hlast⟩ := (sound_init raw curLeaf curIdx
    Nat.zero_lt_one).ascending (holds_init raw curLeaf curIdx) nofun
    (fun c _ => Nat.zero_le c.1) hsorted hitems value
  rw [List.nil_append] at hholds
  refine ⟨s, hs, fun B' hB' => ?_, fun k hk form => ⟨?_, ?_⟩⟩
  · have hle : B ≤ B' := by
      rcases hlast with ⟨rfl, -⟩ | ⟨c, hc, rfl⟩
      · exact Nat.zero_le B'
      · exact hB' c hc
    have hraised := hsound.raise (Nat.succ_le_succ hle)
    obtain ⟨r, hr, hnone⟩ := hraised.shape.root
    have hsub := hraised.subtree hr rfl
    have hhi := hraised.shape.rootHi
    rw [Plan.top_none] at hhi
    rw [hnone, hraised.shape.rootLo, hhi] at hsub
    exact ⟨_, hsub⟩
  · rintro ⟨fuel, s', v, items, hread, -⟩
    exact form_of_indexReadForm hread
  · rintro ⟨thdId, rfl⟩
    obtain ⟨w, he⟩ := hholds.covers k (chainOf_ne_nil.mpr hk)
    obtain ⟨c, j, v, hread, hat, hev⟩ := indexRead_spec thdId hsound he
    obtain ⟨items, hwalk, hall⟩ := nextAll_spec hsound.cursor hholds.cursor hat
      (laterKeys_sorted hsorted) fun x => mem_laterKeys
    exact ⟨1, _, v, items, hread, (hholds.entries k v hev).2, hwalk, hall⟩

/-- Two items under one key and one under the next. -/
def twoKeys : List (Nat × Addr) :=
  [(1, 0), (1, 1), (2, 2)]

theorem insertAll_twoKeys :
    ∃ s, insertAll (some fun _ _ => 0) (init zeroMemory (fun _ => none) fun _ => 0) twoKeys = .ok s ∧
      ReadsOn s twoKeys 1 (.threadPart 0 0) ∧ ReadsOn s twoKeys 2 (.threadPart 0 0) ∧
        ¬ ReadsOn s twoKeys 1 (.partThread 0 0) := by
  obtain ⟨s, hs, -, hread⟩ := insertAll_ascending zeroMemory (fun _ => none) (fun _ => 0)
    (fun _ _ => 0) twoKeys (by decide) (by decide)
  refine ⟨s, hs, (hread 1 (by decide) _).mpr ⟨0, rfl⟩, (hread 2 (by decide) _).mpr ⟨0, rfl⟩, ?_⟩
  intro hreads
  obtain ⟨thdId, hform⟩ := (hread 1 (by decide) _).mp hreads
  cases hform

/-- A read of a key that was inserted, as in the test of the tree, never returns. -/
theorem index_read_recurses :
    ∃ s, insertAll (some fun _ _ => 0) (init zeroMemory (fun _ => none) fun _ => 0) twoKeys = .ok s ∧
      (∀ fuel, indexReadForm s 1 fuel (.partThread 0 (-1)) = .error .unfinished) ∧
        ¬ ReadsOn s twoKeys 1 (.partThread 0 (-1)) := by
  have hreturns : (insertAll (some fun _ _ => 0) (init zeroMemory (fun _ => none) fun _ => 0)
      twoKeys).toOption.isSome := by decide +kernel
  cases hs : insertAll (some fun _ _ => 0) (init zeroMemory (fun _ => none) fun _ => 0) twoKeys with
  | error f =>
      rw [hs] at hreturns
      cases hreturns
  | ok s =>
      refine ⟨s, rfl, fun fuel => indexReadForm_partThread .., ?_⟩
      rintro ⟨fuel, s', v, items, hread, -⟩
      cases (indexReadForm_partThread ..).symm.trans hread

end Ascending

end HashComp.IndexBtree
