import HashComp.BzTree.Sessions

/-!
The iterator of a tree that one thread works on.  It returns the records from a key on one
after the other and leaves none out, though it may end before the last one: it goes on from
the last record of a leaf, and finds the next leaf only if the record has its bound as key.
-/

namespace HashComp.BzTree

open HashComp.ByteMemory
open HashComp.Segments

variable {K : Type} [TreeKey K]

def LeafNode.rangeScanBySize (n : LeafNode K) (key1 : K) (toScan : Nat) : List (LeafRecord K) :=
  if toScan = 0 then []
  else
    (n.records.filter fun r => r.visible ∧
        keyCompare (some (TreeKey.bytes key1)) r.getKey ≤ 0).insertionSort
      fun r r' => ¬ keyCompare (some (TreeKey.bytes r'.key)) (some (TreeKey.bytes r.key)) < 0

structure Iterator (K : Type) where
  remainingSize : Nat
  itemVec : List (LeafRecord K)

/-- `BzTree::RangeScanBySize`, the constructor of `Iterator`. -/
def Tree.rangeScanBySize (tree : Tree K) (beginKey : K) (scanSize : Nat) : Iterator K where
  remainingSize := scanSize
  itemVec := (tree.traverseToLeaf beginKey true).2.rangeScanBySize beginKey scanSize

def Iterator.getNext (tree : Tree K) (it : Iterator K) : Option (LeafRecord K) × Iterator K :=
  match it.itemVec with
  | [] => (none, it)
  | front :: rest =>
      if it.remainingSize = 0 then (none, it)
      else
        match rest with
        | _ :: _ => (some front, ⟨it.remainingSize - 1, rest⟩)
        | [] =>
            let itemVec := (tree.traverseToLeaf front.key false).2.rangeScanBySize front.key
              (it.remainingSize - 1)
            match itemVec with
            | [] => (some front, ⟨it.remainingSize - 1, []⟩)
            | newFront :: _ =>
                if keyCompare (some (TreeKey.bytes newFront.key)) (some (TreeKey.bytes front.key)) = 0
                then (some front, ⟨it.remainingSize - 1, []⟩)
                else (some front, ⟨it.remainingSize - 1, itemVec⟩)

/-- The records that some calls of `GetNext` return, up to the first null pointer. -/
def Iterator.drain (tree : Tree K) : (calls : Nat) → Iterator K → List (LeafRecord K)
  | 0, _ => []
  | calls + 1, it =>
      match it.getNext tree with
      | (none, _) => []
      | (some r, it) => r :: Iterator.drain tree calls it

section Leaves

variable {n : LeafNode K} {key k : K} {toScan : Nat} {r : LeafRecord K}

theorem rangeScanBySize_eq (h : toScan ≠ 0) : n.rangeScanBySize key toScan =
    { n with records := n.records.filter fun r =>
        keyCompare (some (TreeKey.bytes key)) r.getKey ≤ 0 }.sortMetadataByKey := by
  rw [LeafNode.rangeScanBySize, if_neg h, LeafNode.sortMetadataByKey, List.filter_filter]
  simp only [Bool.decide_and, Bool.decide_eq_true]

theorem mem_rangeScanBySize (h : toScan ≠ 0) :
    r ∈ n.rangeScanBySize key toScan ↔ r ∈ n.records ∧ r.visible = true ∧ key ≤ r.key := by
  rw [rangeScanBySize_eq h, mem_sortMetadataByKey, List.mem_filter, and_assoc]
  refine and_congr_right fun _ => ?_
  rw [and_comm]
  refine and_congr_right fun hv => ?_
  rw [LeafRecord.getKey, if_pos hv, decide_eq_true_iff, ← not_lt, TreeKey.keyCompare_pos_iff, not_lt]

theorem rangeScanBySize_sorted (hd : n.Distinct) :
    (n.rangeScanBySize key toScan).Pairwise fun x y => x.key < y.key := by
  rcases eq_or_ne toScan 0 with rfl | h
  · exact List.Pairwise.nil
  · rw [rangeScanBySize_eq h]
    exact sortMetadataByKey_sorted (hd.sublist List.filter_sublist)

end Leaves

/-- Records of a map from a key on in ascending order, none of them left out before the last. -/
structure Scanned (m : K → Option Word) (beginKey : K) (out : List (LeafRecord K)) : Prop where
  ascending : out.Pairwise fun x y => x.key < y.key
  present : ∀ r ∈ out, beginKey ≤ r.key ∧ m r.key = some r.payload
  gapless : ∀ k, beginKey ≤ k → m k ≠ none → (∃ r ∈ out, r.key = k) ∨ ∀ r ∈ out, r.key < k

theorem Scanned.left {m : K → Option Word} {beginKey : K} {out items : List (LeafRecord K)}
    (h : Scanned m beginKey (out ++ items)) : Scanned m beginKey out := by
  refine ⟨(List.pairwise_append.mp h.ascending).1,
    fun r hr => h.present r (List.mem_append_left _ hr), fun k hbegin hk => ?_⟩
  rcases h.gapless k hbegin hk with ⟨r, hr, rfl⟩ | hlt
  · rcases List.mem_append.mp hr with hr | hr
    · exact Or.inl ⟨r, hr, rfl⟩
    · exact Or.inr fun x hx => (List.pairwise_append.mp h.ascending).2.2 x hx r hr
  · exact Or.inr fun x hx => hlt x (List.mem_append_left _ hx)

/-- The leaves of a tree from left to right up to one of them, whose present keys from the
key on are among the records. -/
structure Covers (tree : Tree K) (beginKey : K) (out : List (LeafRecord K))
    (pre post : List (Segment K (LeafNode K))) (s : Segment K (LeafNode K)) : Prop where
  split : tree.segments = pre ++ s :: post
  last : ∀ r ∈ out, ∀ t ∈ post, (r.key : WithBot K) ≤ t.1
  covered : ∀ t ∈ pre ++ [s], ∀ k, beginKey ≤ k → Segments.Holds LeafNode.lookup t.2 k → ∃ r ∈ out, r.key = k

section Trees

variable {tree : Tree K} {beginKey key k : K} {out items : List (LeafRecord K)} {toScan : Nat}
  {above : Above K 0} {leaf : LeafNode K} {r : LeafRecord K} {p : Word}
  {pre post : List (Segment K (LeafNode K))} {s : Segment K (LeafNode K)}

theorem exists_segment (hk : tree.contents k ≠ none) :
    ∃ s ∈ tree.segments, Segments.Holds LeafNode.lookup s.2 k := by
  by_contra hnone
  push Not at hnone
  exact hk (contents_eq_none fun s hs => hnone s hs)

theorem Covers.scanned (h : Covers tree beginKey out pre post s) (ht : tree.Proper)
    (hasc : out.Pairwise fun x y => x.key < y.key)
    (hpresent : ∀ r ∈ out, beginKey ≤ r.key ∧ tree.contents r.key = some r.payload) :
    Scanned tree.contents beginKey out := by
  refine ⟨hasc, hpresent, fun k hbegin hk => ?_⟩
  obtain ⟨t, hmem, hheld⟩ := exists_segment hk
  rw [h.split, List.append_cons] at hmem
  rcases List.mem_append.mp hmem with hmem | hmem
  · exact Or.inl (h.covered t hmem k hbegin hheld)
  · refine Or.inr fun r hr => WithBot.coe_lt_coe.mp ?_
    have habove := ht.ordered.above t (by rw [h.split]; simp [hmem]) k hheld
    exact (h.last r hr t hmem).trans_lt habove

theorem Landed.scan {leChild : Bool} (h : Landed tree key leChild above leaf) (ht : tree.Proper)
    (hscan : toScan ≠ 0) :
    (∀ r ∈ leaf.rangeScanBySize key toScan, key ≤ r.key ∧ tree.contents r.key = some r.payload) ∧
      ∀ k, key ≤ k → Segments.Holds LeafNode.lookup leaf k →
        ∃ r ∈ leaf.rangeScanBySize key toScan, r.key = k := by
  refine ⟨fun r hr => ?_, fun k hle hk => ?_⟩
  · obtain ⟨hmem, hv, hle⟩ := (mem_rangeScanBySize hscan).mp hr
    refine ⟨hle, ht.contents_of_segment h.mem_segments ?_⟩
    exact (lookup_eq_some_iff h.distinct).mpr ⟨r, hmem, hv, rfl, rfl⟩
  · obtain ⟨r, hmem, hv, rfl⟩ := holds_iff.mp hk
    exact ⟨r, (mem_rangeScanBySize hscan).mpr ⟨hmem, hv, hle⟩, rfl⟩

theorem Landed.holds_cases {leChild : Bool} (h : Landed tree key leChild above leaf) (ht : tree.Proper)
    (hs : s ∈ above.pre ++ [(above.lower, leaf)]) (hk : Segments.Holds LeafNode.lookup s.2 k) :
    (k : WithBot K) ≤ above.lower ∨ Segments.Holds LeafNode.lookup leaf k := by
  rcases List.mem_append.mp hs with hs | hs
  · have hordered := ht.ordered.before
    rw [h.segments_eq] at hordered
    exact Or.inl (((List.pairwise_append.mp hordered).2.2 s hs _ List.mem_cons_self).2 k hk)
  · rw [List.mem_singleton.mp hs] at hk
    exact Or.inr hk

/-- The bound on the right of the leaf at the end of a path is a key of the leaf. -/
theorem Landed.holds_next {leChild : Bool} (h : Landed tree key leChild above leaf) (ht : tree.Proper)
    (htight : tree.Tight) (hpost : above.post = s :: post) :
    ∃ k : K, s.1 = (k : WithBot K) ∧ ¬ Goes key leChild (k : WithBot K) ∧
      ((k : WithBot K) ≤ above.lower ∨ Segments.Holds LeafNode.lookup leaf k) := by
  have hbeyond : ¬ Goes key leChild s.1 := h.beyond s (by rw [hpost]; exact List.mem_cons_self)
  have hbound : ∃ k : K, s.1 = (k : WithBot K) := by
    cases hs : s.1 with
    | bot =>
        rw [hs] at hbeyond
        exact absurd (h.below.mono bot_le) hbeyond
    | coe k => exact ⟨k, rfl⟩
  obtain ⟨k, hk⟩ := hbound
  rw [hk] at hbeyond
  refine ⟨k, hk, hbeyond, ?_⟩
  have hsegments := h.segments_eq
  rw [hpost] at hsegments
  have hmem : s ∈ tree.segments := by
    rw [hsegments]
    simp
  obtain ⟨u, hu, hheld⟩ := exists_segment (htight s hmem k hk)
  rw [hsegments, List.append_cons] at hu
  rcases List.mem_append.mp hu with hu | hu
  · exact h.holds_cases ht hu hheld
  · -- the keys of this leaf and of later ones are above its bound
    have habove := ht.ordered.above u (by
      rw [hsegments]; simp only [List.mem_append, List.mem_cons] at hu ⊢; tauto)
      k hheld
    have hle : s.1 ≤ u.1 := by
      rcases List.mem_cons.mp hu with rfl | hu
      · exact le_rfl
      · have hordered := ht.ordered.before
        rw [hsegments] at hordered
        have hcons := (List.pairwise_cons.mp (List.pairwise_append.mp hordered).2.1).2
        exact ((List.pairwise_cons.mp hcons).1 u hu).1
    rw [hk] at hle
    exact absurd (habove.trans_le' hle) (lt_irrefl _)

/-- What is held in the leaf at the end of a path is not above the bounds to its right. -/
theorem Landed.holds_le {leChild : Bool} (h : Landed tree key leChild above leaf) (ht : tree.Proper)
    (hk : Segments.Holds LeafNode.lookup leaf k) : ∀ t ∈ above.post, (k : WithBot K) ≤ t.1 := by
  have hordered := ht.ordered
  rw [h.segments_eq] at hordered
  exact (hordered.routed hk).beyond

theorem holds_of_mem_scan (hscan : toScan ≠ 0) (hr : r ∈ leaf.rangeScanBySize key toScan) :
    Segments.Holds LeafNode.lookup leaf r.key := by
  obtain ⟨hmem, hv, -⟩ := (mem_rangeScanBySize hscan).mp hr
  exact holds_iff.mpr ⟨r, hmem, hv, rfl⟩

structure Ongoing (tree : Tree K) (beginKey : K) (scanSize : Nat) (out : List (LeafRecord K))
    (it : Iterator K) : Prop where
  count : out.length + it.remainingSize = scanSize
  scanned : Scanned tree.contents beginKey (out ++ it.itemVec)
  covers : it.remainingSize ≠ 0 → ∃ pre s post,
    Covers tree beginKey (out ++ it.itemVec) pre post s ∧ (tree.Tight → it.itemVec = [] → post = [])

variable {it it' : Iterator K} {scanSize : Nat} {front : LeafRecord K}

theorem ongoing_start (ht : tree.Proper) :
    Ongoing tree beginKey scanSize [] (tree.rangeScanBySize beginKey scanSize) := by
  have hland : Landed tree beginKey true (tree.traverseToLeaf beginKey true).1
      (tree.traverseToLeaf beginKey true).2 := traverseToLeaf_landed ht
  rw [Tree.rangeScanBySize]
  generalize tree.traverseToLeaf beginKey true = landing at hland
  obtain ⟨above, leaf⟩ := landing
  change Landed tree beginKey true above leaf at hland
  rcases eq_or_ne scanSize 0 with rfl | hsize
  · refine ⟨rfl, ⟨List.Pairwise.nil, fun r hr => absurd hr List.not_mem_nil, fun k _ _ => ?_⟩,
      fun h => absurd rfl h⟩
    exact Or.inr fun r hr => absurd hr List.not_mem_nil
  · obtain ⟨hpresent, hall⟩ := hland.scan ht hsize
    have hlower : above.lower < (beginKey : WithBot K) := hland.below
    have hcovers : Covers tree beginKey (leaf.rangeScanBySize beginKey scanSize) above.pre above.post
        (above.lower, leaf) := by
      refine ⟨hland.segments_eq, fun r hr => hland.holds_le ht (holds_of_mem_scan hsize hr),
        fun t hmem k hbegin hk => ?_⟩
      rcases hland.holds_cases ht hmem hk with hle | hk
      · exact absurd (hle.trans_lt hlower) (not_lt.mpr (WithBot.coe_le_coe.mpr hbegin))
      · exact hall k hbegin hk
    refine ⟨Nat.zero_add _, hcovers.scanned ht (rangeScanBySize_sorted hland.distinct) hpresent,
      fun _ => ⟨_, _, _, hcovers, fun htight hempty => ?_⟩⟩
    cases hpost : above.post with
    | nil => rfl
    | cons s post =>
        obtain ⟨k, -, hgo, hk⟩ := hland.holds_next ht htight hpost
        have hbegin : beginKey ≤ k := WithBot.coe_le_coe.mp (not_lt.mp hgo)
        rcases hk with hle | hk
        · exact absurd (hle.trans_lt hlower) (not_lt.mpr (WithBot.coe_le_coe.mpr hbegin))
        · obtain ⟨r, hr, -⟩ := hall k hbegin hk
          change leaf.rangeScanBySize beginKey scanSize = [] at hempty
          rw [hempty] at hr
          exact absurd hr List.not_mem_nil

/-- The last record of a leaf is returned, and what comes next is taken from the leaf that its
key leads to. -/
theorem Ongoing.refill (h : Ongoing tree beginKey scanSize out it) (ht : tree.Proper)
    (hitems : it.itemVec = [front]) (hremaining : it.remainingSize ≠ 0)
    (hland : Landed tree front.key false above leaf) (hscan : toScan ≠ 0)
    (hsub : items.Sublist (leaf.rangeScanBySize front.key toScan))
    (hnext : ∀ r ∈ items, front.key < r.key)
    (hall : ∀ k, front.key < k → Segments.Holds LeafNode.lookup leaf k → ∃ r ∈ items, r.key = k) :
    Ongoing tree beginKey scanSize (out ++ [front]) ⟨it.remainingSize - 1, items⟩ := by
  have hcount := h.count
  have hscanned := h.scanned
  rw [hitems] at hscanned
  have hlower : above.lower ≤ (front.key : WithBot K) := hland.below
  have hle : ∀ r ∈ out ++ [front], r.key ≤ front.key := by
    intro r hr
    rcases List.mem_append.mp hr with hr | hr
    · exact ((List.pairwise_append.mp hscanned.ascending).2.2 r hr front List.mem_cons_self).le
    · rw [List.mem_singleton.mp hr]
  have hearlier : ∀ k, beginKey ≤ k → k ≤ front.key → tree.contents k ≠ none →
      ∃ r ∈ out ++ [front] ++ items, r.key = k := by
    intro k hbegin hkey hk
    rcases hscanned.gapless k hbegin hk with ⟨r, hr, hrk⟩ | hlt
    · exact ⟨r, List.mem_append_left _ hr, hrk⟩
    · exact absurd (hlt front (List.mem_append_right _ List.mem_cons_self)) (not_lt.mpr hkey)
  have hcovers : Covers tree beginKey (out ++ [front] ++ items) above.pre above.post
      (above.lower, leaf) := by
    refine ⟨hland.segments_eq, fun r hr t hmem => ?_, fun t hmem k hbegin hk => ?_⟩
    · rcases List.mem_append.mp hr with hr | hr
      · have hbeyond : (front.key : WithBot K) < t.1 := not_le.mp (hland.beyond t hmem)
        exact (WithBot.coe_le_coe.mpr (hle r hr)).trans hbeyond.le
      · exact hland.holds_le ht (holds_of_mem_scan hscan (hsub.subset hr)) t hmem
    · have hmem' : t ∈ tree.segments := by
        rw [hland.segments_eq, List.append_cons]
        exact List.mem_append_left _ hmem
      have hcontents := ht.contents_ne_none hmem' hk
      rcases le_or_gt k front.key with hkey | hkey
      · exact hearlier k hbegin hkey hcontents
      · rcases hland.holds_cases ht hmem hk with hbound | hk
        · exact absurd (WithBot.coe_le_coe.mp (hbound.trans hlower)) (not_le.mpr hkey)
        · obtain ⟨r, hr, hrk⟩ := hall k hkey hk
          exact ⟨r, List.mem_append_right _ hr, hrk⟩
  have hfront : beginKey ≤ front.key :=
    (hscanned.present front (List.mem_append_right _ List.mem_cons_self)).1
  have hasc : (out ++ [front] ++ items).Pairwise fun x y => x.key < y.key := by
    refine List.pairwise_append.mpr ⟨hscanned.ascending,
      (rangeScanBySize_sorted hland.distinct).sublist hsub, fun x hx y hy => ?_⟩
    exact (hle x hx).trans_lt (hnext y hy)
  have hpresent : ∀ r ∈ out ++ [front] ++ items,
      beginKey ≤ r.key ∧ tree.contents r.key = some r.payload := by
    intro r hr
    rcases List.mem_append.mp hr with hr | hr
    · exact hscanned.present r hr
    · exact ⟨hfront.trans (hnext r hr).le, ((hland.scan ht hscan).1 r (hsub.subset hr)).2⟩
  refine ⟨?_, hcovers.scanned ht hasc hpresent, fun _ => ⟨_, _, _, hcovers, fun htight hempty => ?_⟩⟩
  · rw [List.length_append, List.length_singleton]
    dsimp only
    omega
  · cases hpost : above.post with
    | nil => rfl
    | cons s post =>
        obtain ⟨k, -, hgo, hk⟩ := hland.holds_next ht htight hpost
        have hkey : front.key < k := WithBot.coe_lt_coe.mp (not_le.mp hgo)
        rcases hk with hbound | hk
        · exact absurd (WithBot.coe_le_coe.mp (hbound.trans hlower)) (not_le.mpr hkey)
        · obtain ⟨r, hr, -⟩ := hall k hkey hk
          change items = [] at hempty
          rw [hempty] at hr
          exact absurd hr List.not_mem_nil

theorem Ongoing.not_holds_above (h : Ongoing tree beginKey scanSize out it) (ht : tree.Proper)
    (hitems : it.itemVec = [front]) (hremaining : it.remainingSize ≠ 0)
    (hs : s ∈ tree.segments) (hfront : Segments.Holds LeafNode.lookup s.2 front.key)
    (hlt : front.key < k) : ¬ Segments.Holds LeafNode.lookup s.2 k := by
  intro hk
  have hscanned := h.scanned
  obtain ⟨pre, s', post, hcovers, -⟩ := h.covers hremaining
  rw [hitems] at hscanned hcovers
  have hmem : front ∈ out ++ [front] := List.mem_append_right _ List.mem_cons_self
  have hs' := hs
  rw [hcovers.split, List.append_cons] at hs'
  rcases List.mem_append.mp hs' with hs' | hs'
  · have hbegin := (hscanned.present front hmem).1
    obtain ⟨r, hr, rfl⟩ := hcovers.covered s hs' k (hbegin.trans hlt.le) hk
    rcases List.mem_append.mp hr with hr | hr
    · have hbelow := (List.pairwise_append.mp hscanned.ascending).2.2 r hr front List.mem_cons_self
      exact lt_asymm hlt hbelow
    · rw [List.mem_singleton.mp hr] at hlt
      exact lt_irrefl _ hlt
  · have hle := hcovers.last front hmem s hs'
    exact absurd (ht.ordered.above s hs front.key hfront) (not_lt.mpr hle)

theorem Ongoing.next (h : Ongoing tree beginKey scanSize out it) (ht : tree.Proper)
    (hnext : it.getNext tree = (some r, it')) : Ongoing tree beginKey scanSize (out ++ [r]) it' := by
  have hcount := h.count
  rw [Iterator.getNext] at hnext
  split at hnext
  · cases hnext
  · rename_i front rest hitems
    split at hnext
    · cases hnext
    · rename_i hremaining
      split at hnext
      · -- more records of the leaf are left
        rename_i second rest
        cases hnext
        have hsame : out ++ it.itemVec = out ++ [r] ++ second :: rest := by
          rw [hitems, List.append_cons]
        refine ⟨?_, hsame ▸ h.scanned, fun _ => ?_⟩
        · rw [List.length_append, List.length_singleton]
          dsimp only
          omega
        · obtain ⟨pre, s, post, hcovers, -⟩ := h.covers hremaining
          exact ⟨pre, s, post, hsame ▸ hcovers, fun _ hempty => absurd hempty (List.cons_ne_nil _ _)⟩
      · have hland : Landed tree front.key false (tree.traverseToLeaf front.key false).1
            (tree.traverseToLeaf front.key false).2 := traverseToLeaf_landed ht
        generalize tree.traverseToLeaf front.key false = landing at hland hnext
        obtain ⟨above, leaf⟩ := landing
        change Landed tree front.key false above leaf at hland
        dsimp only at hnext
        rcases eq_or_ne (it.remainingSize - 1) 0 with hzero | hscan
        · -- nothing more is asked for
          rw [LeafNode.rangeScanBySize, if_pos hzero] at hnext
          cases hnext
          have hsame : out ++ it.itemVec = out ++ [r] ++ [] := by
            rw [hitems, List.append_nil]
          refine ⟨?_, hsame ▸ h.scanned, fun hne => absurd hzero hne⟩
          rw [List.length_append, List.length_singleton]
          dsimp only
          omega
        · have hrefill : ∀ items : List (LeafRecord K),
              items.Sublist (leaf.rangeScanBySize front.key (it.remainingSize - 1)) →
              (∀ x ∈ items, front.key < x.key) →
              (∀ k, front.key < k → Segments.Holds LeafNode.lookup leaf k → ∃ x ∈ items, x.key = k) →
              Ongoing tree beginKey scanSize (out ++ [front]) ⟨it.remainingSize - 1, items⟩ :=
            fun items => h.refill ht hitems hremaining hland hscan
          obtain ⟨hpresent, hall⟩ := hland.scan ht hscan
          have hsorted : (leaf.rangeScanBySize front.key (it.remainingSize - 1)).Pairwise
              fun x y => x.key < y.key := rangeScanBySize_sorted hland.distinct
          split at hnext
          · rename_i hempty
            cases hnext
            refine hrefill [] (List.nil_sublist _) (fun x hx => absurd hx List.not_mem_nil) fun k hlt hk => ?_
            have hfound := hall k hlt.le hk
            rwa [hempty] at hfound
          · rename_i newFront newRest hitems'
            have hmem : newFront ∈ leaf.rangeScanBySize front.key (it.remainingSize - 1) := by
              rw [hitems']
              exact List.mem_cons_self
            split at hnext
            · -- the leaf is the one that the last record is from
              rename_i hcmp
              cases hnext
              have hkey : newFront.key = r.key := TreeKey.keyCompare_zero_iff.mp hcmp
              have hheld := holds_of_mem_scan hscan hmem
              rw [hkey] at hheld
              refine hrefill [] (List.nil_sublist _) (fun x hx => absurd hx List.not_mem_nil) fun k hlt hk => ?_
              exact absurd hk (h.not_holds_above ht hitems hremaining hland.mem_segments hheld hlt)
            · rename_i hcmp
              cases hnext
              have hne : newFront.key ≠ r.key := fun heq => hcmp (TreeKey.keyCompare_zero_iff.mpr heq)
              have hlt : r.key < newFront.key := lt_of_le_of_ne (hpresent newFront hmem).1 hne.symm
              refine hrefill _ (List.Sublist.refl _) (fun x hx => ?_) fun k hlt hk => hall k hlt.le hk
              rw [hitems'] at hx hsorted
              rcases List.mem_cons.mp hx with rfl | hx
              · exact hlt
              · exact hlt.trans ((List.pairwise_cons.mp hsorted).1 x hx)

theorem getNext_none (h : it.getNext tree = (none, it')) : it.itemVec = [] ∨ it.remainingSize = 0 := by
  rw [Iterator.getNext] at h
  split at h
  · rename_i hitems
    exact Or.inl hitems
  · split at h
    · rename_i hzero
      exact Or.inr hzero
    · split at h
      · cases h
      · dsimp only at h
        split at h
        · cases h
        · split at h <;> cases h

/-- The records that some calls return after those that were returned before. -/
theorem Ongoing.drain (h : Ongoing tree beginKey scanSize out it) (ht : tree.Proper) (calls : Nat) :
    Scanned tree.contents beginKey (out ++ it.drain tree calls) ∧
      (it.drain tree calls).length ≤ calls ∧ (out ++ it.drain tree calls).length ≤ scanSize ∧
      (tree.Tight → (it.drain tree calls).length < calls →
        (out ++ it.drain tree calls).length < scanSize → ∀ k, beginKey ≤ k → tree.contents k ≠ none →
          ∃ r ∈ out ++ it.drain tree calls, r.key = k) := by
  have hcount := h.count
  induction calls generalizing out it with
  | zero =>
      rw [Iterator.drain, List.append_nil]
      exact ⟨h.scanned.left, Nat.le_refl 0, by omega, fun _ hlt => absurd hlt (Nat.not_lt_zero 0)⟩
  | succ calls ih =>
      cases hnext : it.getNext tree with
      | mk next it' =>
          cases next with
          | none =>
              have hdrain : it.drain tree (calls + 1) = [] := by
                rw [Iterator.drain, hnext]
              rw [hdrain, List.append_nil]
              refine ⟨h.scanned.left, Nat.zero_le _, by omega, fun htight _ hlt k hbegin hk => ?_⟩
              have hremaining : it.remainingSize ≠ 0 := by omega
              have hitems : it.itemVec = [] := (getNext_none hnext).resolve_right hremaining
              obtain ⟨pre, s, post, hcovers, hend⟩ := h.covers hremaining
              obtain ⟨t, ht', hheld⟩ := exists_segment hk
              rw [hcovers.split, hend htight hitems] at ht'
              have hfound := hcovers.covered t ht' k hbegin hheld
              rwa [hitems, List.append_nil] at hfound
          | some r =>
              have hdrain : it.drain tree (calls + 1) = r :: it'.drain tree calls := by
                rw [Iterator.drain, hnext]
              have hongoing := h.next ht hnext
              obtain ⟨hscanned, hcalls, hsize, hall⟩ := ih hongoing hongoing.count
              rw [hdrain, List.append_cons]
              refine ⟨hscanned, Nat.succ_le_succ hcalls, hsize, fun htight hlt => ?_⟩
              exact hall htight (Nat.lt_of_succ_lt_succ hlt)

end Trees

section Sessions

variable {parameters : ParameterSet} {log : List (Request K × Reply)} {tree tree' : Tree K}
  {key : K} {payload : Word}

/-- What `GetNext` returns after some calls is a beginning of the records from the key on. -/
theorem session_scan (h : Session parameters log tree) (beginKey : K) (scanSize calls : Nat) :
    Scanned (mapAfter (log.map Prod.fst)) beginKey
        ((tree.rangeScanBySize beginKey scanSize).drain tree calls) ∧
      ((tree.rangeScanBySize beginKey scanSize).drain tree calls).length ≤ min calls scanSize := by
  obtain ⟨hproper, hcontents⟩ := session_proper h
  obtain ⟨hscanned, hcalls, hsize, -⟩ := (ongoing_start hproper).drain hproper calls
  rw [hcontents] at hscanned
  exact ⟨hscanned, Nat.le_min.mpr ⟨hcalls, hsize⟩⟩

theorem session_scan_split : ∃ tree : Tree AsciiKey, tree.height = 1 ∧
    Scanned (mapAfter splittingCalls) (asciiByte 2)
      ((tree.rangeScanBySize (asciiByte 2) 2).drain tree 3) := by
  obtain ⟨tree, hsession, hheight⟩ := splittingCalls_session
  exact ⟨tree, hheight, (session_scan hsession (asciiByte 2) 2 3).1⟩

/-- Where no call takes a key away a scan ends at its size or with the last record. -/
theorem session_scan_complete (h : Session parameters log tree) (hadds : ∀ call ∈ log, call.1.Adds)
    (beginKey : K) {scanSize calls : Nat} (hcalls : scanSize ≤ calls) :
    Scanned (mapAfter (log.map Prod.fst)) beginKey
        ((tree.rangeScanBySize beginKey scanSize).drain tree calls) ∧
      (((tree.rangeScanBySize beginKey scanSize).drain tree calls).length = scanSize ∨
        ((tree.rangeScanBySize beginKey scanSize).drain tree calls).length < scanSize ∧
          ∀ k, beginKey ≤ k → mapAfter (log.map Prod.fst) k ≠ none →
            ∃ r ∈ (tree.rangeScanBySize beginKey scanSize).drain tree calls, r.key = k) := by
  obtain ⟨hproper, hcontents⟩ := session_proper h
  obtain ⟨hscanned, -, hsize, hall⟩ := (ongoing_start hproper).drain hproper calls
  rw [hcontents] at hscanned hall
  rw [List.nil_append] at hsize hall
  refine ⟨hscanned, (Nat.eq_or_lt_of_le hsize).imp_right fun hlt => ⟨hlt, ?_⟩⟩
  exact hall (session_tight h hadds) (hlt.trans_le hcalls) hlt

theorem session_scan_complete_split : ∃ tree : Tree AsciiKey, tree.height = 1 ∧
    (((tree.rangeScanBySize (asciiByte 2) 5).drain tree 5).length = 5 ∨
      ∃ r ∈ (tree.rangeScanBySize (asciiByte 2) 5).drain tree 5, r.key = asciiByte 4) := by
  obtain ⟨tree, hsession, hheight⟩ := splittingCalls_session
  have hadds : ∀ call ∈ splittingCalls.zip (List.replicate 5 (⟨.ok, none⟩ : Reply)), call.1.Adds := by
    intro call hc
    have hmem := (List.of_mem_zip hc).1
    simp only [splittingCalls, List.mem_cons, List.not_mem_nil, or_false] at hmem
    rcases hmem with h | h | h | h | h <;> rw [h] <;> trivial
  refine ⟨tree, hheight, ?_⟩
  refine (session_scan_complete hsession hadds (asciiByte 2) (Nat.le_refl 5)).2.imp_right fun hrest => ?_
  exact hrest.2 (asciiByte 4) (by decide) (by decide)

end Sessions

end HashComp.BzTree
