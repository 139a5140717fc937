import HashComp.BzTree.Paths

namespace HashComp.BzTree

open HashComp.Segments

variable {K : Type}

section Divided

variable {α : Type} {X Y : List (Segment K α)} {b lo : WithBot K} {c left right : α} {key : K}
  {i : Nat}

theorem divided_append (hi : X.length = i) : divided (X ++ (b, c) :: Y) i left key right =
    X ++ (b, left) :: ((key : WithBot K), right) :: Y := by
  subst hi
  simp [divided]

theorem divided_cons {s : Segment K α} :
    divided (s :: X) (i + 1) left key right = s :: divided X i left key right := by
  cases h : X[i]? <;> simp [divided, h]

theorem divided_append_left (hi : i < X.length) :
    divided (X ++ Y) i left key right = divided X i left key right ++ Y := by
  induction X generalizing i with
  | nil => exact absurd hi (Nat.not_lt_zero i)
  | cons s X ih =>
      cases i with
      | zero => rfl
      | succ i => rw [List.cons_append, divided_cons, divided_cons, ih (Nat.lt_of_succ_lt_succ hi),
          List.cons_append]

theorem divided_append_right : divided (X ++ Y) (X.length + i) left key right =
    X ++ divided Y i left key right := by
  induction X with
  | nil => rw [List.length_nil, Nat.zero_add, List.nil_append, List.nil_append]
  | cons s X ih =>
      rw [List.cons_append, List.length_cons, Nat.add_right_comm, divided_cons, ih,
        List.cons_append]

end Divided

section Keys

variable [TreeKey K] {α : Type} {left right prev first : α} {key : K} {rest rest' : List (K × α)}
  {i : Nat} {lo : WithBot K} {n m : InternalNode K α}

/-- The key is not out of place at an index among the keys of a node. -/
structure Fits (rest : List (K × α)) (i : Nat) (key : K) : Prop where
  le : i ≤ rest.length
  below : ∀ c ∈ rest.take i, c.1 ≤ key
  above : ∀ c ∈ rest.drop i, key ≤ c.1

/-- A key that is put among the others divides the child at its index, and none of the
others is equal to it. -/
theorem insertKey_spec (lo : WithBot K) (hasc : Ascending rest) (hfits : Fits rest i key)
    (h : InternalNode.insertKey key left right prev rest = some (first, rest')) :
    kids lo first rest' = divided (kids lo prev rest) i left key right ∧ Ascending rest' ∧
      ∀ c ∈ rest', c.1 = key ∨ ∃ c' ∈ rest, c'.1 = c.1 := by
  induction rest generalizing i prev first rest' lo with
  | nil =>
      obtain rfl : i = 0 := Nat.le_zero.mp hfits.le
      cases h
      exact ⟨rfl, List.pairwise_singleton _ _, fun c hc => Or.inl (by rw [List.mem_singleton.mp hc])⟩
  | cons c rest ih =>
      obtain ⟨k, x⟩ := c
      obtain ⟨hhead, htail⟩ := List.pairwise_cons.mp hasc
      rw [InternalNode.insertKey] at h
      split at h
      · cases h
      · rename_i hne
        cases i with
        | zero =>
            have hle : key ≤ k := hfits.above (k, x) List.mem_cons_self
            have hlt : key < k := lt_of_le_of_ne hle fun heq => hne (by
              rw [TreeKey.keyCompare_zero_iff, heq])
            rw [if_pos (TreeKey.keyCompare_pos_iff.mpr hlt)] at h
            cases h
            refine ⟨rfl, List.pairwise_cons.mpr ⟨fun c hc => ?_, hasc⟩, fun c hc => ?_⟩
            · rcases List.mem_cons.mp hc with rfl | hc
              · exact hlt
              · exact hlt.trans (hhead c hc)
            · rcases List.mem_cons.mp hc with rfl | hc
              · exact Or.inl rfl
              · exact Or.inr ⟨c, hc, rfl⟩
        | succ i =>
            have hle : k ≤ key := hfits.below (k, x) List.mem_cons_self
            have hlt : k < key := lt_of_le_of_ne hle fun heq => hne (by
              rw [TreeKey.keyCompare_zero_iff, heq])
            rw [if_neg fun hpos => lt_asymm hlt (TreeKey.keyCompare_pos_iff.mp hpos)] at h
            obtain ⟨⟨x', tail⟩, hins, hr⟩ := Option.map_eq_some_iff.mp h
            cases hr
            have hfits' : Fits rest i key := ⟨Nat.le_of_succ_le_succ hfits.le,
              fun c hc => hfits.below c (List.mem_cons_of_mem _ hc), hfits.above⟩
            obtain ⟨hkids, hasc', hkeys⟩ := ih (k : WithBot K) htail hfits' hins
            refine ⟨?_, List.pairwise_cons.mpr ⟨fun c hc => ?_, hasc'⟩, fun c hc => ?_⟩
            · change (lo, prev) :: kids (k : WithBot K) x' tail =
                divided ((lo, prev) :: kids (k : WithBot K) x rest) (i + 1) left key right
              rw [divided_cons, hkids]
            · rcases hkeys c hc with heq | ⟨c', hc', heq⟩
              · exact heq ▸ hlt
              · exact heq ▸ hhead c' hc'
            · rcases List.mem_cons.mp hc with rfl | hc
              · exact Or.inr ⟨(k, x), List.mem_cons_self, rfl⟩
              · exact (hkeys c hc).imp_right fun ⟨c', hc', heq⟩ =>
                  ⟨c', List.mem_cons_of_mem _ hc', heq⟩

theorem newWithKey_spec (lo : WithBot K) (hasc : Ascending n.rest) (hfits : Fits n.rest i key)
    (h : n.newWithKey key left right = some m) : m.frozen = false ∧ Ascending m.rest ∧
      kids lo m.first m.rest = divided (kids lo n.first n.rest) i left key right := by
  obtain ⟨⟨first, rest⟩, hins, rfl⟩ := Option.map_eq_some_iff.mp h
  obtain ⟨hkids, hasc', -⟩ := insertKey_spec lo hasc hfits hins
  exact ⟨rfl, hasc', hkids⟩

/-- A node is split at one of its keys, and the new key goes to its side of it. -/
theorem splitNode_parts {halves : InternalNode.Halves K α}
    (h : n.splitNode key left right = some halves) :
    ∃ A sep payload B, n.rest = A ++ (sep, payload) :: B ∧
      ((key < sep ∧ ∃ r, InternalNode.insertKey key left right n.first A = some r ∧
          halves = ⟨InternalNode.build r.1 r.2, sep, InternalNode.build payload B⟩) ∨
        (sep < key ∧ ∃ r, InternalNode.insertKey key left right payload B = some r ∧
          halves = ⟨InternalNode.build n.first A, sep, InternalNode.build r.1 r.2⟩)) := by
  rw [InternalNode.splitNode] at h
  split at h
  · cases h
  · rename_i hcount
    obtain ⟨j, hj⟩ : ∃ j, n.sortedCount / 2 = j + 1 := ⟨n.sortedCount / 2 - 1, by omega⟩
    simp only [hj, Nat.add_sub_cancel] at h
    split at h
    · cases h
    · rename_i sep payload hsep
      obtain ⟨hlt, hget⟩ := List.getElem?_eq_some_iff.mp hsep
      refine ⟨n.rest.take j, sep, payload, n.rest.drop (j + 1), ?_, ?_⟩
      · rw [← hget, List.getElem_cons_drop, List.take_append_drop]
      · split at h
        · cases h
        · rename_i hne
          split at h
          · rename_i hneg
            obtain ⟨r, hins, rfl⟩ := Option.map_eq_some_iff.mp h
            exact Or.inl ⟨TreeKey.keyCompare_neg_iff.mp hneg, r, hins, rfl⟩
          · rename_i hneg
            obtain ⟨r, hins, rfl⟩ := Option.map_eq_some_iff.mp h
            refine Or.inr ⟨TreeKey.keyCompare_pos_iff.mp (by omega), r, hins, rfl⟩

omit [TreeKey K] in
theorem kids_append {A B : List (K × α)} {sep : K} {payload : α} :
    kids lo prev (A ++ (sep, payload) :: B) = kids lo prev A ++ kids (sep : WithBot K) payload B := by
  simp [kids]

/-- The two nodes of a split have the children of the node, with one divided in two. -/
theorem splitNode_spec (lo : WithBot K) (hasc : Ascending n.rest) (hfits : Fits n.rest i key)
    {halves : InternalNode.Halves K α} (h : n.splitNode key left right = some halves) :
    (halves.left.frozen = false ∧ Ascending halves.left.rest) ∧
      (halves.right.frozen = false ∧ Ascending halves.right.rest) ∧
        kids lo halves.left.first halves.left.rest ++
          kids (halves.separator : WithBot K) halves.right.first halves.right.rest =
            divided (kids lo n.first n.rest) i left key right := by
  obtain ⟨A, sep, payload, B, hrest, hside⟩ := splitNode_parts h
  have hle := hfits.le
  have hbelow := hfits.below
  have habove := hfits.above
  rw [hrest] at hasc hle hbelow habove
  obtain ⟨hA, hsB, -⟩ := List.pairwise_append.mp hasc
  obtain ⟨-, hB⟩ := List.pairwise_cons.mp hsB
  have hlength : (kids lo n.first A).length = A.length + 1 := by simp [kids]
  rw [hrest, kids_append]
  rcases hside with ⟨hlt, r, hins, rfl⟩ | ⟨hlt, r, hins, rfl⟩
  · -- the key stands before the one that the node is split at
    have hi : i ≤ A.length := by
      refine Nat.le_of_not_lt fun hlti => absurd (hbelow (sep, payload) ?_) (not_le.mpr hlt)
      rw [List.take_append, List.take_of_length_le (Nat.le_of_lt hlti)]
      exact List.mem_append_right _ (by
        obtain ⟨j, hj⟩ := Nat.exists_eq_add_of_lt hlti
        rw [hj, show A.length + j + 1 - A.length = j + 1 by omega]
        exact List.mem_cons_self)
    have hfitsA : Fits A i key := by
      refine ⟨hi, fun c hc => hbelow c ?_, fun c hc => habove c ?_⟩
      · rwa [List.take_append_of_le_length hi]
      · rw [List.drop_append_of_le_length hi]
        exact List.mem_append_left _ hc
    obtain ⟨hkids, hasc', -⟩ := insertKey_spec lo hA hfitsA hins
    refine ⟨⟨rfl, hasc'⟩, ⟨rfl, hB⟩, ?_⟩
    rw [divided_append_left (by omega), ← hkids]
    rfl
  · obtain ⟨j, rfl⟩ : ∃ j, i = A.length + 1 + j := by
      refine Nat.exists_eq_add_of_le (Nat.lt_of_not_le fun hi => ?_)
      refine absurd (habove (sep, payload) ?_) (not_le.mpr hlt)
      rw [List.drop_append_of_le_length hi]
      exact List.mem_append_right _ List.mem_cons_self
    have hfitsB : Fits B j key := by
      have hdrop : (A ++ (sep, payload) :: B).drop (A.length + 1 + j) = B.drop j := by
        rw [List.drop_append, List.drop_eq_nil_of_le (by omega),
          show A.length + 1 + j - A.length = j + 1 by omega]
        rfl
      have htake : (A ++ (sep, payload) :: B).take (A.length + 1 + j) =
          A ++ (sep, payload) :: B.take j := by
        rw [List.take_append, List.take_of_length_le (by omega),
          show A.length + 1 + j - A.length = j + 1 by omega]
        rfl
      refine ⟨?_, fun c hc => hbelow c ?_, fun c hc => habove c (by rwa [hdrop])⟩
      · rw [List.length_append, List.length_cons] at hle
        omega
      · rw [htake]
        exact List.mem_append_right _ (List.mem_cons_of_mem _ hc)
    obtain ⟨hkids, hasc', -⟩ := insertKey_spec (sep : WithBot K) hB hfitsB hins
    refine ⟨⟨rfl, hA⟩, ⟨rfl, hasc'⟩, ?_⟩
    rw [← hlength, divided_append_right, ← hkids]
    rfl

end Keys

section Path

variable [TreeKey K] {d i : Nat} {lo : WithBot K} {n : InternalNode K (Subtree K d)}
  {left right t : Subtree K d} {key : K} {D : List (Segment K (Subtree K d))}

def Rising {β : Type} (segs : List (Segment K β)) : Prop :=
  segs.Pairwise fun s t => s.1 ≤ t.1

def leavesOf (D : List (Segment K (Subtree K d))) : List (Segment K (LeafNode K)) :=
  D.flatMap fun c => segments d c.1 c.2

theorem rising_of_leavesOf (h : Rising (leavesOf D)) : Rising D := by
  refine (List.pairwise_flatMap.mp h).2.imp fun {c c'} hle => ?_
  obtain ⟨leaf, tail, hc⟩ := segments_head d c.1 c.2
  obtain ⟨leaf', tail', hc'⟩ := segments_head d c'.1 c'.2
  refine hle (c.1, leaf) ?_ (c'.1, leaf') ?_
  · rw [hc]
    exact List.mem_cons_self
  · rw [hc']
    exact List.mem_cons_self

omit [TreeKey K] in
theorem leavesOf_append {D' : List (Segment K (Subtree K d))} :
    leavesOf (D ++ D') = leavesOf D ++ leavesOf D' :=
  List.flatMap_append

/-- A key that divides a child of a node, with all bounds in order, is not out of place. -/
theorem fits_of_rising (hi : i < n.sortedCount)
    (h : Rising (divided (kids lo n.first n.rest) i left key right)) : Fits n.rest i key := by
  obtain ⟨b, hb⟩ :=
    (kids_getElem? hi : ∃ b, (kids lo n.first n.rest)[i]? = some (b, n.getChild i))
  rw [divided, hb] at h
  obtain ⟨-, hcons, hcross⟩ := List.pairwise_append.mp h
  obtain ⟨hb', hcons'⟩ := List.pairwise_cons.mp hcons
  have habove := (List.pairwise_cons.mp hcons').1
  have hbkey : b ≤ (key : WithBot K) := hb' _ List.mem_cons_self
  refine ⟨Nat.le_of_lt_succ hi, fun c hc => ?_, fun c hc => ?_⟩
  · obtain ⟨j, hj, rfl⟩ := List.mem_take_iff_getElem.mp hc
    have hjn : j < n.rest.length := by omega
    have hkid : (kids lo n.first n.rest)[j + 1]? =
        some ((n.rest[j].1 : WithBot K), n.rest[j].2) := by
      simp [kids, hjn]
    rcases Nat.lt_or_ge (j + 1) i with hlt | hge
    · have hmem : ((n.rest[j].1 : WithBot K), n.rest[j].2) ∈ (kids lo n.first n.rest).take i := by
        refine List.mem_of_getElem? (i := j + 1) ?_
        rw [List.getElem?_take_of_lt hlt, hkid]
      exact WithBot.coe_le_coe.mp (hcross _ hmem _ (List.mem_cons_of_mem _ List.mem_cons_self))
    · obtain rfl : i = j + 1 := by omega
      rw [hkid] at hb
      obtain ⟨rfl, -⟩ := Prod.mk.inj (Option.some.inj hb)
      exact WithBot.coe_le_coe.mp hbkey
  · refine WithBot.coe_le_coe.mp (habove ((c.1 : WithBot K), c.2) ?_)
    rw [kids, List.drop_succ_cons, ← List.map_drop]
    exact List.mem_map_of_mem hc

def Above.dividedLeaves (above : Above K (d + 1)) (n : InternalNode K (Subtree K d)) (i : Nat)
    (key : K) (left right : Subtree K d) : List (Segment K (LeafNode K)) :=
  above.pre ++
    (leavesOf (divided (kids above.lower n.first n.rest) i left key right) ++ above.post)

structure Splitting (above : Above K (d + 1)) (n : InternalNode K (Subtree K d)) (i : Nat) (key : K)
    (left right : Subtree K d) : Prop where
  path : above.Sound
  ascending : Ascending n.rest
  index : i < n.sortedCount
  others : ∀ c ∈ (kids above.lower n.first n.rest).eraseIdx i, Sound d c.2
  soundLeft : Sound d left
  soundRight : Sound d right
  rising : Rising (above.dividedLeaves n i key left right)

variable {above : Above K (d + 1)} {parameters : ParameterSet} {backoff : Bool}
  {prepared : Prepared K} {m : InternalNode K (Subtree K d)}
  {halves : InternalNode.Halves K (Subtree K d)}

theorem Splitting.fits (h : Splitting above n i key left right) : Fits n.rest i key := by
  obtain ⟨-, hrising, -⟩ := List.pairwise_append.mp h.rising
  exact fits_of_rising h.index (rising_of_leavesOf (List.pairwise_append.mp hrising).1)

theorem Splitting.sound_kids (h : Splitting above n i key left right) :
    ∀ c ∈ divided (kids above.lower n.first n.rest) i left key right, Sound d c.2 := by
  obtain ⟨b, hb⟩ := (kids_getElem? h.index :
    ∃ b, (kids above.lower n.first n.rest)[i]? = some (b, n.getChild i))
  have hothers := h.others
  rw [List.eraseIdx_eq_take_drop_succ] at hothers
  intro c hc
  rw [divided, hb] at hc
  rcases List.mem_append.mp hc with hc | hc
  · exact hothers c (List.mem_append_left _ hc)
  · rcases List.mem_cons.mp hc with rfl | hc
    · exact h.soundLeft
    · rcases List.mem_cons.mp hc with rfl | hc
      · exact h.soundRight
      · exact hothers c (List.mem_append_right _ hc)

theorem sound_of_kids (lo : WithBot K) (hopen : m.frozen = false) (hasc : Ascending m.rest)
    (hkids : ∀ c ∈ kids lo m.first m.rest, Sound d c.2) : Sound (d + 1) m := by
  refine ⟨hopen, hasc, fun c hc => ?_⟩
  obtain ⟨c', hc', hsame⟩ : ∃ c' ∈ kids lo m.first m.rest, c'.2 = c.2 := kids_snd_mem hc
  exact hsame ▸ hkids c' hc'

theorem installed_install (ha : above.Sound) : (Prepared.install n m above).installed = above.plug m := by
  cases above with
  | root => rfl
  | frame grandParent metaIndex above =>
      rw [Prepared.installed, if_neg (by rw [ha.1.1]; exact Bool.false_ne_true)]

theorem Splitting.install (h : Splitting above n i key left right)
    (hnew : n.newWithKey key left right = some m) :
    (Prepared.install n m above).installed.Sound ∧
      (Prepared.install n m above).installed.segments = above.dividedLeaves n i key left right := by
  have hspec := newWithKey_spec above.lower h.ascending h.fits hnew
  obtain ⟨hopen, hasc, hkids⟩ := hspec
  have hm : Sound (d + 1) m := sound_of_kids above.lower hopen hasc (hkids ▸ h.sound_kids)
  rw [installed_install h.path]
  refine ⟨sound_plug h.path hm, ?_⟩
  rw [segments_plug h.path, Above.dividedLeaves, ← hkids]
  rfl

/-- The halves of a node that is split have its leaves, with one child divided. -/
theorem Splitting.split (h : Splitting above n i key left right)
    (hsplit : n.splitNode key left right = some halves) :
    Sound (d + 1) halves.left ∧ Sound (d + 1) halves.right ∧
      segments (d + 1) above.lower halves.left ++
          segments (d + 1) (halves.separator : WithBot K) halves.right =
        leavesOf (divided (kids above.lower n.first n.rest) i left key right) := by
  obtain ⟨⟨hopenl, hascl⟩, ⟨hopenr, hascr⟩, hkids⟩ :=
    splitNode_spec above.lower h.ascending h.fits hsplit
  have hsound := h.sound_kids
  rw [← hkids] at hsound
  refine ⟨sound_of_kids above.lower hopenl hascl fun c hc => hsound c (List.mem_append_left _ hc),
    sound_of_kids (halves.separator : WithBot K) hopenr hascr
      fun c hc => hsound c (List.mem_append_right _ hc), ?_⟩
  rw [← hkids, leavesOf_append]
  rfl

theorem ascending_setChild {α : Type} {n : InternalNode K α} {c : α} {j : Nat}
    (h : Ascending n.rest) : Ascending (n.setChild j c).rest := by
  cases j with
  | zero => exact h
  | succ j =>
      refine (List.pairwise_map (f := Prod.fst)).mp ?_
      rw [InternalNode.setChild, modify_map_fst]
      exact List.pairwise_map.mpr h

omit [TreeKey K] in
theorem setChild_sortedCount {α : Type} {n : InternalNode K α} {c : α} {j : Nat} :
    (n.setChild j c).sortedCount = n.sortedCount := by
  cases j with
  | zero => rfl
  | succ j => simp [InternalNode.setChild, InternalNode.sortedCount]

theorem splitting_of_frame {parent : InternalNode K (Subtree K d)} {j : Nat}
    (t : Subtree K d) (sep : K) (hpath : (Above.frame parent j above).Sound)
    (hleft : Sound d left) (hright : Sound d right)
    (hrising : Rising ((Above.frame parent j above).pre ++
      (segments d (Above.frame parent j above).lower left ++ segments d (sep : WithBot K) right ++
        (Above.frame parent j above).post))) :
    above.dividedLeaves ({ parent with frozen := true }.setChild j t) j sep left right =
        (Above.frame parent j above).pre ++
          (segments d (Above.frame parent j above).lower left ++
            segments d (sep : WithBot K) right ++ (Above.frame parent j above).post) ∧
      Splitting above ({ parent with frozen := true }.setChild j t) j sep left right := by
  obtain ⟨⟨-, hasc, hkids⟩, hj, habove⟩ := hpath
  have hlower : ((kids above.lower parent.first parent.rest)[j]?).map (·.1) =
      some (Above.frame parent j above).lower := lower_frame hj
  have hset := kids_setChild (n := { parent with frozen := true }) (c := t) hj hlower
  have hlength : ((kids above.lower parent.first parent.rest).take j).length = j := by
    rw [List.length_take, kids_length, Nat.min_eq_left (Nat.le_of_lt hj)]
  have hdivided : divided (kids above.lower ({ parent with frozen := true }.setChild j t).first
      ({ parent with frozen := true }.setChild j t).rest) j left sep right =
        (kids above.lower parent.first parent.rest).take j ++
          ((Above.frame parent j above).lower, left) :: ((sep : WithBot K), right) ::
            (kids above.lower parent.first parent.rest).drop (j + 1) := by
    rw [hset]
    exact divided_append hlength
  have hsame : above.dividedLeaves ({ parent with frozen := true }.setChild j t) j sep left right =
      (Above.frame parent j above).pre ++ (segments d (Above.frame parent j above).lower left ++
        segments d (sep : WithBot K) right ++ (Above.frame parent j above).post) := by
    rw [Above.dividedLeaves, hdivided, Above.pre, Above.post]
    simp only [leavesOf, List.flatMap_append, List.flatMap_cons, List.append_assoc]
  refine ⟨hsame, habove, ascending_setChild hasc, ?_, fun c hc => ?_, hleft, hright,
    hsame ▸ hrising⟩
  · rw [setChild_sortedCount]
    exact hj
  · rw [hset, List.eraseIdx_append_of_length_le (Nat.le_of_eq hlength), hlength, Nat.sub_self,
      List.eraseIdx_cons_zero] at hc
    have hmem : c ∈ kids above.lower parent.first parent.rest := by
      rcases List.mem_append.mp hc with hc | hc
      · exact List.mem_of_mem_take hc
      · exact List.mem_of_mem_drop hc
    obtain ⟨c', hc', hsnd⟩ : ∃ c' ∈ kids ⊥ parent.first parent.rest, c'.2 = c.2 := kids_snd_mem hmem
    exact hsnd ▸ hkids c' hc'

theorem Splitting.frame {parent : InternalNode K (Subtree K (d + 1))} {j : Nat}
    {above : Above K (d + 2)} (h : Splitting (.frame parent j above) n i key left right)
    (hsplit : n.splitNode key left right = some halves) :
    above.dividedLeaves ({ parent with frozen := true }.setChild j n) j halves.separator
        halves.left halves.right = (Above.frame parent j above).dividedLeaves n i key left right ∧
      Splitting above ({ parent with frozen := true }.setChild j n) j halves.separator
        halves.left halves.right := by
  obtain ⟨hleft, hright, hleaves⟩ := h.split hsplit
  have hsame := splitting_of_frame n halves.separator h.path hleft hright
  rw [hleaves] at hsame
  exact hsame h.rising

theorem Splitting.newRoot (h : Splitting .root n i key left right)
    (hsplit : n.splitNode key left right = some halves) :
    (⟨d + 2, (InternalNode.build halves.left [(halves.separator, halves.right)] :
        InternalNode K (Subtree K (d + 1)))⟩ : Tree K).Sound ∧
      (⟨d + 2, (InternalNode.build halves.left [(halves.separator, halves.right)] :
        InternalNode K (Subtree K (d + 1)))⟩ : Tree K).segments =
          Above.root.dividedLeaves n i key left right := by
  obtain ⟨hleft, hright, hleaves⟩ := h.split hsplit
  refine ⟨⟨rfl, List.pairwise_singleton _ _, fun c hc => ?_⟩, ?_⟩
  · rcases List.mem_cons.mp hc with rfl | hc
    · exact hleft
    · rw [List.mem_singleton.mp hc]
      exact hright
  · rw [Above.dividedLeaves, ← hleaves, Above.pre, Above.post, List.append_nil, List.nil_append]
    change _ ++ (_ ++ []) = _
    rw [List.append_nil]
    rfl

/-- A split of inner nodes up the path leaves a sound tree, with the child divided. -/
theorem Splitting.prepareForSplit (h : Splitting above n i key left right)
    (hp : n.prepareForSplit parameters backoff above key left right = some prepared) :
    prepared.installed.Sound ∧
      prepared.installed.segments = above.dividedLeaves n i key left right := by
  induction hlength : above.length using Nat.strong_induction_on generalizing d i key with
  | h length ih =>
      rw [InternalNode.prepareForSplit] at hp
      split at hp
      · obtain ⟨m, hnew, rfl⟩ := Option.map_eq_some_iff.mp hp
        exact h.install hnew
      · obtain ⟨halves, hsplit, hp⟩ := Option.bind_eq_some_iff.mp hp
        cases above with
        | root =>
            cases hp
            exact h.newRoot hsplit
        | frame parent j above =>
            have hopen : ¬ (parent.frozen = true ∧ backoff = true) := by
              rw [h.path.1.1]
              exact fun hfrozen => Bool.false_ne_true hfrozen.1
            dsimp only at hp
            rw [if_neg hopen] at hp
            obtain ⟨hsame, hsplitting⟩ := h.frame hsplit
            rw [← hsame]
            exact ih above.length (by rw [← hlength]; exact Nat.lt_succ_self _) hsplitting hp rfl

theorem prepareForSplit_spec {above : Above K 0} {leaf l r : LeafNode K} {sep : K}
    (hpath : above.Sound) (hdistinct : leaf.Distinct) (hsplit : leaf.splitLeaf = some (l, sep, r))
    (hrising : Rising (above.pre ++ (above.lower, l) :: ((sep : WithBot K), r) :: above.post))
    (hp : leaf.prepareForSplit parameters backoff above = some prepared) :
    prepared.installed.Sound ∧ prepared.installed.segments =
      above.pre ++ (above.lower, l) :: ((sep : WithBot K), r) :: above.post := by
  have hdivides := splitLeaf_divides hdistinct hsplit
  have hleft : Sound 0 (l : Subtree K 0) := ⟨hdivides.left_open, hdivides.left_distinct⟩
  have hright : Sound 0 (r : Subtree K 0) := ⟨hdivides.right_open, hdivides.right_distinct⟩
  rw [LeafNode.prepareForSplit, hsplit, Option.bind_some] at hp
  cases above with
  | root =>
      cases hp
      refine ⟨⟨rfl, List.pairwise_singleton _ _, fun c hc => ?_⟩, rfl⟩
      rcases List.mem_cons.mp hc with rfl | hc
      · exact hleft
      · rw [List.mem_singleton.mp hc]
        exact hright
  | frame parent j above =>
      have hopen : ¬ (parent.frozen = true ∧ backoff = true) := by
        rw [hpath.1.1]
        exact fun hfrozen => Bool.false_ne_true hfrozen.1
      dsimp only at hp
      rw [if_neg hopen] at hp
      obtain ⟨hsame, hsplitting⟩ := splitting_of_frame leaf sep hpath hleft hright hrising
      rw [hsplitting.prepareForSplit hp |>.2]
      exact ⟨(hsplitting.prepareForSplit hp).1, hsame⟩

end Path

end HashComp.BzTree
