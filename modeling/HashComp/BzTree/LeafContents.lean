import HashComp.BzTree.Leaves

namespace HashComp.BzTree

open HashComp.ByteMemory
open HashComp.Segments

variable {K : Type} [TreeKey K]

namespace LeafNode

def lookup (n : LeafNode K) (k : K) : Option Word :=
  (n.records.find? fun r => r.visible ∧ r.key = k).map (·.payload)

def Distinct (n : LeafNode K) : Prop :=
  n.records.Pairwise fun r r' => r.visible = true → r'.visible = true → r.key ≠ r'.key

end LeafNode

section Records

variable {n n' : LeafNode K} {key k : K} {payload p : Word} {i : Nat} {pre post : List (LeafRecord K)}
  {r r' : LeafRecord K}

theorem keyCompare_getKey_iff : keyCompare (some (TreeKey.bytes key)) r.getKey = 0 ↔
    r.visible = true ∧ r.key = key := by
  rw [LeafRecord.getKey]
  split
  · rename_i hv
    rw [TreeKey.keyCompare_zero_iff]
    exact ⟨fun h => ⟨hv, h.symm⟩, fun h => h.2.symm⟩
  · rename_i hv
    exact ⟨fun h => absurd h Int.one_ne_zero, fun h => absurd h.1 hv⟩

theorem searchRecordMeta_eq :
    n.searchRecordMeta key = n.records.findIdx? fun r => r.visible ∧ r.key = key := by
  have hsorted : (fun r : LeafRecord K =>
      decide (keyCompare (some (TreeKey.bytes key)) r.getKey = 0)) =
      fun r => decide (r.visible = true ∧ r.key = key) :=
    funext fun r => decide_eq_decide.mpr keyCompare_getKey_iff
  have hlinear : (fun r : LeafRecord K => decide (r.visible = true ∧
      (TreeKey.bytes r.key).length = (TreeKey.bytes key).length ∧
        keyCompare (some (TreeKey.bytes key)) r.getKey = 0)) =
      fun r => decide (r.visible = true ∧ r.key = key) := by
    refine funext fun r => decide_eq_decide.mpr ?_
    rw [keyCompare_getKey_iff]
    exact ⟨fun h => h.2.2, fun h => ⟨h.1, by rw [h.2], h⟩⟩
  rw [LeafNode.searchRecordMeta, hsorted, hlinear]
  rcases Nat.le_total n.sortedCount n.records.length with hle | hle
  · conv => rhs; rw [← List.take_append_drop n.sortedCount n.records]
    rw [List.findIdx?_append, List.length_take, Nat.min_eq_left hle]
  · rw [List.take_of_length_le hle, List.drop_eq_nil_of_le hle]
    simp

theorem searchRecordMeta_eq_none :
    n.searchRecordMeta key = none ↔ ∀ r ∈ n.records, r.visible = true → r.key ≠ key := by
  rw [searchRecordMeta_eq, List.findIdx?_eq_none_iff]
  simp

theorem searchRecordMeta_eq_some (h : n.searchRecordMeta key = some i) : ∃ pre r post,
    n.records = pre ++ r :: post ∧ pre.length = i ∧ r.visible = true ∧ r.key = key := by
  rw [searchRecordMeta_eq] at h
  obtain ⟨hi, hp, -⟩ := List.findIdx?_eq_some_iff_getElem.mp h
  obtain ⟨hv, hk⟩ := of_decide_eq_true hp
  refine ⟨n.records.take i, n.records[i], n.records.drop (i + 1), ?_, ?_, hv, hk⟩
  · rw [← List.drop_eq_getElem_cons hi, List.take_append_drop]
  · rw [List.length_take, Nat.min_eq_left hi.le]

theorem lookup_eq_some_iff (hd : n.Distinct) : n.lookup k = some p ↔
    ∃ r ∈ n.records, r.visible = true ∧ r.key = k ∧ r.payload = p := by
  rw [LeafNode.lookup, Option.map_eq_some_iff]
  constructor
  · rintro ⟨r, hr, rfl⟩
    have hfound := List.find?_some hr
    obtain ⟨hv, hk⟩ := of_decide_eq_true hfound
    exact ⟨r, List.mem_of_find?_eq_some hr, hv, hk, rfl⟩
  · rintro ⟨r, hr, hv, rfl, rfl⟩
    obtain ⟨pre, post, hsplit⟩ := List.append_of_mem hr
    refine ⟨r, ?_, rfl⟩
    rw [List.find?_eq_some_iff_append]
    refine ⟨decide_eq_true ⟨hv, rfl⟩, pre, post, hsplit, fun x hx => ?_⟩
    rw [LeafNode.Distinct, hsplit] at hd
    have hne := (List.pairwise_append.mp hd).2.2 x hx r List.mem_cons_self
    simp only [Bool.decide_and, Bool.decide_eq_true, Bool.not_eq_eq_eq_not, Bool.not_true,
      Bool.and_eq_false_iff, decide_eq_false_iff_not]
    cases hx : x.visible with
    | false => exact Or.inl rfl
    | true => exact Or.inr (hne hx hv)

theorem lookup_eq_none_iff : n.lookup k = none ↔ ∀ r ∈ n.records, r.visible = true → r.key ≠ k := by
  rw [LeafNode.lookup, Option.map_eq_none_iff, List.find?_eq_none]
  simp

theorem holds_iff :
    Segments.Holds LeafNode.lookup n k ↔ ∃ r ∈ n.records, r.visible = true ∧ r.key = k := by
  rw [Segments.Holds, ne_eq, lookup_eq_none_iff]
  simp

theorem searchRecordMeta_eq_none_iff : n.searchRecordMeta key = none ↔ n.lookup key = none := by
  rw [searchRecordMeta_eq_none, lookup_eq_none_iff]

theorem read_eq (hd : n.Distinct) : n.read key = n.lookup key := by
  rw [LeafNode.read]
  cases hs : n.searchRecordMeta key with
  | none => rw [Option.bind_none, searchRecordMeta_eq_none_iff.mp hs]
  | some i =>
      obtain ⟨pre, r, post, hrec, rfl, hv, hk⟩ := searchRecordMeta_eq_some hs
      have hget : n.records[pre.length]? = some r := by
        rw [hrec, List.getElem?_append_right (Nat.le_refl _), Nat.sub_self, List.getElem?_cons_zero]
      rw [Option.bind_some, hget, Option.map_some, eq_comm, lookup_eq_some_iff hd]
      exact ⟨r, by rw [hrec]; simp, hv, hk, rfl⟩

omit [TreeKey K] in
theorem modify_append_length (f : LeafRecord K → LeafRecord K) :
    (pre ++ r :: post).modify pre.length f = pre ++ f r :: post := by
  induction pre with
  | nil => rfl
  | cons x pre ih => exact congrArg (x :: ·) ih

end Records

section Effects

variable {n n' : LeafNode K} {key k : K} {payload p : Word} {parameters : ParameterSet}
  {pre post : List (LeafRecord K)} {r r' : LeafRecord K}

theorem lookup_ext (hd : n.Distinct) (hd' : n'.Distinct)
    (h : ∀ p, (∃ r ∈ n.records, r.visible = true ∧ r.key = k ∧ r.payload = p) ↔
      ∃ r ∈ n'.records, r.visible = true ∧ r.key = k ∧ r.payload = p) : n.lookup k = n'.lookup k := by
  refine Option.ext fun p => ?_
  rw [lookup_eq_some_iff hd, lookup_eq_some_iff hd', h p]

theorem append_lookup (hd : n.Distinct) (habsent : n.lookup key = none)
    (hrec : n'.records = n.records ++ [⟨key, payload, true⟩]) :
    n'.Distinct ∧ n'.lookup = Function.update n.lookup key (some payload) := by
  have hne := lookup_eq_none_iff.mp habsent
  have hd' : n'.Distinct := by
    rw [LeafNode.Distinct, hrec, List.pairwise_append]
    refine ⟨hd, List.pairwise_singleton .., fun x hx y hy hv _ => ?_⟩
    rw [List.mem_singleton.mp hy]
    exact hne x hx hv
  refine ⟨hd', funext fun k => ?_⟩
  rcases eq_or_ne k key with rfl | hk
  · rw [Function.update_self, lookup_eq_some_iff hd', hrec]
    exact ⟨_, List.mem_append_right _ List.mem_cons_self, rfl, rfl, rfl⟩
  · rw [Function.update_of_ne hk]
    refine lookup_ext hd' hd fun p => ?_
    rw [hrec]
    constructor
    · rintro ⟨x, hx, hv, rfl, hp⟩
      rcases List.mem_append.mp hx with hx | hx
      · exact ⟨x, hx, hv, rfl, hp⟩
      · rw [List.mem_singleton.mp hx] at hk
        exact absurd rfl hk
    · rintro ⟨x, hx, h⟩
      exact ⟨x, List.mem_append_left _ hx, h⟩

/-- The record of a key is replaced by one that is not visible or has the same key. -/
theorem replace_lookup (r' : LeafRecord K) (hd : n.Distinct) (hrec : n.records = pre ++ r :: post)
    (hrec' : n'.records = pre ++ r' :: post) (hv : r.visible = true) (hk : r'.key = r.key) :
    n'.Distinct ∧ n'.lookup = Function.update n.lookup r.key
      (if r'.visible then some r'.payload else none) := by
  have hd₀ := hd
  rw [LeafNode.Distinct, hrec, List.pairwise_append, List.pairwise_cons] at hd₀
  obtain ⟨hpre, ⟨hhead, hpost⟩, hcross⟩ := hd₀
  have hd' : n'.Distinct := by
    rw [LeafNode.Distinct, hrec', List.pairwise_append, List.pairwise_cons]
    refine ⟨hpre, ⟨fun x hx _ hvx => ?_, hpost⟩, fun x hx y hy hvx hvy => ?_⟩
    · rw [hk]
      exact hhead x hx hv hvx
    · rcases List.mem_cons.mp hy with rfl | hy
      · rw [hk]
        exact hcross x hx r List.mem_cons_self hvx hv
      · exact hcross x hx y (List.mem_cons_of_mem _ hy) hvx hvy
  refine ⟨hd', funext fun k => ?_⟩
  rcases eq_or_ne k r.key with rfl | hne
  · rw [Function.update_self]
    split
    · rename_i hv'
      rw [lookup_eq_some_iff hd', hrec']
      exact ⟨r', List.mem_append_right _ List.mem_cons_self, hv', hk, rfl⟩
    · rename_i hv'
      rw [lookup_eq_none_iff, hrec']
      intro x hx hvx
      rcases List.mem_append.mp hx with hx | hx
      · exact hcross x hx r List.mem_cons_self hvx hv
      · rcases List.mem_cons.mp hx with rfl | hx
        · exact absurd hvx hv'
        · exact (hhead x hx hv hvx).symm
  · rw [Function.update_of_ne hne]
    refine lookup_ext hd' hd fun p => ?_
    rw [hrec, hrec']
    constructor
    · rintro ⟨x, hx, hvx, hkx, hp⟩
      rcases List.mem_append.mp hx with hx | hx
      · exact ⟨x, List.mem_append_left _ hx, hvx, hkx, hp⟩
      · rcases List.mem_cons.mp hx with rfl | hx
        · exact absurd (hkx.symm.trans hk) hne
        · exact ⟨x, List.mem_append_right _ (List.mem_cons_of_mem _ hx), hvx, hkx, hp⟩
    · rintro ⟨x, hx, hvx, hkx, hp⟩
      rcases List.mem_append.mp hx with hx | hx
      · exact ⟨x, List.mem_append_left _ hx, hvx, hkx, hp⟩
      · rcases List.mem_cons.mp hx with rfl | hx
        · exact absurd hkx.symm hne
        · exact ⟨x, List.mem_append_right _ (List.mem_cons_of_mem _ hx), hvx, hkx, hp⟩

/-- `Insert` of a leaf that is not frozen adds the key, finds it, or needs space. -/
theorem insert_cases (hd : n.Distinct) (hopen : n.frozen = false) :
    (n.lookup key ≠ none ∧ n.insert parameters key payload = (n, .keyExists)) ∨
      (n.lookup key = none ∧ n.insert parameters key payload = (n, .notEnoughSpace)) ∨
      ∃ n', n.lookup key = none ∧ n.insert parameters key payload = (n', .ok) ∧
        n'.frozen = false ∧ n'.Distinct ∧
        n'.lookup = Function.update n.lookup key (some payload) := by
  rw [LeafNode.insert, if_neg (Bool.eq_false_iff.mp hopen)]
  cases hs : n.searchRecordMeta key with
  | some i =>
      refine Or.inl ⟨fun hnone => ?_, rfl⟩
      rw [searchRecordMeta_eq_none_iff.mpr hnone] at hs
      cases hs
  | none =>
      have habsent := searchRecordMeta_eq_none_iff.mp hs
      refine Or.inr ?_
      dsimp only
      split
      · exact Or.inl ⟨habsent, rfl⟩
      · exact Or.inr ⟨_, habsent, rfl, hopen, append_lookup hd habsent rfl⟩

theorem update_cases (hd : n.Distinct) (hopen : n.frozen = false) :
    (n.lookup key = none ∧ n.update key payload = (n, .notFound)) ∨
      ∃ n', n.lookup key ≠ none ∧ n.update key payload = (n', .ok) ∧ n'.frozen = false ∧
        n'.Distinct ∧ n'.lookup = Function.update n.lookup key (some payload) := by
  rw [LeafNode.update, if_neg (Bool.eq_false_iff.mp hopen)]
  cases hs : n.searchRecordMeta key with
  | none => exact Or.inl ⟨searchRecordMeta_eq_none_iff.mp hs, rfl⟩
  | some i =>
      have hpresent : n.lookup key ≠ none := by
        intro hnone
        rw [searchRecordMeta_eq_none_iff.mpr hnone] at hs
        cases hs
      obtain ⟨pre, r, post, hrec, rfl, hv, rfl⟩ := searchRecordMeta_eq_some hs
      have hget : n.records[pre.length]? = some r := by
        rw [hrec, List.getElem?_append_right (Nat.le_refl _), Nat.sub_self, List.getElem?_cons_zero]
      refine Or.inr ?_
      dsimp only
      rw [hget, Option.map_some]
      split
      · rename_i hp
        refine ⟨n, hpresent, rfl, hopen, hd, ?_⟩
        have hlook : n.lookup r.key = some r.payload := by
          rw [lookup_eq_some_iff hd, hrec]
          exact ⟨r, by simp, hv, rfl, rfl⟩
        rw [← hp, ← hlook, Function.update_eq_self]
      · refine ⟨_, hpresent, rfl, hopen, ?_⟩
        have hrec' : n.records.modify pre.length (fun r => { r with payload := payload }) =
            pre ++ { r with payload := payload } :: post := by
          rw [hrec, modify_append_length]
        refine (replace_lookup { r with payload := payload } hd hrec hrec' hv rfl).imp_right fun hlook => hlook.trans ?_
        exact congrArg (Function.update n.lookup r.key) (if_pos hv)

theorem delete_cases (hd : n.Distinct) (hopen : n.frozen = false) :
    (n.lookup key = none ∧ n.delete key = (n, .notFound)) ∨
      ∃ n', n.lookup key ≠ none ∧ n.delete key = (n', .ok) ∧ n'.frozen = false ∧
        n'.Distinct ∧ n'.lookup = Function.update n.lookup key none := by
  rw [LeafNode.delete, if_neg (Bool.eq_false_iff.mp hopen)]
  cases hs : n.searchRecordMeta key with
  | none => exact Or.inl ⟨searchRecordMeta_eq_none_iff.mp hs, rfl⟩
  | some i =>
      have hpresent : n.lookup key ≠ none := by
        intro hnone
        rw [searchRecordMeta_eq_none_iff.mpr hnone] at hs
        cases hs
      obtain ⟨pre, r, post, hrec, rfl, hv, rfl⟩ := searchRecordMeta_eq_some hs
      refine Or.inr ⟨_, hpresent, rfl, hopen, ?_⟩
      have hrec' : n.records.modify pre.length (fun r => { r with visible := false }) =
          pre ++ { r with visible := false } :: post := by
        rw [hrec, modify_append_length]
      exact replace_lookup { r with visible := false } hd hrec hrec' hv rfl

end Effects

section Split

structure Divides (n l r : LeafNode K) (sep : K) : Prop where
  left_open : l.frozen = false
  right_open : r.frozen = false
  left_distinct : l.Distinct
  right_distinct : r.Distinct
  separator : Segments.Holds LeafNode.lookup l sep
  left : ∀ k, Segments.Holds LeafNode.lookup l k → Segments.Holds LeafNode.lookup n k ∧ k ≤ sep
  right : ∀ k, Segments.Holds LeafNode.lookup r k → Segments.Holds LeafNode.lookup n k ∧ sep < k
  both : ∀ k, n.lookup k = (l.lookup k).or (r.lookup k)

variable {n l r : LeafNode K} {sep : K}

theorem sortMetadataByKey_perm : n.sortMetadataByKey.Perm (n.records.filter (·.visible)) :=
  List.perm_insertionSort ..

theorem mem_sortMetadataByKey {x : LeafRecord K} :
    x ∈ n.sortMetadataByKey ↔ x ∈ n.records ∧ x.visible = true := by
  rw [sortMetadataByKey_perm.mem_iff, List.mem_filter]

theorem sortMetadataByKey_sorted (hd : n.Distinct) :
    n.sortMetadataByKey.Pairwise fun x y => x.key < y.key := by
  have hle : ∀ x y : LeafRecord K,
      ¬ keyCompare (some (TreeKey.bytes y.key)) (some (TreeKey.bytes x.key)) < 0 ↔ x.key ≤ y.key := by
    intro x y
    rw [TreeKey.keyCompare_neg_iff, not_lt]
  have htotal : Std.Total fun x y : LeafRecord K =>
      ¬ keyCompare (some (TreeKey.bytes y.key)) (some (TreeKey.bytes x.key)) < 0 :=
    ⟨fun x y => (le_total x.key y.key).imp (hle x y).mpr (hle y x).mpr⟩
  have htrans : IsTrans (LeafRecord K) fun x y =>
      ¬ keyCompare (some (TreeKey.bytes y.key)) (some (TreeKey.bytes x.key)) < 0 :=
    ⟨fun x y z hxy hyz => (hle x z).mpr (((hle x y).mp hxy).trans ((hle y z).mp hyz))⟩
  have hsorted : n.sortMetadataByKey.Pairwise fun x y =>
      ¬ keyCompare (some (TreeKey.bytes y.key)) (some (TreeKey.bytes x.key)) < 0 :=
    List.pairwise_insertionSort _ _
  -- the keys of visible records differ
  have hne : n.sortMetadataByKey.Pairwise fun x y => x.key ≠ y.key := by
    refine (sortMetadataByKey_perm.pairwise_iff fun h => h.symm).mpr ?_
    refine (List.pairwise_filter.mpr (hd.imp fun h hx hy => h hx hy))
  exact hsorted.imp₂ (fun x y hxy hne => lt_of_le_of_ne ((hle x y).mp hxy) hne) hne

theorem copyFrom_distinct {recs : List (LeafRecord K)}
    (h : recs.Pairwise fun x y => x.key < y.key) : (LeafNode.copyFrom recs).Distinct :=
  h.imp fun hxy _ _ => ne_of_lt hxy

theorem splitLeaf_divides (hd : n.Distinct) (h : n.splitLeaf = some (l, sep, r)) :
    Divides n l r sep := by
  rw [LeafNode.splitLeaf] at h
  split at h
  · obtain ⟨last, hlast, hr⟩ := Option.map_eq_some_iff.mp h
    have hsorted := sortMetadataByKey_sorted hd
    have hmem : ∀ x, x ∈ n.sortMetadataByKey ↔ x ∈ n.records ∧ x.visible = true :=
      fun x => mem_sortMetadataByKey
    generalize LeafNode.countLeft (K := K) _ _ = m at hlast hr
    generalize n.sortMetadataByKey = recs at hlast hr hsorted hmem
    obtain ⟨rfl, rfl, rfl⟩ := hr
    have hsplit : recs.take m ++ recs.drop m = recs := List.take_append_drop m recs
    obtain ⟨init, hinit⟩ := List.getLast?_eq_some_iff.mp hlast
    have hparts := hsorted
    rw [← hsplit, List.pairwise_append] at hparts
    obtain ⟨hleft, hright, hcross⟩ := hparts
    have hlastmem : last ∈ recs.take m := by
      rw [hinit]
      exact List.mem_append_right _ List.mem_cons_self
    have hbelow : ∀ x ∈ recs.take m, x.key ≤ last.key := by
      intro x hx
      rw [hinit] at hleft hx
      rcases List.mem_append.mp hx with hx | hx
      · exact ((List.pairwise_append.mp hleft).2.2 x hx last List.mem_cons_self).le
      · rw [List.mem_singleton.mp hx]
    have hvis : ∀ x ∈ recs, x ∈ n.records ∧ x.visible = true := fun x hx => (hmem x).mp hx
    have hsub : ∀ x, (x ∈ recs.take m → x ∈ recs) ∧ (x ∈ recs.drop m → x ∈ recs) :=
      fun x => ⟨List.mem_of_mem_take, List.mem_of_mem_drop⟩
    have hL := copyFrom_distinct hleft
    have hR := copyFrom_distinct hright
    refine ⟨rfl, rfl, hL, hR, ?_, fun k hk => ?_, fun k hk => ?_, fun k => Option.ext fun p => ?_⟩
    · exact holds_iff.mpr ⟨last, hlastmem, (hvis last ((hsub last).1 hlastmem)).2, rfl⟩
    · obtain ⟨x, hx, hv, rfl⟩ := holds_iff.mp hk
      obtain ⟨hxn, -⟩ := hvis x ((hsub x).1 hx)
      exact ⟨holds_iff.mpr ⟨x, hxn, hv, rfl⟩, hbelow x hx⟩
    · obtain ⟨x, hx, hv, rfl⟩ := holds_iff.mp hk
      obtain ⟨hxn, -⟩ := hvis x ((hsub x).2 hx)
      exact ⟨holds_iff.mpr ⟨x, hxn, hv, rfl⟩, hcross last hlastmem x hx⟩
    · rw [Option.or_eq_some_iff, lookup_eq_some_iff hd, lookup_eq_some_iff hL, lookup_eq_some_iff hR,
        lookup_eq_none_iff]
      constructor
      · rintro ⟨x, hx, hv, rfl, rfl⟩
        have hxr := (hmem x).mpr ⟨hx, hv⟩
        rw [← hsplit] at hxr
        rcases List.mem_append.mp hxr with hxl | hxr
        · exact Or.inl ⟨x, hxl, hv, rfl, rfl⟩
        · exact Or.inr ⟨fun y hy _ => ne_of_lt (hcross y hy x hxr), x, hxr, hv, rfl, rfl⟩
      · rintro (⟨x, hx, h⟩ | ⟨-, x, hx, h⟩)
        · exact ⟨x, (hvis x ((hsub x).1 hx)).1, h⟩
        · exact ⟨x, (hvis x ((hsub x).2 hx)).1, h⟩
  · cases h

end Split

end HashComp.BzTree
