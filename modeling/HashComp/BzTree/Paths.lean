import HashComp.BzTree.LeafContents
import HashComp.BzTree.Tree

namespace HashComp.BzTree

open HashComp.Segments

section Lists

variable {K α : Type}

def kids (lo : WithBot K) (first : α) (rest : List (K × α)) : List (Segment K α) :=
  (lo, first) :: rest.map fun c => ((c.1 : WithBot K), c.2)

def divided (children : List (Segment K α)) (i : Nat) (left : α) (separator : K) (right : α) :
    List (Segment K α) :=
  match children[i]? with
  | none => children
  | some c => children.take i ++ (c.1, left) :: ((separator : WithBot K), right) :: children.drop (i + 1)

def Ascending [LinearOrder K] (rest : List (K × α)) : Prop :=
  rest.Pairwise fun c c' => c.1 < c'.1

end Lists

variable {K : Type} [TreeKey K] {α : Type}

def segments : (d : Nat) → WithBot K → Subtree K d → List (Segment K (LeafNode K))
  | 0, lo, leaf => [(lo, leaf)]
  | d + 1, lo, (n : InternalNode K (Subtree K d)) =>
      (kids lo n.first n.rest).flatMap fun c => segments d c.1 c.2

/-- Nothing is frozen, and keys differ and ascend within each node. -/
def Sound : (d : Nat) → Subtree K d → Prop
  | 0, (leaf : LeafNode K) => leaf.frozen = false ∧ leaf.Distinct
  | d + 1, (n : InternalNode K (Subtree K d)) =>
      n.frozen = false ∧ Ascending n.rest ∧ ∀ c ∈ kids ⊥ n.first n.rest, Sound d c.2

namespace Above

/-- The nodes of a path are sound, and its indices are those of children. -/
def Sound : {d : Nat} → Above K d → Prop
  | _, .root => True
  | d, .frame n i above => BzTree.Sound (d + 1) n ∧ i < n.sortedCount ∧ above.Sound

def lower : {d : Nat} → Above K d → WithBot K
  | _, .root => ⊥
  | _, .frame n i above => (((kids above.lower n.first n.rest)[i]?).map (·.1)).getD ⊥

/-- The leaves on the left of a path. -/
def pre : {d : Nat} → Above K d → List (Segment K (LeafNode K))
  | _, .root => []
  | d, .frame n i above =>
      above.pre ++ ((kids above.lower n.first n.rest).take i).flatMap fun c => segments d c.1 c.2

/-- The leaves on the right of a path. -/
def post : {d : Nat} → Above K d → List (Segment K (LeafNode K))
  | _, .root => []
  | d, .frame n i above =>
      ((kids above.lower n.first n.rest).drop (i + 1)).flatMap (fun c => segments d c.1 c.2) ++
        above.post

end Above

def Tree.segments (tree : Tree K) : List (Segment K (LeafNode K)) :=
  BzTree.segments tree.height ⊥ tree.root

def Tree.Sound (tree : Tree K) : Prop :=
  BzTree.Sound tree.height tree.root

section Kids

variable {lo lo' : WithBot K} {n : InternalNode K α} {i j : Nat} {c : α} {first : α} {rest : List (K × α)}
  {key sep : K}

omit [TreeKey K]

theorem kids_length : (kids lo n.first n.rest).length = n.sortedCount := by
  simp [kids, InternalNode.sortedCount]

theorem kids_snd_mem {x : Segment K α} (hx : x ∈ kids lo first rest) :
    ∃ y ∈ kids lo' first rest, y.2 = x.2 := by
  rcases List.mem_cons.mp hx with rfl | hx
  · exact ⟨_, List.mem_cons_self, rfl⟩
  · exact ⟨x, List.mem_cons_of_mem _ hx, rfl⟩

theorem kids_getElem? (hi : i < n.sortedCount) : ∃ b, (kids lo n.first n.rest)[i]? = some (b, n.getChild i) := by
  cases i with
  | zero => exact ⟨lo, rfl⟩
  | succ i =>
      have hlt : i < n.rest.length := Nat.lt_of_succ_lt_succ hi
      refine ⟨n.rest[i].1, ?_⟩
      simp [kids, InternalNode.getChild, hlt]

theorem kids_setChild (hi : i < n.sortedCount) {b : WithBot K}
    (hb : ((kids lo n.first n.rest)[i]?).map (·.1) = some b) :
    kids lo (n.setChild i c).first (n.setChild i c).rest =
      (kids lo n.first n.rest).take i ++ (b, c) :: (kids lo n.first n.rest).drop (i + 1) := by
  cases i with
  | zero =>
      cases hb
      rfl
  | succ i =>
      have hlt : i < n.rest.length := Nat.lt_of_succ_lt_succ hi
      have hb' : b = ((n.rest[i].1 : K) : WithBot K) := by
        simp [kids, hlt] at hb
        exact hb.symm
      have hmod : n.rest.modify i (fun r => (r.1, c)) =
          n.rest.take i ++ (n.rest[i].1, c) :: n.rest.drop (i + 1) := by
        rw [List.modify_eq_take_cons_drop hlt]
      simp [kids, InternalNode.setChild, hmod, hb', List.map_take, List.map_drop]

theorem modify_map_fst {c : α} : (rest.modify i fun r => (r.1, c)).map Prod.fst = rest.map Prod.fst := by
  induction rest generalizing i with
  | nil => cases i <;> rfl
  | cons r rest ih =>
      cases i with
      | zero => rfl
      | succ i => exact congrArg (r.1 :: ·) ih

theorem setChild_getChild (hi : i < n.sortedCount) : n.setChild i (n.getChild i) = n := by
  cases i with
  | zero => rfl
  | succ i =>
      have hlt : i < n.rest.length := Nat.lt_of_succ_lt_succ hi
      have hrest : n.rest.modify i (fun r => (r.1, n.getChild (i + 1))) = n.rest := by
        rw [List.modify_eq_take_cons_drop hlt]
        simp [InternalNode.getChild, hlt]
      simp only [InternalNode.setChild, hrest]

end Kids

section Segments

variable {d i : Nat} {lo b : WithBot K} {t : Subtree K d} {n : InternalNode K (Subtree K d)}
  {above : Above K d}

omit [TreeKey K] in
theorem segments_head (d : Nat) (lo : WithBot K) (t : Subtree K d) :
    ∃ leaf tail, segments d lo t = (lo, leaf) :: tail := by
  induction d generalizing lo with
  | zero => exact ⟨t, [], rfl⟩
  | succ d ih =>
      obtain ⟨leaf, tail, hhead⟩ := ih lo (t : InternalNode K (Subtree K d)).first
      refine ⟨leaf, tail ++ (List.map (fun c => ((c.1 : WithBot K), c.2))
        (t : InternalNode K (Subtree K d)).rest).flatMap fun c => segments d c.1 c.2, ?_⟩
      show segments d lo (t : InternalNode K (Subtree K d)).first ++ List.flatMap _ _ = _
      rw [hhead, List.cons_append]

omit [TreeKey K] in
theorem lower_frame (hi : i < n.sortedCount) {above : Above K (d + 1)} :
    ((kids above.lower n.first n.rest)[i]?).map (·.1) = some (Above.frame n i above).lower := by
  obtain ⟨b, hb⟩ :=
    (kids_getElem? hi : ∃ b, (kids above.lower n.first n.rest)[i]? = some (b, n.getChild i))
  rw [Above.lower, hb]
  rfl

omit [TreeKey K] in
theorem segments_setChild (hi : i < n.sortedCount)
    (hb : ((kids lo n.first n.rest)[i]?).map (·.1) = some b) :
    segments (d + 1) lo (n.setChild i t : InternalNode K (Subtree K d)) =
      ((kids lo n.first n.rest).take i).flatMap (fun c => segments d c.1 c.2) ++
        (segments d b t ++ ((kids lo n.first n.rest).drop (i + 1)).flatMap
          fun c => segments d c.1 c.2) := by
  show (kids lo (n.setChild i t).first (n.setChild i t).rest).flatMap _ = _
  rw [kids_setChild hi hb, List.flatMap_append, List.flatMap_cons]

theorem segments_plug (h : above.Sound) :
    (above.plug t).segments = above.pre ++ (segments d above.lower t ++ above.post) := by
  induction above with
  | root => exact (List.append_nil _).symm
  | frame n i above ih =>
      rw [Above.plug, ih h.2.2, segments_setChild h.2.1 (lower_frame h.2.1), Above.pre, Above.post]
      simp only [List.append_assoc]

theorem sound_setChild (hn : Sound (d + 1) n) (hi : i < n.sortedCount) (ht : Sound d t) :
    Sound (d + 1) (n.setChild i t : InternalNode K (Subtree K d)) := by
  obtain ⟨hopen, hasc, hkids⟩ := hn
  obtain ⟨b, hb⟩ := (kids_getElem? hi : ∃ b, (kids ⊥ n.first n.rest)[i]? = some (b, n.getChild i))
  have hchildren := kids_setChild (c := t) hi ((congrArg (Option.map (·.1)) hb).trans rfl)
  refine ⟨?_, ?_, ?_⟩
  · cases i <;> exact hopen
  · cases i with
    | zero => exact hasc
    | succ i =>
        refine (List.pairwise_map (f := Prod.fst)).mp ?_
        rw [InternalNode.setChild, modify_map_fst]
        exact List.pairwise_map.mpr hasc
  · rw [hchildren]
    intro c hc
    rcases List.mem_append.mp hc with hc | hc
    · exact hkids c (List.mem_of_mem_take hc)
    · rcases List.mem_cons.mp hc with rfl | hc
      · exact ht
      · exact hkids c (List.mem_of_mem_drop hc)

theorem sound_getChild (hn : Sound (d + 1) n) (hi : i < n.sortedCount) : Sound d (n.getChild i) := by
  obtain ⟨b, hb⟩ := (kids_getElem? hi : ∃ b, (kids ⊥ n.first n.rest)[i]? = some (b, n.getChild i))
  exact hn.2.2 _ (List.mem_of_getElem? hb)

theorem sound_plug (h : above.Sound) (ht : Sound d t) : (above.plug t).Sound := by
  induction above with
  | root => exact ht
  | frame n i above ih => exact ih h.2.2 (sound_setChild h.1 h.2.1 ht)

end Segments

section Traversal

variable {key : K} {leChild : Bool} {d : Nat}

def Goes (key : K) (leChild : Bool) (lo : WithBot K) : Prop :=
  if leChild then lo < (key : WithBot K) else lo ≤ (key : WithBot K)

theorem Goes.mono {lo lo' : WithBot K} (hle : lo ≤ lo') (h : Goes key leChild lo') :
    Goes key leChild lo := by
  cases leChild with
  | true => exact lt_of_le_of_lt hle h
  | false => exact hle.trans h

theorem exists_cut {rest : List (K × α)} (h : Ascending rest) (key : K) : ∃ m, m ≤ rest.length ∧
    ∀ j (hj : j < rest.length), rest[j].1 < key ↔ j < m := by
  induction rest with
  | nil => exact ⟨0, Nat.le_refl 0, fun j hj => absurd hj (Nat.not_lt_zero j)⟩
  | cons c rest ih =>
      obtain ⟨hhead, htail⟩ := List.pairwise_cons.mp h
      obtain ⟨m, hm, hcut⟩ := ih htail
      rcases lt_or_ge c.1 key with hlt | hge
      · refine ⟨m + 1, Nat.succ_le_succ hm, fun j hj => ?_⟩
        cases j with
        | zero => simpa using hlt
        | succ j =>
            rw [List.getElem_cons_succ, hcut j (Nat.lt_of_succ_lt_succ hj), Nat.succ_lt_succ_iff]
      · refine ⟨0, Nat.zero_le _, fun j hj => ⟨fun hlt => ?_, fun h => absurd h (Nat.not_lt_zero j)⟩⟩
        cases j with
        | zero => exact absurd hlt (not_lt.mpr hge)
        | succ j =>
            rw [List.getElem_cons_succ] at hlt
            exact absurd (hlt.trans_le hge) (lt_asymm (hhead _ (List.getElem_mem _)))

/-- `GetChildIndex` finds the last child that is not to the right of the key. -/
theorem getChildIndex_spec {n : InternalNode K α} (h : Ascending n.rest) :
    n.getChildIndex key leChild < n.sortedCount ∧ ∀ j (hj : j < n.rest.length),
      Goes key leChild (n.rest[j].1 : WithBot K) ↔ j < n.getChildIndex key leChild := by
  obtain ⟨m, hm, hcut⟩ := exists_cut h key
  have hrec : ∀ j (hj : j < n.rest.length), n.recordKey (j + 1) = some (TreeKey.bytes n.rest[j].1) := by
    intro j hj
    rw [InternalNode.recordKey, List.getElem?_eq_getElem hj, Option.map_some]
  let cmp := fun i => keyCompare (some (TreeKey.bytes key)) (n.recordKey i)
  have hzero : cmp 0 = 1 := rfl
  have hsucc : ∀ j (hj : j < n.rest.length),
      cmp (j + 1) = keyCompare (some (TreeKey.bytes key)) (some (TreeKey.bytes n.rest[j].1)) :=
    fun j hj => congrArg (keyCompare _) (hrec j hj)
  have hpos : ∀ i, i < n.sortedCount → (0 < cmp i ↔ i < m + 1) := by
    intro i hi
    cases i with
    | zero =>
        rw [hzero]
        exact ⟨fun _ => Nat.succ_pos m, fun _ => Int.one_pos⟩
    | succ j =>
        have hj : j < n.rest.length := Nat.lt_of_succ_lt_succ hi
        rw [hsucc j hj, TreeKey.keyCompare_pos_iff, hcut j hj, Nat.succ_lt_succ_iff]
  have heq : ∀ i, i < n.sortedCount → cmp i = 0 → i = m + 1 := by
    intro i hi hcmp
    cases i with
    | zero => cases hzero.symm.trans hcmp
    | succ j =>
        have hj : j < n.rest.length := Nat.lt_of_succ_lt_succ hi
        have hkey := TreeKey.keyCompare_zero_iff.mp ((hsucc j hj).symm.trans hcmp)
        have hmj : m ≤ j := Nat.le_of_not_lt fun hlt => ne_of_lt ((hcut j hj).mpr hlt) hkey.symm
        rcases hmj.eq_or_lt with rfl | hlt
        · rfl
        · -- an earlier key would be equal or above, though the keys ascend
          have hlt' := (List.pairwise_iff_getElem.mp h) m j (hlt.trans hj) hj hlt
          rw [← hkey] at hlt'
          exact absurd ((hcut m (hlt.trans hj)).mp hlt') (lt_irrefl m)
  have hcount : n.sortedCount = n.rest.length + 1 := rfl
  have hspec := childIndexLoop_spec leChild (n.sortedCount + 2) 0 (n.sortedCount - 1) hpos heq
    (Nat.succ_pos m) (Int.le_refl 0) (by omega) (by omega) (by omega) (fun hlt _ => by omega) (by omega)
  have hindex : n.getChildIndex key leChild =
      if leChild = false ∧ m + 1 < n.sortedCount ∧ cmp (m + 1) = 0 then m + 1 else m := by
    rw [InternalNode.getChildIndex, hspec]
    split <;> omega
  rw [hindex]
  cases leChild with
  | true =>
      refine ⟨by simp; omega, fun j hj => ?_⟩
      rw [if_neg (by simp), Goes, if_pos rfl, WithBot.coe_lt_coe]
      exact hcut j hj
  | false =>
      have hle : ∀ j (hj : j < n.rest.length), Goes key false (n.rest[j].1 : WithBot K) ↔
          j < m ∨ n.rest[j].1 = key := by
        intro j hj
        rw [Goes, if_neg Bool.false_ne_true, WithBot.coe_le_coe, le_iff_lt_or_eq, hcut j hj]
      have hequal : ∀ j (hj : j < n.rest.length), n.rest[j].1 = key ↔ cmp (j + 1) = 0 := by
        intro j hj
        rw [hsucc j hj, TreeKey.keyCompare_zero_iff, eq_comm]
      split
      · rename_i hfound
        obtain ⟨-, hlt, hcmp⟩ := hfound
        refine ⟨hlt, fun j hj => ?_⟩
        rw [hle j hj, Nat.lt_succ_iff_lt_or_eq, hequal j hj]
        refine or_congr_right ⟨fun h => Nat.succ_injective (heq (j + 1) (Nat.succ_lt_succ hj) h), ?_⟩
        rintro rfl
        exact hcmp
      · rename_i hmissing
        refine ⟨by omega, fun j hj => ?_⟩
        rw [hle j hj, hequal j hj]
        refine or_iff_left fun hcmp => hmissing ?_
        have hj' := heq (j + 1) (Nat.succ_lt_succ hj) hcmp
        rw [← hj']
        exact ⟨rfl, Nat.succ_lt_succ hj, hcmp⟩

end Traversal

end HashComp.BzTree
