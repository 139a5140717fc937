import HashComp.BzTree.LeafMerges
import HashComp.BzTree.SplitRouting

namespace HashComp.BzTree

open HashComp.ByteMemory

namespace BaseNode

def children (n : BaseNode) : List Addr :=
  if n.isLeaf then [] else (List.range n.sortedCount).filterMap n.getChildByMetaIndex

def lastBelow (n : BaseNode) (key : List Byte) (beginIdx count : Nat) : Nat :=
  beginIdx + (((List.range' beginIdx count).map n.recordMetadata).takeWhile fun m =>
    keyCompare (n.rawKey m) (some key) ≤ 0).length - 1

def displacedIndex (n : BaseNode) (splitThreshold : Nat) (key : List Byte) : Nat :=
  let nLeft := n.sortedCount / 2
  if 32 + (n.size + key.length + 8 + 8) < splitThreshold then n.lastBelow key 0 n.sortedCount
  else if keyCompare (some key) (n.rawKey (n.recordMetadata nLeft)) < 0 then n.lastBelow key 0 nLeft
  else n.lastBelow key (nLeft + 1) (n.sortedCount - nLeft - 1)

def Split.nodes : Split → List BaseNode
  | .one n => [n]
  | .two left _ right => [left, right]

structure Inner (n : BaseNode) (entries : List Entry) : Prop where
  stores : n.Stores entries
  dummy : (entries.map Entry.key).head? = some []

section Children

variable {n : BaseNode} {E E₀ E₁ M M₁ M₂ X Y : List Entry} {e z : Entry} {key : List Byte} {i : Nat}

theorem Stores.children (h : n.Stores E) : n.children = E.map fun e => e.payload.toNat := by
  have hchild : ∀ i a, (E.map fun e => e.payload.toNat)[i]? = some a → n.getChildByMetaIndex i = some a := by
    intro i a ha
    rw [List.getElem?_map] at ha
    obtain ⟨e, he, rfl⟩ := Option.map_eq_some_iff.mp ha
    obtain ⟨offset, ho⟩ := h.holdsAt he
    exact ho.getChildByMetaIndex
  rw [BaseNode.children, h.inner, if_neg Bool.false_ne_true, h.count]
  conv_lhs => rw [← List.length_map (fun e : Entry => e.payload.toNat)]
  exact filterMap_range hchild

theorem Inner.setPayload (h : n.Inner (X ++ z :: Y)) (child : Word) :
    ∃ n', n.setPayload X.length child = some n' ∧ n'.Inner (X ++ ⟨z.key, child⟩ :: Y) := by
  obtain ⟨hleaf, hsize, hcount, hstacked⟩ := h.stores
  have hfilled : Filled (nodeSize (X ++ z :: Y)) (X ++ z :: Y)
      (n, (X ++ z :: Y).length, nodeSize (X ++ z :: Y) - recordSpace (X ++ z :: Y)) :=
    ⟨hleaf, hsize, by rwa [hsize] at hstacked, rfl⟩
  have hsame : nodeSize (X ++ ⟨z.key, child⟩ :: Y) = nodeSize (X ++ z :: Y) :=
    nodeSize_congr (by simp)
  obtain ⟨n', hset, hn'⟩ := hfilled.setPayload (Nat.le_refl _) child
  rw [← hsame] at hn'
  have hstores := hn'.finish
  obtain ⟨hleaf', hsize', hcount', hstacked'⟩ := hstores
  have hsorted : n'.sortedCount = n.sortedCount := by
    rw [BaseNode.setPayload] at hset
    split at hset
    · cases hset
      rfl
    · cases hset
  refine ⟨n', hset, ⟨hleaf', hsize', ?_, ?_⟩, ?_⟩
  · rw [hsorted, hcount]
    simp
  · exact Stacked.congr hstacked' rfl rfl
  · have hdummy := h.dummy
    simpa using hdummy

end Children

section Splits

variable {n m : BaseNode} {E E₀ E₁ M M₁ M₂ : List Entry} {e s : Entry} {key : List Byte}
  {left right leftMost : Word} {size splitThreshold beginIdx count : Nat} {metas : List RecordMetadata}
  {split : Split}

theorem takeWhile_reads (h : List.Forall₂ (Reads n) metas M) :
    (metas.takeWhile fun m => decide (keyCompare (n.rawKey m) (some key) ≤ 0)).length =
      (M.takeWhile fun e => decide (keyCompare (rawKeyOf e) (some key) ≤ 0)).length := by
  induction h with
  | nil => rfl
  | @cons m e metas M hm hmetas ih =>
      rw [List.takeWhile_cons, List.takeWhile_cons, hm.rawKey_eq]
      split
      · rw [List.length_cons, List.length_cons, ih]
      · rfl

theorem Stores.lastBelow (h : n.Stores (E₀ ++ M ++ E₁)) (key : List Byte) :
    n.lastBelow key E₀.length M.length = E₀.length +
      (M.takeWhile fun e => decide (keyCompare (rawKeyOf e) (some key) ≤ 0)).length - 1 := by
  rw [BaseNode.lastBelow, takeWhile_reads h.reads]

theorem copyInserting_of_ofRecords
    (h : ofRecords size n metas (some key) left right leftMost = some m) :
    ∃ r r', copyInserting n key left right metas r = some r' := by
  obtain ⟨r', hr', -⟩ := Option.map_eq_some_iff.mp h
  obtain ⟨r, -, hr⟩ := Option.bind_eq_some_iff.mp hr'
  exact ⟨r, r', hr⟩

theorem copyInserting_of_newPart
    (h : newPart n beginIdx count (some key) left right leftMost = some m) : key ≠ [] ∧
      ∃ r r', copyInserting n key left right ((List.range' beginIdx count).map n.recordMetadata) r =
        some r' := by
  simp only [newPart] at h
  split at h
  · cases h
  · rename_i hlength
    exact ⟨fun hnil => hlength (List.length_eq_zero_iff.mpr hnil), copyInserting_of_ofRecords h⟩

/-- Entries that begin with the one without a key, up to the place of a separator. -/
theorem exists_last (hdummy : (M.map Entry.key).head? = some [])
    (htake : M₁ = M.takeWhile fun e => decide (keyCompare (rawKeyOf e) (some key) ≤ 0)) :
    ∃ A e, M₁ = A ++ [e] := by
  cases M with
  | nil => cases hdummy
  | cons d M =>
      have hd : d.key = [] := Option.some.inj hdummy
      have hle : keyCompare (rawKeyOf d) (some key) ≤ 0 := by
        rw [rawKeyOf, if_pos hd]
        exact (by decide : (-1 : Int) ≤ 0)
      rw [List.takeWhile_cons, if_pos (decide_eq_true hle)] at htake
      rcases List.eq_nil_or_concat' M₁ with rfl | ⟨A, e, rfl⟩
      · cases htake
      · exact ⟨A, e, rfl⟩

theorem head?_map_congr {A B : List Entry} (h : ((A ++ e :: B).map Entry.key).head? = some [])
    {left : Word} {B' : List Entry} : ((A ++ ⟨e.key, left⟩ :: B').map Entry.key).head? = some [] := by
  cases A with
  | nil => simpa using h
  | cons d A => simpa using h

structure Displaces (n : BaseNode) (splitThreshold : Nat) (key : List Byte) (left right : Word)
    (E : List Entry) (split : Split) (A : List Entry) (e : Entry) (B : List Entry) : Prop where
  parts : E = A ++ e :: B
  place : A.length = n.displacedIndex splitThreshold key
  inner : ∀ m ∈ split.nodes, ∃ E', m.Inner E'
  children : split.nodes.flatMap BaseNode.children =
    (A.map fun e => e.payload.toNat) ++ [left.toNat, right.toNat] ++ B.map fun e => e.payload.toNat

theorem Inner.displaces_one (h : n.Inner E)
    (hT : 32 + (n.size + key.length + 8 + 8) < splitThreshold)
    (hs : n.newWith key left right = some m) :
    ∃ A e B, Displaces n splitThreshold key left right E (.one m) A e B := by
  have hall : n.Stores ([] ++ E ++ []) := by simpa using h.stores
  obtain ⟨r, r', hcopy⟩ := copyInserting_of_ofRecords hs
  rw [h.stores.count, List.range_eq_range'] at hcopy
  obtain ⟨M₁, M₂, rfl, hcut, htake⟩ := cut_of_copyInserting hall.reads hcopy
  obtain ⟨A, e, rfl⟩ := exists_last h.dummy htake
  obtain ⟨m', hm', hstores⟩ : ∃ m', n.newWith key left right = some m' ∧
      m'.Stores (A ++ [⟨e.key, left⟩] ++ [⟨key, right⟩] ++ M₂) := newWith_spec h.stores hcut
  cases hm'.symm.trans hs
  have hdummy := h.dummy
  rw [List.append_assoc, List.singleton_append] at hdummy
  refine ⟨A, e, M₂, by simp, ?_, ?_, ?_⟩
  · have hlast := hall.lastBelow key
    rw [← htake, List.length_nil] at hlast
    rw [displacedIndex, if_pos hT, h.stores.count, hlast, List.length_append, List.length_singleton]
    omega
  · intro m' hm'
    obtain rfl := List.mem_singleton.mp hm'
    refine ⟨_, hstores, ?_⟩
    rw [List.append_assoc, List.append_assoc]
    exact head?_map_congr hdummy
  · rw [Split.nodes, List.flatMap_singleton, hstores.children]
    simp

theorem exists_middle (h : n.Stores E) (hmany : ¬n.sortedCount < 2) :
    ∃ E₀ s E₂, E = E₀ ++ s :: E₂ ∧ E₀.length = n.sortedCount / 2 ∧ E₀ ≠ [] ∧
      n.sortedCount - n.sortedCount / 2 - 1 = E₂.length := by
  have hcount := h.count
  have hlt : n.sortedCount / 2 < E.length := by omega
  refine ⟨E.take (n.sortedCount / 2), E[n.sortedCount / 2], E.drop (n.sortedCount / 2 + 1), ?_,
    List.length_take_of_le hlt.le, ?_, ?_⟩
  · rw [List.getElem_cons_drop, List.take_append_drop]
  · intro hnil
    have hlength := congrArg List.length hnil
    rw [List.length_take_of_le hlt.le, List.length_nil] at hlength
    omega
  · rw [List.length_drop]
    omega

theorem Inner.displaces_left {l r : BaseNode} {sep : List Byte} {E₂ : List Entry}
    (h : n.Inner (E₀ ++ s :: E₂)) (hT : ¬32 + (n.size + key.length + 8 + 8) < splitThreshold)
    (hhalf : E₀.length = n.sortedCount / 2) (hE₀ : E₀ ≠ []) (hchild : s.payload ≠ 0)
    (hcmp : keyCompare (some key) (n.rawKey (n.recordMetadata E₀.length)) < 0)
    (hl : n.newPart 0 E₀.length (some key) left right 0 = some l)
    (hr : n.newPart (E₀.length + 1) E₂.length none 0 0 s.payload = some r) :
    ∃ A e B, Displaces n splitThreshold key left right (E₀ ++ s :: E₂) (.two l sep r) A e B := by
  obtain ⟨hne, r₀, r', hcopy⟩ := copyInserting_of_newPart hl
  have hfirst : n.Stores ([] ++ E₀ ++ (s :: E₂)) := by simpa using h.stores
  have hsecond : n.Stores (E₀ ++ [s] ++ E₂ ++ []) := by simpa using h.stores
  obtain ⟨M₁, M₂, rfl, hcut, htake⟩ := cut_of_copyInserting hfirst.reads hcopy
  have hhead : ((M₁ ++ M₂).map Entry.key).head? = some [] := by
    have hdummy := h.dummy
    rwa [List.map_append, List.head?_append_of_ne_nil _ (by simpa using hE₀)] at hdummy
  obtain ⟨A, e, rfl⟩ := exists_last hhead htake
  obtain ⟨l', hl', hlstores⟩ := newPart_some left right hfirst leadSpace_zero rfl hne hcut
  cases hl'.symm.trans hl
  have hlead : leadSpace n (A ++ [e] ++ M₂ ++ [s]).length =
      8 * (lead s.payload).length + recordSpace (lead s.payload) :=
    leadSpace_of_pos h.stores h.dummy (List.length_pos_of_ne_nil (by simp)) hchild
  obtain ⟨r'', hr'', hrstores⟩ := newPart_none hsecond hlead
  have hlength : (A ++ [e] ++ M₂ ++ [s]).length = (A ++ [e] ++ M₂).length + 1 := List.length_append
  rw [hlength] at hr''
  cases hr''.symm.trans hr
  rw [lead_of_ne hchild] at hrstores
  refine ⟨A, e, M₂ ++ s :: E₂, by simp, ?_, ?_, ?_⟩
  · have hlast := hfirst.lastBelow key
    rw [← htake, List.length_nil] at hlast
    rw [displacedIndex, if_neg hT, ← hhalf, if_pos hcmp, hlast, List.length_append,
      List.length_singleton]
    omega
  · intro m hm
    rcases List.mem_cons.mp hm with rfl | hm
    · refine ⟨_, hlstores, ?_⟩
      rw [List.append_assoc, List.append_assoc]
      rw [List.append_assoc] at hhead
      exact head?_map_congr hhead
    · obtain rfl := List.mem_singleton.mp hm
      exact ⟨_, hrstores, rfl⟩
  · simp only [Split.nodes, List.flatMap_cons, List.flatMap_nil, hlstores.children,
      hrstores.children]
    simp

theorem Inner.displaces_right {l r : BaseNode} {sep : List Byte} {E₂ : List Entry}
    (h : n.Inner (E₀ ++ s :: E₂)) (hT : ¬32 + (n.size + key.length + 8 + 8) < splitThreshold)
    (hhalf : E₀.length = n.sortedCount / 2) (hrest : n.sortedCount - n.sortedCount / 2 - 1 = E₂.length)
    (hE₀ : E₀ ≠ []) (hchild : s.payload ≠ 0)
    (hcmp : ¬keyCompare (some key) (n.rawKey (n.recordMetadata E₀.length)) < 0)
    (hl : n.newPart 0 E₀.length none 0 0 0 = some l)
    (hr : n.newPart (E₀.length + 1) E₂.length (some key) left right s.payload = some r) :
    ∃ A e B, Displaces n splitThreshold key left right (E₀ ++ s :: E₂) (.two l sep r) A e B := by
  obtain ⟨hne, r₀, r', hcopy⟩ := copyInserting_of_newPart hr
  have hfirst : n.Stores ([] ++ E₀ ++ (s :: E₂)) := by simpa using h.stores
  have hsecond : n.Stores (E₀ ++ [s] ++ E₂ ++ []) := by simpa using h.stores
  have hlength : (E₀ ++ [s]).length = E₀.length + 1 := List.length_append
  have hreads := hsecond.reads
  rw [hlength] at hreads
  obtain ⟨M₁, M₂, rfl, hcut, htake⟩ := cut_of_copyInserting hreads hcopy
  obtain ⟨l', hl', hlstores⟩ := newPart_none hfirst leadSpace_zero
  cases hl'.symm.trans hl
  rw [lead_zero, List.nil_append] at hlstores
  have hlead : leadSpace n (E₀ ++ [s]).length =
      8 * (lead s.payload).length + recordSpace (lead s.payload) :=
    leadSpace_of_pos h.stores h.dummy (by simp) hchild
  have hlast := hsecond.lastBelow key
  rw [← htake, hlength] at hlast
  have hdummy : (E₀.map Entry.key).head? = some [] := by
    have hdummy := h.dummy
    rwa [List.map_append, List.head?_append_of_ne_nil _ (by simpa using hE₀)] at hdummy
  -- the child that gives way is that of the middle record, or comes after it
  obtain ⟨X, z, hX⟩ : ∃ X z, lead s.payload ++ M₁ = X ++ [z] := by
    rcases List.eq_nil_or_concat' (lead s.payload ++ M₁) with hnil | hconcat
    · rw [lead_of_ne hchild] at hnil
      cases hnil
    · exact hconcat
  obtain ⟨A, e, hA, hAX⟩ : ∃ A e, s :: M₁ = A ++ [e] ∧
      (A ++ [e]).map (·.payload) = (X ++ [z]).map (·.payload) := by
    rcases List.eq_nil_or_concat' (s :: M₁) with hnil | ⟨A, e, hA⟩
    · cases hnil
    · refine ⟨A, e, hA, ?_⟩
      rw [← hA, ← hX, lead_of_ne hchild]
      rfl
  rw [List.map_append, List.map_append] at hAX
  have hpayloads := (List.append_inj' hAX rfl).1
  obtain ⟨r'', hr'', hrstores⟩ := newPart_some left right hsecond hlead hX hne hcut
  rw [hlength] at hr''
  cases hr''.symm.trans hr
  have hlengths := congrArg List.length hA
  rw [List.length_cons, List.length_append, List.length_singleton] at hlengths
  refine ⟨E₀ ++ A, e, M₂, ?_, ?_, ?_, ?_⟩
  · rw [← List.cons_append, hA]
    simp
  · rw [displacedIndex, if_neg hT, ← hhalf, if_neg hcmp]
    rw [← hhalf] at hrest
    rw [hrest, hlast, List.length_append]
    omega
  · intro m hm
    rcases List.mem_cons.mp hm with rfl | hm
    · exact ⟨_, hlstores, hdummy⟩
    · obtain rfl := List.mem_singleton.mp hm
      refine ⟨_, hrstores, ?_⟩
      have hfirst : ((X ++ z :: M₂).map Entry.key).head? = some [] := by
        have heq : X ++ z :: M₂ = lead s.payload ++ M₁ ++ M₂ := by rw [hX]; simp
        rw [heq, lead_of_ne hchild]
        rfl
      rw [List.append_assoc, List.append_assoc]
      exact head?_map_congr hfirst
  · have haddr : (X.map fun e => e.payload.toNat) = A.map fun e => e.payload.toNat := by
      have hmap := congrArg (List.map BitVec.toNat) hpayloads
      simpa [List.map_map, Function.comp_def] using hmap.symm
    simp only [Split.nodes, List.flatMap_cons, List.flatMap_nil, hlstores.children,
      hrstores.children]
    simp [haddr]

theorem Inner.prepareForSplit (h : n.Inner E) (hne : ∀ e ∈ E, e.payload ≠ 0)
    (hs : n.prepareForSplit splitThreshold key left right = some split) :
    ∃ A e B, Displaces n splitThreshold key left right E split A e B := by
  rw [BaseNode.prepareForSplit] at hs
  split at hs
  · rename_i hT
    obtain ⟨m, hm, rfl⟩ := Option.map_eq_some_iff.mp hs
    exact h.displaces_one hT hm
  · rename_i hT
    split at hs
    · cases hs
    · rename_i hmany
      obtain ⟨E₀, s, E₂, rfl, hhalf, hE₀, hrest⟩ := exists_middle h.stores hmany
      obtain ⟨offset, ho⟩ : ∃ offset, n.HoldsAt E₀.length offset s := h.stores.holdsAt (by simp)
      have hchild := hne s (by simp)
      have hmeta := ho.metadata
      rw [RecordMetadata.finalizeForInsert] at hmeta
      simp only [hrest] at hs
      simp only [← hhalf] at hs
      have hraw : n.rawKey (n.recordMetadata E₀.length) = rawKeyOf s := ho.rawKey
      rw [hmeta] at hs
      dsimp only at hs
      rw [← hmeta, ho.payload, hraw] at hs
      have hcmp : keyCompare (some key) (rawKeyOf s) = 0 → (key.length : Int) - s.key.length = 0 := by
        intro hzero
        rw [rawKeyOf] at hzero
        split at hzero
        · cases hzero
        · rw [keyCompare_eq_zero_iff.mp hzero, Int.sub_self]
      by_cases hzero : keyCompare (some key) (rawKeyOf s) = 0
      · rw [if_pos hzero, if_pos (hcmp hzero)] at hs
        cases hs
      · rw [if_neg hzero, if_neg hzero] at hs
        split at hs
        · rename_i hneg
          obtain ⟨l, hl, hs⟩ := Option.bind_eq_some_iff.mp hs
          obtain ⟨r, hr, rfl⟩ := Option.map_eq_some_iff.mp hs
          exact h.displaces_left hT hhalf hE₀ hchild (by rwa [hraw]) hl hr
        · rename_i hpos
          obtain ⟨l, hl, hs⟩ := Option.bind_eq_some_iff.mp hs
          obtain ⟨r, hr, rfl⟩ := Option.map_eq_some_iff.mp hs
          exact h.displaces_right hT hhalf hrest hE₀ hchild (by rwa [hraw]) hl hr

end Splits

end BaseNode

end HashComp.BzTree
