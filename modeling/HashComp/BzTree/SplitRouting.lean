import HashComp.BzTree.InnerSplits
import HashComp.BzTree.Siblings

namespace HashComp.BzTree

open HashComp.ByteMemory
open HashComp.Thresholds

namespace BaseNode

section New

variable {src : BaseNode} {A B E₀ E₁ M M₁ M₂ X : List Entry} {e z : Entry} {key : List Byte}
  {left right leftMost : Word}

@[simp] theorem lead_zero : lead 0 = [] := rfl

theorem lead_of_ne (h : leftMost ≠ 0) : lead leftMost = [⟨[], leftMost⟩] :=
  if_pos h

theorem newWith_spec (h : src.Stores (A ++ [e] ++ B)) (hcut : Cut key (A ++ [e]) B) :
    ∃ n, newWith src key left right = some n ∧
      n.Stores (A ++ [⟨e.key, left⟩] ++ [⟨key, right⟩] ++ B) := by
  have hreads : List.Forall₂ (Reads src)
      ((List.range src.sortedCount).map src.recordMetadata) (A ++ [e] ++ B) := by
    have h' : src.Stores ([] ++ (A ++ [e] ++ B) ++ []) := by simpa using h
    rw [h.count, List.range_eq_range']
    exact h'.reads
  refine ofRecords_some hreads rfl hcut ?_
  have htotal : (Entry.mk key right).totalLength = padKeyLength key.length + 8 := rfl
  rw [h.size]
  simp only [nodeSize, List.length_append, List.length_singleton, recordSpace_append,
    recordSpace_cons, recordSpace_nil, htotal]
  omega

def leadSpace (src : BaseNode) (beginIdx : Nat) : Nat :=
  if 0 < beginIdx then (src.recordMetadata 0).totalLength + 8 else 0

theorem newPart_some (left right : Word) (h : src.Stores (E₀ ++ (M₁ ++ M₂) ++ E₁))
    (hlead : leadSpace src E₀.length = 8 * (lead leftMost).length + recordSpace (lead leftMost))
    (hX : lead leftMost ++ M₁ = X ++ [z]) (hne : key ≠ []) (hcut : Cut key M₁ M₂) :
    ∃ n, newPart src E₀.length (M₁ ++ M₂).length (some key) left right leftMost = some n ∧
      n.Stores (X ++ [⟨z.key, left⟩] ++ [⟨key, right⟩] ++ M₂) := by
  have hlen : key.length ≠ 0 := fun hzero => hne (List.length_eq_zero_iff.mp hzero)
  have htotal : (Entry.mk key right).totalLength = padKeyLength key.length + 8 := rfl
  rw [leadSpace] at hlead
  simp only [newPart, hlen, if_false, hlead, sum_totalLength h.reads]
  refine ofRecords_some h.reads hX hcut ?_
  rw [← hX]
  simp only [nodeSize, List.length_append, List.length_singleton, recordSpace_append,
    recordSpace_cons, recordSpace_nil, htotal]
  omega

theorem newPart_none (h : src.Stores (E₀ ++ M ++ E₁))
    (hlead : leadSpace src E₀.length = 8 * (lead leftMost).length + recordSpace (lead leftMost)) :
    ∃ n, newPart src E₀.length M.length none 0 0 leftMost = some n ∧
      n.Stores (lead leftMost ++ M) := by
  rw [leadSpace] at hlead
  simp only [newPart, hlead, sum_totalLength h.reads]
  refine ofRecords_none h.reads ?_
  simp only [nodeSize, List.length_append, recordSpace_append]
  omega

theorem leadSpace_zero : leadSpace src 0 = 8 * (lead 0).length + recordSpace (lead 0) := rfl

theorem leadSpace_of_pos {entries : List Entry} (h : src.Stores entries)
    (hdummy : (entries.map Entry.key).head? = some []) (hpos : 0 < E₀.length)
    (hne : leftMost ≠ 0) :
    leadSpace src E₀.length = 8 * (lead leftMost).length + recordSpace (lead leftMost) := by
  cases entries with
  | nil => cases hdummy
  | cons d rest =>
      obtain ⟨offset, ho⟩ := h.holdsAt (i := 0) rfl
      have hd : d.key = [] := Option.some.inj hdummy
      rw [leadSpace, if_pos hpos, ho.totalLength, lead_of_ne hne, totalLength_of_nil hd,
        recordSpace_cons, totalLength_of_nil rfl]
      rfl

theorem newRoot_spec (key : List Byte) (left right : Word) :
    ∃ n, newRoot key left right = some n ∧ n.Stores [⟨[], left⟩, ⟨key, right⟩] := by
  have hrow : Carries (some (childRow [] 8 left)) ⟨[], left⟩ := carries_childRow
  have hsize : 32 + padKeyLength key.length + 8 + 8 + 2 * 8 =
      nodeSize [⟨[], left⟩, ⟨key, right⟩] := by
    have hzero : (Entry.mk [] left).totalLength = 8 := totalLength_of_nil rfl
    have htotal : (Entry.mk key right).totalLength = padKeyLength key.length + 8 := rfl
    simp only [nodeSize, List.length_cons, List.length_nil, recordSpace_cons, recordSpace_nil, hzero,
      htotal]
    omega
  rw [newRoot, hsize]
  exact copyChildren_spec (.cons hrow (.cons carries_separatorRow .nil))

end New

/-- The list in which the child of the entry `e` is replaced by two, with a separator. -/
def withSplit (A : List Entry) (e : Entry) (B : List Entry) (key : List Byte)
    (left right : Word) : List Entry :=
  A ++ [⟨e.key, left⟩] ++ [⟨key, right⟩] ++ B

/-- A node with two separators or more, and a new one for the child of the entry `e`. -/
structure Replaces (S : Set (List Byte)) (n : BaseNode) (A : List Entry) (e : Entry)
    (B : List Entry) (key : List Byte) : Prop where
  wellFormed : n.WellFormed S (A ++ [e] ++ B)
  many : 3 ≤ (A ++ [e] ++ B).length
  children : ∀ x ∈ A ++ [e] ++ B, x.payload ≠ 0
  mem : key ∈ S
  nonempty : key ≠ []
  after : e.key = [] ∨ Before e.key key
  before : ∀ b ∈ B.head?, Before key b.key
  fits : nodeSize (withSplit A e B key 0 0) ≤ 2 ^ 27

/-- Nodes in order and full, through which each key of `S` gets to its child in the list. -/
def Split.Holds (S : Set (List Byte)) (entries : List Entry) : Split → Prop
  | .one n => n.WellFormed S entries ∧ ∀ key ∈ S, n.childFor key = route key entries
  | .two left separator right =>
      (∃ L d R, left.WellFormed S L ∧ right.WellFormed S (d :: R) ∧
        entries = L ++ ⟨separator, d.payload⟩ :: R) ∧
      ∀ a b, ∃ root, newRoot separator a b = some root ∧
        root.WellFormed S [⟨[], a⟩, ⟨separator, b⟩] ∧
          ∀ key ∈ S, reach childFor (siblingsAt 0 left right) root key = .inr (route key entries)

/-- Splits of nodes with keys of `S` keep the way of each key of `S`. -/
def SplitPreserves (S : Set (List Byte)) : Prop :=
  ∀ n A e B key left right splitThreshold, Replaces S n A e B key →
    ∃ split, n.prepareForSplit splitThreshold key left right = some split ∧
      split.Holds S (withSplit A e B key left right)

section Routes

variable {S : Set (List Byte)} {n l r : BaseNode} {A B L R entries : List Entry} {d e : Entry}
  {key k : List Byte} {left right : Word}

theorem Replaces.below (h : Replaces S n A e B key) (hord : OrdersKeys S)
    (hS : ∀ k ∈ S, k.length < 2 ^ 31) : ∀ x ∈ A ++ [e], x.key = [] ∨ Before x.key key := by
  intro x hx
  have ht := h.wellFormed.threshold hord hS h.mem
  have he : HashComp.BzTree.below key e.key = true := by
    rcases h.after with hnil | hbefore
    · rw [hnil, below_nil]
    · by_cases hnil : e.key = []
      · rw [hnil, below_nil]
      · exact (below_iff hnil).mpr hbefore
  have hbelow : HashComp.BzTree.below key x.key = true := by
    rcases List.mem_append.mp hx with hA | hself
    · exact (List.pairwise_append.mp (List.pairwise_append.mp ht).1).2.2 x hA e
        List.mem_cons_self he
    · rwa [List.mem_singleton.mp hself]
  by_cases hnil : x.key = []
  · exact Or.inl hnil
  · exact Or.inr ((below_iff hnil).mp hbelow)

theorem Replaces.tail (h : Replaces S n A e B key) :
    ((A ++ [e] ++ B).map Entry.key).tail = ((A ++ [e]).map Entry.key).tail ++ B.map Entry.key := by
  cases A <;> simp

theorem Replaces.above (h : Replaces S n A e B key) (hord : OrdersKeys S)
    (hS : ∀ k ∈ S, k.length < 2 ^ 31) : ∀ x ∈ B, x.key ≠ [] ∧ Before key x.key := by
  have hsep := h.wellFormed.separated
  have hmembers : ∀ x ∈ B, x.key ∈ S ∧ x.key ≠ [] := by
    intro x hx
    refine hsep.members x.key ?_
    rw [h.tail]
    exact List.mem_append_right _ (List.mem_map_of_mem hx)
  have hasc := hsep.ascending
  rw [h.tail] at hasc
  have hB := List.pairwise_map.mp (List.pairwise_append.mp hasc).2.1
  intro x hx
  refine ⟨(hmembers x hx).2, ?_⟩
  cases B with
  | nil => cases hx
  | cons b B =>
      have hb : Before key b.key := h.before b rfl
      rcases List.mem_cons.mp hx with rfl | hx
      · exact hb
      · exact hord.before_trans hS h.mem (hmembers b List.mem_cons_self).1
          (hmembers x (List.mem_cons_of_mem _ hx)).1 hb ((List.pairwise_cons.mp hB).1 x hx)

theorem Replaces.separated (h : Replaces S n A e B key) (hord : OrdersKeys S)
    (hS : ∀ k ∈ S, k.length < 2 ^ 31) :
    Separated S ((withSplit A e B key left right).map Entry.key) := by
  have hkeys : (withSplit A e B key left right).map Entry.key =
      (A ++ [e]).map Entry.key ++ key :: B.map Entry.key := by simp [withSplit]
  have hsep := h.wellFormed.separated
  have hold := hsep.ascending
  have hmembers := hsep.members
  rw [h.tail] at hold hmembers
  have hA : Separated S ((A ++ [e]).map Entry.key) := by
    refine hsep.of_sublist ((List.sublist_append_left _ _).map _) ?_
    have hdummy := hsep.dummy
    cases A <;> exact hdummy
  have hB : Separated S ([] :: B.map Entry.key) :=
    ⟨rfl, fun k hk => hmembers k (List.mem_append_right _ hk), (List.pairwise_append.mp hold).2.1⟩
  rw [hkeys]
  refine hA.merge hB h.mem h.nonempty (fun a ha => ?_) (fun a ha => ?_) hord hS
  · have hne := (hA.members a ha).2
    obtain ⟨x, hx, rfl⟩ := List.mem_map.mp (List.mem_of_mem_tail ha)
    exact (h.below hord hS x hx).resolve_left hne
  · obtain ⟨x, hx, rfl⟩ := List.mem_map.mp ha
    exact (h.above hord hS x hx).2

theorem holds_one (hsep : Separated S (entries.map Entry.key)) (hn : n.Stores entries)
    (hsmall : nodeSize entries ≤ 2 ^ 27) (hord : OrdersKeys S) (hS : ∀ k ∈ S, k.length < 2 ^ 31) :
    (Split.one n).Holds S entries := by
  have hwf : n.WellFormed S entries := ⟨hn, hsep, by rwa [hn.size]⟩
  exact ⟨hwf, fun key hkey => hwf.childFor (hwf.threshold hord hS hkey)⟩

theorem reach_root {root : BaseNode} {a b : Word} (h : root.WellFormed S [⟨[], a⟩, ⟨k, b⟩])
    (hord : OrdersKeys S) (hS : ∀ k ∈ S, k.length < 2 ^ 31) (hkey : key ∈ S) :
    reach childFor (siblingsAt 0 l r) root key =
      .inr (if HashComp.BzTree.below key k then r.childFor key else l.childFor key) := by
  rw [reach, h.getChildIndex (h.threshold hord hS hkey)]
  set q : Entry → Bool := fun e => HashComp.BzTree.below key e.key
  have hq : q ⟨k, b⟩ = HashComp.BzTree.below key k := rfl
  rw [← hq]
  cases hk : q ⟨k, b⟩ with
  | true =>
      rw [List.countP_cons_of_pos (by rfl), List.countP_cons_of_pos hk, List.countP_nil,
        if_pos rfl]
      rfl
  | false =>
      rw [List.countP_cons_of_pos (by rfl), List.countP_cons_of_neg (by simp [hk]), List.countP_nil,
        if_neg Bool.false_ne_true]
      rfl

theorem holds_two (hsep : Separated S (entries.map Entry.key))
    (hentries : entries = L ++ ⟨k, d.payload⟩ :: R) (hL : l.Stores L) (hne : L ≠ [])
    (hR : r.Stores (d :: R)) (hd : d.key = []) (hsmall : nodeSize entries ≤ 2 ^ 27)
    (hord : OrdersKeys S) (hS : ∀ k ∈ S, k.length < 2 ^ 31) :
    (Split.two l k r).Holds S entries := by
  have ht : ∀ key ∈ S, Threshold (fun e => HashComp.BzTree.below key e.key) entries :=
    fun key hkey => List.pairwise_map.mp (hsep.threshold hord hS hkey)
  subst hentries
  obtain ⟨e, L, rfl⟩ := List.exists_cons_of_ne_nil hne
  have hmap : ((e :: L ++ ⟨k, d.payload⟩ :: R).map Entry.key) =
      (e :: L).map Entry.key ++ k :: R.map Entry.key := by simp
  have hmembers := hsep.members
  have hasc := hsep.ascending
  rw [hmap, List.map_cons, List.cons_append, List.tail_cons] at hmembers hasc
  obtain ⟨hkS, hkne⟩ := hmembers k (by simp)
  have hsizes : nodeSize (e :: L) ≤ 2 ^ 27 ∧ nodeSize (d :: R) ≤ 2 ^ 27 ∧
      nodeSize [⟨[], 0⟩, ⟨k, 0⟩] ≤ 2 ^ 27 := by
    have hzero := totalLength_of_nil hd
    have hzero' : (Entry.mk [] 0).totalLength = 8 := totalLength_of_nil rfl
    have hk : (Entry.mk k d.payload).totalLength = (Entry.mk k 0).totalLength := rfl
    have hmin : 8 ≤ e.totalLength ∧ 8 ≤ (Entry.mk k 0).totalLength :=
      ⟨Nat.le_add_left _ _, Nat.le_add_left _ _⟩
    simp only [nodeSize, List.length_append, List.length_cons, List.length_nil,
      recordSpace_append, recordSpace_cons, recordSpace_nil, hzero, hzero', hk] at hsmall ⊢
    omega
  have hl : l.WellFormed S (e :: L) := by
    refine ⟨hL, hsep.of_sublist ((List.sublist_append_left _ _).map _) ?_, ?_⟩
    · exact hsep.dummy
    · rw [hL.size]
      exact hsizes.1
  have hr : r.WellFormed S (d :: R) := by
    refine ⟨hR, ⟨congrArg some hd, fun a ha => hmembers a ?_, ?_⟩, ?_⟩
    · exact List.mem_append_right _ (List.mem_cons_of_mem _ ha)
    · exact (List.pairwise_cons.mp (List.pairwise_append.mp hasc).2.1).2
    · rw [hR.size]
      exact hsizes.2.1
  refine ⟨⟨_, d, R, hl, hr, rfl⟩, fun a b => ?_⟩
  obtain ⟨root, hroot, hstores⟩ := newRoot_spec k a b
  have hwf : root.WellFormed S [⟨[], a⟩, ⟨k, b⟩] := by
    refine ⟨hstores, ⟨rfl, fun x hx => ?_, List.pairwise_singleton _ _⟩, ?_⟩
    · rw [List.mem_singleton.mp hx]
      exact ⟨hkS, hkne⟩
    · rw [hstores.size]
      exact hsizes.2.2
  refine ⟨root, hroot, hwf, fun key hkey => ?_⟩
  rw [reach_root hwf hord hS hkey, route_append (ht key hkey) hne hd,
    hl.childFor (hl.threshold hord hS hkey), hr.childFor (hr.threshold hord hS hkey)]

end Routes

section Halves

variable {S : Set (List Byte)} {n : BaseNode} {A B E₀ E₂ : List Entry} {e s : Entry}
  {key : List Byte} {left right : Word} {splitThreshold offset : Nat}

theorem prepareForSplit_left (hT : ¬32 + (n.size + key.length + 8 + 8) < splitThreshold)
    (hcount : n.sortedCount = E₀.length + 1 + E₂.length) (hhalf : n.sortedCount / 2 = E₀.length)
    (hmany : ¬n.sortedCount < 2) (hs : n.HoldsAt E₀.length offset s) (hne : s.key ≠ [])
    (hbefore : Before key s.key) : n.prepareForSplit splitThreshold key left right =
      (n.newPart 0 E₀.length (some key) left right 0).bind fun l =>
        (n.newPart (E₀.length + 1) E₂.length none 0 0 s.payload).map fun r => .two l s.key r := by
  have hrest : n.sortedCount - E₀.length - 1 = E₂.length := by omega
  have hraw := hs.rawKey
  rw [if_neg hne] at hraw
  have hcmp := keyCompare_neg_iff.mpr hbefore
  have hzero : keyCompare (some key) (some s.key) ≠ 0 := by omega
  simp only [prepareForSplit, hT, if_false, hmany, hhalf, hrest, hraw, hzero, hcmp, if_true,
    Option.getD_some]
  rw [hs.metadata]
  simp only [RecordMetadata.finalizeForInsert, hs.payload]

theorem prepareForSplit_right (hT : ¬32 + (n.size + key.length + 8 + 8) < splitThreshold)
    (hcount : n.sortedCount = E₀.length + 1 + E₂.length) (hhalf : n.sortedCount / 2 = E₀.length)
    (hmany : ¬n.sortedCount < 2) (hs : n.HoldsAt E₀.length offset s) (hne : s.key ≠ [])
    (hbefore : Before s.key key) : n.prepareForSplit splitThreshold key left right =
      (n.newPart 0 E₀.length none 0 0 0).bind fun l =>
        (n.newPart (E₀.length + 1) E₂.length (some key) left right s.payload).map fun r =>
          .two l s.key r := by
  have hrest : n.sortedCount - E₀.length - 1 = E₂.length := by omega
  have hraw := hs.rawKey
  rw [if_neg hne] at hraw
  have hcmp := keyCompare_pos_iff.mpr hbefore
  have hzero : keyCompare (some key) (some s.key) ≠ 0 := by omega
  have hneg : ¬keyCompare (some key) (some s.key) < 0 := by omega
  simp only [prepareForSplit, hT, if_false, hmany, hhalf, hrest, hraw, hzero, hneg,
    Option.getD_some]
  rw [hs.metadata]
  simp only [RecordMetadata.finalizeForInsert, hs.payload]

theorem Replaces.goes_left (h : Replaces S n A e B key) (hord : OrdersKeys S)
    (hS : ∀ k ∈ S, k.length < 2 ^ 31) (hE : A ++ [e] ++ B = E₀ ++ s :: E₂) (hne : s.key ≠ [])
    (hbefore : Before key s.key) : ∃ B₁, E₀ = A ++ [e] ++ B₁ ∧ B = B₁ ++ s :: E₂ := by
  rcases List.append_eq_append_iff.mp hE with hleft | ⟨M, hA, hB⟩
  · exact hleft
  · cases M with
    | nil => exact ⟨[], by rw [hA]; simp, hB.symm⟩
    | cons x M =>
        obtain ⟨rfl, -⟩ := List.cons.inj hB
        have hs : s ∈ A ++ [e] := by
          rw [hA]
          simp
        exact absurd hbefore ((h.below hord hS s hs).resolve_left hne).asymm

theorem Replaces.goes_right (h : Replaces S n A e B key) (hord : OrdersKeys S)
    (hS : ∀ k ∈ S, k.length < 2 ^ 31) (hE : A ++ [e] ++ B = E₀ ++ s :: E₂)
    (hbefore : Before s.key key) : ∃ M, A ++ [e] = E₀ ++ s :: M ∧ E₂ = M ++ B := by
  have hnot : s ∉ B := fun hs => (h.above hord hS s hs).2.asymm hbefore
  rcases List.append_eq_append_iff.mp hE with ⟨B₁, -, hB⟩ | ⟨M, hA, hB⟩
  · exact absurd (by rw [hB]; simp) hnot
  · cases M with
    | nil => exact absurd (by rw [← List.nil_append B, ← hB]; simp) hnot
    | cons x M =>
        obtain ⟨rfl, hE₂⟩ := List.cons.inj hB
        exact ⟨M, hA, hE₂⟩

theorem Replaces.small (h : Replaces S n A e B key) :
    nodeSize (withSplit A e B key left right) ≤ 2 ^ 27 := by
  have hsame : nodeSize (withSplit A e B key left right) = nodeSize (withSplit A e B key 0 0) :=
    nodeSize_congr (by simp [withSplit])
  rw [hsame]
  exact h.fits

theorem Replaces.leadSpace (h : Replaces S n A e B key) (hchild : s.payload ≠ 0) :
    BaseNode.leadSpace n (E₀ ++ [s]).length =
      8 * (lead s.payload).length + recordSpace (lead s.payload) :=
  leadSpace_of_pos h.wellFormed.stores h.wellFormed.separated.dummy (by simp) hchild

theorem Replaces.left_halves {B₁ : List Entry} (h : Replaces S n A e (B₁ ++ s :: E₂) key)
    (hord : OrdersKeys S) (hS : ∀ k ∈ S, k.length < 2 ^ 31) (hchild : s.payload ≠ 0) :
    ∃ l r, n.newPart 0 (A ++ [e] ++ B₁).length (some key) left right 0 = some l ∧
      n.newPart ((A ++ [e] ++ B₁).length + 1) E₂.length none 0 0 s.payload = some r ∧
        (Split.two l s.key r).Holds S (withSplit A e (B₁ ++ s :: E₂) key left right) := by
  have hfirst : n.Stores ([] ++ (A ++ [e] ++ B₁) ++ (s :: E₂)) := by
    simpa using h.wellFormed.stores
  have hsecond : n.Stores (A ++ [e] ++ B₁ ++ [s] ++ E₂ ++ []) := by
    simpa using h.wellFormed.stores
  have habove : ∀ x ∈ B₁, x.key ≠ [] ∧ Before key x.key := fun x hx =>
    h.above hord hS x (List.mem_append_left _ hx)
  obtain ⟨l, hl, hlstores⟩ := newPart_some left right hfirst leadSpace_zero rfl
    h.nonempty (cut_of_before (h.below hord hS) habove)
  obtain ⟨r, hr, hrstores⟩ := newPart_none hsecond (h.leadSpace hchild)
  rw [lead_of_ne hchild] at hrstores
  have hlength : (A ++ [e] ++ B₁ ++ [s]).length = (A ++ [e] ++ B₁).length + 1 :=
    List.length_append
  have hparts : withSplit A e (B₁ ++ s :: E₂) key left right =
      (A ++ [⟨e.key, left⟩] ++ [⟨key, right⟩] ++ B₁) ++ ⟨s.key, s.payload⟩ :: E₂ := by
    simp [withSplit]
  rw [hlength] at hr
  exact ⟨l, r, hl, hr, holds_two (d := ⟨[], s.payload⟩) (h.separated hord hS) hparts hlstores
    (by simp) hrstores rfl h.small hord hS⟩

/-- The halves with the new separator on the right, where the promoted one may be that of
the child that was split. -/
theorem Replaces.right_halves {M : List Entry} (h : Replaces S n A e B key)
    (hord : OrdersKeys S) (hS : ∀ k ∈ S, k.length < 2 ^ 31) (hA : A ++ [e] = E₀ ++ s :: M)
    (hE₀ : E₀ ≠ []) (hchild : s.payload ≠ 0) :
    ∃ l r, n.newPart 0 E₀.length none 0 0 0 = some l ∧
      n.newPart (E₀.length + 1) (M ++ B).length (some key) left right s.payload = some r ∧
        (Split.two l s.key r).Holds S (withSplit A e B key left right) := by
  have hstores := h.wellFormed.stores
  rw [hA] at hstores
  have hfirst : n.Stores ([] ++ E₀ ++ (s :: M ++ B)) := by simpa using hstores
  have hsecond : n.Stores (E₀ ++ [s] ++ (M ++ B) ++ []) := by simpa using hstores
  have hbelow : ∀ x ∈ M, x.key = [] ∨ Before x.key key := fun x hx =>
    h.below hord hS x (by rw [hA]; simp [hx])
  obtain ⟨l, hl, hlstores⟩ := newPart_none hfirst leadSpace_zero
  have hlength : (E₀ ++ [s]).length = E₀.length + 1 := by simp
  rw [lead_zero, List.nil_append] at hlstores
  rcases List.eq_nil_or_concat' M with rfl | ⟨M, x, rfl⟩
  · obtain ⟨rfl, hself⟩ := List.append_inj' hA rfl
    obtain rfl := List.singleton_inj.mp hself
    have hX : lead e.payload ++ [] = [] ++ [⟨[], e.payload⟩] := by rw [lead_of_ne hchild]; rfl
    obtain ⟨r, hr, hrstores⟩ := newPart_some left right hsecond
      (h.leadSpace hchild) hX h.nonempty (cut_of_before hbelow (h.above hord hS))
    rw [hlength] at hr
    have hparts : withSplit A e B key left right = A ++ ⟨e.key, left⟩ :: (⟨key, right⟩ :: B) := by
      simp [withSplit]
    exact ⟨l, r, hl, hr, holds_two (d := ⟨[], left⟩) (h.separated hord hS) hparts hlstores hE₀
      hrstores rfl h.small hord hS⟩
  · have hA' : A ++ [e] = E₀ ++ s :: M ++ [x] := by rw [hA]; simp
    obtain ⟨rfl, hself⟩ := List.append_inj' hA' rfl
    obtain rfl := List.singleton_inj.mp hself
    have hX : lead s.payload ++ (M ++ [e]) = ⟨[], s.payload⟩ :: M ++ [e] := by
      rw [lead_of_ne hchild]
      rfl
    obtain ⟨r, hr, hrstores⟩ := newPart_some left right hsecond
      (h.leadSpace hchild) hX h.nonempty (cut_of_before hbelow (h.above hord hS))
    rw [hlength] at hr
    have hparts : withSplit (E₀ ++ s :: M) e B key left right =
        E₀ ++ ⟨s.key, s.payload⟩ :: (M ++ [⟨e.key, left⟩] ++ [⟨key, right⟩] ++ B) := by
      simp [withSplit]
    exact ⟨l, r, hl, hr, holds_two (d := ⟨[], s.payload⟩) (h.separated hord hS) hparts hlstores hE₀
      hrstores rfl h.small hord hS⟩

theorem Replaces.preserves (h : Replaces S n A e B key) (hord : OrdersKeys S)
    (hS : ∀ k ∈ S, k.length < 2 ^ 31) (left right : Word) (splitThreshold : Nat) :
    ∃ split, n.prepareForSplit splitThreshold key left right = some split ∧
      split.Holds S (withSplit A e B key left right) := by
  have hstores := h.wellFormed.stores
  by_cases hT : 32 + (n.size + key.length + 8 + 8) < splitThreshold
  · obtain ⟨n', hn', hnew⟩ := newWith_spec hstores (cut_of_before (h.below hord hS) (h.above hord hS))
    exact ⟨.one n', by rw [prepareForSplit, if_pos hT, hn', Option.map_some],
      holds_one (h.separated hord hS) hnew h.small hord hS⟩
  have hmany := h.many
  have hcount := hstores.count
  obtain ⟨E₀, s, E₂, hE, hhalf⟩ : ∃ E₀ s E₂, A ++ [e] ++ B = E₀ ++ s :: E₂ ∧
      E₀.length = n.sortedCount / 2 := by
    have hlt : n.sortedCount / 2 < (A ++ [e] ++ B).length := by omega
    refine ⟨(A ++ [e] ++ B).take (n.sortedCount / 2), (A ++ [e] ++ B)[n.sortedCount / 2],
      (A ++ [e] ++ B).drop (n.sortedCount / 2 + 1), ?_, List.length_take_of_le hlt.le⟩
    rw [List.getElem_cons_drop, List.take_append_drop]
  have hlen : n.sortedCount = E₀.length + 1 + E₂.length := by
    rw [hcount, hE, List.length_append, List.length_cons]
    omega
  have hE₀ : E₀ ≠ [] := by
    rintro rfl
    rw [List.length_nil] at hhalf hlen
    omega
  have hne : s.key ≠ [] := by
    refine (h.wellFormed.separated.members s.key ?_).2
    rw [hE]
    obtain ⟨d, E₀, rfl⟩ := List.exists_cons_of_ne_nil hE₀
    simp
  have hmem : s ∈ A ++ [e] ++ B := by
    rw [hE]
    simp
  have hchild := h.children s hmem
  rw [hE] at hstores
  obtain ⟨offset, hs⟩ : ∃ offset, n.HoldsAt E₀.length offset s := hstores.holdsAt (by simp)
  have htwo : ¬n.sortedCount < 2 := by omega
  rcases Before.trichotomy key s.key with hbefore | heq | hbefore
  · obtain ⟨B₁, rfl, rfl⟩ := h.goes_left hord hS hE hne hbefore
    obtain ⟨l, r, hl, hr, hholds⟩ := h.left_halves hord hS hchild
    refine ⟨.two l s.key r, ?_, hholds⟩
    rw [prepareForSplit_left hT hlen hhalf.symm htwo hs hne hbefore, hl, Option.bind_some, hr,
      Option.map_some]
  · rcases List.mem_append.mp hmem with hA | hB
    · exact absurd heq.symm ((h.below hord hS s hA).resolve_left hne).ne
    · exact absurd heq (h.above hord hS s hB).2.ne
  · obtain ⟨M, hA, rfl⟩ := h.goes_right hord hS hE hbefore
    obtain ⟨l, r, hl, hr, hholds⟩ := h.right_halves hord hS hA hE₀ hchild
    refine ⟨.two l s.key r, ?_, hholds⟩
    rw [prepareForSplit_right hT hlen hhalf.symm htwo hs hne hbefore, hl, Option.bind_some, hr,
      Option.map_some]

end Halves

section Failures

variable {S : Set (List Byte)} {s x y : List Byte}

theorem exists_replaces (hS : ∀ k ∈ S, k.length ≤ 65520) (hs : s ∈ S) (hx : x ∈ S) (hy : y ∈ S)
    (hxy : Before x y) (hys : Before y s) (hsx : Before s x) :
    ∃ n, Replaces S n [⟨[], 1⟩, ⟨x, 1⟩] ⟨y, 1⟩ [] s := by
  have hpx := padKeyLength_le (hS x hx)
  have hpy := padKeyLength_le (hS y hy)
  have hps := padKeyLength_le (hS s hs)
  have hzero : ∀ w, (Entry.mk [] w).totalLength = 8 := fun w => totalLength_of_nil rfl
  have htotal : ∀ k w, (Entry.mk k w).totalLength = padKeyLength k.length + 8 := fun _ _ => rfl
  obtain ⟨n, -, hn⟩ := exists_stores ([⟨[], 1⟩, ⟨x, 1⟩] ++ [⟨y, 1⟩] ++ [])
  refine ⟨n, ⟨hn, ⟨rfl, ?_, ?_⟩, ?_⟩, Nat.le_refl 3, ?_, hs, hys.ne_nil, Or.inr hys, ?_, ?_⟩
  · rintro k hk
    rcases List.mem_pair.mp hk with rfl | rfl
    · exact ⟨hx, hsx.ne_nil⟩
    · exact ⟨hy, hxy.ne_nil⟩
  · exact List.pairwise_pair.mpr hxy
  · rw [hn.size]
    simp only [nodeSize, List.cons_append, List.nil_append, List.length_cons, List.length_nil,
      recordSpace_cons, recordSpace_nil, hzero, htotal]
    omega
  · intro e he
    have h1 : (1 : Word) ≠ 0 := by decide
    rcases List.mem_cons.mp he with rfl | he
    · exact h1
    · rcases List.mem_pair.mp he with rfl | rfl <;> exact h1
  · exact fun b hb => absurd hb (by simp)
  · simp only [withSplit, nodeSize, List.cons_append, List.nil_append, List.length_cons,
      List.length_nil, recordSpace_cons, recordSpace_nil, hzero, htotal]
    omega

theorem SplitPreserves.not_crossed (h : SplitPreserves S) (hS : ∀ k ∈ S, k.length ≤ 65520)
    (hs : s ∈ S) (hx : x ∈ S) (hy : y ∈ S) : ¬Crossed s x y := by
  intro hcross
  obtain ⟨hxy, hys, hsx⟩ := hcross.cycle
  obtain ⟨n, hn⟩ := exists_replaces hS hs hx hy hxy hys hsx
  obtain ⟨split, hsplit, hholds⟩ := h n _ _ _ s 0 0 (32 + (n.size + s.length + 8 + 8) + 1) hn
  rw [prepareForSplit, if_pos (Nat.lt_succ_self _)] at hsplit
  obtain ⟨n', -, rfl⟩ := Option.map_eq_some_iff.mp hsplit
  have hasc : [x, y, s].Pairwise Before := hholds.1.separated.ascending
  have hxs : Before x s := (List.pairwise_cons.mp hasc).1 s (by simp)
  exact hxs.asymm hsx

end Failures

/-- Splits keep the way of a set of keys exactly if `KeyCompare` orders these keys. -/
theorem splitPreserves_iff {S : Set (List Byte)} (hS : ∀ k ∈ S, k.length ≤ 65520) :
    SplitPreserves S ↔ OrdersKeys S := by
  have hsize : ∀ k ∈ S, k.length < 2 ^ 31 := fun k hk => by
    have := hS k hk
    omega
  constructor
  · intro h
    exact ordersKeys_of_not_crossed hsize fun s hs x hx y hy => h.not_crossed hS hs hx hy
  · intro hord n A e B key left right splitThreshold h
    exact h.preserves hord hsize left right splitThreshold

theorem splitPreserves_short : (∀ k ∈ ({[1], [2], [3]} : Set (List Byte)), k.length ≤ 65520) ∧
    SplitPreserves {[1], [2], [3]} := by
  have hS : ∀ k ∈ ({[1], [2], [3]} : Set (List Byte)), k.length < 16 := by
    rintro k (rfl | rfl | rfl) <;> decide
  have hsize : ∀ k ∈ ({[1], [2], [3]} : Set (List Byte)), k.length ≤ 65520 :=
    fun k hk => Nat.le_trans (Nat.le_of_lt (hS k hk)) (by decide)
  refine ⟨hsize, (splitPreserves_iff hsize).mpr (ordersKeys_of_not_crossed (fun k hk => ?_) ?_)⟩
  · exact Nat.lt_trans (hS k hk) (by decide)
  · exact fun s _ x hx y _ hcross => Nat.not_lt.mpr hcross.long.1 (hS x hx)

/-- The separator 0x00 after 0x80.. goes before 0x7f.., where it overwrites another child. -/
theorem split_misroutes :
    ((nodeOf [⟨[], 1⟩, ⟨List.replicate 16 0x7f, 2⟩, ⟨List.replicate 16 0x80, 3⟩]).bind fun n =>
      (n.prepareForSplit 3072 [0] 11 12).map fun split =>
        match split with
        | .one n' => [n, n'].map fun n => n.childFor (List.replicate 16 0x7f)
        | .two _ _ _ => []) =
        some [some 1, some 12] ∧
      ¬SplitPreserves {k | k.length ≤ 65520} := by
  refine ⟨by decide +kernel, fun h => ?_⟩
  exact h.not_crossed (fun _ hk => hk) (by decide : [(0 : Byte)].length ≤ 65520)
    (by decide : (List.replicate 16 (0x7f : Byte)).length ≤ 65520)
    (by decide : (List.replicate 16 (0x80 : Byte)).length ≤ 65520) crossed_bytes

end BaseNode

end HashComp.BzTree
