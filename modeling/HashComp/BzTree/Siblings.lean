import HashComp.BzTree.Routing

namespace HashComp.BzTree

open HashComp.ByteMemory
open HashComp.Thresholds

namespace BaseNode

section Copies

variable {n left right : BaseNode} {L R P Q entries : List Entry} {d l r : Entry}

theorem carries_range {f : Nat → Option Row} (h : ∀ i e, entries[i]? = some e → Carries (f i) e) :
    List.Forall₂ Carries ((List.range entries.length).map f) entries := by
  induction entries generalizing f with
  | nil => exact .nil
  | cons e entries ih =>
      rw [List.length_cons, List.range_succ_eq_map, List.map_cons, List.map_map]
      exact .cons (h 0 e rfl) (ih fun i e' he => h (i + 1) e' he)

/-- The merged node has the records of both nodes, and in between the separator with the
first child of the right one. -/
theorem mergeInternalNodes_spec (key : List Byte) (hl : left.Stores L)
    (hr : right.Stores (d :: R)) (hd : d.key = []) (hR : ∀ e ∈ R, e.key ≠ []) :
    ∃ n, mergeInternalNodes left right key = some n ∧ n.Stores (L ++ ⟨key, d.payload⟩ :: R) := by
  have hsize : left.size + right.size + padKeyLength key.length - 32 =
      nodeSize (L ++ ⟨key, d.payload⟩ :: R) := by
    have htotal : d.totalLength = 8 := totalLength_of_nil hd
    have htotal' : (Entry.mk key d.payload).totalLength = padKeyLength key.length + 8 := rfl
    rw [hl.size, hr.size]
    simp only [nodeSize, List.length_append, List.length_cons, recordSpace_append,
      recordSpace_cons, htotal, htotal']
    omega
  have hfirst : right.getChildByMetaIndex 0 = some d.payload.toNat :=
    hr.getChildByMetaIndex rfl
  rw [mergeInternalNodes, hsize, hl.count, hr.count, hfirst]
  refine copyChildren_spec (List.rel_append (carries_range fun i e he => ?_) ?_)
  · obtain ⟨offset, ho⟩ := hl.holdsAt he
    exact ho.carries
  · rw [List.length_cons, List.range_succ_eq_map, List.map_cons, List.map_map]
    refine .cons ?_ (carries_range fun i e he => ?_)
    · rw [if_pos rfl, Option.map_some, BitVec.ofNat_toNat, BitVec.setWidth_eq]
      exact carries_childRow
    · obtain ⟨offset, ho⟩ := hr.holdsAt (i := i + 1) he
      rw [Function.comp_apply, if_neg (Nat.succ_ne_zero i)]
      exact ho.carries_key (hR e (List.mem_of_getElem? he))

theorem range_without (a b : Nat) : (List.range (a + (b + 2))).filter (· ≠ a + 1) =
    List.range (a + 1) ++ (List.range b).map (a + 2 + ·) := by
  have hsplit : a + (b + 2) = a + 1 + (1 + b) := by omega
  have hrange : List.range (a + 1 + (1 + b)) =
      List.range (a + 1) ++ (List.range (1 + b)).map (a + 1 + ·) := List.range_add
  have hrange' : List.range (1 + b) = List.range 1 ++ (List.range b).map (1 + ·) := List.range_add
  rw [hsplit, hrange, hrange', List.filter_append, List.map_append, List.filter_append,
    List.map_map]
  have hlow : (List.range (a + 1)).filter (· ≠ a + 1) = List.range (a + 1) :=
    List.filter_eq_self.mpr fun i hi => by simpa using Nat.ne_of_lt (List.mem_range.mp hi)
  have hmid : ((List.range 1).map (a + 1 + ·)).filter (· ≠ a + 1) = [] := by simp
  have hhigh : ((List.range b).map ((a + 1 + ·) ∘ (1 + ·))).filter (· ≠ a + 1) =
      (List.range b).map (a + 2 + ·) := by
    refine Eq.trans (List.filter_eq_self.mpr fun i hi => ?_) ?_
    · obtain ⟨j, -, rfl⟩ := List.mem_map.mp hi
      simp
    · refine List.map_congr_left fun j _ => ?_
      simp only [Function.comp_apply]
      omega
  rw [hlow, hmid, hhigh, List.nil_append]

/-- The copy of a parent lacks the separator between the two nodes, and its child before
that is the new one. -/
theorem deleteRecord_spec (h : n.Stores (P ++ l :: r :: Q)) (child : Word) :
    ∃ p, n.deleteRecord P.length child = some p ∧ p.Stores (P ++ ⟨l.key, child⟩ :: Q) := by
  have hl : (P ++ l :: r :: Q)[P.length]? = some l := by simp
  have hr : (P ++ l :: r :: Q)[P.length + 1]? = some r := by simp
  obtain ⟨offset, hlat⟩ := h.holdsAt hl
  obtain ⟨offset', hrat⟩ := h.holdsAt hr
  have htotal : (Entry.mk l.key child).totalLength = l.totalLength := rfl
  have hsize : n.size - (r.totalLength + 8) = nodeSize (P ++ ⟨l.key, child⟩ :: Q) := by
    rw [h.size]
    simp only [nodeSize, List.length_append, List.length_cons, recordSpace_append,
      recordSpace_cons, htotal]
    omega
  have hle : r.totalLength + 8 ≤ n.size := by
    rw [h.size]
    simp only [nodeSize, List.length_append, List.length_cons, recordSpace_append,
      recordSpace_cons]
    omega
  have hcount : n.sortedCount = P.length + (Q.length + 2) := by
    rw [h.count, List.length_append, List.length_cons, List.length_cons]
  simp only [deleteRecord, hrat.totalLength, hle, if_true, hsize, hcount, range_without,
    List.map_append, List.map_map]
  have hparts : P ++ ⟨l.key, child⟩ :: Q = (P ++ [⟨l.key, child⟩]) ++ Q := by simp
  have hlen : P.length + 1 = (P ++ [Entry.mk l.key child]).length := by simp
  rw [hparts]
  refine copyChildren_spec (List.rel_append ?_ (carries_range fun i e he => ?_))
  · rw [hlen]
    refine carries_range fun i e he => ?_
    rcases Nat.lt_trichotomy i P.length with hi | rfl | hi
    · rw [if_neg (Nat.ne_of_lt hi)]
      rw [List.getElem?_append_left hi] at he
      obtain ⟨o, ho⟩ := h.holdsAt (i := i) (by rw [List.getElem?_append_left hi, he])
      exact ho.carries
    · rw [List.getElem?_append_right (Nat.le_refl _), Nat.sub_self] at he
      obtain rfl := Option.some.inj he
      rw [if_pos rfl, hlat.metadata, RecordMetadata.finalizeForInsert]
      simp only [hlat.key]
      exact carries_childRow
    · rw [List.getElem?_eq_none (by simp; omega)] at he
      cases he
  · rw [Function.comp_apply, if_neg (by omega)]
    have hi : (P ++ l :: r :: Q)[P.length + 2 + i]? = some e := by
      rw [List.getElem?_append_right (by omega)]
      have hsub : P.length + 2 + i - P.length = i + 2 := by omega
      rw [hsub]
      exact he
    obtain ⟨o, ho⟩ := h.holdsAt hi
    exact ho.carries

end Copies

/-- Where a search leads from a node on: to what `find` finds at one of the children that
are given by their index, or to another child. -/
def reach {β : Type} (find : BaseNode → List Byte → β) (children : Nat → Option BaseNode)
    (parent : BaseNode) (key : List Byte) : Option Addr ⊕ β :=
  match children (parent.getChildIndex key true) with
  | some n => .inr (find n key)
  | none => .inl (parent.childFor key)

/-- The two nodes at the indices `i` and `i + 1`. -/
def siblingsAt (i : Nat) (left right : BaseNode) : Nat → Option BaseNode :=
  Function.update (Function.update (fun _ => none) i (some left)) (i + 1) (some right)

def mergedAt (i : Nat) (n : BaseNode) : Nat → Option BaseNode :=
  Function.update (fun _ => none) i (some n)

section Search

variable {S : Set (List Byte)} {n p parent left right : BaseNode} {L R P Q : List Entry}
  {d l r : Entry} {key : List Byte} {child : Word} {i j : Nat}

theorem siblingsAt_of_lt (h : j < i) : siblingsAt i left right j = none := by
  rw [siblingsAt, Function.update_of_ne (by omega), Function.update_of_ne (by omega)]

theorem siblingsAt_of_gt (h : i + 1 < j) : siblingsAt i left right j = none := by
  rw [siblingsAt, Function.update_of_ne (by omega), Function.update_of_ne (by omega)]

theorem siblingsAt_left : siblingsAt i left right i = some left := by
  rw [siblingsAt, Function.update_of_ne (by omega), Function.update_self]

theorem siblingsAt_right : siblingsAt i left right (i + 1) = some right :=
  Function.update_self ..

theorem mergedAt_of_ne (h : j ≠ i) : mergedAt i n j = none :=
  Function.update_of_ne h _ _

theorem WellFormed.merged (hn : n.Stores (L ++ ⟨r.key, d.payload⟩ :: R))
    (hsmall : n.size ≤ 2 ^ 27) (hl : left.WellFormed S L) (hr : right.WellFormed S (d :: R))
    (hk : r.key ∈ S) (hne : r.key ≠ []) (hbelow : ∀ e ∈ L.tail, Before e.key r.key)
    (habove : ∀ e ∈ R, Before r.key e.key) (hord : OrdersKeys S)
    (hS : ∀ k ∈ S, k.length < 2 ^ 31) : n.WellFormed S (L ++ ⟨r.key, d.payload⟩ :: R) := by
  have hd : d.key = [] := Option.some.inj hr.separated.dummy
  have hsep := hr.separated
  rw [List.map_cons, hd] at hsep
  refine ⟨hn, ?_, hsmall⟩
  rw [List.map_append, List.map_cons]
  refine hl.separated.merge hsep hk hne (fun a ha => ?_) (fun a ha => ?_) hord hS
  · rw [← List.map_tail] at ha
    obtain ⟨e, he, rfl⟩ := List.mem_map.mp ha
    exact hbelow e he
  · obtain ⟨e, he, rfl⟩ := List.mem_map.mp ha
    exact habove e he

theorem WellFormed.deleted (h : parent.WellFormed S (P ++ l :: r :: Q))
    (hp : p.Stores (P ++ ⟨l.key, child⟩ :: Q)) : p.WellFormed S (P ++ ⟨l.key, child⟩ :: Q) := by
  have hsub : ((P ++ ⟨l.key, child⟩ :: Q).map Entry.key).Sublist
      ((P ++ l :: r :: Q).map Entry.key) := by
    simp only [List.map_append, List.map_cons]
    exact ((List.sublist_cons_self _ _).cons_cons _).append_left _
  refine ⟨hp, h.separated.of_sublist hsub ?_, ?_⟩
  · have hdummy := h.separated.dummy
    cases P with
    | nil => exact hdummy
    | cons e P => exact hdummy
  · have hsmall := h.small
    have htotal : (Entry.mk l.key child).totalLength = l.totalLength := rfl
    rw [h.stores.size] at hsmall
    rw [hp.size]
    simp only [nodeSize, List.length_append, List.length_cons, recordSpace_append,
      recordSpace_cons, htotal] at hsmall ⊢
    omega

/-- In the merged node a search goes on as in the node on its side of the separator. -/
theorem childFor_merged (hn : n.WellFormed S (L ++ ⟨r.key, d.payload⟩ :: R))
    (hl : left.WellFormed S L) (hr : right.WellFormed S (d :: R))
    (hord : OrdersKeys S) (hS : ∀ k ∈ S, k.length < 2 ^ 31) (hkey : key ∈ S) :
    n.childFor key = if below key r.key then right.childFor key else left.childFor key := by
  have hL : L ≠ [] := by
    obtain ⟨e, rest, rfl, -⟩ := hl.eq_cons
    exact List.cons_ne_nil e rest
  have hd : d.key = [] := Option.some.inj hr.separated.dummy
  have ht := hn.threshold hord hS hkey
  rw [hn.childFor ht, hl.childFor (hl.threshold hord hS hkey),
    hr.childFor (hr.threshold hord hS hkey), route_append ht hL hd]

/-- A search reaches the same through the new parent as through the old one, if the new
node has what it would find at each of the old ones. -/
theorem reach_merged {β : Type} {find : BaseNode → List Byte → β}
    (h : parent.WellFormed S (P ++ l :: r :: Q)) (hp : p.WellFormed S (P ++ ⟨l.key, child⟩ :: Q))
    (hord : OrdersKeys S) (hS : ∀ k ∈ S, k.length < 2 ^ 31) (hkey : key ∈ S)
    (hfind : find n key = if below key r.key then find right key else find left key) :
    reach find (mergedAt P.length n) p key =
      reach find (siblingsAt P.length left right) parent key := by
  have ht := h.threshold hord hS hkey
  have ht' := hp.threshold hord hS hkey
  rw [reach, reach, h.getChildIndex ht, hp.getChildIndex ht', h.childFor ht, hp.childFor ht',
    route, route]
  set q : Entry → Bool := fun e => below key e.key with hq
  have hsame : q ⟨l.key, child⟩ = q l := rfl
  cases hl : q l with
  | false =>
      -- beside the siblings, on the left
      have hP : P ≠ [] := by
        rintro rfl
        have hnil : l.key = [] := Option.some.inj h.separated.dummy
        rw [hq] at hl
        simp [hnil] at hl
      have hlt : P.countP q - 1 < P.length := by
        have hle : P.countP q ≤ P.length := List.countP_le_length
        have := List.length_pos_iff.mpr hP
        omega
      rw [countP_append_of_neg ht hl, countP_append_of_neg ht' (hsame.trans hl), lastOf_append_of_neg ht hl hP,
        lastOf_append_of_neg ht' (hsame.trans hl) hP, siblingsAt_of_lt hlt, mergedAt_of_ne (Nat.ne_of_lt hlt)]
  | true =>
      have htail : Threshold q (r :: Q) := (List.pairwise_cons.mp (List.pairwise_append.mp ht).2.1).2
      rw [countP_append_of_pos ht hl, countP_append_of_pos ht' hl]
      cases hr : q r with
      | false =>
          -- at the left sibling
          have hzero : Q.countP q = 0 := htail.countP_eq_zero hr
          have hzero' : (r :: Q).countP q = 0 := (List.countP_cons_of_neg (by simp [hr])).trans hzero
          rw [if_neg (Bool.eq_false_iff.mp hr)] at hfind
          simp only [hzero, hzero', Nat.add_zero, Nat.add_sub_cancel, siblingsAt_left, mergedAt,
            Function.update_self, hfind]
      | true =>
          have hcount : (r :: Q).countP q = Q.countP q + 1 := List.countP_cons_of_pos hr
          rw [if_pos hr] at hfind
          rcases Nat.eq_zero_or_pos (Q.countP q) with hQ | hQ
          · -- at the right sibling
            simp only [hcount, hQ, Nat.add_zero, Nat.add_sub_cancel, Nat.zero_add,
              siblingsAt_right, mergedAt, Function.update_self, hfind]
          · -- beside the siblings, on the right
            obtain ⟨k, hk⟩ := Nat.exists_eq_add_of_lt hQ
            have hcount' : (⟨l.key, child⟩ :: Q).countP q = Q.countP q + 1 :=
              List.countP_cons_of_pos hl
            rw [lastOf_append_of_pos ht hl, lastOf_append_of_pos ht' hl, hcount,
              siblingsAt_of_gt (by omega), mergedAt_of_ne (by omega), lastOf, lastOf,
              List.countP_cons_of_pos hl, hcount, hcount', hk]
            rfl

end Search

end BaseNode

end HashComp.BzTree
