import Mathlib.Data.List.Basic
import Mathlib.Order.WithBot
import Mathlib.Tactic.Common

namespace HashComp.Segments

variable {K α V : Type*} [LinearOrder K]

abbrev Segment (K α : Type*) :=
  WithBot K × α

section Order

variable (lookup : α → K → Option V)

def Holds (a : α) (k : K) : Prop :=
  lookup a k ≠ none

def Before (s t : Segment K α) : Prop :=
  s.1 ≤ t.1 ∧ ∀ k, Holds lookup s.2 k → (k : WithBot K) ≤ t.1

structure Ordered (segs : List (Segment K α)) : Prop where
  before : segs.Pairwise (Before lookup)
  above : ∀ s ∈ segs, ∀ k, Holds lookup s.2 k → s.1 < (k : WithBot K)

/-- What the segments hold for a key. -/
def contents (segs : List (Segment K α)) (k : K) : Option V :=
  segs.findSome? fun s => lookup s.2 k

end Order

/-- The segment is the last one whose bound is below the key. -/
structure Routed (key : K) (s : Segment K α) (post : List (Segment K α)) : Prop where
  below : s.1 < (key : WithBot K)
  beyond : ∀ t ∈ post, (key : WithBot K) ≤ t.1

variable {lookup : α → K → Option V} {pre post : List (Segment K α)} {lo : WithBot K} {a a' l r : α}
  {key sep k : K} {s : Segment K α}

omit [LinearOrder K] in
theorem not_holds_iff : ¬ Holds lookup a k ↔ lookup a k = none :=
  not_not

omit [LinearOrder K] in
theorem contents_eq_none (h : ∀ s ∈ pre, ¬ Holds lookup s.2 k) : contents lookup pre k = none :=
  List.findSome?_eq_none_iff.mpr fun s hs => not_holds_iff.mp (h s hs)

omit [LinearOrder K] in
theorem contents_append : contents lookup (pre ++ post) k =
    (contents lookup pre k).or (contents lookup post k) :=
  List.findSome?_append

omit [LinearOrder K] in
theorem contents_cons : contents lookup (s :: post) k =
    (lookup s.2 k).or (contents lookup post k) := by
  rw [contents, List.findSome?_cons, contents]
  cases lookup s.2 k <;> rfl

theorem Ordered.not_holds_pre (h : Ordered lookup (pre ++ s :: post)) (hk : s.1 < (k : WithBot K)) :
    ∀ t ∈ pre, ¬ Holds lookup t.2 k := by
  intro t ht hheld
  have hle := ((List.pairwise_append.mp h.before).2.2 t ht s List.mem_cons_self).2 k hheld
  exact absurd (lt_of_lt_of_le hk hle) (lt_irrefl _)

theorem Ordered.not_holds_post (h : Ordered lookup (pre ++ s :: post))
    (hk : ∀ t ∈ post, (k : WithBot K) ≤ t.1) : ∀ t ∈ post, ¬ Holds lookup t.2 k := by
  intro t ht hheld
  have habove := h.above t (List.mem_append_right pre (List.mem_cons_of_mem s ht)) k hheld
  exact absurd (lt_of_lt_of_le habove (hk t ht)) (lt_irrefl _)

theorem Ordered.routed (h : Ordered lookup (pre ++ s :: post)) (hk : Holds lookup s.2 k) :
    Routed k s post := by
  have hcons := (List.pairwise_append.mp h.before).2.1
  exact ⟨h.above s (List.mem_append_right pre List.mem_cons_self) k hk,
    fun t ht => ((List.pairwise_cons.mp hcons).1 t ht).2 k hk⟩

theorem Ordered.contents_eq (h : Ordered lookup (pre ++ s :: post)) (hr : Routed key s post) :
    contents lookup (pre ++ s :: post) key = lookup s.2 key := by
  rw [contents_append, contents_cons, contents_eq_none (h.not_holds_pre hr.below), Option.none_or,
    contents_eq_none (h.not_holds_post hr.beyond), Option.or_none]

/-- A change of the segment for one key is a change of the contents for that key. -/
theorem Ordered.contents_set (h : Ordered lookup (pre ++ (lo, a) :: post))
    (hr : Routed key (lo, a) post) (hother : ∀ k, k ≠ key → lookup a' k = lookup a k) :
    contents lookup (pre ++ (lo, a') :: post) =
      Function.update (contents lookup (pre ++ (lo, a) :: post)) key (lookup a' key) := by
  funext k
  rcases eq_or_ne k key with rfl | hne
  · rw [Function.update_self, contents_append, contents_cons,
      contents_eq_none (h.not_holds_pre hr.below), Option.none_or,
      contents_eq_none (h.not_holds_post hr.beyond), Option.or_none]
  · rw [Function.update_of_ne hne, contents_append, contents_append, contents_cons, contents_cons,
      hother k hne]

theorem Ordered.set (h : Ordered lookup (pre ++ (lo, a) :: post))
    (hkeys : ∀ k, Holds lookup a' k → Holds lookup a k ∨ Routed k (lo, a) post) :
    Ordered lookup (pre ++ (lo, a') :: post) := by
  obtain ⟨hpre, hcons, hcross⟩ := List.pairwise_append.mp h.before
  obtain ⟨hhead, hpost⟩ := List.pairwise_cons.mp hcons
  refine ⟨List.pairwise_append.mpr ⟨hpre, List.pairwise_cons.mpr ⟨fun t ht => ?_, hpost⟩, ?_⟩, ?_⟩
  · refine ⟨(hhead t ht).1, fun k hk => ?_⟩
    rcases hkeys k hk with hold | hr
    · exact (hhead t ht).2 k hold
    · exact hr.beyond t ht
  · intro t ht u hu
    rcases List.mem_cons.mp hu with rfl | hu
    · exact hcross t ht (lo, a) List.mem_cons_self
    · exact hcross t ht u (List.mem_cons_of_mem _ hu)
  · intro t ht k hk
    rcases List.mem_append.mp ht with ht | ht
    · exact h.above t (List.mem_append_left _ ht) k hk
    · rcases List.mem_cons.mp ht with rfl | ht
      · rcases hkeys k hk with hold | hr
        · exact h.above (lo, a) (List.mem_append_right _ List.mem_cons_self) k hold
        · exact hr.below
      · exact h.above t (List.mem_append_right _ (List.mem_cons_of_mem _ ht)) k hk

theorem Ordered.cut (h : Ordered lookup (pre ++ (lo, a) :: post)) (hsep : Holds lookup a sep)
    (hl : ∀ k, Holds lookup l k → Holds lookup a k ∧ k ≤ sep)
    (hr : ∀ k, Holds lookup r k → Holds lookup a k ∧ sep < k) :
    Ordered lookup (pre ++ (lo, l) :: ((sep : WithBot K), r) :: post) := by
  obtain ⟨hpre, hcons, hcross⟩ := List.pairwise_append.mp h.before
  obtain ⟨hhead, hpost⟩ := List.pairwise_cons.mp hcons
  have hself : (lo, a) ∈ pre ++ (lo, a) :: post := List.mem_append_right _ List.mem_cons_self
  have hlo : lo < (sep : WithBot K) := h.above (lo, a) hself sep hsep
  refine ⟨List.pairwise_append.mpr ⟨hpre, List.pairwise_cons.mpr ⟨fun t ht => ?_,
    List.pairwise_cons.mpr ⟨fun t ht => ?_, hpost⟩⟩, ?_⟩, ?_⟩
  · rcases List.mem_cons.mp ht with rfl | ht
    · exact ⟨hlo.le, fun k hk => WithBot.coe_le_coe.mpr (hl k hk).2⟩
    · exact ⟨(hhead t ht).1, fun k hk => (hhead t ht).2 k (hl k hk).1⟩
  · exact ⟨(hhead t ht).2 sep hsep, fun k hk => (hhead t ht).2 k (hr k hk).1⟩
  · intro t ht u hu
    have hta := hcross t ht (lo, a) List.mem_cons_self
    rcases List.mem_cons.mp hu with rfl | hu
    · exact hta
    · rcases List.mem_cons.mp hu with rfl | hu
      · exact ⟨hta.1.trans hlo.le, fun k hk => (hta.2 k hk).trans hlo.le⟩
      · exact hcross t ht u (List.mem_cons_of_mem _ hu)
  · intro t ht k hk
    rcases List.mem_append.mp ht with ht | ht
    · exact h.above t (List.mem_append_left _ ht) k hk
    · rcases List.mem_cons.mp ht with rfl | ht
      · exact h.above (lo, a) hself k (hl k hk).1
      · rcases List.mem_cons.mp ht with rfl | ht
        · exact WithBot.coe_lt_coe.mpr (hr k hk).2
        · exact h.above t (List.mem_append_right _ (List.mem_cons_of_mem _ ht)) k hk

omit [LinearOrder K] in
theorem contents_cut (hcut : ∀ k, lookup a k = (lookup l k).or (lookup r k)) :
    contents lookup (pre ++ (lo, l) :: ((sep : WithBot K), r) :: post) =
      contents lookup (pre ++ (lo, a) :: post) := by
  funext k
  rw [contents_append, contents_append, contents_cons, contents_cons, contents_cons, hcut k,
    Option.or_assoc]

end HashComp.Segments
