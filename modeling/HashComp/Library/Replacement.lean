import Mathlib.Data.List.Basic
import Mathlib.Data.Set.Basic

namespace HashComp.Replacement

structure Hierarchy (α β : Type*) where
  children : α → List α
  items : α → Set β

variable {α β : Type*}

inductive Below (G : Hierarchy α β) : α → β → Prop
  | item {a : α} {b : β} (hb : b ∈ G.items a) : Below G a b
  | child {a c : α} {b : β} (hc : c ∈ G.children a) (h : Below G c b) : Below G a b

/-- The nodes of a list, all `mine`, take the place of a node that is `fixed`: they share its
items, or have its children where one of these has given way to others, or are one node above
such a list. -/
inductive Replaces (G : Hierarchy α β) (fixed mine : α → Prop) : α → List α → Prop
  | items {a : α} {ns : List α} (ha : fixed a) (hns : ∀ n ∈ ns, mine n) (hc : G.children a = [])
      (hcs : ∀ n ∈ ns, G.children n = []) (hitems : ∀ b, b ∈ G.items a ↔ ∃ n ∈ ns, b ∈ G.items n) :
      Replaces G fixed mine a ns
  | child {a c : α} {ls ns X Y : List α} (ha : fixed a) (hns : ∀ n ∈ ns, mine n)
      (h : Replaces G fixed mine c ls) (hc : G.children a = X ++ c :: Y)
      (hcs : ns.flatMap G.children = X ++ ls ++ Y) (hi : G.items a = ∅)
      (his : ∀ n ∈ ns, G.items n = ∅) : Replaces G fixed mine a ns
  | join {a n : α} {ls : List α} (h : Replaces G fixed mine a ls) (hn : mine n)
      (hc : G.children n = ls) (hi : G.items n = ∅) : Replaces G fixed mine a [n]

variable {G G' : Hierarchy α β} {fixed fixed' mine mine' : α → Prop} {a g old new : α} {b : β}
  {ns X Y : List α}

theorem below_iff : Below G a b ↔ b ∈ G.items a ∨ ∃ c ∈ G.children a, Below G c b := by
  constructor
  · rintro (hb | ⟨hc, h⟩)
    · exact Or.inl hb
    · exact Or.inr ⟨_, hc, h⟩
  · rintro (hb | ⟨c, hc, h⟩)
    · exact .item hb
    · exact .child hc h

theorem Replaces.all_mine (h : Replaces G fixed mine a ns) : ∀ n ∈ ns, mine n := by
  cases h with
  | items _ hns | child _ hns => exact hns
  | join _ hn =>
      intro m hm
      rwa [List.mem_singleton.mp hm]

theorem Replaces.below_iff (h : Replaces G fixed mine a ns) :
    ∀ b, Below G a b ↔ ∃ n ∈ ns, Below G n b := by
  induction h with
  | items ha hns hc hcs hitems =>
      intro b
      rw [Replacement.below_iff, hc, hitems]
      constructor
      · rintro (⟨n, hn, hb⟩ | ⟨c, hc, -⟩)
        · exact ⟨n, hn, .item hb⟩
        · cases hc
      · rintro ⟨n, hn, hb⟩
        rw [Replacement.below_iff, hcs n hn] at hb
        rcases hb with hb | ⟨c, hc, -⟩
        · exact Or.inl ⟨n, hn, hb⟩
        · cases hc
  | @child a c ls ns X Y ha hns h hc hcs hi his ih =>
      intro b
      have hnew : (∃ n ∈ ns, Below G n b) ↔ ∃ d ∈ X ++ ls ++ Y, Below G d b := by
        rw [← hcs]
        constructor
        · rintro ⟨n, hn, hb⟩
          rw [Replacement.below_iff, his n hn] at hb
          obtain ⟨d, hd, hb⟩ := hb.resolve_left (Set.notMem_empty b)
          exact ⟨d, List.mem_flatMap.mpr ⟨n, hn, hd⟩, hb⟩
        · rintro ⟨d, hd, hb⟩
          obtain ⟨n, hn, hd⟩ := List.mem_flatMap.mp hd
          exact ⟨n, hn, .child hd hb⟩
      rw [hnew, Replacement.below_iff, hc, hi, or_iff_right (Set.notMem_empty b)]
      simp only [List.mem_append, List.mem_cons, or_and_right, exists_or, exists_eq_left, ih b,
        or_assoc]
  | @join a n ls h hn hc hi ih =>
      intro b
      rw [ih b, ← hc]
      simp only [List.mem_singleton, exists_eq_left]
      rw [Replacement.below_iff (a := n), hi, or_iff_right (Set.notMem_empty b)]

theorem Replaces.mono (h : Replaces G fixed mine a ns)
    (hfixed : ∀ a, fixed a → fixed' a ∧ G'.children a = G.children a ∧ G'.items a = G.items a)
    (hmine : ∀ a, mine a → mine' a ∧ G'.children a = G.children a ∧ G'.items a = G.items a) :
    Replaces G' fixed' mine' a ns := by
  induction h with
  | @items a ns ha hns hc hcs hitems =>
      obtain ⟨hfix, hchildren, hitem⟩ := hfixed a ha
      refine .items hfix (fun n hn => (hmine n (hns n hn)).1) (hchildren.trans hc)
        (fun n hn => (hmine n (hns n hn)).2.1.trans (hcs n hn)) fun b => ?_
      rw [hitem, hitems]
      refine exists_congr fun n => and_congr_right fun hn => ?_
      rw [(hmine n (hns n hn)).2.2]
  | @child a c ls ns X Y ha hns h hc hcs hi his ih =>
      obtain ⟨hfix, hchildren, hitem⟩ := hfixed a ha
      have hsame : ns.flatMap G'.children = ns.flatMap G.children :=
        List.flatMap_congr fun n hn => (hmine n (hns n hn)).2.1
      exact .child hfix (fun n hn => (hmine n (hns n hn)).1) ih (hchildren.trans hc)
        (hsame.trans hcs) (hitem.trans hi) fun n hn => (hmine n (hns n hn)).2.2.trans (his n hn)
  | join h hn hc hi ih =>
      obtain ⟨hm, hchildren, hitem⟩ := hmine _ hn
      exact .join ih hm (hchildren.trans hc) (hitem.trans hi)

theorem below_congr {S : α → Prop} (hS : ∀ a, S a → ∀ c ∈ G.children a, S c)
    (hsame : ∀ a, S a → G'.children a = G.children a ∧ G'.items a = G.items a) (ha : S a) :
    Below G' a b ↔ Below G a b := by
  constructor
  · intro h
    induction h with
    | @item a b hb =>
        rw [(hsame a ha).2] at hb
        exact .item hb
    | @child a c b hc h ih =>
        rw [(hsame a ha).1] at hc
        exact .child hc (ih (hS a ha c hc))
  · intro h
    induction h with
    | @item a b hb =>
        rw [← (hsame a ha).2] at hb
        exact .item hb
    | @child a c b hc h ih =>
        have ih := ih (hS a ha c hc)
        rw [← (hsame a ha).1] at hc
        exact .child hc ih

theorem below_of_swap (g old new : α) (hother : ∀ a, a ≠ g → G'.children a = G.children a)
    (hitems : ∀ a, G'.items a = G.items a) (hc : G.children g = X ++ old :: Y)
    (hc' : G'.children g = X ++ new :: Y) (hbefore : ∀ b, Below G old b ↔ Below G new b)
    (hafter : ∀ b, Below G' old b ↔ Below G' new b) : Below G' a b ↔ Below G a b := by
  constructor
  · intro h
    induction h with
    | @item a b hb =>
        rw [hitems] at hb
        exact .item hb
    | @child a c b hchild h ih =>
        rcases eq_or_ne a g with rfl | hne
        · rw [hc', List.mem_append, List.mem_cons] at hchild
          rcases hchild with hX | rfl | hY
          · exact .child (by simp [hc, hX]) ih
          · exact .child (c := old) (by simp [hc]) ((hbefore b).mpr ih)
          · exact .child (by simp [hc, hY]) ih
        · rw [hother a hne] at hchild
          exact .child hchild ih
  · intro h
    induction h with
    | @item a b hb =>
        rw [← hitems] at hb
        exact .item hb
    | @child a c b hchild h ih =>
        rcases eq_or_ne a g with rfl | hne
        · rw [hc, List.mem_append, List.mem_cons] at hchild
          rcases hchild with hX | rfl | hY
          · exact .child (by simp [hc', hX]) ih
          · exact .child (c := new) (by simp [hc']) ((hafter b).mp ih)
          · exact .child (by simp [hc', hY]) ih
        · rw [← hother a hne] at hchild
          exact .child hchild ih

end HashComp.Replacement
