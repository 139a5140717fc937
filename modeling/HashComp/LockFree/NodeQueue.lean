import HashComp.Library.LinkedLists

namespace HashComp.LockFree

open HashComp.LinkedLists

structure Links where
  next : Nat → Option Nat
  last : Nat → Option Nat

structure NodeQueue where
  head : Option Nat
  tail : Option Nat

def NodeQueue.push (queue : NodeQueue) (links : Links) (node : Nat) : NodeQueue × Links :=
  let next := Function.update links.next node queue.head
  let last := Function.update links.last node none
  match queue.head with
  | some head => (⟨some node, queue.tail⟩, ⟨next, Function.update last head (some node)⟩)
  | none => (⟨some node, some node⟩, ⟨Function.update next node none, last⟩)

/-- `Pop` reads the tail without a test, so that it needs one. -/
def NodeQueue.pop (queue : NodeQueue) (links : Links) : Option (Nat × NodeQueue × Links) :=
  queue.tail.map fun ret =>
    match links.last ret with
    | none => (ret, ⟨none, none⟩, links)
    | some tail =>
        (ret, ⟨queue.head, some tail⟩, ⟨Function.update links.next tail none, links.last⟩)

/-- The queue passes the nodes of the list from the tail on and, backwards, from the head on. -/
structure Lists (links : Links) (queue : NodeQueue) (l : List Nat) : Prop where
  fromTail : Seg links.last queue.tail l none
  fromHead : Seg links.next queue.head l.reverse none

section Queue

variable {links : Links} {queue : NodeQueue} {l rest : List Nat} {a b : Nat}

theorem Lists.head_eq_none_iff (h : Lists links queue l) : queue.head = none ↔ l = [] := by
  have hfrom := h.fromHead
  constructor
  · intro hnone
    rw [hnone] at hfrom
    cases hrev : l.reverse with
    | nil => exact List.reverse_eq_nil_iff.mp hrev
    | cons b rest =>
        rw [hrev] at hfrom
        cases hfrom.1
  · rintro rfl
    exact hfrom

theorem Lists.congr {links' : Links} (h : Lists links queue l)
    (hnext : ∀ b ∈ l, links'.next b = links.next b)
    (hlast : ∀ b ∈ l, links'.last b = links.last b) : Lists links' queue l :=
  ⟨h.fromTail.congr hlast, h.fromHead.congr fun b hb => hnext b (List.mem_reverse.mp hb)⟩

theorem Lists.push (h : Lists links queue l) (ha : a ∉ l) (hl : l.Nodup) :
    Lists (queue.push links a).2 (queue.push links a).1 (l ++ [a]) := by
  rcases List.eq_nil_or_concat' l with rfl | ⟨l, b, rfl⟩
  · have hhead : queue.head = none := h.fromHead
    simp only [NodeQueue.push, hhead]
    exact ⟨⟨rfl, Function.update_self ..⟩, ⟨rfl, Function.update_self ..⟩⟩
  · have hfrom := h.fromHead
    rw [List.reverse_append, List.reverse_singleton, List.singleton_append] at hfrom
    have hhead : queue.head = some b := hfrom.1
    have hab : a ≠ b := by
      rintro rfl
      exact ha (List.mem_append_right _ (List.mem_singleton_self a))
    have hbl : b ∉ l := by
      intro hmem
      exact (List.nodup_append.mp hl).2.2 b hmem b (List.mem_singleton_self b) rfl
    simp only [NodeQueue.push, hhead]
    constructor
    · refine h.fromTail.snoc (Function.update_self ..) ?_ fun c hc => ?_
      · exact (Function.update_of_ne hab ..).trans (Function.update_self ..)
      · have hcb : c ≠ b := fun heq => hbl (heq ▸ hc)
        have hca : c ≠ a := fun heq => ha (heq ▸ List.mem_append_left _ hc)
        exact (Function.update_of_ne hcb ..).trans (Function.update_of_ne hca ..)
    · rw [List.reverse_append, List.reverse_singleton, List.singleton_append, ← hhead]
      refine Seg.push h.fromHead fun hmem => ha (List.mem_reverse.mp hmem)

/-- A pop takes the first node of the list, and changes links of the others only. -/
theorem Lists.pop (h : Lists links queue (a :: rest)) (hl : (a :: rest).Nodup) :
    ∃ queue' links', queue.pop links = some (a, queue', links') ∧ Lists links' queue' rest ∧
      ∀ c ∉ rest, links'.next c = links.next c ∧ links'.last c = links.last c := by
  obtain ⟨htail, hlast⟩ := h.fromTail
  have hfrom := h.fromHead
  rw [List.reverse_cons] at hfrom
  obtain ⟨mid, hrest, hmid, -⟩ := seg_append.mp hfrom
  cases rest with
  | nil =>
      have hnone : links.last a = none := hlast
      refine ⟨⟨none, none⟩, links, ?_, ⟨rfl, rfl⟩, fun _ _ => ⟨rfl, rfl⟩⟩
      rw [NodeQueue.pop, htail, Option.map_some, hnone]
  | cons b rest =>
      have hb : links.last a = some b := hlast.1
      have hbr : b ∉ rest := (List.nodup_cons.mp (List.nodup_cons.mp hl).2).1
      refine ⟨⟨queue.head, some b⟩, ⟨Function.update links.next b none, links.last⟩, ?_,
        ⟨?_, ?_⟩, fun c hc => ⟨?_, rfl⟩⟩
      · rw [NodeQueue.pop, htail, Option.map_some, hb]
      · rwa [hb] at hlast
      · rw [List.reverse_cons] at hrest ⊢
        obtain ⟨mid', hfront, hmid', -⟩ := seg_append.mp hrest
        subst hmid'
        refine (hfront.update (fun hmem => hbr (List.mem_reverse.mp hmem)) none).append ?_
        exact ⟨rfl, Function.update_self ..⟩
      · have hcb : c ≠ b := fun heq => hc (List.mem_cons.mpr (Or.inl heq))
        exact Function.update_of_ne hcb ..

end Queue

end HashComp.LockFree
