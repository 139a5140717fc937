import HashComp.Library.Runs
import HashComp.LockFree.NodeQueue

namespace HashComp.LockFree

open HashComp.Runs

def NodeQueue.empty (queue : NodeQueue) : Bool :=
  queue.head.isNone

/-- A node is pushed with whatever its fields `next` and `last` hold by then. -/
inductive QueueCall where
  | push (node : Nat) (next last : Option Nat)
  | pop

structure Use where
  queue : NodeQueue
  links : Links
  pushed : List Nat
  popped : List Nat

def Use.fresh (links : Links) : Use :=
  ⟨⟨none, none⟩, links, [], []⟩

def Links.set (links : Links) (node : Nat) (next last : Option Nat) : Links :=
  ⟨Function.update links.next node next, Function.update links.last node last⟩

def Use.next (s : Use) : QueueCall → Option Use
  | .push node next last =>
      let r := s.queue.push (s.links.set node next last) node
      some ⟨r.1, r.2, s.pushed ++ [node], s.popped⟩
  | .pop =>
      (s.queue.pop s.links).map fun r => ⟨r.2.1, r.2.2, s.pushed, s.popped ++ [r.1]⟩

/-- No node is pushed that is in the queue, and only a queue that is not empty is popped. -/
def Use.Allows (s : Use) : QueueCall → Prop
  | .push node _ _ => s.pushed.count node = s.popped.count node
  | .pop => s.queue.empty = false

instance (s : Use) : (call : QueueCall) → Decidable (s.Allows call)
  | .push node _ _ => inferInstanceAs (Decidable (s.pushed.count node = s.popped.count node))
  | .pop => inferInstanceAs (Decidable (s.queue.empty = false))

structure Use.Holds (s : Use) (l : List Nat) : Prop where
  pushed : s.pushed = s.popped ++ l
  nodup : l.Nodup
  linked : Lists s.links s.queue l

section Use

variable {s s' : Use} {links : Links} {queue : NodeQueue} {l rest : List Nat} {node : Nat} {next last : Option Nat}

theorem Use.Holds.empty_iff (h : s.Holds l) : s.queue.empty = true ↔ l = [] := by
  rw [NodeQueue.empty, Option.isNone_iff_eq_none]
  exact h.linked.head_eq_none_iff

theorem Use.Holds.notMem (h : s.Holds l) (hnode : s.Allows (.push node next last)) :
    node ∉ l := by
  have hcount : s.pushed.count node = s.popped.count node := hnode
  rw [h.pushed, List.count_append] at hcount
  exact List.count_eq_zero.mp (Nat.add_left_cancel (k := 0) hcount)

theorem Lists.set (h : Lists links queue l) (hnode : node ∉ l) :
    Lists (links.set node next last) queue l := by
  refine h.congr (fun b hb => ?_) fun b hb => ?_
  all_goals
    refine Function.update_of_ne ?_ ..
    rintro rfl
    exact hnode hb

theorem Use.Holds.push (h : s.Holds l) (hnode : s.Allows (.push node next last))
    (hnext : s.next (.push node next last) = some s') : s'.Holds (l ++ [node]) := by
  cases hnext
  have hmem := h.notMem hnode
  refine ⟨?_, ?_, (h.linked.set hmem).push hmem h.nodup⟩
  · rw [h.pushed, List.append_assoc]
  · refine List.Nodup.append h.nodup (List.nodup_singleton node) ?_
    rw [List.disjoint_singleton]
    exact hmem

theorem Use.Holds.pop (h : s.Holds (node :: rest)) :
    ∃ s', s.next .pop = some s' ∧ s'.pushed = s.pushed ∧ s'.popped = s.popped ++ [node] ∧
      s'.Holds rest := by
  obtain ⟨queue', links', hpop, hrest, -⟩ := h.linked.pop h.nodup
  refine ⟨⟨queue', links', s.pushed, s.popped ++ [node]⟩, ?_, rfl, rfl, ?_⟩
  · rw [Use.next, hpop, Option.map_some]
  · refine ⟨?_, (List.nodup_cons.mp h.nodup).2, hrest⟩
    rw [h.pushed, List.append_assoc, List.singleton_append]

theorem Use.Holds.step {call : QueueCall} (h : s.Holds l) (hok : s.Allows call)
    (hnext : s.next call = some s') : ∃ l', s'.Holds l' := by
  cases call with
  | push node next last => exact ⟨l ++ [node], h.push hok hnext⟩
  | pop =>
      cases l with
      | nil =>
          have hempty : s.queue.empty = false := hok
          rw [h.empty_iff.mpr rfl] at hempty
          cases hempty
      | cons node rest =>
          obtain ⟨s'', hnext', -, -, hrest⟩ := h.pop
          rw [hnext] at hnext'
          cases hnext'
          exact ⟨rest, hrest⟩

theorem Use.fresh_holds (links : Links) : (Use.fresh links).Holds [] :=
  ⟨rfl, List.nodup_nil, rfl, rfl⟩

theorem Use.holds_of_reaches (h : Reaches Use.next Use.Allows (Use.fresh links) s) :
    ∃ l, s.Holds l := by
  refine h.invariant (I := fun s : Use => ∃ l, s.Holds l) ⟨[], Use.fresh_holds links⟩ ?_
  rintro s call s' ⟨l, hl⟩ hok hnext
  exact hl.step hok hnext

/-- In every run the queued nodes are those pushed and not yet popped, in the order of the
pushes.  They make up one chain, along `last` from the tail and along `next` from the head.
The queue is empty when there are as many pops as pushes, and else the next pop takes the
node whose turn it is. -/
theorem Use.fifo (h : Reaches Use.next Use.Allows (Use.fresh links) s) :
    ∃ l, s.pushed = s.popped ++ l ∧ l.Nodup ∧ Lists s.links s.queue l ∧
      (s.queue.empty = true ↔ s.pushed.length = s.popped.length) ∧
      (s.queue.empty = false → ∃ node rest s', l = node :: rest ∧ s.next .pop = some s' ∧
        s'.pushed = s.pushed ∧ s'.popped = s.popped ++ [node]) := by
  obtain ⟨l, hl⟩ := Use.holds_of_reaches h
  refine ⟨l, hl.pushed, hl.nodup, hl.linked, ?_, fun hempty => ?_⟩
  · rw [hl.empty_iff, hl.pushed, List.length_append, ← List.length_eq_zero_iff]
    omega
  · cases l with
    | nil =>
        rw [hl.empty_iff.mpr rfl] at hempty
        cases hempty
    | cons node rest =>
        obtain ⟨s', hnext, hpushed, hpopped, -⟩ := hl.pop
        exact ⟨node, rest, s', rfl, hnext, hpushed, hpopped⟩

/-- A node that is popped and pushed again carries its old links. -/
theorem Use.fifo_repushed :
    ∃ s, runActions Use.next (Use.fresh ⟨fun _ => some 3, fun _ => some 7⟩)
        [.push 1 (some 5) (some 1), .push 2 none (some 2), .pop, .push 1 (some 2) (some 2)] =
          some s ∧
      ∃ l, s.pushed = s.popped ++ l ∧ l.Nodup ∧ Lists s.links s.queue l ∧
        (s.queue.empty = true ↔ s.pushed.length = s.popped.length) ∧
        (s.queue.empty = false → ∃ node rest s', l = node :: rest ∧ s.next .pop = some s' ∧
          s'.pushed = s.pushed ∧ s'.popped = s.popped ++ [node]) := by
  have hadmits : Admits Use.next Use.Allows (Use.fresh ⟨fun _ => some 3, fun _ => some 7⟩)
      [.push 1 (some 5) (some 1), .push 2 none (some 2), .pop, .push 1 (some 2) (some 2)] := by
    decide
  exact ⟨_, rfl, Use.fifo (reaches_of_runActions hadmits rfl)⟩

end Use

end HashComp.LockFree
