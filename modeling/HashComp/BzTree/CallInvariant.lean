import HashComp.BzTree.InnerChildren
import HashComp.BzTree.LeafSplits
import HashComp.Library.Replacement

namespace HashComp.BzTree

open HashComp.ByteMemory
open HashComp.Replacement
open HashComp.Threads

def Heap.graph (h : Heap) : Hierarchy Addr Entry where
  children := fun a => ((h.nodes a).map BaseNode.children).getD []
  items := fun a => {e | ∃ n, h.nodes a = some n ∧ n.isLeaf = true ∧ e ∈ n.visibleEntries}

def Heap.contents (h : Heap) : Set Entry :=
  {e | Below h.graph h.root e}

def Heap.Frozen (h : Heap) (a : Addr) : Prop :=
  ∃ n, h.nodes a = some n ∧ n.status.frozen = true

namespace Calls

def Handed (owner : Addr → Option Nat) (h : Heap) (a : Addr) : Prop :=
  owner a = none ∧ ∃ n, h.nodes a = some n

def Mine (owner : Addr → Option Nat) (h : Heap) (t : Nat) (a : Addr) : Prop :=
  owner a = some t ∧ ∃ n, h.nodes a = some n

abbrev Takes (owner : Addr → Option Nat) (h : Heap) (t : Nat) : Addr → List Addr → Prop :=
  Replaces h.graph h.Frozen (Mine owner h t)

structure Sound (owner : Addr → Option Nat) (h : Heap) : Prop where
  root : Handed owner h h.root
  child : ∀ a n c, h.nodes a = some n → c ∈ n.children →
    (∃ m, h.nodes c = some m) ∧ (owner c = none ∨ owner c = owner a)
  fresh : ∀ a, h.fresh ≤ a → h.nodes a = none
  null : h.nodes 0 = none
  bounded : h.fresh ≤ 2 ^ 64
  inner : ∀ a n, h.nodes a = some n → n.isLeaf = false → ∃ E, n.Inner E

structure Like (n n' : BaseNode) : Prop where
  isLeaf : n'.isLeaf = n.isLeaf
  records : n.isLeaf = false → n'.sortedCount = n.sortedCount ∧ n'.recordMetadata = n.recordMetadata
  frozen : n.status.frozen = true → n'.status.frozen = true ∧ n'.children = n.children ∧
    n'.visibleEntries = n.visibleEntries

/-- What a step leaves as it is for a thread. -/
structure Keeps (owner : Addr → Option Nat) (h : Heap) (owner' : Addr → Option Nat) (h' : Heap)
    (u : Nat) : Prop where
  node : ∀ a n, h.nodes a = some n → ∃ n', h'.nodes a = some n' ∧ Like n n'
  handed : ∀ a, Handed owner h a → owner' a = none
  mine : ∀ a, Mine owner h u a → owner' a = some u ∧ h'.nodes a = h.nodes a

section Knowledge

def CallOp.Inserts : CallOp → Prop
  | .insert _ _ | .upsert _ _ => True
  | .update _ _ | .delete _ => False

def CallOp.Updates : CallOp → Prop
  | .update _ _ | .upsert _ _ => True
  | .insert _ _ | .delete _ => False

def CallOp.Upserts : CallOp → Prop
  | .upsert _ _ => True
  | .insert _ _ | .update _ _ | .delete _ => False

def CallOp.Deletes : CallOp → Prop
  | .delete _ => True
  | .insert _ _ | .update _ _ | .upsert _ _ => False

/-- The codes that a call on a map may return. -/
def CallOp.Allows : CallOp → ReturnCode → Prop
  | .insert _ _, rc => rc = .ok ∨ rc = .keyExists
  | .update _ _, rc | .delete _, rc => rc = .ok ∨ rc = .notFound
  | .upsert _ _, rc => rc = .ok

structure FrameOk (owner : Addr → Option Nat) (h : Heap) (f : Frame) : Prop where
  owner : owner f.node = none
  node : ∃ p, h.nodes f.node = some p ∧ p.isLeaf = false ∧ f.metaIndex < p.sortedCount

/-- The stack of an insertion leads from the root that it has met to `a`. -/
structure Insertion.Ok (owner : Addr → Option Nat) (h : Heap) (i : Insertion) (a : Addr) : Prop where
  op : i.op.Inserts
  frames : ∀ f ∈ i.stack.frames, FrameOk owner h f
  root : i.stack.root = some ((i.stack.frames.getLast?.map (·.node)).getD a)

def Job.Fits : Job → Prop
  | .insert i => i.op.Inserts
  | .update op => op.Updates
  | .delete op => op.Deletes
  | .read op => op.Upserts

structure Job.Ok (owner : Addr → Option Nat) (h : Heap) (j : Job) (a : Addr) : Prop where
  fits : j.Fits
  insertion : ∀ i, j = .insert i → i.Ok owner h a

def Job.Runs : Job → LeafPc → Prop
  | .insert _, .insert _ _ _ | .update _, .update _ _ _ | .delete _, .delete _ _ => True
  | _, _ => False

structure Halves.Ok (owner : Addr → Option Nat) (h : Heap) (t : Nat) (i : Insertion) (s : Halves) :
    Prop where
  path : i.Ok owner h s.old
  handed : Handed owner h s.old
  takes : Takes owner h t s.old [s.left, s.right]

def Goal.Ok (owner : Addr → Option Nat) (h : Heap) (t : Nat) (i : Insertion) (a : Addr) : Goal → Prop
  | .leaf => i.Ok owner h a
  | .parent s => s.Ok owner h t i ∧ ∃ f fs, i.stack.frames = f :: fs ∧ f.node = a

def FreezeOk : FreezePc → Prop
  | .read => True
  | .swap expected => expected.frozen = false

theorem freezeOk_none : ∀ f, (none : Option FreezePc) = some f → FreezeOk f := by
  intro f hf
  cases hf

def Pc.Knows (parameters : ParameterSet) (owner : Addr → Option Nat) (h : Heap) (t : Nat) : Pc → Prop
  | .land j => j.Fits
  | .descend j a => j.Ok owner h a ∧ Handed owner h a
  | .reading op _ _ | .readPayload op _ _ => op.Upserts
  | .leaf j a l => j.Ok owner h a ∧ Handed owner h a ∧ j.Runs l ∧ l.LocalOk parameters
  | .freezing i goal a _ pc =>
      goal.Ok owner h t i a ∧ Handed owner h a ∧ ∀ f, pc = some f → FreezeOk f
  | .splitLeaf i a => i.Ok owner h a ∧ Handed owner h a ∧ h.Frozen a
  | .newRoot i s => s.Ok owner h t i ∧ i.stack.frames = []
  | .splitParent i s => s.Ok owner h t i ∧ ∃ f fs, i.stack.frames = f :: fs ∧ h.Frozen f.node
  | .install i old new => i.Ok owner h old ∧ Handed owner h old ∧ Takes owner h t old [new]
  | .update i old new g m pc =>
      (i.Ok owner h old ∧ Handed owner h old ∧ Takes owner h t old [new]) ∧
        (∃ fs, i.stack.frames = g :: fs) ∧
          (∃ p, h.nodes g.node = some p ∧ p.recordMetadata g.metaIndex = m) ∧ pc.LocalOk
  | .done op rc => op.Allows rc
  | .aborted => True

def Pc.at? (a : Addr) : Pc → Option LeafPc
  | .leaf _ b l => if b = a then some l else none
  | _ => none

def working (threads : Nat → Option Pc) (a : Addr) (t : Nat) : Option LeafPc :=
  (threads t).bind (Pc.at? a)

structure Inv (parameters : ParameterSet) (owner : Addr → Option Nat) (h : Heap)
    (threads : Nat → Option Pc) : Prop where
  sound : Sound owner h
  laid : ∀ a n, h.nodes a = some n → n.isLeaf = true → Laid parameters n (working threads a)
  knows : ∀ u pc, threads u = some pc → pc.Knows parameters owner h u

end Knowledge

section Keeping

variable {parameters : ParameterSet} {owner owner' : Addr → Option Nat} {h h' : Heap} {t u : Nat}
  {a b : Addr} {n n' : BaseNode} {i : Insertion} {j : Job} {s : Halves} {goal : Goal} {pc : Pc}

theorem Like.refl (n : BaseNode) : Like n n :=
  ⟨rfl, fun _ => ⟨rfl, rfl⟩, fun hf => ⟨hf, rfl, rfl⟩⟩

theorem graph_children (hn : h.nodes a = some n) : h.graph.children a = n.children := by
  show ((h.nodes a).map _).getD _ = _
  rw [hn]
  rfl

theorem mem_items (hn : h.nodes a = some n) {e : Entry} :
    e ∈ h.graph.items a ↔ n.isLeaf = true ∧ e ∈ n.visibleEntries := by
  constructor
  · rintro ⟨m, hm, he⟩
    cases hn.symm.trans hm
    exact he
  · intro he
    exact ⟨n, hn, he⟩

theorem items_of_internal (hn : h.nodes a = some n) (hinternal : n.isLeaf = false) :
    h.graph.items a = ∅ := by
  refine Set.eq_empty_iff_forall_notMem.mpr fun e he => ?_
  rw [mem_items hn, hinternal] at he
  cases he.1

theorem children_of_leaf (hleaf : n.isLeaf = true) : n.children = [] :=
  if_pos hleaf

/-- Two nodes with the same children and, where they are leaves, the same records. -/
theorem graph_congr (hn : h.nodes a = some n) (hn' : h'.nodes a = some n')
    (hleaf : n'.isLeaf = n.isLeaf) (hchildren : n'.children = n.children)
    (hentries : n'.visibleEntries = n.visibleEntries) :
    h'.graph.children a = h.graph.children a ∧ h'.graph.items a = h.graph.items a := by
  refine ⟨?_, Set.ext fun e => ?_⟩
  · rw [graph_children hn, graph_children hn', hchildren]
  · rw [mem_items hn, mem_items hn', hleaf, hentries]

theorem graph_of_same (hsame : h'.nodes a = h.nodes a) :
    h'.graph.children a = h.graph.children a ∧ h'.graph.items a = h.graph.items a := by
  refine ⟨?_, Set.ext fun e => ?_⟩
  · show ((h'.nodes a).map _).getD _ = _
    rw [hsame]
    rfl
  · show (∃ n, h'.nodes a = some n ∧ _) ↔ _
    rw [hsame]
    rfl

namespace Keeps

theorem refl (owner : Addr → Option Nat) (h : Heap) (u : Nat) : Keeps owner h owner h u :=
  ⟨fun _ n hn => ⟨n, hn, Like.refl n⟩, fun _ ha => ha.1, fun _ ha => ⟨ha.1, rfl⟩⟩

variable (hk : Keeps owner h owner' h' u)
include hk

theorem handed' (ha : Handed owner h a) : Handed owner' h' a := by
  obtain ⟨n, hn⟩ := ha.2
  obtain ⟨n', hn', -⟩ := hk.node a n hn
  exact ⟨hk.handed a ha, n', hn'⟩

theorem frozen (ha : h.Frozen a) : h'.Frozen a ∧ h'.graph.children a = h.graph.children a ∧
    h'.graph.items a = h.graph.items a := by
  obtain ⟨n, hn, hfrozen⟩ := ha
  obtain ⟨n', hn', hlike⟩ := hk.node a n hn
  obtain ⟨hfrozen', hchildren, hentries⟩ := hlike.frozen hfrozen
  exact ⟨⟨n', hn', hfrozen'⟩, graph_congr hn hn' hlike.isLeaf hchildren hentries⟩

theorem takes {ns : List Addr} (ht : Takes owner h u a ns) : Takes owner' h' u a ns := by
  refine ht.mono (fun b hb => hk.frozen hb) fun b hb => ?_
  obtain ⟨howner, hsame⟩ := hk.mine b hb
  exact ⟨⟨howner, hsame ▸ hb.2⟩, graph_of_same hsame⟩

theorem frame {f : Frame} (hf : FrameOk owner h f) : FrameOk owner' h' f := by
  obtain ⟨p, hp, hleaf, hlt⟩ := hf.node
  obtain ⟨p', hp', hlike⟩ := hk.node _ p hp
  refine ⟨hk.handed _ ⟨hf.owner, p, hp⟩, p', hp', hlike.isLeaf.trans hleaf, ?_⟩
  rwa [(hlike.records hleaf).1]

theorem insertion (hi : i.Ok owner h a) : i.Ok owner' h' a :=
  ⟨hi.op, fun f hf => hk.frame (hi.frames f hf), hi.root⟩

theorem job (hj : j.Ok owner h a) : j.Ok owner' h' a :=
  ⟨hj.fits, fun i hi => hk.insertion (hj.insertion i hi)⟩

theorem halves (hs : s.Ok owner h u i) : s.Ok owner' h' u i :=
  ⟨hk.insertion hs.path, hk.handed' hs.handed, hk.takes hs.takes⟩

theorem goalOk (hg : goal.Ok owner h u i a) : goal.Ok owner' h' u i a := by
  cases goal with
  | leaf => exact hk.insertion hg
  | parent s => exact ⟨hk.halves hg.1, hg.2⟩

theorem knows (hp : pc.Knows parameters owner h u) : pc.Knows parameters owner' h' u := by
  cases pc with
  | land | reading | readPayload | done | aborted => exact hp
  | descend j a => exact ⟨hk.job hp.1, hk.handed' hp.2⟩
  | leaf j a l => exact ⟨hk.job hp.1, hk.handed' hp.2.1, hp.2.2⟩
  | freezing i goal a byMe pc => exact ⟨hk.goalOk hp.1, hk.handed' hp.2.1, hp.2.2⟩
  | splitLeaf i a => exact ⟨hk.insertion hp.1, hk.handed' hp.2.1, (hk.frozen hp.2.2).1⟩
  | newRoot i s => exact ⟨hk.halves hp.1, hp.2⟩
  | splitParent i s =>
      obtain ⟨hs, f, fs, hframes, hfrozen⟩ := hp
      exact ⟨hk.halves hs, f, fs, hframes, (hk.frozen hfrozen).1⟩
  | install i old new => exact ⟨hk.insertion hp.1, hk.handed' hp.2.1, hk.takes hp.2.2⟩
  | update i old new g m pc =>
      obtain ⟨⟨hi, hold, htakes⟩, ⟨fs, hframes⟩, ⟨p, hp, hm⟩, hpc⟩ := hp
      obtain ⟨q, hq, hleaf, -⟩ := (hi.frames g (hframes ▸ List.mem_cons_self)).node
      cases hp.symm.trans hq
      obtain ⟨p', hp', hlike⟩ := hk.node _ p hp
      refine ⟨⟨hk.insertion hi, hk.handed' hold, hk.takes htakes⟩, ⟨fs, hframes⟩,
        ⟨p', hp', ?_⟩, hpc⟩
      rw [(hlike.records hleaf).2, hm]

end Keeps

end Keeping

end Calls

end HashComp.BzTree
