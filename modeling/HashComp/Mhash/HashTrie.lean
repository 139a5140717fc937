import HashComp.Library.Threads
import HashComp.Mhash.LevelHash

/-!
The calls that the hash tables share and what they return, and the part of a table
that both lock-free tables have in common: the slots and the heap of data nodes.
What an operation does to it is one of four changes, and each keeps every node
where the fragments of its hash say.
-/

namespace HashComp.Operations

inductive Mutation (K T : Type*) where
  | insert (key : K) (mapped : T)
  | update (key : K) (mapped : T)
  | remove (key : K)

def Mutation.key {K T : Type*} : Mutation K T → K
  | .insert key _ | .update key _ | .remove key => key

inductive Op (K T : Type*) where
  | get (key : K)
  | mutate (m : Mutation K T)

/-- What a call returns; `outOfRange` is the exception that `Get` throws. -/
inductive Result (K T : Type*) where
  | bool (b : Bool)
  | pair (key : K) (mapped : T)
  | outOfRange

abbrev History (K T : Type*) := List (Threads.Call (Op K T) (Result K T))

end HashComp.Operations

namespace HashComp.HashTrie

open HashComp.LevelHash
open HashComp.Operations
open HashComp.SlotTrie

structure DataBlock (K T : Type*) where
  key : K
  mapped : T
  hash : BitVec 64

/-- A slot holds the address of a data node, whose block lives in the heap; an
array node is named by the slot it was published in, since no array is ever
moved or freed. -/
structure Trie (K T : Type*) where
  slots : Slots Nat
  heap : Nat → DataBlock K T

section Walk

variable {K : Type*} {L : Layout K} {D n : Nat} {slots slots' : Slots Nat} {key : K}
  {currArr : Option Path}

def slotAddress (L : Layout K) (hash : BitVec 64) (level : Nat) (currArr : Option Path) :
    Option Path :=
  if level = 0 then some [L.rootHash hash]
  else
    match L.levelHash hash level, currArr with
    | some index, some arr => some (arr ++ [index])
    | _, _ => none

def AtLevel (L : Layout K) (slots : Slots Nat) (key : K) (n : Nat)
    (currArr : Option Path) : Prop :=
  slots (L.keyPath key n) = .array ∧ (n ≠ 0 → currArr = some (L.keyPath key n))

structure EndsAt (L : Layout K) (slots : Slots Nat) (key : K) (n : Nat) : Prop where
  arrays : ∀ i ≤ n, slots (L.keyPath key i) = .array
  stop : slots (L.keyPath key (n + 1)) ≠ .array

theorem AtLevel.grows (h : AtLevel L slots key n currArr) (hg : Grows slots slots') :
    AtLevel L slots' key n currArr :=
  ⟨hg _ h.1, h.2⟩

theorem slotAddress_eq (haddr : L.Addresses D) (hn : n ≤ D)
    (hat : AtLevel L slots key n currArr) :
    slotAddress L (L.hasher key) n currArr = some (L.keyPath key (n + 1)) := by
  cases n with
  | zero => rfl
  | succ n =>
      unfold slotAddress
      rw [if_neg (by omega), Layout.levelHash_succ _ (haddr n hn), hat.2 (by omega)]
      simp [Layout.keyPath, pathOf_succ]

theorem EndsAt.unique {m : Nat} (hm : EndsAt L slots key m) (hn : EndsAt L slots key n) :
    m = n := by
  rcases Nat.lt_trichotomy m n with hlt | heq | hgt
  · exact absurd (hn.arrays (m + 1) hlt) hm.stop
  · exact heq
  · exact absurd (hm.arrays (n + 1) hgt) hn.stop

end Walk

section Trie

variable {K T : Type*} {L : Layout K} {D n a b old : Nat} {t t' : Trie K T} {key key' : K}
  {mapped : T} {p q : Path} {s : Slot Nat} {r r' : Result K T}

def block (L : Layout K) (key : K) (mapped : T) : DataBlock K T :=
  ⟨key, mapped, L.hasher key⟩

def Trie.empty (heap : Nat → DataBlock K T) : Trie K T where
  slots := fun p => if p = [] then .array else .null
  heap := heap

def Trie.setSlot (t : Trie K T) (p : Path) (s : Slot Nat) : Trie K T :=
  { t with slots := Function.update t.slots p s }

def Trie.publishArray (t : Trie K T) (p : Path) (i old : Nat) : Trie K T :=
  { t with slots := publish t.slots p i old }

def Trie.Linked (t : Trie K T) (a : Nat) : Prop :=
  ∃ p, t.slots p = .data a

def Trie.Holds (t : Trie K T) (L : Layout K) (key : K) (a : Nat) : Prop :=
  t.Linked a ∧ (t.heap a).hash = L.hasher key

def Trie.Absent (t : Trie K T) (key : K) : Prop :=
  ∀ p a, t.slots p = .data a → (t.heap a).key ≠ key

/-- The slot where the walk of `key` ends holds a node with another hash. -/
def Trie.ReachesForeign (t : Trie K T) (L : Layout K) (key : K) : Prop :=
  ∃ n a, t.slots (L.keyPath key (n + 1)) = .data a ∧ (t.heap a).hash ≠ L.hasher key

/-- Every data node sits in the slot that the fragments of its hash address. -/
def Trie.Indexed (t : Trie K T) (L : Layout K) : Prop :=
  ∀ p a, t.slots p = .data a → ∃ index rest, p = index :: rest ∧
    L.rootHash (t.heap a).hash = index ∧
    ∀ i (hi : i < rest.length), L.levelHash (t.heap a).hash (i + 1) = some rest[i]

/-- No two slots hold data nodes with equal hash. -/
def Trie.UniqueHashes (t : Trie K T) : Prop :=
  ∀ p q a b, t.slots p = .data a → t.slots q = .data b →
    (t.heap a).hash = (t.heap b).hash → p = q

structure Trie.Valid (t : Trie K T) (L : Layout K) (D : Nat) : Prop where
  wf : WellFormed t.slots
  placed : Placed (fun a => L.fragment (t.heap a).hash) t.slots
  hashed : ∀ p a, t.slots p = .data a → (t.heap a).hash = L.hasher (t.heap a).key
  shallow : Shallow D t.slots

theorem Trie.empty_slots_ne (heap : Nat → DataBlock K T) (p : Path) (a : Nat) :
    (Trie.empty heap).slots p ≠ .data a := by
  simp only [Trie.empty]
  split <;> simp

theorem Trie.valid_empty (heap : Nat → DataBlock K T) : (Trie.empty heap).Valid L D where
  wf := by
    refine ⟨by simp [Trie.empty], ?_⟩
    intro p i hne
    simp [Trie.empty] at hne
  placed := fun p a hp => absurd hp (Trie.empty_slots_ne heap p a)
  hashed := fun p a hp => absurd hp (Trie.empty_slots_ne heap p a)
  shallow := by
    intro p hp
    simp only [Trie.empty] at hp
    split at hp
    · simp [*]
    · cases hp

theorem Trie.Valid.slot_unique (h : t.Valid L D) (hp : t.slots p = .data a)
    (hq : t.slots q = .data b) (hab : (t.heap a).hash = (t.heap b).hash) : p = q ∧ a = b := by
  have hfrag : L.fragment (t.heap a).hash = L.fragment (t.heap b).hash := by rw [hab]
  exact ⟨h.placed.eq_of_frag_eq h.wf hp hq hfrag, h.placed.data_inj h.wf hp hq hfrag⟩

theorem Trie.Valid.uniqueHashes (h : t.Valid L D) : t.UniqueHashes :=
  fun _ _ _ _ hp hq hab => (h.slot_unique hp hq hab).1

theorem Trie.Valid.indexed (h : t.Valid L D) (haddr : L.Addresses D) : t.Indexed L := by
  intro p a hp
  have hpath := h.placed p a hp
  cases p with
  | nil =>
      rw [h.wf.root] at hp
      cases hp
  | cons index rest =>
      refine ⟨index, rest, rfl, ?_, ?_⟩
      · have hget := getElem?_pathOf (f := L.fragment (t.heap a).hash)
          (n := (index :: rest).length) (i := 0) (by simp)
        rw [← hpath] at hget
        exact (Option.some.inj hget).symm
      · intro i hi
        have harr : t.slots (pathOf (L.fragment (t.heap a).hash) rest.length) = .array := by
          apply h.wf.array_above (n := rest.length + 1) _ (Nat.lt_succ_self _)
          rw [List.length_cons] at hpath
          rw [← hpath, hp]
          simp
        have hlen : rest.length ≤ D := by simpa using h.shallow _ harr
        rw [Layout.levelHash_succ _ (haddr i (Nat.lt_of_lt_of_le hi hlen))]
        have hget := getElem?_pathOf (f := L.fragment (t.heap a).hash)
          (n := (index :: rest).length) (i := i + 1) (by simpa using hi)
        rw [← hpath, List.getElem?_cons_succ, List.getElem?_eq_getElem hi] at hget
        exact hget.symm

theorem Trie.Valid.array_of_data (h : t.Valid L D)
    (hold : t.slots (L.keyPath key (n + 1)) = .data old) :
    t.slots (L.keyPath key n) = .array := by
  apply h.wf.parent _ (L.fragment (L.hasher key) n)
  rw [← L.keyPath_succ, hold]
  simp

theorem Trie.Valid.endsAt_of_stop (h : t.Valid L D)
    (harr : t.slots (L.keyPath key n) = .array)
    (hstop : t.slots (L.keyPath key (n + 1)) ≠ .array) : EndsAt L t.slots key n where
  arrays := by
    intro i hi
    rcases Nat.lt_or_eq_of_le hi with hlt | rfl
    · exact h.wf.array_above (n := n) (by rw [← Layout.keyPath, harr]; simp) hlt
    · exact harr
  stop := hstop

theorem Trie.Valid.endsAt_of_data (h : t.Valid L D)
    (hslot : t.slots (L.keyPath key (n + 1)) = .data a) : EndsAt L t.slots key n :=
  h.endsAt_of_stop (h.array_of_data hslot) (by simp [hslot])

theorem Trie.Valid.not_reachesForeign (h : t.Valid L D)
    (hslot : t.slots (L.keyPath key (n + 1)) = .data a)
    (hhash : (t.heap a).hash = L.hasher key) : ¬ t.ReachesForeign L key := by
  rintro ⟨m, b, hslot', hne⟩
  have heq := (h.endsAt_of_data hslot').unique (h.endsAt_of_data hslot)
  subst heq
  rw [hslot] at hslot'
  cases hslot'
  exact hne hhash

theorem Trie.Valid.exists_endsAt (h : t.Valid L D) (key : K) : ∃ n, EndsAt L t.slots key n := by
  obtain ⟨n, -, harr, hstop⟩ := exists_end h.wf h.shallow (L.fragment (L.hasher key))
  exact ⟨n, h.endsAt_of_stop harr hstop⟩

/-- On the path of `key`, below an array, lies the node with its hash or another
array. -/
theorem Trie.Holds.next (ha : t.Holds L key a) (h : t.Valid L D)
    (harr : t.slots (L.keyPath key n) = .array) :
    t.slots (L.keyPath key (n + 1)) = .array ∨ t.slots (L.keyPath key (n + 1)) = .data a := by
  obtain ⟨⟨p, hp⟩, hhash⟩ := ha
  have hfrag : L.keyPath key = pathOf (L.fragment (t.heap a).hash) := by
    rw [hhash]
    rfl
  rw [hfrag] at harr ⊢
  exact h.placed.next_of_stored h.wf hp harr

theorem Trie.Valid.holds_iff (h : t.Valid L D) (hend : EndsAt L t.slots key n) :
    t.Holds L key a ↔ t.slots (L.keyPath key (n + 1)) = .data a ∧
      (t.heap a).hash = L.hasher key := by
  constructor
  · intro ha
    rcases ha.next h (hend.arrays n (Nat.le_refl n)) with hnext | hnext
    · exact absurd hnext hend.stop
    · exact ⟨hnext, ha.2⟩
  · rintro ⟨hslot, hhash⟩
    exact ⟨⟨_, hslot⟩, hhash⟩

theorem Trie.Valid.slot_of_agree (h : t.Valid L D) (ha : t.Linked a)
    (hagree : ∀ i ≤ D, L.fragment (t.heap a).hash i = L.fragment (L.hasher key) i) :
    ∃ n, t.slots (L.keyPath key (n + 1)) = .data a := by
  obtain ⟨p, hp⟩ := ha
  rcases List.eq_nil_or_concat' p with rfl | ⟨q, i, rfl⟩
  · rw [h.wf.root] at hp
    cases hp
  · have hq : q.length ≤ D := h.shallow q (h.wf.parent q i (by simp [hp]))
    have hpath := h.placed _ a hp
    rw [List.length_append, List.length_singleton] at hpath
    refine ⟨q.length, ?_⟩
    rw [Layout.keyPath, ← pathOf_eq_iff.mpr fun i hi => hagree i (by omega), ← hpath]
    exact hp

/-- Where the path of a key meets a null slot, nothing with its hash is stored. -/
theorem Trie.Valid.not_holds_of_null (h : t.Valid L D)
    (harr : t.slots (L.keyPath key n) = .array)
    (hnull : t.slots (L.keyPath key (n + 1)) = .null) (a : Nat) : ¬ t.Holds L key a := by
  intro ha
  rcases ha.next h harr with hnext | hnext
  all_goals
    rw [hnull] at hnext
    cases hnext

theorem Trie.Valid.absent_iff (h : t.Valid L D) (hinj : Function.Injective L.hasher) :
    t.Absent key ↔ ∀ a, ¬ t.Holds L key a := by
  constructor
  · rintro habs a ⟨⟨p, hp⟩, hhash⟩
    exact habs p a hp (hinj ((h.hashed p a hp).symm.trans hhash))
  · intro hnone p a hp hkey
    refine hnone a ⟨⟨p, hp⟩, ?_⟩
    rw [h.hashed p a hp, hkey]

theorem Trie.Valid.setHeap (h : t.Valid L D) {heap : Nat → DataBlock K T}
    (hheap : ∀ p a, t.slots p = .data a → heap a = t.heap a) :
    Trie.Valid { t with heap := heap } L D where
  wf := h.wf
  placed := by
    refine h.placed.congr fun p a hp => ?_
    simp only [hheap p a hp]
  hashed := by
    intro p a hp
    simp only [hheap p a hp]
    exact h.hashed p a hp
  shallow := h.shallow

theorem Trie.Valid.link (h : t.Valid L D) (hblock : t.heap a = block L key mapped)
    (harr : t.slots (L.keyPath key n) = .array)
    (hnull : t.slots (L.keyPath key (n + 1)) = .null) :
    (t.setSlot (L.keyPath key (n + 1)) (.data a)).Valid L D := by
  refine ⟨?_, h.placed.update_data ?_, ?_, h.shallow.update (by simp)⟩
  · have hcell := L.keyPath_succ key n
    rw [hcell] at hnull
    simpa only [hcell, Trie.setSlot] using h.wf.update harr (by simp [hnull]) (.data a)
  · rw [hblock, L.keyPath_length]
    rfl
  · intro q b hb
    simp only [Trie.setSlot] at hb ⊢
    by_cases hq : q = L.keyPath key (n + 1)
    · subst q
      rw [Function.update_self] at hb
      rw [← Slot.data.inj hb, hblock]
      rfl
    · rw [Function.update_of_ne hq] at hb
      exact h.hashed q b hb

theorem Trie.Valid.unlink (h : t.Valid L D) {i : Nat} (hq : p = q ++ [i])
    (hold : t.slots p = .data old) : (t.setSlot p .null).Valid L D := by
  refine ⟨?_, h.placed.update_null, ?_, h.shallow.update (by simp)⟩
  · subst hq
    exact h.wf.update (h.wf.parent q i (by simp [hold])) (by simp [hold]) _
  · intro q' b hb
    simp only [Trie.setSlot] at hb ⊢
    by_cases hq' : q' = p
    · subst q'
      rw [Function.update_self] at hb
      cases hb
    · rw [Function.update_of_ne hq'] at hb
      exact h.hashed q' b hb

theorem Trie.setSlot_setSlot (t : Trie K T) (p : Path) (s s' : Slot Nat) :
    (t.setSlot p s).setSlot p s' = t.setSlot p s' := by
  simp [Trie.setSlot]

theorem Trie.Valid.swap (h : t.Valid L D) (hblock : t.heap a = block L key mapped)
    (hold : t.slots (L.keyPath key (n + 1)) = .data old) :
    (t.setSlot (L.keyPath key (n + 1)) (.data a)).Valid L D := by
  have harr : (t.setSlot (L.keyPath key (n + 1)) .null).slots (L.keyPath key n) = .array := by
    simp only [Trie.setSlot]
    rw [Function.update_of_ne (L.keyPath_ne_succ key n)]
    exact h.array_of_data hold
  have hlink := (h.unlink (L.keyPath_succ key n) hold).link hblock harr
    (Function.update_self ..)
  rwa [Trie.setSlot_setSlot] at hlink

/-- Two nodes that meet in one slot and part at a level up to `D` meet above it. -/
theorem Trie.Valid.lt_of_part (h : t.Valid L D)
    (hold : t.slots (L.keyPath key (n + 1)) = .data old)
    (hpart : ∃ i ≤ D, L.fragment (t.heap old).hash i ≠ L.fragment (L.hasher key) i) : n < D := by
  have hpath : pathOf (L.fragment (t.heap old).hash) (n + 1) = L.keyPath key (n + 1) := by
    simpa [Layout.keyPath] using (h.placed _ _ hold).symm
  exact depth_lt_of_part hpath hpart

theorem Trie.Valid.lt_of_ne (h : t.Valid L D) (hadm : L.Admissible D)
    (hold : t.slots (L.keyPath key (n + 1)) = .data old)
    (hne : (t.heap old).hash ≠ L.hasher key) : n < D := by
  refine h.lt_of_part hold ?_
  rw [h.hashed _ _ hold] at hne ⊢
  exact hadm.parts _ _ hne

theorem Trie.Valid.split (h : t.Valid L D)
    (hold : t.slots (L.keyPath key (n + 1)) = .data old) (hn : n < D) :
    (t.publishArray (L.keyPath key (n + 1)) (L.fragment (t.heap old).hash (n + 1)) old).Valid
      L D := by
  have hlen : (L.keyPath key (n + 1)).length ≤ D := by
    rw [L.keyPath_length]
    exact hn
  have hplaced := h.placed.publish h.wf hold
  rw [L.keyPath_length] at hplaced
  refine ⟨h.wf.publish hold _, hplaced, ?_, h.shallow.publish h.wf (by simp [hold]) hlen⟩
  intro q b hb
  rcases (publish_eq_data_iff h.wf hold).mp hb with ⟨-, rfl⟩ | ⟨-, hb⟩
  · exact h.hashed _ b hold
  · exact h.hashed q b hb

theorem Trie.linked_publishArray (hwf : WellFormed t.slots) (hold : t.slots p = .data old)
    (i b : Nat) : (t.publishArray p i old).Linked b ↔ t.Linked b := by
  constructor
  · rintro ⟨q, hq⟩
    rcases (publish_eq_data_iff hwf hold).mp hq with ⟨-, rfl⟩ | ⟨-, hq⟩
    · exact ⟨p, hold⟩
    · exact ⟨q, hq⟩
  · rintro ⟨q, hq⟩
    by_cases hqp : q = p
    · subst q
      rw [hold] at hq
      cases hq
      exact ⟨_, (publish_eq_data_iff hwf hold).mpr (Or.inl ⟨rfl, rfl⟩)⟩
    · exact ⟨q, (publish_eq_data_iff hwf hold).mpr (Or.inr ⟨hqp, hq⟩)⟩

theorem Trie.linked_setSlot (t : Trie K T) (p : Path) (s : Slot Nat) (b : Nat) :
    (t.setSlot p s).Linked b ↔ s = .data b ∨ ∃ q, q ≠ p ∧ t.slots q = .data b := by
  constructor
  · rintro ⟨q, hq⟩
    simp only [Trie.setSlot] at hq
    by_cases hqp : q = p
    · subst q
      rw [Function.update_self] at hq
      exact Or.inl hq
    · rw [Function.update_of_ne hqp] at hq
      exact Or.inr ⟨q, hqp, hq⟩
  · rintro (rfl | ⟨q, hqp, hq⟩)
    · exact ⟨p, Function.update_self ..⟩
    · exact ⟨q, (Function.update_of_ne hqp ..).trans hq⟩

theorem Trie.linked_link (hnull : t.slots p = .null) (a b : Nat) :
    (t.setSlot p (.data a)).Linked b ↔ b = a ∨ t.Linked b := by
  rw [Trie.linked_setSlot, Slot.data.injEq, eq_comm]
  refine or_congr_right ⟨?_, ?_⟩
  · rintro ⟨q, -, hq⟩
    exact ⟨q, hq⟩
  · rintro ⟨q, hq⟩
    refine ⟨q, ?_, hq⟩
    rintro rfl
    rw [hnull] at hq
    cases hq

theorem Trie.Valid.linked_swap (h : t.Valid L D) (hold : t.slots p = .data old) (s : Slot Nat)
    (b : Nat) : (t.setSlot p s).Linked b ↔ s = .data b ∨ t.Linked b ∧ b ≠ old := by
  rw [Trie.linked_setSlot]
  refine or_congr_right ⟨?_, ?_⟩
  · rintro ⟨q, hqp, hq⟩
    refine ⟨⟨q, hq⟩, ?_⟩
    rintro rfl
    exact hqp (h.slot_unique hq hold rfl).1
  · rintro ⟨⟨q, hq⟩, hne⟩
    refine ⟨q, ?_, hq⟩
    rintro rfl
    rw [hold] at hq
    exact hne (Slot.data.inj hq).symm

/-- What a call of `Get` must return or throw. -/
def Trie.GetSpec (t : Trie K T) (L : Layout K) (key : K) : Result K T → Prop
  | .pair k mapped => ∃ a, t.Holds L key a ∧ t.heap a = ⟨k, mapped, L.hasher key⟩
  | .outOfRange => ∀ a, ¬ t.Holds L key a
  | .bool _ => False

/-- The result of a call of `Get` whose walk ends at a slot that holds `s`. -/
def Trie.getResult (t : Trie K T) (L : Layout K) (key : K) : Slot Nat → Result K T
  | .data a =>
      if (t.heap a).hash = L.hasher key then .pair (t.heap a).key (t.heap a).mapped
      else .outOfRange
  | _ => .outOfRange

theorem Trie.Valid.getResult_spec (h : t.Valid L D) (hend : EndsAt L t.slots key n) :
    t.GetSpec L key (t.getResult L key (t.slots (L.keyPath key (n + 1)))) := by
  have hiff (a : Nat) := h.holds_iff (a := a) hend
  cases hslot : t.slots (L.keyPath key (n + 1)) with
  | null =>
      intro a ha
      have := ((hiff a).mp ha).1
      rw [hslot] at this
      cases this
  | array => exact absurd hslot hend.stop
  | data a =>
      by_cases hhash : (t.heap a).hash = L.hasher key
      · simp only [Trie.getResult, if_pos hhash]
        refine ⟨a, (hiff a).mpr ⟨hslot, hhash⟩, ?_⟩
        rw [← hhash]
      · simp only [Trie.getResult, if_neg hhash]
        intro b hb
        obtain ⟨hb, hbhash⟩ := (hiff b).mp hb
        rw [hslot] at hb
        rw [Slot.data.inj hb] at hhash
        exact hhash hbhash

theorem Trie.GetSpec.unique (h : t.Valid L D) (hr : t.GetSpec L key r)
    (hr' : t.GetSpec L key r') : r = r' := by
  cases r with
  | bool b => exact hr.elim
  | pair k mapped =>
      obtain ⟨a, ha, hblock⟩ := hr
      cases r' with
      | bool b => exact hr'.elim
      | outOfRange => exact absurd ha (hr' a)
      | pair k' mapped' =>
          obtain ⟨b, hb, hblock'⟩ := hr'
          obtain ⟨⟨p, hp⟩, hahash⟩ := ha
          obtain ⟨⟨q, hq⟩, hbhash⟩ := hb
          have hab := (h.slot_unique hp hq (hahash.trans hbhash.symm)).2
          rw [hab, hblock'] at hblock
          injection hblock with hkey hmapped
          rw [hkey, hmapped]
  | outOfRange =>
      cases r' with
      | bool b => exact hr'.elim
      | outOfRange => rfl
      | pair k' mapped' =>
          obtain ⟨b, hb, -⟩ := hr'
          exact absurd hb (hr b)

theorem Trie.GetSpec.congr (hholds : ∀ a, t'.Holds L key a ↔ t.Holds L key a)
    (hheap : ∀ a, t.Holds L key a → t'.heap a = t.heap a) (r : Result K T) :
    t'.GetSpec L key r ↔ t.GetSpec L key r := by
  cases r with
  | bool b => exact Iff.rfl
  | outOfRange => exact forall_congr' fun a => not_congr (hholds a)
  | pair k mapped =>
      refine exists_congr fun a => ?_
      rw [hholds]
      refine and_congr_right fun ha => ?_
      rw [hheap a ha]

/-- Swapping out a node with the hash of `key` leaves what is stored under other
hashes. -/
theorem Trie.holds_update (hp : t.slots p = .data a) (ha : (t.heap a).hash = L.hasher key)
    (hslots : t'.slots = Function.update t.slots p s)
    (hs : ∀ b, s = .data b → (t'.heap b).hash = L.hasher key)
    (hheap : ∀ q b, t.slots q = .data b → t'.heap b = t.heap b)
    (hne : L.hasher key' ≠ L.hasher key) (b : Nat) :
    t'.Holds L key' b ↔ t.Holds L key' b := by
  constructor
  · rintro ⟨⟨q, hq⟩, hhash⟩
    rw [hslots] at hq
    by_cases hqp : q = p
    · subst q
      rw [Function.update_self] at hq
      exact absurd (hhash.symm.trans (hs b hq)) hne
    · rw [Function.update_of_ne hqp] at hq
      rw [hheap q b hq] at hhash
      exact ⟨⟨q, hq⟩, hhash⟩
  · rintro ⟨⟨q, hq⟩, hhash⟩
    have hqp : q ≠ p := by
      rintro rfl
      rw [hp] at hq
      rw [← Slot.data.inj hq] at hhash
      exact hne (hhash.symm.trans ha)
    refine ⟨⟨q, ?_⟩, ?_⟩
    · rw [hslots, Function.update_of_ne hqp]
      exact hq
    · rw [hheap q b hq]
      exact hhash

end Trie

end HashComp.HashTrie
