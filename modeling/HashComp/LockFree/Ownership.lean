import HashComp.Library.Ownership
import HashComp.LockFree.Model
import Mathlib.Data.List.Nodup

namespace HashComp.LockFree

open HashComp.Epoch
open HashComp.HashTrie
open HashComp.LevelHash
open HashComp.Ownership
open HashComp.SlotTrie

inductive Owner where
  | slot (p : Path)
  | pool (tid : Nat)
  | drain
  | hand (tid : Nat)

section Sound

variable {K T : Type*} {L : Layout K} {D tid : Nat} {t : Table K T}
  {hand : Nat → List Nat} {r : List Nat} {key : K} {mapped : T} {a old : Nat} {p : Path}

def Owns (t : Table K T) (hand : Nat → List Nat) : Owner → Nat → Prop
  | .slot p, a => t.slots p = .data a
  | .pool u, a => a ∈ t.dataPool u
  | .drain, a => a ∈ (pendings t.epoch.drainList).map Prod.snd
  | .hand u, a => a ∈ hand u

/-- The table part of the invariant, for threads that hold the nodes `hand`. -/
structure Sound (L : Layout K) (D : Nat) (t : Table K T) (hand : Nat → List Nat) : Prop
    extends valid : t.toTrie.Valid L D where
  epoch : t.epoch.Consistent
  exclusive : Exclusive (Owns t hand)
  allocated : ∀ o a, Owns t hand o a → a < t.fresh
  poolNodup : ∀ u, (t.dataPool u).Nodup
  drainNodup : ((pendings t.epoch.drainList).map Prod.snd).Nodup
  handNodup : ∀ u, (hand u).Nodup

theorem update_nodup (h : ∀ u, (hand u).Nodup) (tid : Nat) {xs : List Nat} (hxs : xs.Nodup)
    (u : Nat) :
    (Function.update hand tid xs u).Nodup := by
  by_cases hu : u = tid
  · subst u
    rwa [Function.update_self]
  · rw [Function.update_of_ne hu]
    exact h u

theorem mem_update_cons {u b : Nat} (h : b ∈ Function.update hand tid (a :: r) u) :
    u = tid ∧ b = a ∨ b ∈ Function.update hand tid r u := by
  by_cases hu : u = tid
  · subst u
    rw [Function.update_self] at h ⊢
    rcases List.mem_cons.mp h with rfl | hb
    · exact Or.inl ⟨rfl, rfl⟩
    · exact Or.inr hb
  · rw [Function.update_of_ne hu] at h ⊢
    exact Or.inr h

theorem mem_update_tail {u b : Nat} (ha : a ∉ r) (h : b ∈ Function.update hand tid r u) :
    b ∈ Function.update hand tid (a :: r) u ∧ ¬ (u = tid ∧ b = a) := by
  by_cases hu : u = tid
  · subst u
    rw [Function.update_self] at h ⊢
    refine ⟨List.mem_cons_of_mem _ h, ?_⟩
    rintro ⟨-, rfl⟩
    exact ha h
  · rw [Function.update_of_ne hu] at h ⊢
    exact ⟨h, fun hc => hu hc.1⟩

theorem Sound.hand_nodup (h : Sound L D t (Function.update hand tid r)) : r.Nodup := by
  simpa using h.handNodup tid

theorem Sound.hand_cons (h : Sound L D t (Function.update hand tid (a :: r))) :
    a ∉ r ∧ r.Nodup ∧ Owns t (Function.update hand tid (a :: r)) (.hand tid) a := by
  obtain ⟨hnot, hnodup⟩ := List.nodup_cons.mp h.hand_nodup
  refine ⟨hnot, hnodup, ?_⟩
  simp [Owns]

@[simp] theorem newDataNode_slots :
    (newDataNode L tid t key mapped).2.slots = t.slots := by
  unfold newDataNode
  split <;> rfl

@[simp] theorem newDataNode_epoch :
    (newDataNode L tid t key mapped).2.epoch = t.epoch := by
  unfold newDataNode
  split <;> rfl

theorem newDataNode_heap_self (L : Layout K) (tid : Nat) (t : Table K T) (key : K)
    (mapped : T) :
    (newDataNode L tid t key mapped).2.heap (newDataNode L tid t key mapped).1 =
      block L key mapped := by
  unfold newDataNode
  split <;> exact Function.update_self ..

theorem newDataNode_heap_of_ne {b : Nat} (hb : b ≠ (newDataNode L tid t key mapped).1) :
    (newDataNode L tid t key mapped).2.heap b = t.heap b := by
  unfold newDataNode at hb ⊢
  split at hb <;> exact Function.update_of_ne hb ..

/-- The node comes from the pool when that is not empty, and is fresh otherwise. -/
theorem newDataNode_cases (L : Layout K) (tid : Nat) (t : Table K T) (key : K) (mapped : T) :
    (∃ rest, t.dataPool tid = (newDataNode L tid t key mapped).1 :: rest ∧
        (newDataNode L tid t key mapped).2.dataPool = Function.update t.dataPool tid rest ∧
        (newDataNode L tid t key mapped).2.fresh = t.fresh) ∨
      (t.dataPool tid = [] ∧ (newDataNode L tid t key mapped).1 = t.fresh ∧
        (newDataNode L tid t key mapped).2.dataPool = t.dataPool ∧
        (newDataNode L tid t key mapped).2.fresh = t.fresh + 1) := by
  unfold newDataNode
  split
  · rename_i hpool
    exact Or.inl ⟨_, hpool, rfl, rfl⟩
  · rename_i hpool
    exact Or.inr ⟨hpool, rfl, rfl, rfl⟩

theorem Sound.ne_newDataNode (h : Sound L D t hand) (hp : t.slots p = .data a) :
    a ≠ (newDataNode L tid t key mapped).1 := by
  rcases newDataNode_cases L tid t key mapped with
    ⟨rest, hpool, -, -⟩ | ⟨-, hnew, -, -⟩
  · rintro rfl
    have hown : Owns t hand (.pool tid) (newDataNode L tid t key mapped).1 := by
      simp [Owns, hpool]
    cases h.exclusive.eq (.slot p) _ hp hown
  · have := h.allocated (.slot p) a hp
    omega

theorem Sound.alloc_heap (h : Sound L D t hand) (hp : t.slots p = .data a) :
    (newDataNode L tid t key mapped).2.heap a = t.heap a :=
  newDataNode_heap_of_ne (h.ne_newDataNode hp)

theorem Sound.alloc (h : Sound L D t (Function.update hand tid r)) :
    Sound L D (newDataNode L tid t key mapped).2
      (Function.update hand tid ((newDataNode L tid t key mapped).1 :: r)) where
  valid := by
    have hslots : (newDataNode L tid t key mapped).2.slots = t.slots := newDataNode_slots
    have hvalid : Trie.Valid { t with heap := (newDataNode L tid t key mapped).2.heap } L D :=
      h.valid.setHeap fun p a hp => h.alloc_heap hp
    rwa [← hslots] at hvalid
  epoch := by simpa using h.epoch
  exclusive := by
    rcases newDataNode_cases L tid t key mapped with
      ⟨rest, hpool, hpool', -⟩ | ⟨-, hnew, hpool', -⟩
    · have hnodup := h.poolNodup tid
      rw [hpool, List.nodup_cons] at hnodup
      refine h.exclusive.transfer (.pool tid) (.hand tid)
        (newDataNode L tid t key mapped).1 (by simp [Owns, hpool]) ?_
      rintro (q | u | - | u) b hb
      · exact Or.inr ⟨by simpa [Owns] using hb, by simp⟩
      · right
        simp only [Owns, hpool'] at hb ⊢
        by_cases hu : u = tid
        · subst u
          rw [Function.update_self] at hb
          rw [hpool]
          refine ⟨List.mem_cons_of_mem _ hb, ?_⟩
          rintro ⟨-, rfl⟩
          exact hnodup.1 hb
        · rw [Function.update_of_ne hu] at hb
          exact ⟨hb, by simp [hu]⟩
      · exact Or.inr ⟨by simpa [Owns] using hb, by simp⟩
      · rcases mem_update_cons hb with ⟨rfl, rfl⟩ | hb
        · exact Or.inl ⟨rfl, rfl⟩
        · exact Or.inr ⟨hb, by simp⟩
    · refine h.exclusive.acquire (.hand tid) (newDataNode L tid t key mapped).1 ?_ ?_
      · intro o ho
        have := h.allocated o _ ho
        omega
      · rintro (q | u | - | u) b hb
        · exact Or.inr (by simpa [Owns] using hb)
        · exact Or.inr (by simpa [Owns, hpool'] using hb)
        · exact Or.inr (by simpa [Owns] using hb)
        · rcases mem_update_cons hb with ⟨rfl, rfl⟩ | hb
          · exact Or.inl ⟨rfl, rfl⟩
          · exact Or.inr hb
  allocated := by
    rcases newDataNode_cases L tid t key mapped with
      ⟨rest, hpool, hpool', hfresh⟩ | ⟨-, hnew, hpool', hfresh⟩
    · rw [hfresh]
      rintro (q | u | - | u) b hb
      · exact h.allocated (.slot q) b (by simpa [Owns] using hb)
      · apply h.allocated (.pool u) b
        simp only [Owns, hpool'] at hb ⊢
        by_cases hu : u = tid
        · subst u
          rw [Function.update_self] at hb
          rw [hpool]
          exact List.mem_cons_of_mem _ hb
        · rwa [Function.update_of_ne hu] at hb
      · exact h.allocated .drain b (by simpa [Owns] using hb)
      · rcases mem_update_cons hb with ⟨rfl, rfl⟩ | hb
        · exact h.allocated (.pool u) _ (by simp [Owns, hpool])
        · exact h.allocated (.hand u) b hb
    · rw [hfresh]
      rintro (q | u | - | u) b hb
      · exact Nat.lt_succ_of_lt (h.allocated (.slot q) b (by simpa [Owns] using hb))
      · exact Nat.lt_succ_of_lt (h.allocated (.pool u) b (by simpa [Owns, hpool'] using hb))
      · exact Nat.lt_succ_of_lt (h.allocated .drain b (by simpa [Owns] using hb))
      · rcases mem_update_cons hb with ⟨rfl, rfl⟩ | hb
        · omega
        · exact Nat.lt_succ_of_lt (h.allocated (.hand u) b hb)
  poolNodup := by
    intro u
    rcases newDataNode_cases L tid t key mapped with
      ⟨rest, hpool, hpool', -⟩ | ⟨-, -, hpool', -⟩
    · have hnodup := h.poolNodup tid
      rw [hpool, List.nodup_cons] at hnodup
      rw [hpool']
      exact update_nodup h.poolNodup tid hnodup.2 u
    · rw [hpool']
      exact h.poolNodup u
  drainNodup := by simpa using h.drainNodup
  handNodup := by
    have hnot : (newDataNode L tid t key mapped).1 ∉ r := by
      intro hmem
      have hown : Owns t (Function.update hand tid r) (.hand tid)
          (newDataNode L tid t key mapped).1 := by
        simpa [Owns] using hmem
      rcases newDataNode_cases L tid t key mapped with
        ⟨rest, hpool, -, -⟩ | ⟨-, hnew, -, -⟩
      · cases h.exclusive.eq (.pool tid) _ (by simp [Owns, hpool]) hown
      · have := h.allocated _ _ hown
        omega
    have hnodup := update_nodup h.handNodup tid
      (List.nodup_cons.mpr ⟨hnot, h.hand_nodup⟩)
    simpa using hnodup

@[simp] theorem setSlot_slots (t : Table K T) (p : Path) (s : Slot Nat) :
    (setSlot t p s).slots = Function.update t.slots p s := rfl

theorem setSlot_setSlot (t : Table K T) (p : Path) (s s' : Slot Nat) :
    setSlot (setSlot t p s) p s' = setSlot t p s' := by
  simp [setSlot, Trie.setSlot_setSlot]

theorem Sound.link (h : Sound L D t (Function.update hand tid (a :: r))) {n : Nat}
    (hblock : t.heap a = block L key mapped) (harr : t.slots (L.keyPath key n) = .array)
    (hnull : t.slots (L.keyPath key (n + 1)) = .null) :
    Sound L D (setSlot t (L.keyPath key (n + 1)) (.data a)) (Function.update hand tid r) := by
  obtain ⟨hnot, hnodup, hown⟩ := h.hand_cons
  let p := L.keyPath key (n + 1)
  have hmove : ∀ o b, Owns (setSlot t p (.data a)) (Function.update hand tid r) o b →
      o = .slot p ∧ b = a ∨ Owns t (Function.update hand tid (a :: r)) o b ∧
        ¬ (o = .hand tid ∧ b = a) := by
    rintro (q' | u | - | u) b hb
    · simp only [Owns, setSlot_slots] at hb
      by_cases hq' : q' = p
      · subst q'
        rw [Function.update_self] at hb
        exact Or.inl ⟨rfl, (Slot.data.inj hb).symm⟩
      · rw [Function.update_of_ne hq'] at hb
        exact Or.inr ⟨hb, by simp⟩
    · exact Or.inr ⟨hb, by simp⟩
    · exact Or.inr ⟨hb, by simp⟩
    · obtain ⟨hb, hne⟩ := mem_update_tail hnot hb
      exact Or.inr ⟨hb, by simpa using hne⟩
  refine ⟨h.valid.link hblock harr hnull, h.epoch, h.exclusive.transfer _ _ _ hown hmove, ?_,
    h.poolNodup, h.drainNodup, ?_⟩
  · intro o b hb
    rcases hmove o b hb with ⟨-, rfl⟩ | ⟨hb, -⟩
    · exact h.allocated _ _ hown
    · exact h.allocated o b hb
  · simpa using update_nodup h.handNodup tid hnodup

theorem Sound.unlink (h : Sound L D t (Function.update hand tid r)) {q : Path} {i : Nat}
    (hq : p = q ++ [i]) (hold : t.slots p = .data old) :
    Sound L D (setSlot t p .null) (Function.update hand tid (r ++ [old])) := by
  have hmove : ∀ o b, Owns (setSlot t p .null) (Function.update hand tid (r ++ [old])) o b →
      o = .hand tid ∧ b = old ∨ Owns t (Function.update hand tid r) o b ∧
        ¬ (o = .slot p ∧ b = old) := by
    rintro (q' | u | - | u) b hb
    · simp only [Owns, setSlot_slots] at hb
      by_cases hq' : q' = p
      · subst q'
        rw [Function.update_self] at hb
        cases hb
      · rw [Function.update_of_ne hq'] at hb
        exact Or.inr ⟨hb, by simp [hq']⟩
    · exact Or.inr ⟨hb, by simp⟩
    · exact Or.inr ⟨hb, by simp⟩
    · simp only [Owns] at hb ⊢
      by_cases hu : u = tid
      · subst u
        rw [Function.update_self, List.mem_append, List.mem_singleton] at hb
        rw [Function.update_self]
        rcases hb with hb | rfl
        · exact Or.inr ⟨hb, by simp⟩
        · exact Or.inl ⟨rfl, rfl⟩
      · rw [Function.update_of_ne hu] at hb ⊢
        exact Or.inr ⟨hb, by simp⟩
  refine ⟨h.valid.unlink hq hold, h.epoch, h.exclusive.transfer (.slot p) _ _ hold hmove, ?_,
    h.poolNodup, h.drainNodup, ?_⟩
  · intro o b hb
    rcases hmove o b hb with ⟨-, rfl⟩ | ⟨hb, -⟩
    · exact h.allocated (.slot p) _ hold
    · exact h.allocated o b hb
  · have hnodup : (r ++ [old]).Nodup := by
      rw [List.nodup_append]
      refine ⟨h.hand_nodup, List.nodup_singleton old, ?_⟩
      intro b hb c hc hbc
      rw [List.mem_singleton.mp hc] at hbc
      subst hbc
      cases h.exclusive.eq (.slot p) (.hand tid) hold (by simpa [Owns] using hb)
    simpa using update_nodup h.handNodup tid hnodup

theorem Sound.swap (h : Sound L D t (Function.update hand tid (a :: r))) {n : Nat}
    (hblock : t.heap a = block L key mapped)
    (hold : t.slots (L.keyPath key (n + 1)) = .data old) :
    Sound L D (setSlot t (L.keyPath key (n + 1)) (.data a))
      (Function.update hand tid (r ++ [old])) := by
  have hslots : (setSlot t (L.keyPath key (n + 1)) .null).slots (L.keyPath key n) = .array := by
    rw [setSlot_slots, Function.update_of_ne (L.keyPath_ne_succ key n)]
    exact h.array_of_data hold
  have hunlink := h.unlink (L.keyPath_succ key n) hold
  rw [List.cons_append] at hunlink
  have hlink := hunlink.link hblock hslots (Function.update_self ..)
  rwa [setSlot_setSlot] at hlink

theorem Sound.split (h : Sound L D t hand) (hadm : L.Admissible D) {n : Nat}
    (hold : t.slots (L.keyPath key (n + 1)) = .data old)
    (hne : (t.heap old).hash ≠ L.hasher key) :
    Sound L D (publishArray t (L.keyPath key (n + 1)) (L.fragment (t.heap old).hash (n + 1)) old)
      hand := by
  let p := L.keyPath key (n + 1)
  let i := L.fragment (t.heap old).hash (n + 1)
  have hmove : ∀ o b, Owns (publishArray t p i old) hand o b →
      o = .slot (p ++ [i]) ∧ b = old ∨ Owns t hand o b ∧ ¬ (o = .slot p ∧ b = old) := by
    rintro (q | u | - | u) b hb
    · rcases (publish_eq_data_iff h.wf hold).mp hb with ⟨rfl, rfl⟩ | ⟨hq, hb⟩
      · exact Or.inl ⟨rfl, rfl⟩
      · exact Or.inr ⟨hb, by simp [p, hq]⟩
    · exact Or.inr ⟨hb, by simp⟩
    · exact Or.inr ⟨hb, by simp⟩
    · exact Or.inr ⟨hb, by simp⟩
  refine ⟨h.valid.split hold (h.lt_of_ne hadm hold hne), h.epoch,
    h.exclusive.transfer (.slot p) _ _ hold hmove,
    ?_, h.poolNodup, h.drainNodup, h.handNodup⟩
  intro o b hb
  rcases hmove o b hb with ⟨-, rfl⟩ | ⟨hb, -⟩
  · exact h.allocated (.slot p) b hold
  · exact h.allocated o b hb

@[simp] theorem pushData_slots : (pushData tid t a).slots = t.slots := rfl

theorem Sound.push (h : Sound L D t (Function.update hand tid (a :: r))) :
    Sound L D (pushData tid t a) (Function.update hand tid r) := by
  obtain ⟨hnot, hnodup, hown⟩ := h.hand_cons
  have hmove : ∀ o b, Owns (pushData tid t a) (Function.update hand tid r) o b →
      o = .pool tid ∧ b = a ∨ Owns t (Function.update hand tid (a :: r)) o b ∧
        ¬ (o = .hand tid ∧ b = a) := by
    rintro (q' | u | - | u) b hb
    · exact Or.inr ⟨hb, by simp⟩
    · simp only [Owns, pushData] at hb ⊢
      by_cases hu : u = tid
      · subst u
        rw [Function.update_self, List.mem_append, List.mem_singleton] at hb
        rcases hb with hb | rfl
        · exact Or.inr ⟨hb, by simp⟩
        · exact Or.inl ⟨rfl, rfl⟩
      · rw [Function.update_of_ne hu] at hb
        exact Or.inr ⟨hb, by simp⟩
    · exact Or.inr ⟨hb, by simp⟩
    · obtain ⟨hb, hne⟩ := mem_update_tail hnot hb
      exact Or.inr ⟨hb, by simpa using hne⟩
  refine ⟨h.valid, h.epoch, h.exclusive.transfer _ _ _ hown hmove, ?_, ?_, h.drainNodup, ?_⟩
  · intro o b hb
    rcases hmove o b hb with ⟨-, rfl⟩ | ⟨hb, -⟩
    · exact h.allocated _ _ hown
    · exact h.allocated o b hb
  · intro u
    refine update_nodup h.poolNodup tid ?_ u
    rw [List.nodup_append]
    refine ⟨h.poolNodup tid, List.nodup_singleton a, ?_⟩
    intro b hb c hc hbc
    rw [List.mem_singleton.mp hc] at hbc
    subst hbc
    cases h.exclusive.eq (.pool tid) _ hb hown
  · simpa using update_nodup h.handNodup tid hnodup

theorem Sound.pushAll {xs : List (Nat × Nat)}
    (h : Sound L D t (Function.update hand tid (xs.map Prod.snd ++ r))) :
    Sound L D (deleteCallbacks tid t xs) (Function.update hand tid r) := by
  induction xs generalizing t with
  | nil => exact h
  | cons x xs ih => exact ih h.push

/-- A call of the epoch exchanges nodes between the drain list and the thread
that makes it. -/
theorem Sound.exchange {e : LightEpoch Nat} {xs : List (Nat × Nat)}
    (ys : List (Nat × Nat)) (h : Sound L D t (Function.update hand tid (ys.map Prod.snd ++ r)))
    (he : e.Consistent)
    (hperm : (xs ++ pendings e.drainList).Perm (ys ++ pendings t.epoch.drainList)) :
    Sound L D { t with epoch := e } (Function.update hand tid (xs.map Prod.snd ++ r)) := by
  have hinto : ∀ b, b ∈ ys.map Prod.snd ++ r ∨
      b ∈ (pendings t.epoch.drainList).map Prod.snd →
      ∃ o, (o = .drain ∨ o = .hand tid) ∧
        Owns t (Function.update hand tid (ys.map Prod.snd ++ r)) o b := by
    rintro b (hb | hb)
    · exact ⟨.hand tid, Or.inr rfl, by simpa only [Owns, Function.update_self] using hb⟩
    · exact ⟨.drain, Or.inl rfl, hb⟩
  have hall : ∀ b, b ∈ xs.map Prod.snd ++ r ∨ b ∈ (pendings e.drainList).map Prod.snd →
      b ∈ ys.map Prod.snd ++ r ∨ b ∈ (pendings t.epoch.drainList).map Prod.snd := by
    intro b hb
    have hmem := (hperm.map Prod.snd).mem_iff (a := b)
    simp only [List.map_append, List.mem_append] at hmem hb ⊢
    tauto
  have hnodup : ((xs ++ pendings e.drainList).map Prod.snd ++ r).Nodup := by
    have hperm' := (hperm.map Prod.snd).append_right r
    have hswap : ((ys ++ pendings t.epoch.drainList).map Prod.snd ++ r).Perm
        (ys.map Prod.snd ++ r ++ (pendings t.epoch.drainList).map Prod.snd) := by
      rw [List.map_append, List.append_assoc, List.append_assoc]
      exact List.perm_append_comm.append_left _
    rw [(hperm'.trans hswap).nodup_iff, List.nodup_append]
    refine ⟨h.hand_nodup, h.drainNodup, ?_⟩
    intro b hb c hc hbc
    subst hbc
    cases h.exclusive.eq (.hand tid) .drain
      (by simpa only [Owns, Function.update_self] using hb) hc
  have hsplit : (xs.map Prod.snd ++ r ++ (pendings e.drainList).map Prod.snd).Nodup := by
    have hswap : (xs.map Prod.snd ++ r ++ (pendings e.drainList).map Prod.snd).Perm
        ((xs ++ pendings e.drainList).map Prod.snd ++ r) := by
      rw [List.map_append, List.append_assoc, List.append_assoc]
      exact List.perm_append_comm.append_left _
    exact hswap.nodup_iff.mpr hnodup
  obtain ⟨hhand, hdrain, hdisj⟩ := List.nodup_append.mp hsplit
  have hin : ∀ o b, (o = .drain ∨ o = .hand tid) →
      Owns { t with epoch := e } (Function.update hand tid (xs.map Prod.snd ++ r)) o b →
      ∃ o₁, (o₁ = .drain ∨ o₁ = .hand tid) ∧
        Owns t (Function.update hand tid (ys.map Prod.snd ++ r)) o₁ b := by
    rintro o b (rfl | rfl) hb
    · exact hinto b (hall b (Or.inr hb))
    · exact hinto b (hall b (Or.inl (by simpa only [Owns, Function.update_self] using hb)))
  have hout : ∀ o b, ¬ (o = .drain ∨ o = .hand tid) →
      Owns { t with epoch := e } (Function.update hand tid (xs.map Prod.snd ++ r)) o b →
      Owns t (Function.update hand tid (ys.map Prod.snd ++ r)) o b := by
    rintro (q | u | - | u) b ho hb
    · exact hb
    · exact hb
    · simp at ho
    · have hu : u ≠ tid := by
        rintro rfl
        simp at ho
      simp only [Owns, Function.update_of_ne hu] at hb ⊢
      exact hb
  refine ⟨h.valid, he, h.exclusive.exchange hin hout ?_, ?_, h.poolNodup, hdrain, ?_⟩
  · rintro o o' b (rfl | rfl) (rfl | rfl) hb hb'
    · rfl
    · simp only [Owns, Function.update_self] at hb hb'
      exact absurd rfl (hdisj b hb' b hb)
    · simp only [Owns, Function.update_self] at hb hb'
      exact absurd rfl (hdisj b hb b hb')
    · rfl
  · intro o b hb
    by_cases ho : o = .drain ∨ o = .hand tid
    · obtain ⟨o₁, -, ho₁⟩ := hin o b ho hb
      exact h.allocated o₁ b ho₁
    · exact h.allocated o b (hout o b ho hb)
  · have := update_nodup h.handNodup tid hhand
    simpa only [Function.update_idem] using this

theorem Sound.setEpoch (h : Sound L D t hand) {e : LightEpoch Nat} (he : e.Consistent)
    (hdrain : e.drainList = t.epoch.drainList) : Sound L D { t with epoch := e } hand where
  valid := h.valid
  epoch := he
  exclusive := h.exclusive.mono fun o b hb => by
    cases o <;> simpa [Owns, hdrain] using hb
  allocated := fun o b hb => h.allocated o b (by cases o <;> simpa [Owns, hdrain] using hb)
  poolNodup := h.poolNodup
  drainNodup := by simpa [hdrain] using h.drainNodup
  handNodup := h.handNodup

end Sound

end HashComp.LockFree
