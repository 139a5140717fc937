import HashComp.Concurrent.Transition

namespace HashComp.Concurrent

open HashComp.HashTrie
open HashComp.LevelHash
open HashComp.Operations
open HashComp.Runs
open HashComp.SlotTrie
open HashComp.Threads

section Constructor

variable {K T : Type*} {L : Layout K} {t : Table K T}

/-- `max_level_` levels are enough to part any two keys that hash differently. -/
def Fits (L : Layout K) (t : Table K T) : Prop :=
  ∃ D < t.maxLevel, L.Admissible D

def Constructs (L : Layout K) (keySize : Nat) (t : Table K T) : Prop :=
  ∃ garbage fuel, new L garbage keySize fuel = some t

theorem Constructs.maxLevel_pos {keySize : Nat} (h : Constructs L keySize t) :
    0 < t.maxLevel := by
  obtain ⟨garbage, fuel, hnew⟩ := h
  obtain ⟨level, hcount, rfl⟩ := Option.map_eq_some_iff.mp hnew
  exact Constructor.maxLevel_pos hcount

theorem new_default (hlevel : L.hashLevel = 4) (garbage : Nat → DataBlock K T) {fuel : Nat}
    (hfuel : 18 ≤ fuel) : new L garbage 8 fuel = some ⟨.empty garbage, 0, 0, 19⟩ := by
  have hcount : constructedLevel 4 8 fuel = some 19 := Constructor.maxLevel_default hfuel
  rw [new, hlevel, hcount]
  rfl

theorem Constructs.eq_default (hlevel : L.hashLevel = 4) (h : Constructs L 8 t) :
    ∃ garbage, t = ⟨.empty garbage, 0, 0, 19⟩ := by
  obtain ⟨garbage, fuel, hnew⟩ := h
  refine ⟨garbage, ?_⟩
  obtain ⟨level, hcount, rfl⟩ := Option.map_eq_some_iff.mp hnew
  rw [hlevel] at hcount
  rw [Constructor.maxLevel_eq_default hcount]

theorem Constructs.fits (hlevel : L.hashLevel = 4)
    (hroot : L.rootHashLevel = 4 ∨ L.rootHashLevel = 16) (h : Constructs L 8 t) : Fits L t := by
  obtain ⟨garbage, rfl⟩ := h.eq_default hlevel
  obtain ⟨D, hD, hadm⟩ := Layout.exists_admissible hlevel hroot
  exact ⟨D, Nat.lt_of_le_of_lt hD (show 15 < 19 by decide), hadm⟩

end Constructor

section Sound

variable {K T : Type*} {L : Layout K} {D : Nat} {t t' : Table K T} {l l' : Local K T}
  {key : K} {mapped : T} {p : Path} {s : Slot Nat} {a : Nat}

/-- The table part of the invariant. -/
structure Sound (L : Layout K) (D : Nat) (t : Table K T) : Prop
    extends valid : t.toTrie.Valid L D where
  allocated : ∀ p a, t.slots p = .data a → a < t.fresh
  levels : L.Levels t.maxLevel D

theorem Constructs.sound {keySize : Nat} (hnew : Constructs L keySize t)
    (hlv : L.Levels t.maxLevel D) : Sound L D t := by
  obtain ⟨garbage, fuel, hnew⟩ := hnew
  obtain ⟨level, -, rfl⟩ := Option.map_eq_some_iff.mp hnew
  exact ⟨Trie.valid_empty garbage, fun p a hp => absurd hp (Trie.empty_slots_ne garbage p a), hlv⟩

theorem Sound.le_of_array (h : Sound L D t) {n : Nat}
    (harr : t.slots (L.keyPath key n) = .array) : n ≤ D := by
  simpa using h.shallow _ harr

theorem Sound.split_lt (h : Sound L D t) {n old : Nat}
    (hold : t.slots (L.keyPath key (n + 1)) = .data old)
    (hne : (t.heap old).hash ≠ L.hasher key) (hlevel : n + 1 ≠ t.maxLevel)
    (hshift : L.hashLevel * n < 64) : n < D := by
  rcases Nat.lt_or_eq_of_le (h.le_of_array (h.array_of_data hold)) with hlt | rfl
  · exact hlt
  · rcases h.levels.last with hlast | hlast | hadm
    · exact absurd hlast hlevel
    · exact absurd hshift (Nat.not_lt.mpr hlast)
    · exact h.lt_of_ne hadm hold hne

theorem Sound.not_runsOut (h : Sound L D t) (hadm : L.Admissible D)
    (hl : LocalOk L t.slots l) : ¬ RunsOut L t l := by
  intro hruns
  cases l with
  | attempt m n fail loc currArr p =>
      obtain ⟨harr, rfl, -⟩ := hl
      have hn := h.le_of_array harr
      cases m with
      | insert key mapped =>
          cases loc with
          | data old =>
              obtain ⟨-, hne, hshift | ⟨hlevel, hold⟩⟩ := hruns
              · exact absurd (Nat.le_trans hshift (Nat.mul_le_mul_left _ hn))
                  (Nat.not_le.mpr hadm.shift)
              · have := h.lt_of_ne hadm hold hne
                have := h.levels.below
                omega
          | null | array => exact hruns
      | update | remove => exact hruns
  | _ => exact hruns

theorem Sound.alloc_heap (h : Sound L D t) (hp : t.slots p = .data a) :
    (newDataNode L t key mapped).2.heap a = t.heap a :=
  Function.update_of_ne (Nat.ne_of_lt (h.allocated p a hp)) ..

@[simp] theorem setSlot_slots (t : Table K T) (p : Path) (s : Slot Nat) :
    (setSlot t p s).slots = Function.update t.slots p s := rfl

theorem Sound.setSlot (h : Sound L D t) (hvalid : (t.toTrie.setSlot p s).Valid L D)
    (hs : ∀ a, s = .data a → a < t.fresh) : Sound L D (setSlot t p s) where
  valid := hvalid
  allocated := by
    intro q a hq
    rw [setSlot_slots] at hq
    by_cases hqp : q = p
    · subst q
      rw [Function.update_self] at hq
      exact hs a hq
    · rw [Function.update_of_ne hqp] at hq
      exact h.allocated q a hq
  levels := h.levels

theorem Sound.alloc (h : Sound L D t) : Sound L D (newDataNode L t key mapped).2 where
  valid := h.valid.setHeap fun _ _ hp => h.alloc_heap hp
  allocated := fun p a hp => Nat.lt_succ_of_lt (h.allocated p a hp)
  levels := h.levels

theorem newDataNode_heap_self (L : Layout K) (t : Table K T) (key : K) (mapped : T) :
    (newDataNode L t key mapped).2.heap t.fresh = block L key mapped :=
  Function.update_self ..

theorem Sound.link (h : Sound L D t) {n : Nat} (harr : t.slots (L.keyPath key n) = .array)
    (hnull : t.slots (L.keyPath key (n + 1)) = .null) (mapped : T) :
    Sound L D (Concurrent.setSlot (newDataNode L t key mapped).2 (L.keyPath key (n + 1))
      (.data t.fresh)) := by
  refine h.alloc.setSlot (h.alloc.valid.link (newDataNode_heap_self ..) harr hnull) ?_
  rintro a ⟨⟩
  exact Nat.lt_succ_self _

theorem Sound.swap (h : Sound L D t) {n : Nat}
    (hold : t.slots (L.keyPath key (n + 1)) = .data a) (mapped : T) :
    Sound L D (Concurrent.setSlot (newDataNode L t key mapped).2 (L.keyPath key (n + 1))
      (.data t.fresh)) := by
  refine h.alloc.setSlot (h.alloc.valid.swap (newDataNode_heap_self ..) hold) ?_
  rintro a ⟨⟩
  exact Nat.lt_succ_self _

theorem Sound.setSize (h : Sound L D t) (size : BitVec 64) : Sound L D { t with size := size } :=
  ⟨h.valid, h.allocated, h.levels⟩

theorem Sound.transition (h : Sound L D t) (htr : Transition L t l t' l') : Sound L D t' := by
  cases htr with
  | link harr hcas => exact h.link harr hcas _
  | split harr hne hcas hlevel hshift =>
      refine ⟨h.valid.split hcas (h.split_lt hcas hne hlevel hshift), ?_, h.levels⟩
      intro q b hb
      rcases (publish_eq_data_iff h.wf hcas).mp hb with ⟨-, rfl⟩ | ⟨-, hb⟩
      · exact h.allocated _ b hcas
      · exact h.allocated q b hb
  | replace harr hcas hfail => exact h.swap hcas _
  | unlink harr hcas hfail =>
      exact h.setSlot (h.unlink (L.keyPath_succ _ _) hcas) (by simp)
  | count => exact h.setSize _
  | _ => exact h

theorem Transition.grows (htr : Transition L t l t' l') (hwf : WellFormed t.slots) :
    Grows t.slots t'.slots := by
  cases htr with
  | link _ hcas => exact grows_update (m := t.slots) (by simp [hcas]) _
  | split _ _ hcas _ _ => exact grows_publish hwf (by simp [hcas])
  | replace _ hcas _ => exact grows_update (m := t.slots) (by simp [hcas]) _
  | unlink _ hcas _ => exact grows_update (by simp [hcas]) _
  | _ => exact Grows.refl _

theorem Transition.localOk (htr : Transition L t l t' l') : LocalOk L t'.slots l' := by
  cases htr with
  | load harr =>
      exact ⟨harr, rfl, fun h => h, by decide, fun h => absurd h (by decide)⟩
  | lost harr hcas hfail => exact ⟨harr, rfl, fun h => h, by omega, by omega⟩
  | split harr hne hcas hlevel hshift => exact ⟨publish_self, fun _ => rfl⟩
  | spin harr hnext hfail => exact ⟨harr, rfl, fun _ => hnext, hfail, fun _ => ⟨rfl, rfl⟩⟩
  | exhaust hnext => exact ⟨hnext, fun _ => rfl⟩
  | descend hm hnext => exact ⟨hnext, fun _ => rfl⟩
  | getDescend hnext => exact ⟨hnext, fun _ => rfl⟩
  | _ => trivial

theorem begin_localOk {slots : Slots Nat} (hroot : slots [] = .array) (op : Op K T) :
    LocalOk L slots (begin op) := by
  cases op <;> exact ⟨hroot, fun hne => absurd rfl hne⟩

end Sound

section Threads

variable {K T : Type*} {L : Layout K} {D tid : Nat} {t : Table K T} {l : Local K T}
  {threads : Nat → Option (Local K T)} {op : Op K T} {s s' : State K T} {a : Action (Op K T)}

structure Inv (L : Layout K) (D : Nat) (t : Table K T)
    (threads : Nat → Option (Local K T)) : Prop where
  sound : Sound L D t
  locals : ∀ u l, threads u = some l → LocalOk L t.slots l

theorem Inv.transition (h : Inv L D t threads) (hl : threads tid = some l)
    (hgives : ¬ GivesUp L t l) (hruns : ¬ RunsOut L t l) :
    Transition L t l (step L t l).1 (step L t l).2 :=
  transition_of_step h.sound.levels h.sound.shallow (h.locals tid l hl) hgives hruns

theorem Inv.step (h : Inv L D t threads)
    (htr : Transition L t l (step L t l).1 (step L t l).2) :
    Inv L D (step L t l).1 (Function.update threads tid (some (step L t l).2)) := by
  refine ⟨h.sound.transition htr, ?_⟩
  intro u l' hl'
  by_cases hu : u = tid
  · subst u
    rw [Function.update_self] at hl'
    rw [← Option.some.inj hl']
    exact htr.localOk
  · rw [Function.update_of_ne hu] at hl'
    exact (h.locals u l' hl').grows (htr.grows h.sound.wf)

theorem Inv.update (h : Inv L D t threads) {o : Option (Local K T)}
    (hlocal : ∀ l, o = some l → LocalOk L t.slots l) :
    Inv L D t (Function.update threads tid o) := by
  refine ⟨h.sound, ?_⟩
  intro u l hl
  by_cases hu : u = tid
  · subst u
    rw [Function.update_self] at hl
    exact hlocal l hl
  · rw [Function.update_of_ne hu] at hl
    exact h.locals u l hl

theorem Inv.invoke (h : Inv L D t threads) (tid : Nat) (op : Op K T) :
    Inv L D t (Function.update threads tid (some (begin op))) := by
  refine h.update ?_
  rintro l ⟨⟩
  exact begin_localOk h.sound.wf.root op

theorem Inv.ret (h : Inv L D t threads) (tid : Nat) :
    Inv L D t (Function.update threads tid none) := by
  refine h.update ?_
  rintro l ⟨⟩

def Proceeds (L : Layout K) (s : State K T) : Action (Op K T) → Prop
  | .run tid => ∀ l, s.threads tid = some l → ¬ GivesUp L s.shared l ∧ ¬ RunsOut L s.shared l
  | _ => True

theorem Inv.next (h : Inv L D s.shared s.threads) (hok : Proceeds L s a)
    (hnext : (program L).next s a = some s') : Inv L D s'.shared s'.threads := by
  rcases Program.next_cases hnext with
    ⟨tid, op, -, -, rfl⟩ | ⟨tid, l, rfl, hl, -, rfl⟩ | ⟨tid, op, r, -, -, rfl⟩
  · exact h.invoke tid op
  · exact h.step (h.transition hl (hok l hl).1 (hok l hl).2)
  · exact h.ret tid

end Threads

end HashComp.Concurrent
