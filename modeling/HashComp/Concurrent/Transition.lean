import HashComp.Concurrent.Model

namespace HashComp.Concurrent

open HashComp.HashTrie
open HashComp.LevelHash
open HashComp.Operations
open HashComp.SlotTrie

variable {K T : Type*}

/-- What a thread's local state says about the slots.  A retry loop that has
used up its tries has followed an array. -/
def LocalOk (L : Layout K) (slots : Slots Nat) : Local K T → Prop
  | .level m n _ currArr => AtLevel L slots m.key n currArr
  | .attempt m n fail loc currArr p =>
      slots (L.keyPath m.key n) = .array ∧ p = L.keyPath m.key (n + 1) ∧
        (loc = .array → slots p = .array) ∧ fail ≤ failLimit ∧
        (fail = failLimit → loc = .array ∧ currArr = some p)
  | .getLevel key n _ currArr => AtLevel L slots key n currArr
  | .fault => False
  | _ => True

def GivesUp (L : Layout K) (t : Table K T) : Local K T → Prop
  | .attempt (.insert key _) _ fail loc _ p =>
      fail + 1 = failLimit ∧ loc ≠ .array ∧
        (∀ old, loc = .data old → (t.heap old).hash ≠ L.hasher key) ∧ t.slots p ≠ loc
  | .attempt _ _ fail (.data old) _ p => fail + 1 = failLimit ∧ t.slots p ≠ .data old
  | _ => False

def RunsOut (L : Layout K) (t : Table K T) : Local K T → Prop
  | .attempt (.insert key _) n fail (.data old) _ p =>
      fail < failLimit ∧ (t.heap old).hash ≠ L.hasher key ∧
        (64 ≤ L.hashLevel * n ∨ n + 1 = t.maxLevel ∧ t.slots p = .data old)
  | _ => False

theorem LocalOk.grows {L : Layout K} {slots slots' : Slots Nat} {l : Local K T}
    (h : LocalOk L slots l) (hg : Grows slots slots') : LocalOk L slots' l := by
  cases l with
  | level m n loc currArr => exact AtLevel.grows h hg
  | attempt m n fail loc currArr p =>
      obtain ⟨harr, hp, hloc, hfail⟩ := h
      exact ⟨hg _ harr, hp, fun h => hg _ (hloc h), hfail⟩
  | getLevel key n loc currArr => exact AtLevel.grows h hg
  | fault => exact h
  | located | done => trivial

/-- The steps of the machine.  Each constructor gives the local state before,
the table after and the local state after. -/
inductive Transition (L : Layout K) (t : Table K T) :
    Local K T → Table K T → Local K T → Prop where
  | load {m : Mutation K T} {n : Nat} {loc : Slot Nat} {currArr : Option Path}
      (harr : t.slots (L.keyPath m.key n) = .array) :
      Transition L t (.level m n loc currArr) t
        (.attempt m n 0 (t.slots (L.keyPath m.key (n + 1))) currArr (L.keyPath m.key (n + 1)))
  | link {key : K} {mapped : T} {n fail : Nat} {currArr : Option Path}
      (harr : t.slots (L.keyPath key n) = .array)
      (hcas : t.slots (L.keyPath key (n + 1)) = .null) :
      Transition L t
        (.attempt (.insert key mapped) n fail .null currArr (L.keyPath key (n + 1)))
        (setSlot (newDataNode L t key mapped).2 (L.keyPath key (n + 1)) (.data t.fresh))
        (.located (.insert key mapped) (.data t.fresh))
  | lost {m : Mutation K T} {n fail : Nat} {loc : Slot Nat} {currArr : Option Path}
      (harr : t.slots (L.keyPath m.key n) = .array)
      (hcas : t.slots (L.keyPath m.key (n + 1)) ≠ loc) (hfail : fail + 1 < failLimit) :
      Transition L t (.attempt m n fail loc currArr (L.keyPath m.key (n + 1))) t
        (.attempt m n (fail + 1) (t.slots (L.keyPath m.key (n + 1))) currArr
          (L.keyPath m.key (n + 1)))
  | absent {m : Mutation K T} {n fail : Nat} {currArr : Option Path} {p : Path}
      (hm : ∀ key mapped, m ≠ .insert key mapped) :
      Transition L t (.attempt m n fail .null currArr p) t (.located m .null)
  | duplicate {key : K} {mapped : T} {n fail old : Nat} {currArr : Option Path} {p : Path}
      (hsame : (t.heap old).hash = L.hasher key) :
      Transition L t (.attempt (.insert key mapped) n fail (.data old) currArr p) t
        (.located (.insert key mapped) .null)
  | split {key : K} {mapped : T} {n fail old : Nat} {currArr : Option Path}
      (harr : t.slots (L.keyPath key n) = .array)
      (hne : (t.heap old).hash ≠ L.hasher key)
      (hcas : t.slots (L.keyPath key (n + 1)) = .data old) (hlevel : n + 1 ≠ t.maxLevel)
      (hshift : L.hashLevel * n < 64) :
      Transition L t
        (.attempt (.insert key mapped) n fail (.data old) currArr (L.keyPath key (n + 1)))
        (publishArray t (L.keyPath key (n + 1)) (L.fragment (t.heap old).hash (n + 1)) old)
        (.level (.insert key mapped) (n + 1) (.data old) (some (L.keyPath key (n + 1))))
  | replace {key : K} {mapped : T} {n fail old : Nat} {currArr : Option Path}
      (harr : t.slots (L.keyPath key n) = .array)
      (hcas : t.slots (L.keyPath key (n + 1)) = .data old) (hfail : fail < failLimit) :
      Transition L t
        (.attempt (.update key mapped) n fail (.data old) currArr (L.keyPath key (n + 1)))
        (setSlot (newDataNode L t key mapped).2 (L.keyPath key (n + 1)) (.data t.fresh))
        (.located (.update key mapped) (.data t.fresh))
  | unlink {key : K} {n fail old : Nat} {currArr : Option Path}
      (harr : t.slots (L.keyPath key n) = .array)
      (hcas : t.slots (L.keyPath key (n + 1)) = .data old) (hfail : fail < failLimit) :
      Transition L t (.attempt (.remove key) n fail (.data old) currArr (L.keyPath key (n + 1)))
        (setSlot t (L.keyPath key (n + 1)) .null) (.located (.remove key) .null)
  | spin {key : K} {mapped : T} {n fail : Nat} {currArr : Option Path}
      (harr : t.slots (L.keyPath key n) = .array)
      (hnext : t.slots (L.keyPath key (n + 1)) = .array) (hfail : fail < failLimit) :
      Transition L t
        (.attempt (.insert key mapped) n fail .array currArr (L.keyPath key (n + 1))) t
        (.attempt (.insert key mapped) n (fail + 1) .array (some (L.keyPath key (n + 1)))
          (L.keyPath key (n + 1)))
  | exhaust {m : Mutation K T} {n : Nat}
      (hnext : t.slots (L.keyPath m.key (n + 1)) = .array) :
      Transition L t
        (.attempt m n failLimit .array (some (L.keyPath m.key (n + 1)))
          (L.keyPath m.key (n + 1))) t
        (.level m (n + 1) .null (some (L.keyPath m.key (n + 1))))
  | descend {m : Mutation K T} {n fail : Nat} {currArr : Option Path}
      (hm : ∀ key mapped, m ≠ .insert key mapped)
      (hnext : t.slots (L.keyPath m.key (n + 1)) = .array) :
      Transition L t (.attempt m n fail .array currArr (L.keyPath m.key (n + 1))) t
        (.level m (n + 1) .array (some (L.keyPath m.key (n + 1))))
  | count {key : K} {mapped : T} {loc : Slot Nat} (hloc : loc ≠ .null) :
      Transition L t (.located (.insert key mapped) loc) { t with size := t.size + 1 }
        (.done (.mutate (.insert key mapped)) (.bool true))
  | refuse {key : K} {mapped : T} :
      Transition L t (.located (.insert key mapped) .null) t
        (.done (.mutate (.insert key mapped)) (.bool false))
  | answer {m : Mutation K T} {loc : Slot Nat} (hm : ∀ key mapped, m ≠ .insert key mapped) :
      Transition L t (.located m loc) t (.done (.mutate m) (.bool (loc ≠ .null)))
  | getStop {key : K} {n : Nat} {loc : Slot Nat} {currArr : Option Path}
      (harr : t.slots (L.keyPath key n) = .array)
      (hstop : t.slots (L.keyPath key (n + 1)) ≠ .array) :
      Transition L t (.getLevel key n loc currArr) t
        (.done (.get key) (t.getResult L key (t.slots (L.keyPath key (n + 1)))))
  | getDescend {key : K} {n : Nat} {loc : Slot Nat} {currArr : Option Path}
      (hnext : t.slots (L.keyPath key (n + 1)) = .array) :
      Transition L t (.getLevel key n loc currArr) t
        (.getLevel key (n + 1) .array (some (L.keyPath key (n + 1))))
  | rest {op : Op K T} {r : Result K T} : Transition L t (.done op r) t (.done op r)

theorem step_level {L : Layout K} {D : Nat} {t : Table K T} (hlv : L.Levels t.maxLevel D)
    {m : Mutation K T} {n : Nat} (hn : n ≤ D) (loc : Slot Nat) {currArr : Option Path}
    (hat : AtLevel L t.slots m.key n currArr) :
    step L t (.level m n loc currArr) =
      (t, .attempt m n 0 (t.slots (L.keyPath m.key (n + 1))) currArr
        (L.keyPath m.key (n + 1))) := by
  have hlevel := Nat.lt_of_le_of_lt hn hlv.below
  simp only [step, if_pos hlevel, slotAddress_eq hlv.addresses hn hat]

theorem step_getLevel {L : Layout K} {D : Nat} {t : Table K T} (hlv : L.Levels t.maxLevel D)
    {key : K} {n : Nat} (hn : n ≤ D) (loc : Slot Nat) {currArr : Option Path}
    (hat : AtLevel L t.slots key n currArr) :
    step L t (.getLevel key n loc currArr) =
      match t.slots (L.keyPath key (n + 1)) with
      | .array => (t, .getLevel key (n + 1) .array (some (L.keyPath key (n + 1))))
      | s => (t, .done (.get key) (t.getResult L key s)) := by
  have hlevel := Nat.lt_of_le_of_lt hn hlv.below
  simp only [step, if_pos hlevel, slotAddress_eq hlv.addresses hn hat]
  cases t.slots (L.keyPath key (n + 1)) with
  | null => rfl
  | array => rfl
  | data a =>
      simp only [Trie.getResult, getLocated]
      split <;> rfl

/-- The inversion lemma: under arrays no deeper than `D`, a step of a thread
whose local state fits the slots is one of the transitions, unless it gives up or
runs out of levels. -/
theorem transition_of_step {L : Layout K} {D : Nat} {t : Table K T}
    (hlv : L.Levels t.maxLevel D) (hsh : Shallow D t.slots) {l : Local K T}
    (hl : LocalOk L t.slots l) (hgives : ¬ GivesUp L t l) (hruns : ¬ RunsOut L t l) :
    Transition L t l (step L t l).1 (step L t l).2 := by
  cases l with
  | level m n loc currArr =>
      have hn : n ≤ D := by simpa using hsh _ hl.1
      rw [step_level hlv hn loc hl]
      exact .load hl.1
  | attempt m n fail loc currArr p =>
      obtain ⟨harr, rfl, hpos, hfail, hlimit⟩ := hl
      simp only [step, attempt]
      by_cases hlt : fail < failLimit
      · rw [if_pos hlt]
        -- a lost exchange leaves a try
        have htry (h : fail + 1 ≠ failLimit) : fail + 1 < failLimit := by omega
        cases loc with
        | null =>
            cases m with
            | insert key mapped =>
                simp only
                split
                · exact .link harr ‹_›
                · rename_i hcas
                  refine .lost harr hcas (htry fun hlast => hgives ?_)
                  exact ⟨hlast, by simp, by simp, hcas⟩
            | update | remove => exact .absent (by simp)
        | data old =>
            cases m with
            | insert key mapped =>
                simp only
                split
                · exact .duplicate ‹_›
                · rename_i hne
                  have hshift : L.hashLevel * n < 64 := by
                    by_contra hover
                    exact hruns ⟨hlt, hne, Or.inl (Nat.not_lt.mp hover)⟩
                  rw [Layout.levelHash_succ _ hshift]
                  simp only
                  split
                  · rename_i hcas
                    exact .split harr hne hcas
                      (fun hlast => hruns ⟨hlt, hne, Or.inr ⟨hlast, hcas⟩⟩) hshift
                  · rename_i hcas
                    refine .lost harr hcas (htry fun hlast => hgives ?_)
                    refine ⟨hlast, by simp, ?_, hcas⟩
                    rintro _ ⟨⟩
                    exact hne
            | update key mapped =>
                simp only
                split
                · exact .replace harr ‹_› hlt
                · rename_i hcas
                  exact .lost harr hcas (htry fun hlast => hgives ⟨hlast, hcas⟩)
            | remove key =>
                simp only
                split
                · exact .unlink harr ‹_› hlt
                · rename_i hcas
                  exact .lost harr hcas (htry fun hlast => hgives ⟨hlast, hcas⟩)
        | array =>
            cases m with
            | insert key mapped => exact .spin harr (hpos rfl) hlt
            | update | remove => exact .descend (by simp) (hpos rfl)
      · have heq : fail = failLimit := by omega
        obtain ⟨rfl, rfl⟩ := hlimit heq
        rw [if_neg hlt, heq]
        exact .exhaust (hpos rfl)
  | located m loc =>
      cases m with
      | insert key mapped =>
          simp only [step]
          split
          · rename_i hloc
            rw [hloc]
            exact .refuse
          · exact .count ‹_›
      | update | remove => exact .answer (by simp)
  | getLevel key n loc currArr =>
      have hn : n ≤ D := by simpa using hsh _ hl.1
      rw [step_getLevel hlv hn loc hl]
      split
      · exact .getDescend ‹_›
      · rename_i hstop
        exact .getStop hl.1 hstop
  | done op r => exact .rest
  | fault => exact hl.elim

end HashComp.Concurrent
