import HashComp.LockFree.Model

namespace HashComp.LockFree

open HashComp.Epoch
open HashComp.HashTrie
open HashComp.LevelHash
open HashComp.Operations
open HashComp.SlotTrie
open HashComp.Threads

variable {K T : Type*}

/-- `maxLevel_` levels are enough to part any two hashes. -/
def Fits (L : Layout K) : Prop :=
  ∃ D < maxLevel, L.Admissible D

theorem fits_of_default {L : Layout K} (hlevel : L.hashLevel = 4)
    (hroot : L.rootHashLevel = 4 ∨ L.rootHashLevel = 16) : Fits L := by
  obtain ⟨D, hD, hadm⟩ := Layout.exists_admissible hlevel hroot
  refine ⟨D, ?_, hadm⟩
  unfold maxLevel
  omega

def LocalOk (L : Layout K) (slots : Slots Nat) : Local K T → Prop
  | .level m n currArr => AtLevel L slots m.key n currArr
  | .attempt m n fail pos _ p =>
      slots (L.keyPath m.key n) = .array ∧ p = L.keyPath m.key (n + 1) ∧
        fail < kFailLimit ∧ (pos = .array → slots p = .array)
  | .getLevel key n currArr => AtLevel L slots key n currArr
  | .getCheck key n pos p =>
      slots (L.keyPath key n) = .array ∧ p = L.keyPath key (n + 1) ∧
        (pos = .array → slots p = .array)
  | .fault => False
  | _ => True

theorem LocalOk.grows {L : Layout K} {slots slots' : Slots Nat} {l : Local K T}
    (h : LocalOk L slots l) (hg : Grows slots slots') : LocalOk L slots' l := by
  cases l with
  | level m n currArr => exact AtLevel.grows h hg
  | attempt m n fail pos currArr p =>
      exact ⟨hg _ h.1, h.2.1, h.2.2.1, fun hpos => hg _ (h.2.2.2 hpos)⟩
  | getLevel key n currArr => exact AtLevel.grows h hg
  | getCheck key n pos p => exact ⟨hg _ h.1, h.2.1, fun hpos => hg _ (h.2.2 hpos)⟩
  | fault => exact h
  | miss | bump | register | getEnter | getFound | getMiss | done => trivial

theorem step_level {L : Layout K} {D : Nat} (hadm : L.Admissible D) (hD : D < maxLevel)
    {t : Table K T} (hsh : Shallow D t.slots) (tid : Nat) {m : Mutation K T} {n : Nat}
    {currArr : Option Path} (hat : AtLevel L t.slots m.key n currArr) :
    step L tid t (.level m n currArr) =
      (t, .attempt m n 0 (t.slots (L.keyPath m.key (n + 1))) currArr
        (L.keyPath m.key (n + 1))) := by
  have hn : n ≤ D := by simpa using hsh _ hat.1
  simp only [step, if_pos (show n < maxLevel by omega), slotAddress_eq hadm.addresses hn hat]

theorem step_getLevel {L : Layout K} {D : Nat} (hadm : L.Admissible D) (hD : D < maxLevel)
    {t : Table K T} (hsh : Shallow D t.slots) (tid : Nat) {key : K} {n : Nat}
    {currArr : Option Path} (hat : AtLevel L t.slots key n currArr) :
    step L tid t (.getLevel key n currArr) =
      (t, .getCheck key n (t.slots (L.keyPath key (n + 1))) (L.keyPath key (n + 1))) := by
  have hn : n ≤ D := by simpa using hsh _ hat.1
  simp only [step, if_pos (show n < maxLevel by omega), slotAddress_eq hadm.addresses hn hat]

theorem step_attempt_array (L : Layout K) (tid : Nat) (t : Table K T) (m : Mutation K T)
    (n fail : Nat) (currArr : Option Path) (p : Path) :
    step L tid t (.attempt m n fail .array currArr p) = (t, .level m (n + 1) (some p)) := by
  cases m <;> rfl

/-- The steps of the machine.  Each constructor gives the local state before,
the table after and the local state after. -/
inductive Transition (L : Layout K) (tid : Nat) (t : Table K T) :
    Local K T → Table K T → Local K T → Prop where
  | load {m : Mutation K T} {n : Nat} {currArr : Option Path}
      (harr : t.slots (L.keyPath m.key n) = .array) :
      Transition L tid t (.level m n currArr) t
        (.attempt m n 0 (t.slots (L.keyPath m.key (n + 1))) currArr
          (L.keyPath m.key (n + 1)))
  | link {key : K} {mapped : T} {n fail : Nat} {currArr : Option Path}
      (harr : t.slots (L.keyPath key n) = .array)
      (hcas : t.slots (L.keyPath key (n + 1)) = .null) :
      Transition L tid t
        (.attempt (.insert key mapped) n fail .null currArr (L.keyPath key (n + 1)))
        (setSlot (newDataNode L tid t key mapped).2 (L.keyPath key (n + 1))
          (.data (newDataNode L tid t key mapped).1))
        (.done (.mutate (.insert key mapped)) (.bool true))
  | insertLost {key : K} {mapped : T} {n fail : Nat} {currArr : Option Path}
      (harr : t.slots (L.keyPath key n) = .array)
      (hcas : t.slots (L.keyPath key (n + 1)) ≠ .null) :
      Transition L tid t
        (.attempt (.insert key mapped) n fail .null currArr (L.keyPath key (n + 1)))
        (pushData tid (newDataNode L tid t key mapped).2 (newDataNode L tid t key mapped).1)
        (retry (.insert key mapped) n fail (t.slots (L.keyPath key (n + 1))) currArr
          (L.keyPath key (n + 1)))
  | absent {m : Mutation K T} {n fail : Nat} {currArr : Option Path} {p : Path}
      (hm : ∀ key mapped, m ≠ .insert key mapped) :
      Transition L tid t (.attempt m n fail .null currArr p) t (.miss m)
  | duplicate {key : K} {mapped : T} {n fail old : Nat} {currArr : Option Path} {p : Path}
      (hsame : (t.heap old).hash = L.hasher key) :
      Transition L tid t (.attempt (.insert key mapped) n fail (.data old) currArr p) t
        (.done (.mutate (.insert key mapped)) (.bool false))
  | split {key : K} {mapped : T} {n fail old : Nat} {currArr : Option Path}
      (harr : t.slots (L.keyPath key n) = .array)
      (hne : (t.heap old).hash ≠ L.hasher key)
      (hcas : t.slots (L.keyPath key (n + 1)) = .data old) :
      Transition L tid t
        (.attempt (.insert key mapped) n fail (.data old) currArr (L.keyPath key (n + 1)))
        (publishArray t (L.keyPath key (n + 1)) (L.fragment (t.heap old).hash (n + 1)) old)
        (.level (.insert key mapped) (n + 1) (some (L.keyPath key (n + 1))))
  | replace {key : K} {mapped : T} {n fail old : Nat} {currArr : Option Path}
      (harr : t.slots (L.keyPath key n) = .array)
      (hcas : t.slots (L.keyPath key (n + 1)) = .data old) :
      Transition L tid t
        (.attempt (.update key mapped) n fail (.data old) currArr (L.keyPath key (n + 1)))
        (setSlot (newDataNode L tid t key mapped).2 (L.keyPath key (n + 1))
          (.data (newDataNode L tid t key mapped).1))
        (.bump (.update key mapped) old)
  | replaceLost {key : K} {mapped : T} {n fail old : Nat} {currArr : Option Path}
      (harr : t.slots (L.keyPath key n) = .array)
      (hcas : t.slots (L.keyPath key (n + 1)) ≠ .data old) :
      Transition L tid t
        (.attempt (.update key mapped) n fail (.data old) currArr (L.keyPath key (n + 1)))
        (pushData tid (newDataNode L tid t key mapped).2 (newDataNode L tid t key mapped).1)
        (retry (.update key mapped) n fail (t.slots (L.keyPath key (n + 1))) currArr
          (L.keyPath key (n + 1)))
  | unlink {key : K} {n fail old : Nat} {currArr : Option Path}
      (harr : t.slots (L.keyPath key n) = .array)
      (hcas : t.slots (L.keyPath key (n + 1)) = .data old) :
      Transition L tid t
        (.attempt (.remove key) n fail (.data old) currArr (L.keyPath key (n + 1)))
        (setSlot t (L.keyPath key (n + 1)) .null) (.bump (.remove key) old)
  | lost {m : Mutation K T} {n fail old : Nat} {currArr : Option Path}
      (harr : t.slots (L.keyPath m.key n) = .array)
      (hcas : t.slots (L.keyPath m.key (n + 1)) ≠ .data old) :
      Transition L tid t
        (.attempt m n fail (.data old) currArr (L.keyPath m.key (n + 1))) t
        (retry m n fail (t.slots (L.keyPath m.key (n + 1))) currArr
          (L.keyPath m.key (n + 1)))
  | descend {m : Mutation K T} {n fail : Nat} {currArr : Option Path}
      (harr : t.slots (L.keyPath m.key (n + 1)) = .array) :
      Transition L tid t (.attempt m n fail .array currArr (L.keyPath m.key (n + 1))) t
        (.level m (n + 1) (some (L.keyPath m.key (n + 1))))
  | miss {m : Mutation K T} :
      Transition L tid t (.miss m) { t with epoch := t.epoch.reentrantProtect tid }
        (.done (.mutate m) (.bool false))
  | bump {m : Mutation K T} {old : Nat} :
      Transition L tid t (.bump m old)
        (deleteCallbacks tid { t with epoch := t.epoch.bumpCurrentEpoch.1 }
          t.epoch.bumpCurrentEpoch.2)
        (.register m old t.epoch.currentEpoch 0)
  | register {m : Mutation K T} {old prior i : Nat} {r : LightEpoch Nat × List (Nat × Nat)}
      (hr : t.epoch.tryRegister i prior old = some r) :
      Transition L tid t (.register m old prior i)
        (deleteCallbacks tid { t with epoch := r.1 } r.2) (.done (.mutate m) (.bool true))
  | search {m : Mutation K T} {old prior i : Nat}
      (hr : t.epoch.tryRegister i prior old = none) :
      Transition L tid t (.register m old prior i) t (.register m old prior (nextIndex i))
  | getEnter {key : K} :
      Transition L tid t (.getEnter key) { t with epoch := t.epoch.reentrantProtect tid }
        (.getLevel key 0 none)
  | getLoad {key : K} {n : Nat} {currArr : Option Path}
      (harr : t.slots (L.keyPath key n) = .array) :
      Transition L tid t (.getLevel key n currArr) t
        (.getCheck key n (t.slots (L.keyPath key (n + 1))) (L.keyPath key (n + 1)))
  | getNull {key : K} {n : Nat} {p : Path} :
      Transition L tid t (.getCheck key n .null p) t (.getMiss key)
  | getOther {key : K} {n a : Nat} {p : Path} (hne : (t.heap a).hash ≠ L.hasher key) :
      Transition L tid t (.getCheck key n (.data a) p) t (.getMiss key)
  | getSame {key : K} {n a : Nat} {p : Path} (hsame : (t.heap a).hash = L.hasher key) :
      Transition L tid t (.getCheck key n (.data a) p) t (.getFound key a)
  | getDescend {key : K} {n : Nat} (harr : t.slots (L.keyPath key (n + 1)) = .array) :
      Transition L tid t (.getCheck key n .array (L.keyPath key (n + 1))) t
        (.getLevel key (n + 1) (some (L.keyPath key (n + 1))))
  | getFound {key : K} {a : Nat} :
      Transition L tid t (.getFound key a)
        { t with epoch := t.epoch.reentrantUnprotect tid }
        (.done (.get key) (.pair (t.heap a).key (t.heap a).mapped))
  | getMiss {key : K} :
      Transition L tid t (.getMiss key) { t with epoch := t.epoch.reentrantProtect tid }
        (.done (.get key) .outOfRange)
  | rest {op : Op K T} {r : Result K T} :
      Transition L tid t (.done op r) t (.done op r)

/-- The inversion lemma: under arrays no deeper than `D`, a step of a thread
whose local state fits the slots is one of the transitions. -/
theorem transition_of_step {L : Layout K} {D : Nat} (hadm : L.Admissible D)
    (hD : D < maxLevel) {t : Table K T} (hsh : Shallow D t.slots) (tid : Nat)
    {l : Local K T} (hl : LocalOk L t.slots l) :
    Transition L tid t l (step L tid t l).1 (step L tid t l).2 := by
  have hdepth {key : K} {n : Nat} (harr : t.slots (L.keyPath key n) = .array) : n ≤ D := by
    simpa using hsh _ harr
  cases l with
  | level m n currArr =>
      rw [step_level hadm hD hsh tid hl]
      exact .load hl.1
  | attempt m n fail pos currArr p =>
      obtain ⟨harr, rfl, -, hpos⟩ := hl
      have hn := hdepth harr
      cases pos with
      | null =>
          cases m with
          | insert key mapped =>
              simp only [step, attempt]
              split
              · exact .link harr ‹_›
              · exact .insertLost harr ‹_›
          | update key mapped => exact .absent (by simp)
          | remove key => exact .absent (by simp)
      | data old =>
          cases m with
          | insert key mapped =>
              simp only [step, attempt]
              split
              · exact .duplicate ‹_›
              · have hshift : L.hashLevel * n < 64 :=
                  Nat.lt_of_le_of_lt (Nat.mul_le_mul_left _ hn) hadm.shift
                rw [Layout.levelHash_succ _ hshift]
                simp only
                split
                · exact .split harr ‹_› ‹_›
                · exact .lost harr ‹_›
          | update key mapped =>
              simp only [step, attempt]
              split
              · exact .replace harr ‹_›
              · exact .replaceLost harr ‹_›
          | remove key =>
              simp only [step, attempt]
              split
              · exact .unlink harr ‹_›
              · exact .lost harr ‹_›
      | array =>
          rw [step_attempt_array]
          exact .descend (hpos rfl)
  | miss m => exact .miss
  | bump m old =>
      simp only [step, bumpCurrentEpoch_currentEpoch, Nat.add_sub_cancel]
      exact .bump
  | register m old prior i =>
      simp only [step]
      split
      · exact .register ‹_›
      · exact .search ‹_›
  | getEnter key => exact .getEnter
  | getLevel key n currArr =>
      rw [step_getLevel hadm hD hsh tid hl]
      exact .getLoad hl.1
  | getCheck key n pos p =>
      obtain ⟨harr, rfl, hpos⟩ := hl
      cases pos with
      | null => exact .getNull
      | data a =>
          simp only [step]
          split
          · exact .getSame ‹_›
          · exact .getOther ‹_›
      | array => exact .getDescend (hpos rfl)
  | getFound key a => exact .getFound
  | getMiss key => exact .getMiss
  | done op r => exact .rest
  | fault => exact hl.elim

end HashComp.LockFree
