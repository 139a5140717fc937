import HashComp.LockFree.Invariant

namespace HashComp.LockFree

open HashComp.Epoch
open HashComp.HashTrie
open HashComp.LevelHash
open HashComp.Operations
open HashComp.Runs
open HashComp.SlotTrie
open HashComp.Threads

section Walk

variable {K T : Type*} {L : Layout K} {D tid : Nat} {t t' t'' : Table K T}
  {threads : Nat → Option (Local K T)} {key : K} {a : Nat}

theorem leads_level (hadm : L.Admissible D) (hD : D < maxLevel) (hsh : Shallow D t.slots)
    (tid : Nat) {m : Mutation K T} {n : Nat}
    (harr : ∀ i ≤ n, t.slots (L.keyPath m.key i) = .array) :
    ∃ currArr, AtLevel L t.slots m.key n currArr ∧
      Leads ((program L).soloStep tid) (t, .level m 0 none) (t, .level m n currArr) := by
  induction n with
  | zero => exact ⟨none, ⟨harr 0 (Nat.le_refl 0), by simp⟩, Leads.refl _⟩
  | succ n ih =>
      obtain ⟨currArr, hat, hleads⟩ := ih fun i hi => harr i (by omega)
      have hnext := harr (n + 1) (Nat.le_refl _)
      refine ⟨some (L.keyPath m.key (n + 1)), ⟨hnext, fun _ => rfl⟩, ?_⟩
      have hload := hleads.step
      rw [soloStep_eq, step_level hadm hD hsh tid hat, hnext] at hload
      have hdescend := hload.step
      rwa [soloStep_eq, step_attempt_array] at hdescend

theorem leads_getLevel (hadm : L.Admissible D) (hD : D < maxLevel) (hsh : Shallow D t.slots)
    (tid : Nat) {n : Nat} (harr : ∀ i ≤ n, t.slots (L.keyPath key i) = .array) :
    ∃ currArr, AtLevel L t.slots key n currArr ∧
      Leads ((program L).soloStep tid) (t, .getLevel key 0 none) (t, .getLevel key n currArr) := by
  induction n with
  | zero => exact ⟨none, ⟨harr 0 (Nat.le_refl 0), by simp⟩, Leads.refl _⟩
  | succ n ih =>
      obtain ⟨currArr, hat, hleads⟩ := ih fun i hi => harr i (by omega)
      have hnext := harr (n + 1) (Nat.le_refl _)
      refine ⟨some (L.keyPath key (n + 1)), ⟨hnext, fun _ => rfl⟩, ?_⟩
      have hload := hleads.step
      rw [soloStep_eq, step_getLevel hadm hD hsh tid hat, hnext] at hload
      exact hload.step

theorem leads_attempt (hadm : L.Admissible D) (hD : D < maxLevel) (hsh : Shallow D t.slots)
    (tid : Nat) {m : Mutation K T} {n : Nat} (hend : EndsAt L t.slots m.key n) :
    ∃ currArr, Leads ((program L).soloStep tid) (t, begin (.mutate m))
      (t, .attempt m n 0 (t.slots (L.keyPath m.key (n + 1))) currArr
        (L.keyPath m.key (n + 1))) := by
  obtain ⟨currArr, hat, hleads⟩ := leads_level hadm hD hsh tid hend.arrays
  refine ⟨currArr, ?_⟩
  have hload := hleads.step
  rwa [soloStep_eq, step_level hadm hD hsh tid hat] at hload

/-- The table after a call of `Get` has read the slot where its walk ends. -/
def afterGet (tid : Nat) (t : Table K T) : Result K T → Table K T
  | .pair _ _ =>
      { t with epoch := (t.epoch.reentrantProtect tid).reentrantUnprotect tid }
  | _ => { t with epoch := (t.epoch.reentrantProtect tid).reentrantProtect tid }

theorem get_returns (hadm : L.Admissible D) (hD : D < maxLevel) (hsh : Shallow D t.slots)
    (tid : Nat) {n : Nat} (hend : EndsAt L t.slots key n) :
    Returns L tid t (.get key)
      (afterGet tid t (t.getResult L key (t.slots (L.keyPath key (n + 1)))))
      (t.getResult L key (t.slots (L.keyPath key (n + 1)))) := by
  let e := t.epoch.reentrantProtect tid
  obtain ⟨currArr, hat, hleads⟩ := leads_getLevel (t := { t with epoch := e })
    hadm hD hsh tid hend.arrays
  have hcheck := Leads.step hleads
  rw [soloStep_eq, step_getLevel (t := { t with epoch := e }) hadm hD hsh tid hat] at hcheck
  refine Leads.head (Leads.trans hcheck ?_)
  have hstop := hend.stop
  cases hslot : t.slots (L.keyPath key (n + 1)) with
  | null => exact ⟨2, rfl⟩
  | array => exact absurd hslot hstop
  | data a =>
      by_cases hhash : (t.heap a).hash = L.hasher key
      · refine ⟨2, ?_⟩
        simp only [Function.iterate_succ, Function.comp, Function.iterate_zero, id,
          soloStep_eq, step, program_done, Trie.getResult, if_pos hhash, afterGet, e]
      · refine ⟨2, ?_⟩
        simp only [Function.iterate_succ, Function.comp, Function.iterate_zero, id,
          soloStep_eq, step, program_done, Trie.getResult, if_neg hhash, afterGet, e]

theorem get_correct (hadm : L.Admissible D) (hD : D < maxLevel) {hand : Nat → List Nat}
    (h : Sound L D t hand) (tid : Nat) (key : K) :
    (∃ t' r, Returns L tid t (.get key) t' r) ∧
      ∀ t' r, Returns L tid t (.get key) t' r → t.GetSpec L key r := by
  obtain ⟨n, hend⟩ := h.exists_endsAt key
  have hret := get_returns hadm hD h.shallow tid hend
  refine ⟨⟨_, _, hret⟩, ?_⟩
  intro t' r hr
  rw [(hr.unique hret).2]
  exact h.getResult_spec hend

end Walk

section Trie

variable {K T : Type*} {L : Layout K} {D tid : Nat} {t t₀ : Table K T}

def Local.depth : Local K T → Option Nat
  | .level _ n _ | .attempt _ n _ _ _ _ | .getLevel _ n _ | .getCheck _ n _ _ => some n
  | _ => none

/-- The thread has not run into undefined behaviour, its level is below
`maxLevel_`, and a split at its level shifts by less than 64. -/
def InRange (L : Layout K) (l : Local K T) : Prop :=
  l ≠ .fault ∧ ∀ n, l.depth = some n → n < maxLevel ∧ L.hashLevel * n < 64

theorem LocalOk.inRange (hadm : L.Admissible D) (hD : D < maxLevel)
    (hsh : Shallow D t.slots) {l : Local K T} (h : LocalOk L t.slots l) : InRange L l := by
  have hdepth {key : K} {n : Nat} (harr : t.slots (L.keyPath key n) = .array) :
      n < maxLevel ∧ L.hashLevel * n < 64 := by
    have hn : n ≤ D := by simpa using hsh _ harr
    exact ⟨by omega, Nat.lt_of_le_of_lt (Nat.mul_le_mul_left _ hn) hadm.shift⟩
  refine ⟨?_, ?_⟩
  · rintro rfl
    exact h
  · intro n hn
    cases l <;> cases hn <;> exact hdepth h.1

theorem reached_sound (hadm : L.Admissible D) (hD : D < maxLevel)
    {expectedThreadCount expectedDataNum : Nat} {garbage : Nat → DataBlock K T}
    (h : Reached L tid (new expectedThreadCount expectedDataNum garbage) t) :
    Inv L D t (fun _ => none) :=
  inv_of_reached hadm hD (inv_new _ _ _) h

/-- In every state of a single-threaded run the data nodes are indexed by their
hashes, no two have one hash and the running call is in range, and between the
calls `Get` finds exactly what is stored. -/
theorem reached_trie (hlevel : L.hashLevel = 4)
    (hroot : L.rootHashLevel = 4 ∨ L.rootHashLevel = 16)
    {expectedThreadCount expectedDataNum : Nat} {garbage : Nat → DataBlock K T}
    (h : Reached L tid (new expectedThreadCount expectedDataNum garbage) t) :
    t.Indexed L ∧ t.UniqueHashes ∧
      (∀ op x, Leads ((program L).soloStep tid) (t, begin op) x →
        x.1.Indexed L ∧ x.1.UniqueHashes ∧ InRange L x.2) ∧
      ∀ key, (∃ t' r, Returns L tid t (.get key) t' r) ∧
        ∀ t' r, Returns L tid t (.get key) t' r → t.GetSpec L key r := by
  obtain ⟨D, hD, hadm⟩ := fits_of_default hlevel hroot
  have hinv := reached_sound hadm hD h
  refine ⟨hinv.sound.valid.indexed hadm.addresses, hinv.sound.valid.uniqueHashes, ?_, ?_⟩
  · intro op x hx
    have hend := Inv.leads (x := (t, begin op)) hadm hD (hinv.call tid op) hx
    exact ⟨hend.sound.valid.indexed hadm.addresses, hend.sound.valid.uniqueHashes,
      (hend.locals tid x.2 (alone_self tid x.2)).inRange hadm hD hend.sound.shallow⟩
  · exact get_correct hadm hD hinv.sound tid

abbrev afterSteps (L : Layout K) (tid n : Nat) (op : Op K T) (t : Table K T) : Table K T :=
  (program L).afterSteps tid n op t

/-- Hashes are the keys themselves, as `std::hash` of an integer has it. -/
def identityLayout : Layout (BitVec 64) := ⟨id, 4, 4⟩

def emptyTable : Table (BitVec 64) Nat := new 2 0 fun _ => ⟨0, 0, 0⟩

def splitTable : Table (BitVec 64) Nat :=
  afterSteps identityLayout 1 5 (.mutate (.insert 0x21 8))
    (afterSteps identityLayout 1 2 (.mutate (.insert 0x11 7)) emptyTable)

theorem splitTable_reached : Reached identityLayout 1 emptyTable splitTable :=
  .call (.call .start (Program.returns_of_steps (r := .bool true) rfl))
    (Program.returns_of_steps (r := .bool true) rfl)

theorem reached_trie_splitTable :
    splitTable.slots [1, 1] = .data 0 ∧ splitTable.slots [1, 2] = .data 1 ∧
      splitTable.Indexed identityLayout ∧ splitTable.UniqueHashes :=
  have h := reached_trie rfl (Or.inl rfl) splitTable_reached
  ⟨by decide, by decide, h.1, h.2.1⟩

end Trie

end HashComp.LockFree
