import HashComp.Concurrent.Sequential

namespace HashComp.Concurrent

open HashComp.HashTrie
open HashComp.LevelHash
open HashComp.Operations
open HashComp.Runs
open HashComp.SlotTrie
open HashComp.Threads

section Frame

variable {K T : Type*} {L : Layout K} {D n a tid : Nat} {t t₀ : Table K T} {key key' : K}
  {mapped : T}

/-- `Update(key, mapped)` refuses an absent key and changes nothing else than what
is stored for a key that is present. -/
def UpdatesOwnKey (L : Layout K) (tid : Nat) (t : Table K T) (key : K) (mapped : T) : Prop :=
  ∃ t' r, Returns L tid t (.mutate (.update key mapped)) t' r ∧
    (t.Absent key → r = .bool false ∧ t' = t) ∧
    (¬ t.Absent key → r = .bool true ∧
      (∃ u, Returns L tid t' (.get key) u (.pair key mapped)) ∧
      ∀ key', key' ≠ key → ∀ r', (∃ u, Returns L tid t' (.get key') u r') ↔
        ∃ u, Returns L tid t (.get key') u r')

theorem updated_own (h : Sound L D t)
    (hslot : t.slots (L.keyPath key (n + 1)) = .data a) (tid : Nat) (mapped : T) :
    ∃ u, Returns L tid (updated L t key mapped (L.keyPath key (n + 1))) (.get key) u
      (.pair key mapped) := by
  have h' : Sound L D (updated L t key mapped (L.keyPath key (n + 1))) := h.swap hslot mapped
  refine (get_iff_spec h' tid key _).mpr ⟨t.fresh, ⟨⟨_, Function.update_self ..⟩, ?_⟩, ?_⟩
  · exact congrArg DataBlock.hash (newDataNode_heap_self L t key mapped)
  · exact newDataNode_heap_self L t key mapped

theorem updated_others (h : Sound L D t)
    (hinj : Function.Injective L.hasher)
    (hslot : t.slots (L.keyPath key (n + 1)) = .data a) (hown : (t.heap a).hash = L.hasher key)
    (tid : Nat) (mapped : T) (hne : key' ≠ key) (r : Result K T) :
    (∃ u, Returns L tid (updated L t key mapped (L.keyPath key (n + 1))) (.get key') u r) ↔
      ∃ u, Returns L tid t (.get key') u r := by
  have h' : Sound L D (updated L t key mapped (L.keyPath key (n + 1))) := h.swap hslot mapped
  rw [get_iff_spec h', get_iff_spec h]
  refine Trie.GetSpec.congr ?_ ?_ r
  · refine Trie.holds_update hslot hown rfl ?_ ?_ (hinj.ne hne)
    · rintro b ⟨⟩
      exact congrArg DataBlock.hash (newDataNode_heap_self L t key mapped)
    · exact fun q b hb => h.alloc_heap hb
  · rintro b ⟨hb, -⟩
    exact updated_heap h hb _

theorem updatesOwnKey_of_own (h : Sound L D t)
    (hinj : Function.Injective L.hasher) (tid : Nat) (key : K) (mapped : T)
    (hown : ¬ t.ReachesForeign L key) : UpdatesOwnKey L tid t key mapped := by
  obtain ⟨n, hend⟩ := h.exists_endsAt key
  cases hslot : t.slots (L.keyPath key (n + 1)) with
  | array => exact absurd hslot hend.stop
  | null =>
      have habs : t.Absent key :=
        (h.absent_iff hinj).mpr (h.not_holds_of_null (hend.arrays n (Nat.le_refl n)) hslot)
      exact ⟨t, _, modify_absent (m := .update key mapped) h tid (by simp) hend hslot,
        fun _ => ⟨rfl, rfl⟩, fun hpresent => absurd habs hpresent⟩
  | data a =>
      have hhash : (t.heap a).hash = L.hasher key := by
        by_contra hforeign
        exact hown ⟨n, a, hslot, hforeign⟩
      refine ⟨_, _, update_returns h tid hslot mapped, fun habs => ?_, fun _ => ?_⟩
      · exact absurd ⟨⟨_, hslot⟩, hhash⟩ ((h.absent_iff hinj).mp habs a)
      · exact ⟨rfl, updated_own h hslot tid mapped, fun key' hne r =>
          updated_others h hinj hslot hhash tid mapped hne r⟩

/-- In every state of a single-threaded run, an update touches its own key only
exactly when the slot where its walk ends holds no node with another hash. -/
theorem updatesOwnKey_iff (hlevel : L.hashLevel = 4)
    (hroot : L.rootHashLevel = 4 ∨ L.rootHashLevel = 16) (hinj : Function.Injective L.hasher)
    (hnew : Constructs L 8 t₀) (hreach : Reached L tid t₀ t) (key : K) (mapped : T) :
    UpdatesOwnKey L tid t key mapped ↔ ¬ t.ReachesForeign L key := by
  obtain ⟨D, hD, hadm⟩ := hnew.fits hlevel hroot
  have h := sound_of_reached hadm (hnew.sound (hadm.levels hD)) hreach
  constructor
  · rintro ⟨t', r, hret, habsent, -⟩ ⟨n, a, hslot, hne⟩
    have habs : t.Absent key := by
      rw [h.absent_iff hinj]
      intro b hb
      obtain ⟨hb, hbhash⟩ := (h.holds_iff (h.endsAt_of_data hslot)).mp hb
      rw [hslot] at hb
      rw [Slot.data.inj hb] at hne
      exact hne hbhash
    have hfalse := (habsent habs).1
    rw [(hret.unique (update_returns h tid hslot mapped)).2] at hfalse
    cases hfalse
  · exact updatesOwnKey_of_own h hinj tid key mapped

/-- Hashes are the keys themselves, as `std::hash` of an integer has it. -/
def identityLayout : Layout (BitVec 64) := ⟨id, 4, 4⟩

def emptyTable : Table (BitVec 64) Nat := ⟨.empty fun _ => ⟨0, 0, 0⟩, 0, 0, 19⟩

theorem constructs_emptyTable : Constructs identityLayout 8 emptyTable :=
  ⟨_, 18, new_default rfl _ (Nat.le_refl 18)⟩

def loneTable : Table (BitVec 64) Nat :=
  (program identityLayout).afterSteps 1 3 (.mutate (.insert 0x11 7)) emptyTable

theorem loneTable_reached : Reached identityLayout 1 emptyTable loneTable :=
  .call .start (Program.returns_of_steps (r := .bool true) rfl)

def splitTable : Table (BitVec 64) Nat :=
  (program identityLayout).afterSteps 1 6 (.mutate (.insert 0x21 8)) loneTable

theorem splitTable_reached : Reached identityLayout 1 emptyTable splitTable :=
  .call loneTable_reached (Program.returns_of_steps (r := .bool true) rfl)

/-- The keys 0x11 and 0x21 share a slot of the root, and the walk of 0x111 ends at the node
of 0x11. -/
theorem updatesOwnKey_splitTable :
    UpdatesOwnKey identityLayout 1 splitTable 0x11 9 ∧
      ¬ UpdatesOwnKey identityLayout 1 splitTable 0x111 9 := by
  have hiff (key : BitVec 64) : UpdatesOwnKey identityLayout 1 splitTable key 9 ↔
      ¬ splitTable.ReachesForeign identityLayout key :=
    updatesOwnKey_iff rfl (Or.inl rfl) (fun _ _ h => h) constructs_emptyTable splitTable_reached
      key 9
  constructor
  · obtain ⟨D, hD, hadm⟩ := constructs_emptyTable.fits rfl (Or.inl rfl)
    have hsound := sound_of_reached hadm (constructs_emptyTable.sound (hadm.levels hD))
      splitTable_reached
    exact (hiff 0x11).mpr (hsound.valid.not_reachesForeign (n := 1) (a := 0) (by decide)
      (by decide))
  · exact fun howns => (hiff 0x111).mp howns ⟨1, 0, by decide, by decide⟩

/-- Every update touches its own key only. -/
def UpdateContract (L : Layout K) (tid : Nat) (t₀ : Table K T) : Prop :=
  ∀ t, Reached L tid t₀ t → ∀ key mapped, UpdatesOwnKey L tid t key mapped

/-- The key 0x21 is absent, but its update replaces the node of the key 0x11,
which is reached through the same root slot, and returns true. -/
theorem updateContract_false : ¬ UpdateContract identityLayout 1 emptyTable := by
  intro hframe
  obtain ⟨t', r, hret, habsent, -⟩ := hframe loneTable loneTable_reached 0x21 8
  obtain ⟨D, hD, hadm⟩ := constructs_emptyTable.fits rfl (Or.inl rfl)
  have h := sound_of_reached hadm (constructs_emptyTable.sound (hadm.levels hD)) loneTable_reached
  have hslot : loneTable.slots (identityLayout.keyPath 0x21 1) = .data 0 := by decide
  have habs : loneTable.Absent 0x21 := by
    rw [h.absent_iff fun _ _ h => h]
    intro b hb
    obtain ⟨hb, hbhash⟩ := (h.holds_iff (h.endsAt_of_data hslot)).mp hb
    rw [hslot] at hb
    rw [← Slot.data.inj hb] at hbhash
    revert hbhash
    decide
  have hfalse := (habsent habs).1
  rw [(hret.unique (update_returns h 1 hslot 8)).2] at hfalse
  cases hfalse

end Frame

end HashComp.Concurrent
