import HashComp.Concurrent.Sequential

namespace HashComp.Concurrent

open HashComp.HashTrie
open HashComp.LevelHash
open HashComp.Operations
open HashComp.Runs
open HashComp.SlotTrie
open HashComp.Threads

section Insertion

variable {K T : Type*} {L : Layout K} {D n a tid : Nat} {t t' t₁ t₂ : Table K T} {key : K}
  {mapped : T}

structure Regrown (t t' : Table K T) : Prop where
  linked : ∀ b, t'.Linked b ↔ t.Linked b
  heap : t'.heap = t.heap
  fresh : t'.fresh = t.fresh
  size : t'.size = t.size
  maxLevel : t'.maxLevel = t.maxLevel

theorem Regrown.refl (t : Table K T) : Regrown t t :=
  ⟨fun _ => Iff.rfl, rfl, rfl, rfl, rfl⟩

theorem Regrown.trans (h : Regrown t t₁) (h' : Regrown t₁ t₂) : Regrown t t₂ :=
  ⟨fun b => (h'.linked b).trans (h.linked b), h'.heap.trans h.heap, h'.fresh.trans h.fresh,
    h'.size.trans h.size, h'.maxLevel.trans h.maxLevel⟩

theorem Regrown.holds_iff (h : Regrown t t₁) (key : K) (b : Nat) :
    t₁.Holds L key b ↔ t.Holds L key b := by
  unfold Trie.Holds
  rw [h.linked, h.heap]

/-- The node in the way of `key` has another hash, and no level that a walk can
address parts the two. -/
def Outruns (L : Layout K) (t : Table K T) (key : K) : Prop :=
  ∃ n a, t.slots (L.keyPath key (n + 1)) = .data a ∧ (t.heap a).hash ≠ L.hasher key ∧
    ∀ i < t.maxLevel, L.hashLevel * (i - 1) < 64 →
      L.fragment (t.heap a).hash i = L.fragment (L.hasher key) i

/-- A table outruns a key if it stores a node of another hash whose path is that of
the key down to the deepest arrays. -/
theorem outruns_iff (h : Sound L D t) (key : K) :
    Outruns L t key ↔ ∃ a, t.Linked a ∧ (t.heap a).hash ≠ L.hasher key ∧
      ∀ i ≤ D, L.fragment (t.heap a).hash i = L.fragment (L.hasher key) i := by
  constructor
  · rintro ⟨n, a, hslot, hne, hagree⟩
    refine ⟨a, ⟨_, hslot⟩, hne, ?_⟩
    intro i hi
    refine hagree i (Nat.lt_of_le_of_lt hi h.levels.below) ?_
    cases i with
    | zero => simp
    | succ i => exact h.levels.addresses i hi
  · rintro ⟨a, ha, hne, hagree⟩
    obtain ⟨n, hslot⟩ := h.slot_of_agree ha hagree
    refine ⟨n, a, hslot, hne, ?_⟩
    intro i hi hshift
    refine hagree i ?_
    rcases h.levels.last with hlast | hlast | hadm
    · omega
    · by_contra hover
      have := Nat.mul_le_mul_left L.hashLevel (show D ≤ i - 1 by omega)
      omega
    · rw [h.hashed _ a hslot] at hne hagree
      obtain ⟨j, hj, hpart⟩ := hadm.parts _ _ hne
      exact absurd (hagree j hj) hpart

theorem Sound.not_outruns (h : Sound L D t) (hadm : L.Admissible D) (key : K) :
    ¬ Outruns L t key := by
  rw [outruns_iff h]
  rintro ⟨a, ⟨p, hp⟩, hne, hagree⟩
  rw [h.hashed p a hp] at hne hagree
  obtain ⟨i, hi, hpart⟩ := hadm.parts _ _ hne
  exact hpart (hagree i hi)

theorem outruns_of_last (h : Sound L D t) (hslot : t.slots (L.keyPath key (D + 1)) = .data a)
    (hne : (t.heap a).hash ≠ L.hasher key) : Outruns L t key := by
  refine (outruns_iff h key).mpr ⟨a, ⟨_, hslot⟩, hne, ?_⟩
  intro i hi
  by_contra hpart
  exact Nat.lt_irrefl D (h.lt_of_part hslot ⟨i, hi, hpart⟩)

theorem Regrown.outruns_iff (hgrown : Regrown t t₁) (h : Sound L D t) (h₁ : Sound L D t₁)
    (key : K) : Outruns L t₁ key ↔ Outruns L t key := by
  rw [Concurrent.outruns_iff h, Concurrent.outruns_iff h₁, hgrown.heap]
  exact exists_congr fun a => and_congr_left' (hgrown.linked a)

/-- An insertion of an absent key goes down to an empty slot, or to a node at the
last level. -/
theorem leads_end (h : Sound L D t) (tid : Nat) (habs : ∀ a, ¬ t.Holds L key a) (mapped : T)
    (loc : Slot Nat) {currArr : Option Path} (hat : AtLevel L t.slots key n currArr) :
    ∃ t' n' currArr',
      Leads ((program L).soloStep tid) (t, .level (.insert key mapped) n loc currArr)
        (t', .attempt (.insert key mapped) n' 0 (t'.slots (L.keyPath key (n' + 1))) currArr'
          (L.keyPath key (n' + 1))) ∧
      Regrown t t' ∧ Sound L D t' ∧ t'.slots (L.keyPath key n') = .array ∧
      (t'.slots (L.keyPath key (n' + 1)) = .null ∨
        n' = D ∧ ∃ a, t'.slots (L.keyPath key (n' + 1)) = .data a) := by
  -- the walk goes down one level at a time
  induction hk : D - n using Nat.strongRecOn generalizing t n loc currArr with
  | ind k ih =>
      have hn := h.le_of_array hat.1
      have hload := (Leads.refl (f := (program L).soloStep tid)
        (t, .level (.insert key mapped) n loc currArr)).step
      rw [soloStep_eq, step_level (m := .insert key mapped) h.levels hn loc hat,
        Mutation.key] at hload
      cases hslot : t.slots (L.keyPath key (n + 1)) with
      | null => exact ⟨t, n, currArr, hload, Regrown.refl t, h, hat.1, Or.inl hslot⟩
      | array =>
          obtain ⟨loc', harray⟩ := leads_array (m := .insert key mapped) h tid loc hat hslot
          have hn' := h.le_of_array hslot
          obtain ⟨t', n', currArr', hrest, hend⟩ :=
            ih (D - (n + 1)) (by omega) h habs loc' ⟨hslot, fun _ => rfl⟩ rfl
          exact ⟨t', n', currArr', harray.trans hrest, hend⟩
      | data a =>
          rcases Nat.lt_or_eq_of_le hn with hlt | rfl
          · have hne : (t.heap a).hash ≠ L.hasher key := fun hhash => habs a ⟨⟨_, hslot⟩, hhash⟩
            have hshift := h.levels.addresses n hlt
            have hlevel : n + 1 ≠ t.maxLevel := Nat.ne_of_lt (Nat.lt_of_le_of_lt hlt h.levels.below)
            have hsplit := hload.step
            simp only [hslot, soloStep_eq, step, attempt] at hsplit
            rw [if_pos (by decide), if_neg hne, Layout.levelHash_succ _ hshift] at hsplit
            simp only [if_true] at hsplit
            let t₁ := publishArray t (L.keyPath key (n + 1)) (L.fragment (t.heap a).hash (n + 1)) a
            have htr : Transition L t
                (.attempt (.insert key mapped) n 0 (.data a) currArr (L.keyPath key (n + 1))) t₁
                (.level (.insert key mapped) (n + 1) (.data a) (some (L.keyPath key (n + 1)))) :=
              .split hat.1 hne hslot hlevel hshift
            have h₁ : Sound L D t₁ := h.transition htr
            have hgrown₁ : Regrown t t₁ :=
              ⟨fun b => Trie.linked_publishArray h.wf hslot _ b, rfl, rfl, rfl, rfl⟩
            have harr : t₁.slots (L.keyPath key (n + 1)) = .array := publish_self
            have habs₁ : ∀ b, ¬ t₁.Holds L key b := by
              intro b hb
              exact habs b ((hgrown₁.holds_iff key b).mp hb)
            obtain ⟨t', n', currArr', hrest, hgrown, hend⟩ :=
              ih (D - (n + 1)) (by omega) h₁ habs₁ (.data a) ⟨harr, fun _ => rfl⟩ rfl
            exact ⟨t', n', currArr', hsplit.trans hrest, hgrown₁.trans hgrown, hend⟩
          · exact ⟨t, n, currArr, hload, Regrown.refl t, h, hat.1, Or.inr ⟨rfl, a, hslot⟩⟩

structure Inserted (L : Layout K) (t t' : Table K T) (key : K) (mapped : T) : Prop where
  linked : ∀ b, t'.Linked b ↔ b = t.fresh ∨ t.Linked b
  newest : t'.heap t.fresh = block L key mapped
  heap : ∀ b, t.Linked b → t'.heap b = t.heap b
  size : t'.size = t.size + 1

/-- At the end of its way an absent key that is not outrun finds an empty slot. -/
theorem insert_returns (h : Sound L D t) (tid : Nat) (habs : ∀ a, ¬ t.Holds L key a)
    (hroom : ¬ Outruns L t key) (mapped : T) :
    ∃ t', Returns L tid t (.mutate (.insert key mapped)) t' (.bool true) ∧ Sound L D t' ∧
      Inserted L t t' key mapped := by
  have hroot : AtLevel L t.slots key 0 none := ⟨h.wf.root, fun hne => absurd rfl hne⟩
  obtain ⟨t₁, n, currArr, hleads, hgrown, h₁, harr, hnull | ⟨rfl, a, hslot⟩⟩ :=
    leads_end h tid habs mapped .null hroot
  · have hlink := hleads.step
    simp only [hnull, soloStep_eq, step, attempt] at hlink
    rw [if_pos (by decide)] at hlink
    simp only [if_true] at hlink
    have hcount := hlink.step
    simp only [soloStep_eq, step] at hcount
    rw [if_neg (by simp)] at hcount
    refine ⟨_, hcount, ?_, ?_, ?_, ?_, ?_⟩
    · exact (h₁.link harr hnull mapped).setSize _
    · intro b
      rw [← hgrown.fresh, ← hgrown.linked b]
      exact Trie.linked_link hnull _ b
    · rw [← hgrown.fresh]
      exact newDataNode_heap_self L t₁ key mapped
    · rintro b ⟨p, hp⟩
      change Function.update t₁.heap t₁.fresh _ b = _
      rw [Function.update_of_ne, hgrown.heap]
      rw [hgrown.fresh]
      exact Nat.ne_of_lt (h.allocated p b hp)
    · change t₁.size + 1 = _
      rw [hgrown.size]
  · have hne : (t₁.heap a).hash ≠ L.hasher key :=
      fun hhash => habs a ((hgrown.holds_iff key a).mp ⟨⟨_, hslot⟩, hhash⟩)
    exact absurd ((hgrown.outruns_iff h h₁ key).mp (outruns_of_last h₁ hslot hne)) hroom

theorem leads_last (h : Sound L D t) (tid : Nat) (hout : Outruns L t key) (mapped : T) :
    ∃ t₁ a currArr, Leads ((program L).soloStep tid) (t, begin (.mutate (.insert key mapped)))
        (t₁, .attempt (.insert key mapped) D 0 (.data a) currArr (L.keyPath key (D + 1))) ∧
      Regrown t t₁ ∧ Sound L D t₁ ∧ t₁.slots (L.keyPath key (D + 1)) = .data a ∧
      (t₁.heap a).hash ≠ L.hasher key := by
  have habs : ∀ b, ¬ t.Holds L key b := by
    intro b hb
    obtain ⟨n, a, hslot, hne, -⟩ := hout
    obtain ⟨hb, hbhash⟩ := (h.holds_iff (h.endsAt_of_data hslot)).mp hb
    rw [hslot] at hb
    rw [Slot.data.inj hb] at hne
    exact hne hbhash
  have hroot : AtLevel L t.slots key 0 none := ⟨h.wf.root, fun hne => absurd rfl hne⟩
  obtain ⟨t₁, n, currArr, hleads, hgrown, h₁, harr, hnull | ⟨rfl, a, hslot⟩⟩ :=
    leads_end h tid habs mapped .null hroot
  · obtain ⟨m, a, hslot, -⟩ := (hgrown.outruns_iff h h₁ key).mpr hout
    have hend := h₁.endsAt_of_stop harr (by simp [hnull])
    rw [hend.unique (h₁.endsAt_of_data hslot), hslot] at hnull
    cases hnull
  · rw [hslot] at hleads
    refine ⟨t₁, a, currArr, hleads, hgrown, h₁, hslot, ?_⟩
    exact fun hhash => habs a ((hgrown.holds_iff key a).mp ⟨⟨_, hslot⟩, hhash⟩)

def overfull (L : Layout K) (D : Nat) (t : Table K T) (key : K) (a : Nat) : Table K T :=
  { publishArray t (L.keyPath key (D + 1)) (L.fragment (t.heap a).hash (D + 1)) a with
    size := t.size + 1 }

/-- An insertion of a key that is outrun shifts by 64 or more, or returns true after
it has put an array in the place of the node in its way. -/
theorem insert_outrun (h : Sound L D t) (tid : Nat) (hout : Outruns L t key) (mapped : T) :
    (∃ x, Leads ((program L).soloStep tid) (t, begin (.mutate (.insert key mapped)))
        (x, .fault)) ∨
      D + 1 = t.maxLevel ∧ ∃ t₁ a, Regrown t t₁ ∧ Sound L D t₁ ∧
        t₁.slots (L.keyPath key (D + 1)) = .data a ∧
        Returns L tid t (.mutate (.insert key mapped)) (overfull L D t₁ key a) (.bool true) := by
  obtain ⟨t₁, a, currArr, hleads, hgrown, h₁, hslot, hne⟩ := leads_last h tid hout mapped
  have hsplit := hleads.step
  simp only [soloStep_eq, step, attempt] at hsplit
  rw [if_pos (by decide), if_neg hne] at hsplit
  by_cases hshift : L.hashLevel * D < 64
  · have hlast : D + 1 = t.maxLevel := by
      rcases h.levels.last with hlast | hlast | hadm
      · exact hlast
      · exact absurd hshift (Nat.not_lt.mpr hlast)
      · exact absurd hout (h.not_outruns hadm key)
    rw [Layout.levelHash_succ _ hshift] at hsplit
    simp only [if_pos hslot] at hsplit
    have hlocated := hsplit.step
    have hfull : ¬ D + 1 < (publishArray t₁ (L.keyPath key (D + 1))
        (L.fragment (t₁.heap a).hash (D + 1)) a).maxLevel := by
      change ¬ D + 1 < t₁.maxLevel
      rw [hgrown.maxLevel, hlast]
      exact Nat.lt_irrefl _
    simp only [soloStep_eq, step, if_neg hfull] at hlocated
    have hcount := hlocated.step
    simp only [soloStep_eq, step] at hcount
    rw [if_neg (by simp)] at hcount
    exact Or.inr ⟨hlast, t₁, a, hgrown, h₁, hslot, hcount⟩
  · left
    rw [(Layout.levelHash_eq_none_iff _ _).mpr (Nat.not_lt.mp hshift)] at hsplit
    exact ⟨t₁, hsplit⟩

end Insertion

end HashComp.Concurrent
