import HashComp.Basic.Model

namespace HashComp.Basic

open HashComp.LevelHash
open HashComp.SlotTrie

variable {K T : Type*} {L : Layout K} {t t' : Table K T} {key : K} {mapped : T} {p q : Path}
  {a b : K × T} {n level : Nat}

namespace Layout

theorem keyPath_succ (key : K) (n : Nat) :
    L.keyPath key (n + 1) = L.keyPath key n ++ [L.fragment (L.hasher key) n] :=
  pathOf_succ _ n

@[simp] theorem keyPath_length (key : K) (n : Nat) : (L.keyPath key n).length = n :=
  pathOf_length _ n

theorem levelHash_eq (hash : BitVec 64) (level : Nat) :
    L.levelHash hash level =
      if L.hashLevel * level < 64 then some (L.fragment hash level) else none := rfl

/-- The same fragments as those below the root of a table without root levels. -/
theorem fragment_eq (hlevel : L.hashLevel ≤ 10) (hash : BitVec 64) (level : Nat) :
    L.fragment hash level =
      LevelHash.Layout.fragment ⟨L.hasher, L.hashLevel, 0⟩ hash (level + 1) := by
  simp [fragment, LevelHash.Layout.fragment, arraySize, Nat.not_lt.mpr hlevel]

theorem eq_of_fragment_eq (hlevel : L.hashLevel ≤ 10) (hcov : 64 ≤ L.hashLevel * n)
    {hash hash' : BitVec 64} (h : ∀ i < n, L.fragment hash i = L.fragment hash' i) :
    hash = hash' := by
  apply LevelHash.Layout.eq_of_fragment_eq (L := ⟨L.hasher, L.hashLevel, 0⟩) (D := n)
  · simpa using hcov
  · intro i hi
    cases i with
    | zero => simp [LevelHash.Layout.fragment, LevelHash.Layout.rootHash, getPower2]
    | succ i =>
        rw [← fragment_eq hlevel, ← fragment_eq hlevel]
        exact h i hi

end Layout

/-- The invariant of a table.  Arrays may reach one level further than a loop
looks. -/
structure Sound (L : Layout K) (t : Table K T) : Prop where
  wellFormed : WellFormed t.slots
  placed : Placed (fun a => L.fragment (L.hasher a.1)) t.slots
  shallow : Shallow t.maxLevel t.slots
  shift : ∀ p, t.slots p = .array → L.hashLevel * p.length < 64

/-- Slot `p` holds a node with the hash of `key`, at one of the levels that the
loops look at. -/
structure Found (L : Layout K) (t : Table K T) (key : K) (p : Path) (a : K × T) : Prop where
  slot : t.slots p = .data a
  hash : L.hasher a.1 = L.hasher key
  depth : p.length ≤ t.maxLevel

def Stored (t : Table K T) (a : K × T) : Prop :=
  ∃ p, t.slots p = .data a

theorem Found.unique (h : Sound L t) (ha : Found L t key p a) (hb : Found L t key q b) :
    p = q ∧ a = b := by
  have hab : L.fragment (L.hasher a.1) = L.fragment (L.hasher b.1) := by
    rw [ha.hash, hb.hash]
  exact ⟨h.placed.eq_of_frag_eq h.wellFormed ha.slot hb.slot hab,
    h.placed.data_inj h.wellFormed ha.slot hb.slot hab⟩

theorem Sound.next_of_hash (h : Sound L t) (hb : t.slots q = .data b)
    (hhash : L.hasher b.1 = L.hasher key) (harr : t.slots (L.keyPath key n) = .array) :
    t.slots (L.keyPath key (n + 1)) = .array ∨ t.slots (L.keyPath key (n + 1)) = .data b := by
  have hfrag : L.keyPath key = pathOf (L.fragment (L.hasher b.1)) := by
    rw [hhash]
    rfl
  rw [hfrag] at harr ⊢
  exact h.placed.next_of_stored h.wellFormed hb harr

theorem Sound.foreign (h : Sound L t) (harr : t.slots (L.keyPath key n) = .array)
    (ha : t.slots (L.keyPath key (n + 1)) = .data a) (hne : L.hasher a.1 ≠ L.hasher key)
    (hb : t.slots q = .data b) : L.hasher b.1 ≠ L.hasher key := by
  intro hhash
  rcases h.next_of_hash hb hhash harr with hnext | hnext
  · rw [ha] at hnext
    cases hnext
  · rw [ha] at hnext
    cases hnext
    exact hne hhash

theorem Sound.absent_of_null (h : Sound L t) (harr : t.slots (L.keyPath key n) = .array)
    (hnull : t.slots (L.keyPath key (n + 1)) = .null) (hb : t.slots q = .data b) :
    L.hasher b.1 ≠ L.hasher key := by
  intro hhash
  rcases h.next_of_hash hb hhash harr with hnext | hnext
  · rw [hnull] at hnext
    cases hnext
  · rw [hnull] at hnext
    cases hnext

theorem Sound.deep (h : Sound L t) (harr : t.slots (L.keyPath key n) = .array)
    (hb : t.slots q = .data b) (hhash : L.hasher b.1 = L.hasher key) : n < q.length := by
  by_contra hle
  have hq := h.placed q b hb
  have hfrag : pathOf (L.fragment (L.hasher b.1)) = L.keyPath key := by
    rw [hhash]
    rfl
  change q = pathOf (L.fragment (L.hasher b.1)) q.length at hq
  rw [hfrag] at hq
  rcases Nat.lt_or_eq_of_le (Nat.le_of_not_lt hle) with hlt | heq
  · have habove := h.wellFormed.array_above (f := L.fragment (L.hasher key)) (n := n)
      (by simp [show t.slots (pathOf (L.fragment (L.hasher key)) n) = .array from harr]) hlt
    rw [hq] at hb
    rw [show pathOf (L.fragment (L.hasher key)) q.length = L.keyPath key q.length from rfl,
      hb] at habove
    cases habove
  · rw [hq, heq, harr] at hb
    cases hb

theorem Sound.levelHash_of_array (h : Sound L t) (harr : t.slots (L.keyPath key n) = .array)
    (hash : BitVec 64) : L.levelHash hash n = some (L.fragment hash n) := by
  have hshift := h.shift _ harr
  rw [Layout.keyPath_length] at hshift
  rw [Layout.levelHash_eq, if_pos hshift]

section Finding

theorem locate_spec (h : Sound L t) (hlen : level + n = t.maxLevel)
    (harr : t.slots (L.keyPath key level) = .array) :
    (∃ p a, Found L t key p a ∧
      locate L t (L.hasher key) n level (L.keyPath key level) = some (some p)) ∨
    ((∀ p a, ¬ Found L t key p a) ∧
      locate L t (L.hasher key) n level (L.keyPath key level) = some none) := by
  induction n generalizing level with
  | zero =>
      refine Or.inr ⟨fun p a hfound => ?_, rfl⟩
      have hdeep := h.deep harr hfound.slot hfound.hash
      have hdepth := hfound.depth
      omega
  | succ n ih =>
      simp only [locate, h.levelHash_of_array harr, ← Layout.keyPath_succ]
      cases hslot : t.slots (L.keyPath key (level + 1)) with
      | null =>
          refine Or.inr ⟨fun p a hfound => ?_, rfl⟩
          exact h.absent_of_null harr hslot hfound.slot hfound.hash
      | data a =>
          by_cases hhash : L.hasher a.1 = L.hasher key
          · refine Or.inl ⟨_, a, ⟨hslot, hhash, ?_⟩, if_pos hhash.symm⟩
            rw [Layout.keyPath_length]
            omega
          · refine Or.inr ⟨fun p b hfound => ?_, if_neg (Ne.symm hhash)⟩
            exact h.foreign harr hslot hhash hfound.slot hfound.hash
      | array => exact ih (by omega) hslot

/-- The finding locator refers to the node of an equal hash, if there is one
within reach. -/
theorem locator_spec (h : Sound L t) (key : K) :
    (∃ p a, Found L t key p a ∧ locator L t key = some (some p)) ∨
    ((∀ p a, ¬ Found L t key p a) ∧ locator L t key = some none) :=
  locate_spec h (Nat.zero_add _) h.wellFormed.root

theorem locator_of_found (h : Sound L t) (hfound : Found L t key p a) :
    locator L t key = some (some p) := by
  rcases locator_spec h key with ⟨q, b, hq, hloc⟩ | ⟨hnone, -⟩
  · rw [(hfound.unique h hq).1]
    exact hloc
  · exact absurd hfound (hnone p a)

theorem locator_of_not_found (h : Sound L t) (hnone : ∀ p a, ¬ Found L t key p a) :
    locator L t key = some none := by
  rcases locator_spec h key with ⟨q, b, hq, -⟩ | ⟨-, hloc⟩
  · exact absurd hq (hnone q b)
  · exact hloc

theorem located_of_found (hfound : Found L t key p a) : located t (some p) = some a := by
  simp only [located, hfound.slot]

theorem get_of_found (h : Sound L t) (hfound : Found L t key p a) :
    get L t key = some (.pair a.1 a.2) := by
  rw [get, locator_of_found h hfound, Option.map_some, located_of_found hfound]

theorem get_of_not_found (h : Sound L t) (hnone : ∀ p a, ¬ Found L t key p a) :
    get L t key = some .outOfRange := by
  rw [get, locator_of_not_found h hnone]
  rfl

theorem find_of_found (h : Sound L t) (hfound : Found L t key p a) :
    find L t key = some (.shared (some a)) := by
  rw [find, locator_of_found h hfound, Option.map_some, located_of_found hfound]

theorem find_of_not_found (h : Sound L t) (hnone : ∀ p a, ¬ Found L t key p a) :
    find L t key = some (.shared none) := by
  rw [find, locator_of_not_found h hnone]
  rfl

end Finding

end HashComp.Basic
