import HashComp.Basic.Locator

namespace HashComp.Basic

open HashComp.LevelHash
open HashComp.SlotTrie

variable {K T : Type*} {L : Layout K} {t t' t'' : Table K T} {key : K} {mapped : T}
  {p q : Path} {a b : K × T} {n level : Nat}

structure Inserted (L : Layout K) (t : Table K T) (key : K) (mapped : T) (t' : Table K T) :
    Prop where
  sound : Sound L t'
  fresh : ∀ b, Stored t b → L.hasher b.1 ≠ L.hasher key
  stored : ∀ b, Stored t' b ↔ b = (key, mapped) ∨ Stored t b
  size : t'.size = t.size
  maxLevel : t'.maxLevel = t.maxLevel

def Overfull (L : Layout K) (t : Table K T) (key : K) : Prop :=
  t.slots (L.keyPath key t.maxLevel) = .array

/-- The hashes of `key` and of the node `a` in slot `p` differ, but not at the
levels of the table. -/
structure Meets (L : Layout K) (t : Table K T) (key : K) (p : Path) (a : K × T) : Prop where
  slot : t.slots p = .data a
  foreign : L.hasher a.1 ≠ L.hasher key
  depth : p.length ≤ t.maxLevel
  agree : ∀ i < t.maxLevel, L.fragment (L.hasher a.1) i = L.fragment (L.hasher key) i

/-- An insertion of `key` pushes a node down for as long as there are levels. -/
def Outrun (L : Layout K) (t : Table K T) (key : K) : Prop :=
  L.hashLevel * t.maxLevel < 64 ∧ ∃ p a, Meets L t key p a

structure Dropped (L : Layout K) (t : Table K T) (p : Path) (t' : Table K T) : Prop where
  sound : Sound L t'
  reach : ∀ q b, q.length ≤ t.maxLevel →
    (t'.slots q = .data b ↔ q ≠ p ∧ t.slots q = .data b)
  size : t'.size = t.size
  maxLevel : t'.maxLevel = t.maxLevel

section Slots

theorem array_of_setSlot {s : Slot (K × T)} (hs : s ≠ .array)
    (hq : (setSlot t p s).slots q = .array) : t.slots q = .array := by
  by_cases hqp : q = p
  · subst q
    simp [setSlot, hs] at hq
  · simpa [setSlot, hqp] using hq

theorem setSlot_data_iff {s : Slot (K × T)} :
    (setSlot t p s).slots q = .data b ↔ q = p ∧ s = .data b ∨ q ≠ p ∧ t.slots q = .data b := by
  by_cases hqp : q = p
  · subst q
    simp [setSlot]
  · simp [setSlot, hqp]

theorem Sound.setSlot (h : Sound L t) (harr : t.slots (L.keyPath key n) = .array)
    (hnot : t.slots (L.keyPath key (n + 1)) ≠ .array) (hhash : L.hasher a.1 = L.hasher key) :
    Sound L (setSlot t (L.keyPath key (n + 1)) (.data a)) where
  wellFormed := by
    rw [Layout.keyPath_succ] at hnot ⊢
    exact h.wellFormed.update harr hnot _
  placed := by
    refine h.placed.update_data ?_
    rw [Layout.keyPath_length, hhash]
    rfl
  shallow := h.shallow.update (by simp)
  shift := fun q hq => h.shift q (array_of_setSlot (by simp) hq)

theorem Sound.pushDown (h : Sound L t) (ha : t.slots p = .data a)
    (hlen : p.length ≤ t.maxLevel) (hshift : L.hashLevel * p.length < 64) :
    Sound L (pushDown t p (L.fragment (L.hasher a.1) p.length) a) where
  wellFormed := h.wellFormed.publish ha _
  placed := h.placed.publish h.wellFormed ha
  shallow := h.shallow.publish h.wellFormed (by simp [ha]) hlen
  shift := by
    intro q hq
    rcases (publish_eq_array_iff h.wellFormed (by simp [ha])).mp hq with rfl | hq
    · exact hshift
    · exact h.shift q hq

theorem pushDown_data_iff (h : Sound L t) (ha : t.slots p = .data a) {i : Nat} :
    (pushDown t p i a).slots q = .data b ↔
      q = p ++ [i] ∧ b = a ∨ q ≠ p ∧ t.slots q = .data b :=
  publish_eq_data_iff h.wellFormed ha

theorem stored_pushDown (h : Sound L t) (ha : t.slots p = .data a) {i : Nat} :
    Stored (pushDown t p i a) b ↔ Stored t b := by
  constructor
  · rintro ⟨q, hq⟩
    rcases (pushDown_data_iff h ha).mp hq with ⟨-, rfl⟩ | ⟨-, hq⟩
    · exact ⟨p, ha⟩
    · exact ⟨q, hq⟩
  · rintro ⟨q, hq⟩
    by_cases hqp : q = p
    · subst q
      rw [ha] at hq
      cases hq
      exact ⟨p ++ [i], (pushDown_data_iff h ha).mpr (Or.inl ⟨rfl, rfl⟩)⟩
    · exact ⟨q, (pushDown_data_iff h ha).mpr (Or.inr ⟨hqp, hq⟩)⟩

theorem inserted_setSlot (h : Sound L t) (harr : t.slots (L.keyPath key n) = .array)
    (hnull : t.slots (L.keyPath key (n + 1)) = .null) :
    Inserted L t key mapped (setSlot t (L.keyPath key (n + 1)) (.data (key, mapped))) where
  sound := h.setSlot harr (by simp [hnull]) rfl
  fresh := fun _ ⟨_, hb⟩ => h.absent_of_null harr hnull hb
  stored := by
    intro b
    constructor
    · rintro ⟨q, hq⟩
      rcases setSlot_data_iff.mp hq with ⟨-, hb⟩ | ⟨-, hq⟩
      · exact Or.inl (Slot.data.inj hb).symm
      · exact Or.inr ⟨q, hq⟩
    · rintro (rfl | ⟨q, hq⟩)
      · exact ⟨_, setSlot_data_iff.mpr (Or.inl ⟨rfl, rfl⟩)⟩
      · refine ⟨q, setSlot_data_iff.mpr (Or.inr ⟨?_, hq⟩)⟩
        rintro rfl
        rw [hnull] at hq
        cases hq
  size := rfl
  maxLevel := rfl

theorem Inserted.of_pushDown (h : Sound L t) (ha : t.slots p = .data a) {i : Nat}
    (hins : Inserted L (pushDown t p i a) key mapped t') : Inserted L t key mapped t' where
  sound := hins.sound
  fresh := fun b hb => hins.fresh b ((stored_pushDown h ha).mpr hb)
  stored := by
    intro b
    rw [hins.stored, stored_pushDown h ha]
  size := hins.size
  maxLevel := hins.maxLevel

theorem Dropped.of_pushDown (h : Sound L t) (ha : t.slots p = .data a) {i : Nat}
    (hdrop : Dropped L (pushDown t p i a) (p ++ [i]) t') : Dropped L t p t' where
  sound := hdrop.sound
  reach := by
    intro q b hq
    rw [hdrop.reach q b hq, pushDown_data_iff h ha]
    constructor
    · rintro ⟨hne, ⟨heq, -⟩ | hq⟩
      · exact absurd heq hne
      · exact hq
    · rintro ⟨hne, hb⟩
      refine ⟨?_, Or.inr ⟨hne, hb⟩⟩
      rintro rfl
      rw [h.wellFormed.cell_null (by simp [ha]) i] at hb
      cases hb
  size := hdrop.size
  maxLevel := hdrop.maxLevel

end Slots

section Fragments

theorem shift_of_fragment_ne {hash hash' : BitVec 64}
    (hne : L.fragment hash level ≠ L.fragment hash' level) : L.hashLevel * level < 64 := by
  by_contra hge
  apply hne
  have hzero : ∀ x : BitVec 64, x >>> (L.hashLevel * level) = 0 := by
    intro x
    exact BitVec.ushiftRight_eq_zero (by omega)
  rw [Layout.fragment, Layout.fragment, hzero, hzero]

end Fragments

section Loop

theorem place_walk {m : Nat} (h : Sound L t) (hm : m ≤ t.maxLevel)
    (harr : ∀ i ≤ m, t.slots (L.keyPath key i) = .array) :
    place L key mapped t.maxLevel 0 [] t =
      place L key mapped (t.maxLevel - m) m (L.keyPath key m) t := by
  induction m with
  | zero => rfl
  | succ m ih =>
      have hstep : t.maxLevel - m = t.maxLevel - (m + 1) + 1 := by omega
      rw [ih (by omega) (fun i hi => harr i (by omega)), hstep]
      simp only [place, h.levelHash_of_array (harr m (by omega)), ← Layout.keyPath_succ,
        harr (m + 1) le_rfl]

/-- The table after an iteration that has met the foreign node `a`. -/
abbrev pushed (L : Layout K) (t : Table K T) (key : K) (level : Nat) (a : K × T) : Table K T :=
  pushDown t (L.keyPath key (level + 1)) (L.fragment (L.hasher a.1) (level + 1)) a

theorem place_push (h : Sound L t) (harr : t.slots (L.keyPath key level) = .array)
    (ha : t.slots (L.keyPath key (level + 1)) = .data a) (hne : L.hasher a.1 ≠ L.hasher key)
    (hshift : L.hashLevel * (level + 1) < 64) :
    place L key mapped (n + 1) level (L.keyPath key level) t =
      place L key mapped n (level + 1) (L.keyPath key (level + 1)) (pushed L t key level a) := by
  simp only [place, h.levelHash_of_array harr, ← Layout.keyPath_succ, ha, if_neg hne,
    Layout.levelHash_eq, if_pos hshift]

theorem Sound.pushed (h : Sound L t) (ha : t.slots (L.keyPath key (level + 1)) = .data a)
    (hlevel : level < t.maxLevel) (hshift : L.hashLevel * (level + 1) < 64) :
    Sound L (pushed L t key level a) := by
  have hpush := h.pushDown ha (by rw [Layout.keyPath_length]; exact hlevel)
    (by rwa [Layout.keyPath_length])
  rwa [Layout.keyPath_length] at hpush

theorem pushed_array : (pushed L t key level a).slots (L.keyPath key (level + 1)) = .array :=
  publish_self

theorem pushed_next (h : Sound L t) (ha : t.slots (L.keyPath key (level + 1)) = .data a)
    (heq : L.fragment (L.hasher a.1) (level + 1) = L.fragment (L.hasher key) (level + 1)) :
    (pushed L t key level a).slots (L.keyPath key (level + 2)) = .data a := by
  rw [pushDown_data_iff h ha, Layout.keyPath_succ key (level + 1), heq]
  exact Or.inl ⟨rfl, rfl⟩

theorem pushed_apart
    (hne : L.fragment (L.hasher a.1) (level + 1) ≠ L.fragment (L.hasher key) (level + 1)) :
    (pushed L t key level a).slots (L.keyPath key (level + 2)) = .null := by
  have hcell : L.keyPath key (level + 2) ≠
      L.keyPath key (level + 1) ++ [L.fragment (L.hasher a.1) (level + 1)] := by
    rw [Layout.keyPath_succ key (level + 1)]
    intro heq
    exact hne (List.singleton_inj.mp (List.append_cancel_left heq)).symm
  have hself : L.keyPath key (level + 2) ≠ L.keyPath key (level + 1) := by
    intro heq
    have hlen := congrArg List.length heq
    simp at hlen
  have hdrop : (L.keyPath key (level + 2)).dropLast = L.keyPath key (level + 1) := by
    rw [Layout.keyPath_succ key (level + 1), List.dropLast_concat]
  simp only [pushed, pushDown, publish, if_neg hself, if_neg hcell, if_pos hdrop]

theorem place_parted (mapped : T) (h : Sound L t) (hlen : level + (n + 1) = t.maxLevel)
    (harr : t.slots (L.keyPath key level) = .array)
    (ha : t.slots (L.keyPath key (level + 1)) = .data a)
    (hpart : ∃ i < t.maxLevel, L.fragment (L.hasher a.1) i ≠ L.fragment (L.hasher key) i) :
    ∃ p t', place L key mapped (n + 1) level (L.keyPath key level) t = some (some p, t') ∧
      Inserted L t key mapped t' := by
  have hne : L.hasher a.1 ≠ L.hasher key := by
    obtain ⟨i, -, hi⟩ := hpart
    exact fun heq => hi (by rw [heq])
  have hlevel : ∃ i < t.maxLevel, level < i ∧
      L.fragment (L.hasher a.1) i ≠ L.fragment (L.hasher key) i := by
    obtain ⟨i, hi, hpart⟩ := hpart
    have hplaced := h.placed _ a ha
    rw [Layout.keyPath_length] at hplaced
    refine ⟨i, hi, ?_, hpart⟩
    by_contra hlt
    exact hpart (pathOf_eq_iff.mp hplaced i (by omega)).symm
  obtain ⟨i, hi, hlt, hparti⟩ := hlevel
  have hshift : L.hashLevel * (level + 1) < 64 :=
    Nat.lt_of_le_of_lt (Nat.mul_le_mul_left _ hlt) (shift_of_fragment_ne hparti)
  have hsound := h.pushed ha (by omega) hshift
  rw [place_push h harr ha hne hshift]
  induction n generalizing t level with
  | zero => omega
  | succ n ih =>
      by_cases heq : L.fragment (L.hasher a.1) (level + 1) = L.fragment (L.hasher key) (level + 1)
      · have hnext := pushed_next h ha heq
        have hlt' : level + 1 < i := by
          refine Nat.lt_of_le_of_ne hlt ?_
          rintro rfl
          exact hparti heq
        have hshift' : L.hashLevel * (level + 1 + 1) < 64 :=
          Nat.lt_of_le_of_lt (Nat.mul_le_mul_left _ hlt') (shift_of_fragment_ne hparti)
        rw [place_push hsound pushed_array hnext hne hshift']
        have hmax : (pushed L t key level a).maxLevel = t.maxLevel := rfl
        obtain ⟨p, t', hplace, hins⟩ := ih hsound (by omega) pushed_array hnext ⟨i, hi, hparti⟩ hi
          hlt' hshift' (hsound.pushed hnext (by omega) hshift')
        exact ⟨p, t', hplace, hins.of_pushDown h ha⟩
      · have hnext := pushed_apart (t := t) heq
        simp only [place, hsound.levelHash_of_array pushed_array, ← Layout.keyPath_succ, hnext]
        exact ⟨_, _, rfl, (inserted_setSlot hsound pushed_array hnext).of_pushDown h ha⟩

theorem place_agreeing (mapped : T) (h : Sound L t) (hlen : level + (n + 1) = t.maxLevel)
    (harr : t.slots (L.keyPath key level) = .array)
    (hmeets : Meets L t key (L.keyPath key (level + 1)) a)
    (hshift : L.hashLevel * t.maxLevel < 64) :
    ∃ t', place L key mapped (n + 1) level (L.keyPath key level) t = some (none, t') ∧
      Dropped L t (L.keyPath key (level + 1)) t' := by
  have hshift' : L.hashLevel * (level + 1) < 64 :=
    Nat.lt_of_le_of_lt (Nat.mul_le_mul_left _ (by omega)) hshift
  have hsound := h.pushed hmeets.slot (by omega) hshift'
  rw [place_push h harr hmeets.slot hmeets.foreign hshift']
  induction n generalizing t level with
  | zero =>
      refine ⟨_, rfl, hsound, fun q b hq => ?_, rfl, rfl⟩
      rw [pushDown_data_iff h hmeets.slot]
      constructor
      · rintro (⟨rfl, -⟩ | hb)
        · simp at hq
          omega
        · exact hb
      · exact Or.inr
  | succ n ih =>
      have heq := hmeets.agree (level + 1) (by omega)
      have hnext := pushed_next h hmeets.slot heq
      have hmeets' : Meets L (pushed L t key level a) key (L.keyPath key (level + 2)) a := by
        refine ⟨hnext, hmeets.foreign, ?_, hmeets.agree⟩
        rw [Layout.keyPath_length]
        change level + 2 ≤ t.maxLevel
        omega
      have hmax : (pushed L t key level a).maxLevel = t.maxLevel := rfl
      have hshift'' : L.hashLevel * (level + 1 + 1) < 64 :=
        Nat.lt_of_le_of_lt (Nat.mul_le_mul_left _ (by omega)) hshift
      rw [place_push hsound pushed_array hnext hmeets.foreign hshift'']
      obtain ⟨t', hplace, hdrop⟩ := ih hsound (by omega) pushed_array hmeets' hshift hshift''
        (hsound.pushed hnext (by omega) hshift'')
      rw [Layout.keyPath_succ key (level + 1), ← heq] at hdrop
      exact ⟨t', hplace, hdrop.of_pushDown h hmeets.slot⟩

theorem place_undefined (h : Sound L t) (hlen : level + (n + 1) = t.maxLevel)
    (harr : t.slots (L.keyPath key level) = .array)
    (hmeets : Meets L t key (L.keyPath key (level + 1)) a)
    (hshift : 64 ≤ L.hashLevel * t.maxLevel) :
    place L key mapped (n + 1) level (L.keyPath key level) t = none := by
  induction n generalizing t level with
  | zero =>
      have hge : ¬ L.hashLevel * (level + 1) < 64 := by
        rw [hlen]
        exact Nat.not_lt.mpr hshift
      simp only [place, h.levelHash_of_array harr, ← Layout.keyPath_succ, hmeets.slot,
        if_neg hmeets.foreign, Layout.levelHash_eq, if_neg hge]
  | succ n ih =>
      by_cases hlt : L.hashLevel * (level + 1) < 64
      · have heq := hmeets.agree (level + 1) (by omega)
        have hsound := h.pushed hmeets.slot (by omega) hlt
        have hnext := pushed_next h hmeets.slot heq
        have hmeets' : Meets L (pushed L t key level a) key (L.keyPath key (level + 2)) a := by
          refine ⟨hnext, hmeets.foreign, ?_, hmeets.agree⟩
          rw [Layout.keyPath_length]
          change level + 2 ≤ t.maxLevel
          omega
        have hmax : (pushed L t key level a).maxLevel = t.maxLevel := rfl
        rw [place_push h harr hmeets.slot hmeets.foreign hlt]
        exact ih hsound (by omega) pushed_array hmeets' hshift
      · simp only [place, h.levelHash_of_array harr, ← Layout.keyPath_succ, hmeets.slot,
          if_neg hmeets.foreign, Layout.levelHash_eq, if_neg hlt]

end Loop

section Insert

theorem Meets.arrays (h : Sound L t) (hmeets : Meets L t key p a) :
    ∃ m < t.maxLevel, p = L.keyPath key (m + 1) ∧
      ∀ i ≤ m, t.slots (L.keyPath key i) = .array := by
  have hp : p = L.keyPath key p.length := by
    rw [h.placed p a hmeets.slot, pathOf_length]
    exact pathOf_eq_iff.mpr fun i hi => hmeets.agree i (by have := hmeets.depth; omega)
  have hocc : t.slots (L.keyPath key p.length) = .data a := by
    rw [← hp]
    exact hmeets.slot
  cases hlen : p.length with
  | zero =>
      rw [hlen, show L.keyPath key 0 = [] from rfl, h.wellFormed.root] at hocc
      cases hocc
  | succ m =>
      rw [hlen] at hp hocc
      refine ⟨m, ?_, hp, fun i hi => ?_⟩
      · have := hmeets.depth
        omega
      · refine h.wellFormed.array_above (n := m + 1) ?_ (by omega)
        rw [show pathOf _ (m + 1) = L.keyPath key (m + 1) from rfl, hocc]
        simp

theorem insert_walk {m : Nat} (h : Sound L t) (hm : m < t.maxLevel)
    (harr : ∀ i ≤ m, t.slots (L.keyPath key i) = .array) :
    place L key mapped t.maxLevel 0 [] t =
      place L key mapped (t.maxLevel - (m + 1) + 1) m (L.keyPath key m) t := by
  rw [place_walk h (Nat.le_of_lt hm) harr]
  congr 1
  omega

theorem insert_of_outrun (mapped : T) (h : Sound L t) (hmeets : Meets L t key p a)
    (hshift : L.hashLevel * t.maxLevel < 64) :
    ∃ t', insert L t key mapped = some (false, t') ∧ Dropped L t p t' := by
  obtain ⟨m, hm, rfl, harr⟩ := hmeets.arrays h
  obtain ⟨t', hplace, hdrop⟩ := place_agreeing (n := t.maxLevel - (m + 1)) mapped h
    (by omega) (harr m le_rfl) hmeets hshift
  refine ⟨t', ?_, hdrop⟩
  rw [insert, insert_walk h hm harr, hplace]

theorem insert_of_undefined (h : Sound L t) (hmeets : Meets L t key p a)
    (hshift : 64 ≤ L.hashLevel * t.maxLevel) : insert L t key mapped = none := by
  obtain ⟨m, hm, rfl, harr⟩ := hmeets.arrays h
  rw [insert, insert_walk h hm harr,
    place_undefined (n := t.maxLevel - (m + 1)) h (by omega) (harr m le_rfl) hmeets hshift]

theorem insert_of_overfull (h : Sound L t) (hover : Overfull L t key) :
    insert L t key mapped = some (false, t) := by
  have harr : ∀ i ≤ t.maxLevel, t.slots (L.keyPath key i) = .array := by
    intro i hi
    rcases Nat.lt_or_eq_of_le hi with hlt | rfl
    · refine h.wellFormed.array_above (n := t.maxLevel) ?_ hlt
      rw [show pathOf _ t.maxLevel = L.keyPath key t.maxLevel from rfl,
        show t.slots (L.keyPath key t.maxLevel) = .array from hover]
      simp
    · exact hover
  rw [insert, place_walk h le_rfl harr, Nat.sub_self]
  rfl

theorem insert_cases (mapped : T) (h : Sound L t) (hover : ¬ Overfull L t key)
    (hmeets : ∀ p a, ¬ Meets L t key p a) :
    (∃ p a, Found L t key p a ∧ insert L t key mapped = some (false, t)) ∨
    (∃ t', Inserted L t key mapped t' ∧
      insert L t key mapped = some (true, { t' with size := t'.size + 1 })) := by
  obtain ⟨m, hm, harrm, hstop⟩ := exists_end h.wellFormed h.shallow (L.fragment (L.hasher key))
  have hlt : m < t.maxLevel := by
    refine Nat.lt_of_le_of_ne hm ?_
    rintro rfl
    exact hover harrm
  have harr : ∀ i ≤ m, t.slots (L.keyPath key i) = .array := by
    intro i hi
    rcases Nat.lt_or_eq_of_le hi with hlt | rfl
    · exact h.wellFormed.array_above (by simp [harrm]) hlt
    · exact harrm
  rw [insert, insert_walk h hlt harr]
  have hlen : m + (t.maxLevel - (m + 1) + 1) = t.maxLevel := by omega
  cases hslot : t.slots (L.keyPath key (m + 1)) with
  | null =>
      refine Or.inr ⟨_, inserted_setSlot h (harr m le_rfl) hslot, ?_⟩
      simp only [place, h.levelHash_of_array (harr m le_rfl), ← Layout.keyPath_succ, hslot]
  | data a =>
      by_cases hhash : L.hasher a.1 = L.hasher key
      · refine Or.inl ⟨_, a, ⟨hslot, hhash, ?_⟩, ?_⟩
        · rw [Layout.keyPath_length]
          omega
        · simp only [place, h.levelHash_of_array (harr m le_rfl), ← Layout.keyPath_succ, hslot,
            if_pos hhash]
      · have hpart : ∃ i < t.maxLevel,
            L.fragment (L.hasher a.1) i ≠ L.fragment (L.hasher key) i := by
          by_contra hall
          push Not at hall
          refine hmeets _ a ⟨hslot, hhash, ?_, hall⟩
          rw [Layout.keyPath_length]
          omega
        obtain ⟨p, t', hplace, hins⟩ := place_parted mapped h hlen (harr m le_rfl)
          hslot hpart
        exact Or.inr ⟨t', hins, by rw [hplace]⟩
  | array => exact absurd hslot hstop

theorem insert_of_found (h : Sound L t) (hfound : Found L t key p a) :
    insert L t key mapped = some (false, t) := by
  have hover : ¬ Overfull L t key := by
    intro hover
    have hdeep := h.deep hover hfound.slot hfound.hash
    exact absurd hdeep (Nat.not_lt.mpr hfound.depth)
  have hmeets : ∀ q b, ¬ Meets L t key q b := by
    intro q b hmeets
    obtain ⟨m, hm, rfl, harr⟩ := hmeets.arrays h
    exact h.foreign (harr m le_rfl) hmeets.slot hmeets.foreign hfound.slot hfound.hash
  rcases insert_cases mapped h hover hmeets with ⟨-, -, -, hins⟩ | ⟨t', hins, -⟩
  · exact hins
  · exact absurd hfound.hash (hins.fresh a ⟨p, hfound.slot⟩)

end Insert

end HashComp.Basic
