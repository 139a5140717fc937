import HashComp.Basic.Insertion

namespace HashComp.Basic

open HashComp.LevelHash
open HashComp.SlotTrie

variable {K T : Type*} {L : Layout K} {t t' t₀ : Table K T} {key : K} {mapped : T}
  {p : Path} {a b : K × T} {op : Op K T} {r : Result K T} {keySize : Nat}

def Constructs (L : Layout K) (keySize : Nat) (t : Table K T) : Prop :=
  ∃ fuel, new L keySize fuel = some t

/-- The tables between the calls that are made on a new table. -/
def Reached (L : Layout K) (keySize : Nat) (t : Table K T) : Prop :=
  ∃ t₀ ops rs, Constructs L keySize t₀ ∧ calls L t₀ ops = some (rs, t)

theorem Constructs.not_stored (h : Constructs L keySize t) : ¬ Stored t a := by
  obtain ⟨fuel, hnew⟩ := h
  obtain ⟨level, -, rfl⟩ := Option.map_eq_some_iff.mp hnew
  rintro ⟨p, hp⟩
  by_cases hnil : p = []
  · simp [hnil] at hp
  · simp [hnil] at hp

theorem Constructs.sound (h : Constructs L keySize t) : Sound L t where
  wellFormed := by
    obtain ⟨fuel, hnew⟩ := h
    obtain ⟨level, -, rfl⟩ := Option.map_eq_some_iff.mp hnew
    exact ⟨by simp, fun p i hne => absurd (by simp) hne⟩
  placed := fun p a hp => absurd ⟨p, hp⟩ h.not_stored
  shallow := by
    obtain ⟨fuel, hnew⟩ := h
    obtain ⟨level, -, rfl⟩ := Option.map_eq_some_iff.mp hnew
    intro p hp
    have hnil : p = [] := by simpa using hp
    simp [hnil]
  shift := by
    obtain ⟨fuel, hnew⟩ := h
    obtain ⟨level, -, rfl⟩ := Option.map_eq_some_iff.mp hnew
    intro p hp
    have hnil : p = [] := by simpa using hp
    simp [hnil]

section Calls

theorem Found.address (h : Sound L t) (hfound : Found L t key p a) :
    ∃ n, p = L.keyPath a.1 (n + 1) ∧ t.slots (L.keyPath a.1 n) = .array := by
  have hp := h.placed p a hfound.slot
  rcases List.eq_nil_or_concat p with rfl | ⟨q, i, rfl⟩
  · have hroot := hfound.slot
    rw [h.wellFormed.root] at hroot
    cases hroot
  · rw [List.concat_eq_append] at hp ⊢
    have hslot := hfound.slot
    rw [List.concat_eq_append] at hslot
    rw [List.length_append, List.length_singleton] at hp
    have harr := h.wellFormed.parent q i (by simp [hslot])
    have hq : q = L.keyPath a.1 q.length := by
      rw [pathOf_succ] at hp
      exact (List.append_inj' hp rfl).1
    exact ⟨q.length, hp, by rwa [← hq]⟩

theorem Found.sound_erase (h : Sound L t) (hfound : Found L t key p a) :
    Sound L { setSlot t p .null with size := t.size - 1 } where
  wellFormed := by
    obtain ⟨n, rfl, harr⟩ := hfound.address h
    have hslot := hfound.slot
    rw [Layout.keyPath_succ] at hslot ⊢
    exact h.wellFormed.update harr (by simp [hslot]) _
  placed := h.placed.update_null
  shallow := h.shallow.update (by simp)
  shift := fun q hq => h.shift q (array_of_setSlot (s := .null) (by simp) hq)

theorem Sound.insert {b : Bool} (h : Sound L t) (hins : insert L t key mapped = some (b, t')) :
    Sound L t' ∧ t'.maxLevel = t.maxLevel := by
  by_cases hover : Overfull L t key
  · rw [insert_of_overfull h hover] at hins
    cases hins
    exact ⟨h, rfl⟩
  · by_cases hmeets : ∃ p a, Meets L t key p a
    · obtain ⟨p, a, hmeets⟩ := hmeets
      rcases Nat.lt_or_ge (L.hashLevel * t.maxLevel) 64 with hshift | hshift
      · obtain ⟨t'', hins', hdrop⟩ := insert_of_outrun mapped h hmeets hshift
        rw [hins'] at hins
        cases hins
        exact ⟨hdrop.sound, hdrop.maxLevel⟩
      · rw [insert_of_undefined h hmeets hshift] at hins
        cases hins
    · push Not at hmeets
      rcases insert_cases mapped h hover hmeets with ⟨-, -, -, hins'⟩ | ⟨t'', hnew, hins'⟩
      · rw [hins'] at hins
        cases hins
        exact ⟨h, rfl⟩
      · rw [hins'] at hins
        cases hins
        exact ⟨⟨hnew.sound.wellFormed, hnew.sound.placed, hnew.sound.shallow, hnew.sound.shift⟩,
          hnew.maxLevel⟩

theorem Sound.remove {b : Bool} (h : Sound L t) (hrem : remove L t key = some (b, t')) :
    Sound L t' ∧ t'.maxLevel = t.maxLevel := by
  rcases locator_spec h key with ⟨p, a, hfound, hloc⟩ | ⟨-, hloc⟩
  · rw [Basic.remove, hloc] at hrem
    cases hrem
    exact ⟨hfound.sound_erase h, rfl⟩
  · rw [Basic.remove, hloc] at hrem
    cases hrem
    exact ⟨h, rfl⟩

theorem Sound.update {b : Bool} (h : Sound L t) (hupd : update L t key mapped = some (b, t')) :
    Sound L t' ∧ t'.maxLevel = t.maxLevel := by
  rcases locator_spec h key with ⟨p, a, hfound, hloc⟩ | ⟨-, hloc⟩
  · rw [Basic.update, hloc, Option.map_some, located_of_found hfound] at hupd
    cases hupd
    obtain ⟨n, rfl, harr⟩ := hfound.address h
    exact ⟨h.setSlot harr (by simp [hfound.slot]) rfl, rfl⟩
  · rw [Basic.update, hloc] at hupd
    cases hupd
    exact ⟨h, rfl⟩

theorem Sound.call (h : Sound L t) (hcall : call L t op = some (r, t')) :
    Sound L t' ∧ t'.maxLevel = t.maxLevel := by
  cases op with
  | reserve newCap =>
      cases hcall
      exact ⟨⟨h.wellFormed, h.placed, h.shallow, h.shift⟩, rfl⟩
  | insert key mapped =>
      obtain ⟨⟨b, t''⟩, hins, heq⟩ := Option.map_eq_some_iff.mp hcall
      cases heq
      exact h.insert hins
  | get key | find key =>
      obtain ⟨r', -, heq⟩ := Option.map_eq_some_iff.mp hcall
      cases heq
      exact ⟨h, rfl⟩
  | update key mapped =>
      obtain ⟨⟨b, t''⟩, hupd, heq⟩ := Option.map_eq_some_iff.mp hcall
      cases heq
      exact h.update hupd
  | remove key =>
      obtain ⟨⟨b, t''⟩, hrem, heq⟩ := Option.map_eq_some_iff.mp hcall
      cases heq
      exact h.remove hrem
  | size =>
      cases hcall
      exact ⟨h, rfl⟩

theorem Sound.calls {ops : List (Op K T)} {rs : List (Result K T)} (h : Sound L t)
    (hcalls : calls L t ops = some (rs, t')) : Sound L t' ∧ t'.maxLevel = t.maxLevel := by
  induction ops generalizing t rs with
  | nil =>
      cases hcalls
      exact ⟨h, rfl⟩
  | cons op ops ih =>
      simp only [Basic.calls, Option.bind_eq_bind, Option.bind_eq_some_iff] at hcalls
      obtain ⟨⟨r, t₁⟩, hcall, ⟨rs', t₂⟩, hrest, heq⟩ := hcalls
      cases heq
      have hfirst := h.call hcall
      have hlast := ih hfirst.1 hrest
      exact ⟨hlast.1, hlast.2.trans hfirst.2⟩

/-- Every table reached is sound and has the levels that the constructor counts. -/
theorem Reached.sound (h : Reached L keySize t) :
    Sound L t ∧ ∃ fuel, Constructor.maxLevel L.arraySize keySize fuel = some t.maxLevel := by
  obtain ⟨t₀, ops, rs, hnew, hcalls⟩ := h
  obtain ⟨hsound, hmax⟩ := hnew.sound.calls hcalls
  obtain ⟨fuel, hnew⟩ := hnew
  obtain ⟨level, hcount, rfl⟩ := Option.map_eq_some_iff.mp hnew
  exact ⟨hsound, fuel, by rw [hmax]; exact hcount⟩

end Calls

end HashComp.Basic
