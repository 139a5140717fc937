import HashComp.Basic.Invariant
import Mathlib.Data.Finmap

namespace HashComp.Basic

open HashComp.LevelHash
open HashComp.SlotTrie

section Map

abbrev Map (K T : Type*) := Finmap fun _ : K => T

variable {K T : Type*} [DecidableEq K]

def mapCall (m : Map K T) : Op K T → Result K T × Map K T
  | .reserve _ => (.none, m)
  | .insert key mapped =>
      if key ∈ m then (.bool false, m) else (.bool true, m.insert key mapped)
  | .get key =>
      match m.lookup key with
      | none => (.outOfRange, m)
      | some mapped => (.pair key mapped, m)
  | .find key => (.shared ((m.lookup key).map fun mapped => (key, mapped)), m)
  | .update key mapped =>
      if key ∈ m then (.bool true, m.insert key mapped) else (.bool false, m)
  | .remove key => if key ∈ m then (.bool true, m.erase key) else (.bool false, m)
  | .size => (.count (BitVec.ofNat 64 m.keys.card), m)

def mapCalls (m : Map K T) : List (Op K T) → List (Result K T) × Map K T
  | [] => ([], m)
  | op :: ops =>
      let (r, m') := mapCall m op
      let (rs, m'') := mapCalls m' ops
      (r :: rs, m'')

theorem keys_insert (m : Map K T) (key : K) (mapped : T) :
    (m.insert key mapped).keys = Insert.insert key m.keys := by
  ext k
  simp [Finmap.mem_keys]

end Map

variable {K T : Type*} {L : Layout K} {t : Table K T} {key : K} {mapped old : T} {p : Path}
  {a : K × T}

structure Tells (L : Layout K) (t : Table K T) : Prop where
  injective : Function.Injective L.hasher
  masks : L.hashLevel ≤ 10
  covers : 64 ≤ L.hashLevel * t.maxLevel

section Levels

theorem Tells.of_maxLevel {t' : Table K T} (ht : Tells L t) (hmax : t'.maxLevel = t.maxLevel) :
    Tells L t' :=
  ⟨ht.injective, ht.masks, by rw [hmax]; exact ht.covers⟩

theorem Tells.not_overfull (ht : Tells L t) (h : Sound L t) : ¬ Overfull L t key := by
  intro hover
  have hshift := h.shift _ hover
  rw [Layout.keyPath_length] at hshift
  exact absurd hshift (Nat.not_lt.mpr ht.covers)

theorem Tells.not_meets (ht : Tells L t) : ¬ Meets L t key p a :=
  fun hmeets => hmeets.foreign (Layout.eq_of_fragment_eq ht.masks ht.covers hmeets.agree)

theorem Tells.depth (ht : Tells L t) (h : Sound L t) (ha : t.slots p = .data a) :
    p.length ≤ t.maxLevel := by
  rcases List.eq_nil_or_concat p with rfl | ⟨q, i, rfl⟩
  · exact Nat.zero_le _
  · rw [List.concat_eq_append] at ha ⊢
    have hshift := h.shift q (h.wellFormed.parent q i (by simp [ha]))
    have hlt : q.length < t.maxLevel := by
      by_contra hge
      have := Nat.mul_le_mul_left L.hashLevel (Nat.not_lt.mp hge)
      have := ht.covers
      omega
    rw [List.length_append, List.length_singleton]
    exact hlt

theorem new_default (hlevel : L.hashLevel = 4) {fuel : Nat} (hfuel : 18 ≤ fuel) :
    ∃ t : Table K T, new L 8 fuel = some t ∧ t.maxLevel = 19 := by
  have hsize : L.arraySize = 16 := by
    rw [Layout.arraySize, hlevel]
    rfl
  rw [new, hsize, Constructor.maxLevel_default hfuel]
  exact ⟨_, rfl, rfl⟩

end Levels

variable [DecidableEq K] {m : Map K T}

/-- The nodes of the table are the pairs of the map. -/
structure Represents (L : Layout K) (t : Table K T) (m : Map K T) : Prop where
  sound : Sound L t
  lookup : ∀ key mapped, m.lookup key = some mapped ↔ Stored t (key, mapped)
  size : t.size = BitVec.ofNat 64 m.keys.card

section Lookup

theorem Represents.found_of_lookup (ht : Tells L t) (h : Represents L t m)
    (hlook : m.lookup key = some mapped) : ∃ p, Found L t key p (key, mapped) := by
  obtain ⟨p, hp⟩ := (h.lookup key mapped).mp hlook
  exact ⟨p, hp, rfl, ht.depth h.sound hp⟩

theorem Represents.lookup_of_found (ht : Tells L t) (h : Represents L t m)
    (hfound : Found L t key p a) : a.1 = key ∧ m.lookup key = some a.2 := by
  have hkey := ht.injective hfound.hash
  exact ⟨hkey, (h.lookup key a.2).mpr ⟨p, by rw [hfound.slot, ← hkey]⟩⟩

theorem Represents.not_found (ht : Tells L t) (h : Represents L t m)
    (hlook : m.lookup key = none) (p : Path) (a : K × T) : ¬ Found L t key p a := by
  intro hfound
  have := (h.lookup_of_found ht hfound).2
  rw [hlook] at this
  cases this

end Lookup

section Calls

theorem Represents.insert_fresh (mapped : T) (ht : Tells L t) (h : Represents L t m)
    (hlook : m.lookup key = none) :
    ∃ t', insert L t key mapped = some (true, t') ∧ Represents L t' (m.insert key mapped) := by
  rcases insert_cases mapped h.sound (ht.not_overfull h.sound)
    (fun _ _ => ht.not_meets) with ⟨p, a, hfound, -⟩ | ⟨t', hins, heq⟩
  · exact absurd hfound (h.not_found ht hlook p a)
  · refine ⟨_, heq, ⟨hins.sound.wellFormed, hins.sound.placed, hins.sound.shallow,
      hins.sound.shift⟩, ?_, ?_⟩
    · intro k v
      change _ ↔ Stored t' (k, v)
      rw [hins.stored, ← h.lookup]
      by_cases hk : k = key
      · subst k
        rw [Finmap.lookup_insert, hlook]
        simp [eq_comm]
      · rw [Finmap.lookup_insert_of_ne _ hk]
        simp [hk]
    · have hnot : key ∉ m.keys := by rwa [Finmap.mem_keys, ← Finmap.lookup_eq_none]
      rw [keys_insert, Finset.card_insert_of_notMem hnot, BitVec.ofNat_add, ← h.size, ← hins.size]
      rfl

theorem Represents.overwrite (h : Represents L t m) (ht : Tells L t)
    (hfound : Found L t key p (key, old)) :
    Represents L (setSlot t p (.data (key, mapped))) (m.insert key mapped) where
  sound := by
    obtain ⟨n, rfl, harr⟩ := hfound.address h.sound
    exact h.sound.setSlot harr (by simp [hfound.slot]) rfl
  lookup := by
    intro k v
    have hstored : Stored (setSlot t p (.data (key, mapped))) (k, v) ↔
        k = key ∧ v = mapped ∨ k ≠ key ∧ Stored t (k, v) := by
      constructor
      · rintro ⟨q, hq⟩
        rcases setSlot_data_iff.mp hq with ⟨-, heq⟩ | ⟨hqp, hslot⟩
        · cases heq
          exact Or.inl ⟨rfl, rfl⟩
        · refine Or.inr ⟨?_, q, hslot⟩
          rintro rfl
          exact hqp (h.sound.placed.eq_of_frag_eq h.sound.wellFormed hslot hfound.slot rfl)
      · rintro (⟨rfl, rfl⟩ | ⟨hk, q, hq⟩)
        · exact ⟨p, setSlot_data_iff.mpr (Or.inl ⟨rfl, rfl⟩)⟩
        · refine ⟨q, setSlot_data_iff.mpr (Or.inr ⟨?_, hq⟩)⟩
          rintro rfl
          rw [hfound.slot] at hq
          cases hq
          exact hk rfl
    rw [hstored, ← h.lookup]
    by_cases hk : k = key
    · subst k
      simp [eq_comm]
    · rw [Finmap.lookup_insert_of_ne _ hk]
      simp [hk]
  size := by
    have hmem : key ∈ m.keys := by
      rw [Finmap.mem_keys]
      exact Finmap.mem_of_lookup_eq_some (h.lookup_of_found ht hfound).2
    rw [keys_insert, Finset.insert_eq_of_mem hmem]
    exact h.size

theorem Represents.erase (h : Represents L t m) (ht : Tells L t)
    (hfound : Found L t key p (key, old)) :
    Represents L { setSlot t p .null with size := t.size - 1 } (m.erase key) where
  sound := hfound.sound_erase h.sound
  lookup := by
    intro k v
    have hstored : Stored { setSlot t p .null with size := t.size - 1 } (k, v) ↔
        k ≠ key ∧ Stored t (k, v) := by
      constructor
      · rintro ⟨q, hq⟩
        rcases setSlot_data_iff.mp hq with ⟨-, heq⟩ | ⟨hqp, hslot⟩
        · cases heq
        · refine ⟨?_, q, hslot⟩
          rintro rfl
          exact hqp (h.sound.placed.eq_of_frag_eq h.sound.wellFormed hslot hfound.slot rfl)
      · rintro ⟨hk, q, hq⟩
        refine ⟨q, setSlot_data_iff.mpr (Or.inr ⟨?_, hq⟩)⟩
        rintro rfl
        rw [hfound.slot] at hq
        cases hq
        exact hk rfl
    rw [hstored, ← h.lookup]
    by_cases hk : k = key
    · subst k
      simp
    · rw [Finmap.lookup_erase_ne hk]
      simp [hk]
  size := by
    have hmem : key ∈ m.keys := by
      rw [Finmap.mem_keys]
      exact Finmap.mem_of_lookup_eq_some (h.lookup_of_found ht hfound).2
    have hcard : m.keys.card = (m.keys.erase key).card + 1 := by
      rw [Finset.card_erase_add_one hmem]
    rw [Finmap.keys_erase]
    change t.size - 1#64 = _
    rw [h.size, hcard, BitVec.ofNat_add, BitVec.add_sub_cancel]

theorem Represents.call (ht : Tells L t) (h : Represents L t m) (op : Op K T) :
    ∃ t', call L t op = some ((mapCall m op).1, t') ∧ Represents L t' (mapCall m op).2 ∧
      t'.maxLevel = t.maxLevel := by
  suffices hcall : ∃ t', Basic.call L t op = some ((mapCall m op).1, t') ∧
      Represents L t' (mapCall m op).2 by
    obtain ⟨t', hcall, hrep⟩ := hcall
    exact ⟨t', hcall, hrep, (h.sound.call hcall).2⟩
  cases op with
  | reserve newCap =>
      exact ⟨_, rfl, ⟨h.sound.wellFormed, h.sound.placed, h.sound.shallow, h.sound.shift⟩,
        h.lookup, h.size⟩
  | insert key mapped =>
      cases hlook : m.lookup key with
      | none =>
          obtain ⟨t', hins, hrep⟩ := h.insert_fresh mapped ht hlook
          have hmem := Finmap.lookup_eq_none.mp hlook
          simp only [mapCall, if_neg hmem, Basic.call, hins]
          exact ⟨t', rfl, hrep⟩
      | some old =>
          obtain ⟨p, hfound⟩ := h.found_of_lookup ht hlook
          have hmem := Finmap.mem_of_lookup_eq_some hlook
          simp only [mapCall, if_pos hmem, Basic.call, insert_of_found h.sound hfound]
          exact ⟨t, rfl, h⟩
  | get key =>
      cases hlook : m.lookup key with
      | none =>
          simp only [mapCall, hlook, Basic.call, get_of_not_found h.sound (h.not_found ht hlook)]
          exact ⟨t, rfl, h⟩
      | some old =>
          obtain ⟨p, hfound⟩ := h.found_of_lookup ht hlook
          simp only [mapCall, hlook, Basic.call, get_of_found h.sound hfound]
          exact ⟨t, rfl, h⟩
  | find key =>
      cases hlook : m.lookup key with
      | none =>
          simp only [mapCall, hlook, Basic.call, find_of_not_found h.sound (h.not_found ht hlook)]
          exact ⟨t, rfl, h⟩
      | some old =>
          obtain ⟨p, hfound⟩ := h.found_of_lookup ht hlook
          simp only [mapCall, hlook, Basic.call, find_of_found h.sound hfound]
          exact ⟨t, rfl, h⟩
  | update key mapped =>
      cases hlook : m.lookup key with
      | none =>
          have hmem := Finmap.lookup_eq_none.mp hlook
          simp only [mapCall, if_neg hmem, Basic.call, update,
            locator_of_not_found h.sound (h.not_found ht hlook)]
          exact ⟨t, rfl, h⟩
      | some old =>
          obtain ⟨p, hfound⟩ := h.found_of_lookup ht hlook
          have hmem := Finmap.mem_of_lookup_eq_some hlook
          simp only [mapCall, if_pos hmem, Basic.call, update, locator_of_found h.sound hfound,
            Option.map_some, located_of_found hfound]
          exact ⟨_, rfl, h.overwrite ht hfound⟩
  | remove key =>
      cases hlook : m.lookup key with
      | none =>
          have hmem := Finmap.lookup_eq_none.mp hlook
          simp only [mapCall, if_neg hmem, Basic.call, remove,
            locator_of_not_found h.sound (h.not_found ht hlook)]
          exact ⟨t, rfl, h⟩
      | some old =>
          obtain ⟨p, hfound⟩ := h.found_of_lookup ht hlook
          have hmem := Finmap.mem_of_lookup_eq_some hlook
          have hrem : Basic.remove L t key =
              some (true, { setSlot t p .null with size := t.size - 1 }) := by
            rw [Basic.remove, locator_of_found h.sound hfound]
            rfl
          simp only [mapCall, if_pos hmem, Basic.call, hrem]
          exact ⟨_, rfl, h.erase ht hfound⟩
  | size =>
      refine ⟨t, ?_, h⟩
      simp only [mapCall, Basic.call, h.size]

theorem Represents.calls (ht : Tells L t) (h : Represents L t m) (ops : List (Op K T)) :
    ∃ t', calls L t ops = some ((mapCalls m ops).1, t') ∧ Represents L t' (mapCalls m ops).2 := by
  induction ops generalizing t m with
  | nil => exact ⟨t, rfl, h⟩
  | cons op ops ih =>
      obtain ⟨t₁, hcall, hrep, hmax⟩ := h.call ht op
      obtain ⟨t', hrest, hlast⟩ := ih (ht.of_maxLevel hmax) hrep
      refine ⟨t', ?_, hlast⟩
      simp only [Basic.calls, hcall, Option.bind_eq_bind, Option.bind_some, hrest, mapCalls]
      rfl

theorem Constructs.represents {keySize : Nat} (h : Constructs L keySize t) :
    Represents L t ∅ where
  sound := h.sound
  lookup := fun key mapped => by simp [h.not_stored]
  size := by
    obtain ⟨fuel, hnew⟩ := h
    obtain ⟨level, -, rfl⟩ := Option.map_eq_some_iff.mp hnew
    rfl

end Calls

section Default

/-- Every run of calls on a new table has a result, so that no shift reaches 64,
and returns what a finite map would. -/
theorem calls_refine_map (L : Layout K) (hlevel : L.hashLevel = 4)
    (hinj : Function.Injective L.hasher) (fuel : Nat) (hfuel : 18 ≤ fuel) :
    ∃ t₀ : Table K T, new L 8 fuel = some t₀ ∧
      ∀ ops, ∃ t, calls L t₀ ops = some ((mapCalls ∅ ops).1, t) ∧
        Represents L t (mapCalls ∅ ops).2 := by
  obtain ⟨t₀, hnew, hmax⟩ := new_default (T := T) hlevel hfuel
  have ht : Tells L t₀ := ⟨hinj, by omega, by rw [hlevel, hmax]; decide⟩
  have hrep : Represents L t₀ ∅ := Constructs.represents ⟨fuel, hnew⟩
  exact ⟨t₀, hnew, hrep.calls ht⟩

/-- The identity as a hasher of 64-bit keys. -/
theorem calls_refine_map_identity :
    ∃ t₀ : Table (BitVec 64) Nat, new ⟨id, 4⟩ 8 18 = some t₀ ∧
      ∀ ops, ∃ t, calls ⟨id, 4⟩ t₀ ops = some ((mapCalls ∅ ops).1, t) ∧
        Represents ⟨id, 4⟩ t (mapCalls ∅ ops).2 :=
  calls_refine_map ⟨id, 4⟩ rfl Function.injective_id 18 le_rfl

end Default

end HashComp.Basic
