import HashComp.LevelHashing.Sequential

namespace HashComp.LevelHashing

open HashComp.Slots

variable {K V : Type*} {H : Hashing K} {capacity n : Nat} {cell : Cell K V}
  {newBuckets newBuckets' oldBuckets oldBuckets' : Nat × Nat → Cell K V} {p : Nat × Nat}
  {slots : List (Nat × Nat)}

section Items

def levelItems (n : Nat) (buckets : Nat × Nat → Cell K V) : Multiset (K × V) :=
  Slots.items (places n) fun p => (buckets p).item

/-- An item that one of the two buckets in a new top level could take. -/
def Contends (H : Hashing K) (capacity f s : Nat) (e : K × V) : Prop :=
  fIdx (H.fHash e.1).toNat capacity = f ∨ sIdx (H.sHash e.1).toNat capacity = s

instance (f s : Nat) : DecidablePred (Contends (V := V) H capacity f s) := fun _ =>
  inferInstanceAs (Decidable (_ ∨ _))

/-- The items of a new top level are in buckets of their keys. -/
def Placed (H : Hashing K) (capacity : Nat) (buckets : Nat × Nat → Cell K V) : Prop :=
  ∀ p, (buckets p).token = true → p.2 < assocNum ∧
    (p.1 = fIdx (H.fHash (buckets p).key).toNat capacity ∨
      p.1 = sIdx (H.sHash (buckets p).key).toNat capacity)

theorem item_of_token (h : cell.token = true) : cell.item = some (cell.key, cell.value) :=
  if_pos h

theorem item_of_not_token (h : cell.token = false) : cell.item = none :=
  if_neg (by rw [h]; decide)

theorem item_update (buckets : Nat × Nat → Cell K V) (p : Nat × Nat) (cell : Cell K V) :
    (fun q => (Function.update buckets p cell q).item) =
      Function.update (fun q => (buckets q).item) p cell.item := by
  funext q
  by_cases hq : q = p
  · subst q
    rw [Function.update_self, Function.update_self]
  · rw [Function.update_of_ne hq, Function.update_of_ne hq]

theorem rehash_eq_some (h : rehash H capacity newBuckets cell = some newBuckets') :
    ∃ p ∈ alternating (fIdx (H.fHash cell.key).toNat capacity)
        (sIdx (H.sHash cell.key).toNat capacity),
      (newBuckets p).token = false ∧
        newBuckets' = Function.update newBuckets p ⟨true, cell.key, cell.value⟩ := by
  obtain ⟨p, hp, rfl⟩ := Option.map_eq_some_iff.mp h
  exact ⟨p, List.mem_of_find?_eq_some hp, by simpa using List.find?_some hp, rfl⟩

theorem rehash_eq_none (h : rehash H capacity newBuckets cell = none)
    (hp : p ∈ alternating (fIdx (H.fHash cell.key).toNat capacity)
      (sIdx (H.sHash cell.key).toNat capacity)) : (newBuckets p).token = true := by
  have := List.find?_eq_none.mp (Option.map_eq_none_iff.mp h) p hp
  simpa using this

theorem Placed.rehash (hplaced : Placed H capacity newBuckets)
    (h : rehash H capacity newBuckets cell = some newBuckets') :
    Placed H capacity newBuckets' := by
  obtain ⟨p, hp, -, rfl⟩ := rehash_eq_some h
  intro q hq
  by_cases hqp : q = p
  · subst q
    rw [Function.update_self]
    exact mem_alternating_iff.mp hp
  · rw [Function.update_of_ne hqp] at hq ⊢
    exact hplaced q hq

theorem mem_places_of_alternating (hhalf : 0 < capacity / 2) {key : K}
    (hp : p ∈ alternating (fIdx (H.fHash key).toNat capacity)
      (sIdx (H.sHash key).toNat capacity)) : p ∈ places capacity := by
  obtain ⟨hindex, hbucket⟩ := mem_alternating_iff.mp hp
  refine mem_places_iff.mpr ⟨?_, hindex⟩
  have hf := Nat.mod_lt (H.fHash key).toNat hhalf
  have hs := Nat.mod_lt (H.sHash key).toNat hhalf
  rcases hbucket with hb | hb <;> rw [hb]
  · rw [fIdx]
    omega
  · rw [sIdx]
    omega

theorem levelItems_rehash (hhalf : 0 < capacity / 2) (hp : p ∈ places n)
    (htoken : (oldBuckets p).token = true)
    (h : rehash H capacity newBuckets (oldBuckets p) = some newBuckets') :
    levelItems capacity newBuckets' +
        levelItems n (Function.update oldBuckets p { oldBuckets p with token := false }) =
      levelItems capacity newBuckets + levelItems n oldBuckets := by
  obtain ⟨q, hq, hfree, rfl⟩ := rehash_eq_some h
  have hfill : items (places capacity) (Function.update (fun p => (newBuckets p).item) q
      (some ((oldBuckets p).key, (oldBuckets p).value))) = _ :=
    items_fill (mem_places_of_alternating hhalf hq) (item_of_not_token hfree)
  have hclear :
      _ ::ₘ items (places n) (Function.update (fun p => (oldBuckets p).item) p none) = _ :=
    items_clear hp (item_of_token htoken)
  simp only [levelItems, item_update]
  rw [item_of_token rfl, item_of_not_token rfl, hfill, ← hclear, Multiset.cons_add,
    Multiset.add_cons]

end Items

section Loop

theorem rehashAll_items (hhalf : 0 < capacity / 2) (hslots : ∀ p ∈ slots, p ∈ places n)
    (h : rehashAll H capacity slots newBuckets oldBuckets = some (newBuckets', oldBuckets')) :
    levelItems capacity newBuckets' + levelItems n oldBuckets' =
      levelItems capacity newBuckets + levelItems n oldBuckets := by
  induction slots generalizing newBuckets oldBuckets with
  | nil =>
      cases h
      rfl
  | cons p slots ih =>
      have hrest := fun q hq => hslots q (List.mem_cons_of_mem _ hq)
      rw [rehashAll] at h
      split at h
      · next htoken =>
          split at h
          · cases h
          · next new hnew =>
              rw [ih hrest h]
              exact levelItems_rehash hhalf (hslots p List.mem_cons_self) htoken hnew
      · exact ih hrest h

theorem rehashAll_placed (hplaced : Placed H capacity newBuckets)
    (h : rehashAll H capacity slots newBuckets oldBuckets = some (newBuckets', oldBuckets')) :
    Placed H capacity newBuckets' := by
  induction slots generalizing newBuckets oldBuckets with
  | nil =>
      cases h
      exact hplaced
  | cons p slots ih =>
      rw [rehashAll] at h
      split at h
      · split at h
        · cases h
        · next new hnew => exact ih (hplaced.rehash hnew) h
      · exact ih hplaced h

theorem rehashAll_empties
    (h : rehashAll H capacity slots newBuckets oldBuckets = some (newBuckets', oldBuckets'))
    (hp : (oldBuckets' p).token = true) : (oldBuckets p).token = true ∧ p ∉ slots := by
  induction slots generalizing newBuckets oldBuckets with
  | nil =>
      cases h
      exact ⟨hp, List.not_mem_nil⟩
  | cons q slots ih =>
      rw [rehashAll] at h
      split at h
      · split at h
        · cases h
        · obtain ⟨htoken, hmem⟩ := ih h
          by_cases hpq : p = q
          · subst q
            rw [Function.update_self] at htoken
            cases htoken
          · rw [Function.update_of_ne hpq] at htoken
            exact ⟨htoken, List.not_mem_cons_of_ne_of_not_mem hpq hmem⟩
      · next hfree =>
          obtain ⟨htoken, hmem⟩ := ih h
          refine ⟨htoken, List.not_mem_cons_of_ne_of_not_mem ?_ hmem⟩
          rintro rfl
          exact hfree htoken

/-- An item that finds no free slot contends with eight others for its buckets. -/
theorem contends_of_rehash_eq_none (hhalf : 0 < capacity / 2)
    (hplaced : Placed H capacity newBuckets) (hp : p ∈ places n)
    (htoken : (oldBuckets p).token = true)
    (h : rehash H capacity newBuckets (oldBuckets p) = none) :
    9 ≤ (levelItems capacity newBuckets + levelItems n oldBuckets).countP
      (Contends H capacity (fIdx (H.fHash (oldBuckets p).key).toNat capacity)
        (sIdx (H.sHash (oldBuckets p).key).toNat capacity)) := by
  generalize hf : fIdx (H.fHash (oldBuckets p).key).toNat capacity = f
  generalize hs : sIdx (H.sHash (oldBuckets p).key).toNat capacity = s
  have hflt : ∀ k, fIdx (H.fHash k).toNat capacity < capacity / 2 := fun k => Nat.mod_lt _ hhalf
  have hsle : ∀ k, capacity / 2 ≤ sIdx (H.sHash k).toNat capacity := fun _ => Nat.le_add_left ..
  have hfs : f ≠ s := by
    have := hflt (oldBuckets p).key
    have := hsle (oldBuckets p).key
    omega
  have hmem : ∀ q ∈ ({f, s} : Finset Nat) ×ˢ Finset.range assocNum,
      q ∈ alternating (fIdx (H.fHash (oldBuckets p).key).toNat capacity)
        (sIdx (H.sHash (oldBuckets p).key).toNat capacity) := by
    intro q hq
    simp only [Finset.mem_product, Finset.mem_insert, Finset.mem_singleton,
      Finset.mem_range] at hq
    rw [mem_alternating_iff, hf, hs]
    exact ⟨hq.2, hq.1⟩
  -- both buckets are full of items that have nowhere else to be
  have hfull : ∀ q ∈ ({f, s} : Finset Nat) ×ˢ Finset.range assocNum,
      ∃ e, (newBuckets q).item = some e ∧ Contends H capacity f s e := by
    intro q hq
    have hq' := rehash_eq_none h (hmem q hq)
    refine ⟨_, item_of_token hq', ?_⟩
    simp only [Finset.mem_product, Finset.mem_insert, Finset.mem_singleton] at hq
    have hlt := hflt (newBuckets q).key
    have hle := hsle (newBuckets q).key
    have hlt' := hflt (oldBuckets p).key
    have hle' := hsle (oldBuckets p).key
    rcases (hplaced q hq').2 with hb | hb
    · rcases hq.1 with hq | hq
      · exact Or.inl (hb.symm.trans hq)
      · omega
    · rcases hq.1 with hq | hq
      · omega
      · exact Or.inr (hb.symm.trans hq)
  have hnew := card_le_countP (fun q hq => mem_places_of_alternating hhalf (hmem q hq)) hfull
  have hold : ({p} : Finset (Nat × Nat)).card ≤
      (items (places n) fun p => (oldBuckets p).item).countP (Contends H capacity f s) :=
    card_le_countP (Finset.singleton_subset_iff.mpr hp) fun q hq => by
      rw [Finset.mem_singleton.mp hq]
      exact ⟨_, item_of_token htoken, Or.inl hf⟩
  rw [Finset.card_product, Finset.card_pair hfs, Finset.card_range] at hnew
  rw [Finset.card_singleton] at hold
  rw [Multiset.countP_add]
  exact Nat.add_le_add hnew hold

theorem rehashAll_eq_none (hhalf : 0 < capacity / 2) (hplaced : Placed H capacity newBuckets)
    (hslots : ∀ p ∈ slots, p ∈ places n)
    (h : rehashAll H capacity slots newBuckets oldBuckets = none) :
    ∃ f s, 9 ≤ (levelItems capacity newBuckets + levelItems n oldBuckets).countP
      (Contends H capacity f s) := by
  induction slots generalizing newBuckets oldBuckets with
  | nil => cases h
  | cons p slots ih =>
      have hp := hslots p List.mem_cons_self
      have hrest := fun q hq => hslots q (List.mem_cons_of_mem _ hq)
      rw [rehashAll] at h
      split at h
      · next htoken =>
          split at h
          · next hnone => exact ⟨_, _, contends_of_rehash_eq_none hhalf hplaced hp htoken hnone⟩
          · next new hnew =>
              rw [← levelItems_rehash hhalf hp htoken hnew]
              exact ih (hplaced.rehash hnew) hrest h
      · exact ih hplaced hrest h

end Loop

section Tables

variable {t t' : Table K V}

theorem half_pow_succ (n : Nat) : 2 ^ (n + 1) / 2 = 2 ^ n := by
  rw [Nat.pow_succ, Nat.mul_div_cancel _ (by decide)]

theorem half_pow_succ_pos (n : Nat) : 0 < 2 ^ (n + 1) / 2 := by
  rw [half_pow_succ]
  exact Nat.two_pow_pos n

theorem Table.Sound.capacity_bottom (h : t.Sound H) :
    t.capacity .bottom = 2 ^ (t.levelSize - 1) := by
  have hsize := h.size
  have hpow : 2 ^ t.levelSize = 2 ^ (t.levelSize - 1 + 1) := by
    rw [Nat.sub_add_cancel (by omega)]
  rw [Table.capacity, h.capacity, hpow, half_pow_succ]

variable [Inhabited K] [Inhabited V]

theorem mem_places_of_grid (hp : p ∈ grid n) : p ∈ places n :=
  mem_places_iff.mpr (mem_grid_iff.mp hp)

theorem levelItems_blank : levelItems n (fun _ => (blank : Cell K V)) = 0 :=
  items_eq_zero fun _ _ => rfl

theorem placed_blank : Placed H capacity (fun _ => (blank : Cell K V)) := by
  rintro p ⟨⟩

def Table.bottomItems (t : Table K V) : Multiset (K × V) :=
  levelItems (2 ^ (t.levelSize - 1)) fun p => t.cells (Level.bottom.slot p)

/-- `level_resize` gives up over nine items that two buckets would have to take. -/
theorem resize_eq_none (h : t.resize H = none) :
    ∃ f s, 9 ≤ t.bottomItems.countP (Contends H (2 ^ (t.levelSize + 1)) f s) := by
  have hnone := Option.map_eq_none_iff.mp h
  have hcrowd := rehashAll_eq_none (half_pow_succ_pos _) placed_blank
    (fun _ hp => mem_places_of_grid hp) hnone
  rwa [levelItems_blank, zero_add] at hcrowd

structure Resized (H : Hashing K) (t t' : Table K V) : Prop where
  sound : t'.Sound H
  items : t'.items = t.items
  locks : t'.locks = t.locks
  lockCount : t'.lockCount = t.lockCount
  levelSize : t'.levelSize = t.levelSize + 1
  bucketCount_top : t'.bucketCount .top = 2 ^ (t.levelSize + 1)
  bucketCount_bottom : t'.bucketCount .bottom = t.bucketCount .top

theorem resized_of_resize (h : t.Sound H) (hr : t.resize H = some t') : Resized H t t' := by
  obtain ⟨⟨newBuckets, oldBuckets⟩, hall, rfl⟩ := Option.map_eq_some_iff.mp hr
  have hplaced := rehashAll_placed placed_blank hall
  have hitems := rehashAll_items (half_pow_succ_pos _) (fun _ hp => mem_places_of_grid hp) hall
  have hold : levelItems (2 ^ (t.levelSize - 1)) oldBuckets = 0 := by
    refine items_eq_zero fun p hp => item_of_not_token ?_
    by_contra htoken
    have hempty := rehashAll_empties hall (Bool.not_eq_false _ ▸ htoken)
    exact hempty.2 (mem_grid_iff.mpr (mem_places_iff.mp hp))
  have hcap : 2 ^ (t.levelSize + 1) / 2 = t.addrCapacity := by
    rw [half_pow_succ, h.capacity]
  constructor
  case sound =>
    refine ⟨rfl, Nat.le_succ_of_le h.size, ?_⟩
    rintro ⟨level, b, j⟩ htoken
    cases level with
    | top =>
        obtain ⟨hj, hb⟩ := hplaced (b, j) htoken
        exact ⟨hj, hb⟩
    | bottom =>
        obtain ⟨hj, hb⟩ := h.placed ⟨.top, b, j⟩ htoken
        refine ⟨hj, ?_⟩
        simp only [Table.fBucket, Table.sBucket, Table.capacity, hcap] at hb ⊢
        exact hb
  case items =>
    rw [levelItems_blank, zero_add, hold, add_zero] at hitems
    rw [items_eq_add, items_eq_add, h.capacity_bottom, add_comm]
    refine congrArg₂ (· + ·) ?_ hitems
    simp only [Table.capacity, hcap]
    rfl
  all_goals rfl

end Tables

end HashComp.LevelHashing
