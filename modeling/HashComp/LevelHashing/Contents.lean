import HashComp.LevelHashing.Model
import HashComp.Library.Slots
import Mathlib.Data.Finset.Prod

namespace HashComp.LevelHashing

open HashComp.Slots

variable {K V : Type*} {H : Hashing K} {t t' : Table K V} {key k : K} {value v : V}
  {slot source target s : Slot} {level : Level} {m : Movement} {tid i n : Nat}

section Orders

theorem mem_consecutive_iff {f b : Nat} {p : Nat × Nat} :
    p ∈ consecutive f b ↔ p.2 < assocNum ∧ (p.1 = f ∨ p.1 = b) := by
  obtain ⟨c, j⟩ := p
  simp only [consecutive, List.mem_append, List.mem_map, List.mem_range, Prod.mk.injEq]
  constructor
  · rintro (⟨j, hj, rfl, rfl⟩ | ⟨j, hj, rfl, rfl⟩)
    · exact ⟨hj, Or.inl rfl⟩
    · exact ⟨hj, Or.inr rfl⟩
  · rintro ⟨hj, rfl | rfl⟩
    · exact Or.inl ⟨j, hj, rfl, rfl⟩
    · exact Or.inr ⟨j, hj, rfl, rfl⟩

theorem mem_alternating_iff {f b : Nat} {p : Nat × Nat} :
    p ∈ alternating f b ↔ p.2 < assocNum ∧ (p.1 = f ∨ p.1 = b) := by
  obtain ⟨c, j⟩ := p
  simp only [alternating, List.mem_flatMap, List.mem_range, List.mem_cons, List.not_mem_nil,
    or_false, Prod.mk.injEq]
  constructor
  · rintro ⟨j, hj, ⟨rfl, rfl⟩ | ⟨rfl, rfl⟩⟩
    · exact ⟨hj, Or.inl rfl⟩
    · exact ⟨hj, Or.inr rfl⟩
  · rintro ⟨hj, rfl | rfl⟩
    · exact ⟨j, hj, Or.inl ⟨rfl, rfl⟩⟩
    · exact ⟨j, hj, Or.inr ⟨rfl, rfl⟩⟩

theorem mem_grid_iff {p : Nat × Nat} : p ∈ grid n ↔ p.1 < n ∧ p.2 < assocNum := by
  obtain ⟨b, j⟩ := p
  simp only [grid, List.mem_flatMap, List.mem_map, List.mem_range, Prod.mk.injEq]
  constructor
  · rintro ⟨b, hb, j, hj, rfl, rfl⟩
    exact ⟨hb, hj⟩
  · rintro ⟨hb, hj⟩
    exact ⟨b, hb, j, hj, rfl, rfl⟩

def Table.Addresses (H : Hashing K) (t : Table K V) (key : K) (slot : Slot) : Prop :=
  slot.index < assocNum ∧
    (slot.bucket = t.fBucket H slot.level key ∨ slot.bucket = t.sBucket H slot.level key)

theorem mem_levels_iff {order : Level → List (Nat × Nat)}
    (h : ∀ level p, p ∈ order level ↔ p.2 < assocNum ∧
      (p.1 = t.fBucket H level key ∨ p.1 = t.sBucket H level key)) :
    slot ∈ ([Level.top, Level.bottom].flatMap fun level => (order level).map level.slot) ↔
      t.Addresses H key slot := by
  simp only [List.mem_flatMap, List.mem_map]
  constructor
  · rintro ⟨level, -, p, hp, rfl⟩
    exact (h level p).mp hp
  · intro hs
    obtain ⟨level, b, j⟩ := slot
    refine ⟨level, by cases level <;> decide, (b, j), (h level _).mpr hs, rfl⟩

theorem mem_searchOrder_iff : slot ∈ t.searchOrder H key ↔ t.Addresses H key slot :=
  mem_levels_iff fun _ _ => mem_consecutive_iff

theorem mem_insertOrder_iff : slot ∈ t.insertOrder H key ↔ t.Addresses H key slot :=
  mem_levels_iff fun _ _ => mem_alternating_iff

theorem addresses_of_mem_targets (h : slot ∈ m.targets H t key) : t.Addresses H key slot := by
  cases m with
  | tryMovement levelNum idx =>
      obtain ⟨j, hj, rfl⟩ := List.mem_map.mp h
      refine ⟨List.mem_range.mp hj, ?_⟩
      by_cases hf : t.fBucket H levelNum key = idx
      · exact Or.inr (if_pos hf)
      · exact Or.inl (if_neg hf)
  | b2tMovement idx =>
      obtain ⟨p, hp, rfl⟩ := List.mem_map.mp h
      exact mem_alternating_iff.mp hp

/-- The slots of the bucket that a movement wants to free are addressed by the key
that is inserted. -/
theorem addresses_source (hm : m ∈ t.movements H key) (hi : i < assocNum) :
    t.Addresses H key (m.source i) := by
  simp only [Table.movements, List.mem_append, List.mem_cons, List.not_mem_nil, or_false] at hm
  rcases hm with (rfl | rfl | rfl | rfl) | hm
  · exact ⟨hi, Or.inl rfl⟩
  · exact ⟨hi, Or.inr rfl⟩
  · exact ⟨hi, Or.inl rfl⟩
  · exact ⟨hi, Or.inr rfl⟩
  · split at hm
    · simp only [List.mem_cons, List.not_mem_nil, or_false] at hm
      rcases hm with rfl | rfl
      · exact ⟨hi, Or.inl rfl⟩
      · exact ⟨hi, Or.inr rfl⟩
    · cases hm

theorem fBucket_lt (h : 0 < t.capacity level / 2) (key : K) :
    t.fBucket H level key < t.capacity level / 2 :=
  Nat.mod_lt _ h

theorem le_sBucket (key : K) : t.capacity level / 2 ≤ t.sBucket H level key :=
  Nat.le_add_left ..

theorem sBucket_lt (h : 0 < t.capacity level / 2) (key : K) :
    t.sBucket H level key < t.capacity level := by
  have := Nat.mod_lt (H.sHash key).toNat h
  rw [Table.sBucket, sIdx]
  omega

theorem source_notMem_targets (hhalf : ∀ level, 0 < t.capacity level / 2)
    (key : K) (i : Nat) : m.source i ∉ m.targets H t key := by
  intro h
  cases m with
  | tryMovement levelNum idx =>
      obtain ⟨j, -, hj⟩ := List.mem_map.mp h
      simp only [Movement.source, Slot.mk.injEq, true_and] at hj
      have hlt := fBucket_lt (H := H) (hhalf levelNum) key
      have hle : t.capacity levelNum / 2 ≤ t.sBucket H levelNum key := le_sBucket key
      by_cases hf : t.fBucket H levelNum key = idx
      · rw [if_pos hf] at hj
        omega
      · rw [if_neg hf] at hj
        exact hf hj.1
  | b2tMovement idx =>
      obtain ⟨p, -, hp⟩ := List.mem_map.mp h
      simp [Movement.source, Level.slot] at hp

end Orders

section Items

/-- The item in a slot whose token is set. -/
def Cell.item (cell : Cell K V) : Option (K × V) :=
  if cell.token then some (cell.key, cell.value) else none

def Table.content (t : Table K V) (slot : Slot) : Option (K × V) :=
  (t.cells slot).item

def Level.place (level : Level) : Nat × Nat ↪ Slot where
  toFun := level.slot
  inj' := by
    rintro ⟨b, j⟩ ⟨b', j'⟩ h
    simpa [Level.slot] using h

def places (buckets : Nat) : Finset (Nat × Nat) :=
  Finset.range buckets ×ˢ Finset.range assocNum

theorem mem_places_iff {p : Nat × Nat} : p ∈ places n ↔ p.1 < n ∧ p.2 < assocNum := by
  simp [places]

theorem place_apply (level : Level) (p : Nat × Nat) : level.place p = ⟨level, p.1, p.2⟩ := rfl

theorem disjoint_levels (a b : Finset (Nat × Nat)) :
    Disjoint (a.map Level.top.place) (b.map Level.bottom.place) := by
  rw [Finset.disjoint_left]
  rintro s hs hs'
  obtain ⟨p, -, rfl⟩ := Finset.mem_map.mp hs
  obtain ⟨q, -, hq⟩ := Finset.mem_map.mp hs'
  cases congrArg Slot.level hq

def Table.slots (t : Table K V) : Finset Slot :=
  ((places (t.capacity .top)).map Level.top.place).disjUnion
    ((places (t.capacity .bottom)).map Level.bottom.place) (disjoint_levels _ _)

theorem mem_slots_iff :
    slot ∈ t.slots ↔ slot.bucket < t.capacity slot.level ∧ slot.index < assocNum := by
  obtain ⟨level, b, j⟩ := slot
  simp only [Table.slots, Finset.mem_disjUnion, Finset.mem_map, Prod.exists, mem_places_iff,
    place_apply, Slot.mk.injEq]
  constructor
  · rintro (⟨b, j, h, rfl, rfl, rfl⟩ | ⟨b, j, h, rfl, rfl, rfl⟩)
    · exact h
    · exact h
  · intro h
    cases level with
    | top => exact Or.inl ⟨b, j, h, rfl, rfl, rfl⟩
    | bottom => exact Or.inr ⟨b, j, h, rfl, rfl, rfl⟩

def Table.items (t : Table K V) : Multiset (K × V) :=
  Slots.items t.slots t.content

theorem items_eq_add :
    t.items = Slots.items (places (t.capacity .top)) (fun p => t.content (Level.top.slot p)) +
      Slots.items (places (t.capacity .bottom)) fun p => t.content (Level.bottom.slot p) := by
  rw [Table.items, Table.slots, items_disjUnion, Slots.items_map, Slots.items_map]
  rfl

theorem content_of_token (h : (t.cells slot).token = true) :
    t.content slot = some ((t.cells slot).key, (t.cells slot).value) :=
  if_pos h

theorem content_of_not_token (h : (t.cells slot).token = false) : t.content slot = none :=
  if_neg (by rw [h]; decide)

theorem content_eq_some_iff :
    t.content slot = some (key, value) ↔
      (t.cells slot).token = true ∧ (t.cells slot).key = key ∧ (t.cells slot).value = value := by
  simp [Table.content, Cell.item]

/-- The table is as large as `level_size` says, and every item is in a bucket of its
key. -/
structure Table.Sound (H : Hashing K) (t : Table K V) : Prop where
  capacity : t.addrCapacity = 2 ^ t.levelSize
  size : 2 ≤ t.levelSize
  placed : ∀ slot, (t.cells slot).token = true → t.Addresses H (t.cells slot).key slot

theorem Table.Sound.half_pos (h : t.Sound H) (level : Level) : 0 < t.capacity level / 2 := by
  have hpow : 2 ^ 2 ≤ 2 ^ t.levelSize := Nat.pow_le_pow_right (by decide) h.size
  have hcap := h.capacity
  cases level <;> simp only [Table.capacity] <;> omega

theorem Table.Addresses.mem_slots (h : t.Addresses H key slot)
    (hhalf : ∀ level, 0 < t.capacity level / 2) : slot ∈ t.slots := by
  refine mem_slots_iff.mpr ⟨?_, h.1⟩
  rcases h.2 with hb | hb
  · have := fBucket_lt (H := H) (hhalf slot.level) key
    omega
  · have := sBucket_lt (H := H) (hhalf slot.level) key
    omega

theorem Table.Sound.mem_slots (h : t.Sound H) (hs : (t.cells slot).token = true) :
    slot ∈ t.slots :=
  (h.placed slot hs).mem_slots h.half_pos

theorem Table.Sound.mem_items_iff (h : t.Sound H) :
    (key, value) ∈ t.items ↔ ∃ slot, t.content slot = some (key, value) := by
  rw [Table.items, Slots.mem_items_iff]
  constructor
  · rintro ⟨slot, -, hs⟩
    exact ⟨slot, hs⟩
  · rintro ⟨slot, hs⟩
    exact ⟨slot, h.mem_slots (content_eq_some_iff.mp hs).1, hs⟩

end Items

section Accesses

@[simp] theorem lock_cells : (t.lock tid slot).cells = t.cells := rfl
@[simp] theorem unlock_cells : (t.unlock slot).cells = t.cells := rfl

theorem unlock_lock (tid : Nat) (h : t.locks slot = none) : (t.lock tid slot).unlock slot = t := by
  simp only [Table.unlock, Table.lock, Function.update_idem, ← h, Function.update_eq_self]

theorem content_setCell (cell : Cell K V) :
    (t.setCell slot cell).content =
      Function.update t.content slot cell.item := by
  funext s
  by_cases hs : s = slot
  · subst s
    rw [Function.update_self]
    simp only [Table.content, Table.setCell, Function.update_self]
  · rw [Function.update_of_ne hs]
    simp only [Table.content, Table.setCell, Function.update_of_ne hs]

theorem items_setCell (cell : Cell K V) :
    (t.setCell slot cell).items =
      Slots.items t.slots (Function.update t.content slot cell.item) := by
  rw [← content_setCell]
  rfl

theorem items_put (hs : slot ∈ t.slots) (hfree : (t.cells slot).token = false) :
    (t.put slot key value).items = (key, value) ::ₘ t.items := by
  rw [Table.put, items_setCell, Cell.item, if_pos rfl]
  exact items_fill hs (content_of_not_token hfree)

theorem items_clearToken (hs : slot ∈ t.slots) (h : t.content slot = some (key, value)) :
    (key, value) ::ₘ (t.clearToken slot).items = t.items := by
  rw [Table.clearToken, items_setCell, Cell.item, if_neg Bool.false_ne_true]
  exact items_clear hs h

theorem items_setValue (hs : slot ∈ t.slots) (h : t.content slot = some (key, value)) :
    (key, value) ::ₘ (t.setCell slot { t.cells slot with value := v }).items =
      (key, v) ::ₘ t.items := by
  obtain ⟨htoken, rfl, -⟩ := content_eq_some_iff.mp h
  rw [items_setCell, Cell.item, if_pos htoken]
  exact items_overwrite hs h

theorem cells_relocate_source : (t.relocate source target).cells source =
    { t.cells source with token := false } :=
  Function.update_self ..

theorem cells_relocate_target (hne : target ≠ source) :
    (t.relocate source target).cells target =
      ⟨true, (t.cells source).key, (t.cells source).value⟩ := by
  simp only [Table.relocate, Table.put, Table.setCell, Function.update_of_ne hne,
    Function.update_self]

theorem cells_relocate_of_ne (hsource : s ≠ source) (htarget : s ≠ target) :
    (t.relocate source target).cells s = t.cells s := by
  simp only [Table.relocate, Table.put, Table.setCell, Function.update_of_ne hsource,
    Function.update_of_ne htarget]

theorem cells_put_self : (t.put slot key value).cells slot = ⟨true, key, value⟩ :=
  Function.update_self ..

theorem cells_put_of_ne (h : s ≠ slot) : (t.put slot key value).cells s = t.cells s :=
  Function.update_of_ne h ..

theorem items_relocate (hsource : source ∈ t.slots) (htarget : target ∈ t.slots)
    (htoken : (t.cells source).token = true) (hfree : (t.cells target).token = false) :
    (t.relocate source target).items = t.items := by
  rw [Table.relocate, items_setCell, Cell.item, if_neg Bool.false_ne_true, Table.put,
    content_setCell, Cell.item, if_pos rfl]
  exact items_move hsource htarget (content_of_token htoken) (content_of_not_token hfree)

end Accesses

section Soundness

theorem Table.Sound.of_cells (h : t.Sound H) (hcapacity : t'.addrCapacity = t.addrCapacity)
    (hsize : t'.levelSize = t.levelSize)
    (hcells : ∀ slot, (t'.cells slot).token = true → (t.cells slot).token = true ∧
      (t'.cells slot).key = (t.cells slot).key ∨ t.Addresses H (t'.cells slot).key slot) :
    t'.Sound H where
  capacity := by rw [hcapacity, hsize, h.capacity]
  size := by rw [hsize]; exact h.size
  placed := by
    intro slot hs
    have haddr : t.Addresses H (t'.cells slot).key slot := by
      rcases hcells slot hs with ⟨htoken, hkey⟩ | haddr
      · rw [hkey]
        exact h.placed slot htoken
      · exact haddr
    have hcap : t'.capacity = t.capacity := by
      funext level
      cases level <;> simp only [Table.capacity, hcapacity]
    simpa only [Table.Addresses, Table.fBucket, Table.sBucket, hcap] using haddr

theorem Table.Sound.put (h : t.Sound H) (hs : t.Addresses H key slot) :
    (t.put slot key value).Sound H := by
  refine h.of_cells rfl rfl fun s htoken => ?_
  by_cases hne : s = slot
  · subst s
    rw [cells_put_self]
    exact Or.inr hs
  · rw [cells_put_of_ne hne] at htoken ⊢
    exact Or.inl ⟨htoken, rfl⟩

theorem Table.Sound.clearToken (h : t.Sound H) : (t.clearToken slot).Sound H := by
  refine h.of_cells rfl rfl fun s htoken => ?_
  by_cases hne : s = slot
  · subst s
    simp [Table.clearToken, Table.setCell] at htoken
  · simp only [Table.clearToken, Table.setCell, Function.update_of_ne hne] at htoken ⊢
    exact Or.inl ⟨htoken, trivial⟩

theorem Table.Sound.setValue (h : t.Sound H) :
    (t.setCell slot { t.cells slot with value := v }).Sound H := by
  refine h.of_cells rfl rfl fun s htoken => ?_
  by_cases hne : s = slot
  · subst s
    simp only [Table.setCell, Function.update_self] at htoken ⊢
    exact Or.inl ⟨htoken, trivial⟩
  · simp only [Table.setCell, Function.update_of_ne hne] at htoken ⊢
    exact Or.inl ⟨htoken, trivial⟩

theorem Table.Sound.relocate (h : t.Sound H)
    (htarget : t.Addresses H (t.cells source).key target) (hne : target ≠ source) :
    (t.relocate source target).Sound H := by
  refine h.of_cells rfl rfl fun s htoken => ?_
  by_cases hsource : s = source
  · subst s
    rw [cells_relocate_source] at htoken
    cases htoken
  · by_cases hs : s = target
    · subst s
      rw [cells_relocate_target hne]
      exact Or.inr htarget
    · rw [cells_relocate_of_ne hsource hs] at htoken ⊢
      exact Or.inl ⟨htoken, rfl⟩

end Soundness

end HashComp.LevelHashing
