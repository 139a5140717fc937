import HashComp.LevelHashing.Resize

namespace HashComp.LevelHashing

open HashComp.Runs
open HashComp.Slots

/-- What a call returns for a bag of items, and the bag after it.  A table may hold
several items with one key, and an insertion may be refused. -/
inductive BagCall {K V : Type*} :
    Multiset (K × V) → Op K V → Reply V → Multiset (K × V) → Prop where
  | found {b : Multiset (K × V)} {key : K} {value : V} (h : (key, value) ∈ b) :
      BagCall b (.search (.query key)) (.value value) b
  | updated {b : Multiset (K × V)} {key : K} {value newValue : V} :
      BagCall ((key, value) ::ₘ b) (.search (.update key newValue)) (.code 0)
        ((key, newValue) ::ₘ b)
  | deleted {b : Multiset (K × V)} {key : K} {value : V} :
      BagCall ((key, value) ::ₘ b) (.search (.delete key)) (.code 0) b
  | missed {b : Multiset (K × V)} {s : Search K V} (h : ∀ value, (s.key, value) ∉ b) :
      BagCall b (.search s) (.code 1) b
  | inserted {b : Multiset (K × V)} {key : K} {value : V} :
      BagCall b (.insert key value) (.code 0) ((key, value) ::ₘ b)
  | refused {b : Multiset (K × V)} {key : K} {value : V} :
      BagCall b (.insert key value) (.code 1) b
  | resized {b : Multiset (K × V)} : BagCall b .resize .void b

variable {K V : Type*} {H : Hashing K} {t t' u : Table K V} {key : K} {value : V}
  {slot source target : Slot} {slots : List Slot} {movements : List Movement} {m : Movement}
  {tid i n : Nat} {op : Op K V} {reply : Reply V}

section Found

theorem mem_of_firstFree (h : t.firstFree slots = some slot) :
    slot ∈ slots ∧ (t.cells slot).token = false :=
  ⟨List.mem_of_find?_eq_some h, by simpa using List.find?_some h⟩

theorem taken_of_firstFree (h : t.firstFree slots = none) (hs : slot ∈ slots) :
    (t.cells slot).token = true := by
  have := List.find?_eq_none.mp h slot hs
  simpa using this

theorem exists_of_firstMove (h : t.firstMove H movements i = some (source, target)) :
    ∃ m ∈ movements, ∃ j < assocNum, source = m.source j ∧
      target ∈ m.targets H t (t.cells source).key ∧ (t.cells target).token = false := by
  induction movements generalizing i with
  | nil => cases h
  | cons m movements ih =>
      rw [Table.firstMove] at h
      cases hfirst : (List.range' i (assocNum - i)).findSome? fun i =>
          (t.moveTarget H m i).map (m.source i, ·) with
      | none =>
          rw [hfirst] at h
          obtain ⟨m', hm', hrest⟩ := ih h
          exact ⟨m', List.mem_cons_of_mem _ hm', hrest⟩
      | some move =>
          rw [hfirst] at h
          cases h
          obtain ⟨j, hj, hmove⟩ := List.exists_of_findSome?_eq_some hfirst
          simp only [Option.map_eq_some_iff, Prod.mk.injEq] at hmove
          obtain ⟨target', htarget, rfl, rfl⟩ := hmove
          obtain ⟨hmem, hfree⟩ := mem_of_firstFree htarget
          refine ⟨m, List.mem_cons_self, j, ?_, rfl, hmem, hfree⟩
          have := List.mem_range'_1.mp hj
          omega

variable [DecidableEq K]

theorem content_of_find (h : t.find H key = some slot) :
    ∃ value, t.content slot = some (key, value) := by
  have hholds := List.find?_some h
  simp only [Table.holds, Bool.and_eq_true, decide_eq_true_eq] at hholds
  exact ⟨_, content_eq_some_iff.mpr ⟨hholds.1, hholds.2, rfl⟩⟩

theorem Table.Sound.notMem_of_find (hs : t.Sound H) (h : t.find H key = none) (value : V) :
    (key, value) ∉ t.items := by
  intro hmem
  obtain ⟨slot, hslot⟩ := hs.mem_items_iff.mp hmem
  obtain ⟨htoken, hkey, -⟩ := content_eq_some_iff.mp hslot
  have haddr := hs.placed slot htoken
  rw [hkey] at haddr
  have hnot := List.find?_eq_none.mp h slot (mem_searchOrder_iff.mpr haddr)
  simp [Table.holds, htoken, hkey] at hnot

end Found

section Results

theorem Table.Sound.inserted (hs : t.Sound H) (key : K) (value : V) :
    (t.inserted H key value).1.Sound H ∧
      BagCall t.items (.insert key value) (t.inserted H key value).2
        (t.inserted H key value).1.items := by
  cases hfree : t.firstFree (t.insertOrder H key) with
  | some slot =>
      obtain ⟨hmem, htoken⟩ := mem_of_firstFree hfree
      have haddr := mem_insertOrder_iff.mp hmem
      simp only [Table.inserted, hfree]
      refine ⟨hs.put haddr, ?_⟩
      rw [items_put (haddr.mem_slots hs.half_pos) htoken]
      exact .inserted
  | none =>
      cases hmove : t.firstMove H (t.movements H key) 0 with
      | none =>
          simp only [Table.inserted, hfree, hmove]
          exact ⟨hs, .refused⟩
      | some move =>
          obtain ⟨source, target⟩ := move
          obtain ⟨m, hm, j, hj, rfl, htarget, htoken⟩ := exists_of_firstMove hmove
          have hsource := addresses_source hm hj
          have htaken := taken_of_firstFree hfree (mem_insertOrder_iff.mpr hsource)
          have hne : target ≠ m.source j := by
            rintro rfl
            exact source_notMem_targets hs.half_pos _ _ htarget
          have haddr := addresses_of_mem_targets htarget
          have hmoved := hs.relocate haddr hne
          simp only [Table.inserted, hfree, hmove]
          refine ⟨hmoved.put hsource, ?_⟩
          rw [items_put (t := t.relocate (m.source j) target) (hsource.mem_slots hs.half_pos)
              (by rw [cells_relocate_source]),
            items_relocate (hsource.mem_slots hs.half_pos) (haddr.mem_slots hs.half_pos) htaken
              htoken]
          exact .inserted

variable [DecidableEq K]

theorem Table.Sound.searched (hs : t.Sound H) (s : Search K V) :
    (t.searched H s).1.Sound H ∧
      BagCall t.items (.search s) (t.searched H s).2 (t.searched H s).1.items := by
  cases hfind : t.find H s.key with
  | none =>
      simp only [Table.searched, hfind]
      exact ⟨hs, .missed (hs.notMem_of_find hfind)⟩
  | some slot =>
      obtain ⟨value, hcontent⟩ := content_of_find hfind
      obtain ⟨htoken, -, hvalue⟩ := content_eq_some_iff.mp hcontent
      have hslot := hs.mem_slots htoken
      simp only [Table.searched, hfind]
      cases s with
      | query key =>
          refine ⟨hs, ?_⟩
          rw [← hvalue] at hcontent
          exact .found (hs.mem_items_iff.mpr ⟨slot, hcontent⟩)
      | update key newValue =>
          refine ⟨hs.setValue, ?_⟩
          have hitems := items_setValue (v := newValue) hslot hcontent
          have hmem : (key, value) ∈ t.items := hs.mem_items_iff.mpr ⟨slot, hcontent⟩
          obtain ⟨rest, hrest⟩ := Multiset.exists_cons_of_mem hmem
          rw [hrest, Multiset.cons_swap] at hitems
          replace hitems := (Multiset.cons_inj_right _).mp hitems
          simp only [Search.apply]
          rw [hrest, hitems]
          exact .updated
      | delete key =>
          refine ⟨hs.clearToken, ?_⟩
          rw [← items_clearToken hslot hcontent]
          exact .deleted

variable [Inhabited K] [Inhabited V]

theorem Table.Sound.result (hs : t.Sound H) (h : t.result H op = some (t', reply)) :
    t'.Sound H ∧ BagCall t.items op reply t'.items := by
  cases op with
  | search s =>
      have hout : t.searched H s = (t', reply) := Option.some.inj h
      have := hs.searched s
      rwa [hout] at this
  | insert key value =>
      have hout : t.inserted H key value = (t', reply) := Option.some.inj h
      have := hs.inserted key value
      rwa [hout] at this
  | resize =>
      obtain ⟨u, hu, heq⟩ := Option.map_eq_some_iff.mp h
      cases heq
      have hresized := resized_of_resize hs hu
      refine ⟨hresized.sound, ?_⟩
      rw [hresized.items]
      exact .resized

end Results

section Idle

/-- A table between two calls: nothing is locked, and the arrays of buckets are as
long as the levels. -/
structure Table.Idle (H : Hashing K) (t : Table K V) : Prop where
  sound : t.Sound H
  unlocked : ∀ slot, t.locks slot = none
  buckets : ∀ level, t.bucketCount level = t.capacity level

theorem idle_levelInit [Inhabited K] [Inhabited V] (hn : 2 ≤ n) :
    (levelInit n : Table K V).Idle H where
  sound := ⟨rfl, hn, nofun⟩
  unlocked := fun _ => rfl
  buckets := by
    intro level
    cases level with
    | top => rfl
    | bottom =>
        have hpow : 2 ^ n = 2 ^ (n - 1 + 1) := by rw [Nat.sub_add_cancel (by omega)]
        simp only [levelInit, Table.capacity]
        rw [hpow, half_pow_succ]

structure Kept (t t' : Table K V) : Prop where
  locks : t'.locks = t.locks
  bucketCount : t'.bucketCount = t.bucketCount
  lockCount : t'.lockCount = t.lockCount
  capacity : t'.capacity = t.capacity
  levelSize : t'.levelSize = t.levelSize
  levelResize : t'.levelResize = t.levelResize

theorem kept_inserted (key : K) (value : V) : Kept t (t.inserted H key value).1 := by
  rw [Table.inserted]
  cases t.firstFree (t.insertOrder H key) with
  | some slot => exact ⟨rfl, rfl, rfl, rfl, rfl, rfl⟩
  | none => cases t.firstMove H (t.movements H key) 0 <;> exact ⟨rfl, rfl, rfl, rfl, rfl, rfl⟩

variable [DecidableEq K]

theorem kept_searched (s : Search K V) : Kept t (t.searched H s).1 := by
  rw [Table.searched]
  cases t.find H s.key with
  | none => exact ⟨rfl, rfl, rfl, rfl, rfl, rfl⟩
  | some slot => cases s <;> exact ⟨rfl, rfl, rfl, rfl, rfl, rfl⟩

variable [Inhabited K] [Inhabited V]

theorem kept_of_result (h : t.result H op = some (t', reply)) (hop : op ≠ .resize) :
    Kept t t' := by
  cases op with
  | search s =>
      have hout : t.searched H s = (t', reply) := Option.some.inj h
      have := kept_searched (H := H) (t := t) s
      rwa [hout] at this
  | insert key value =>
      have hout : t.inserted H key value = (t', reply) := Option.some.inj h
      have := kept_inserted (H := H) (t := t) key value
      rwa [hout] at this
  | resize => exact absurd rfl hop

theorem resize_of_result (h : t.result H .resize = some (t', reply)) :
    t.resize H = some t' ∧ reply = .void := by
  obtain ⟨u, hu, heq⟩ := Option.map_eq_some_iff.mp h
  cases heq
  exact ⟨hu, rfl⟩

theorem Table.Idle.result (h : t.Idle H) (hr : t.result H op = some (t', reply)) :
    t'.Idle H := by
  have hsound := (h.sound.result hr).1
  by_cases hop : op = .resize
  · subst op
    have hresized := resized_of_resize h.sound (resize_of_result hr).1
    refine ⟨hsound, by rw [hresized.locks]; exact h.unlocked, fun level => ?_⟩
    cases level with
    | top =>
        rw [hresized.bucketCount_top, Table.capacity, hsound.capacity, hresized.levelSize]
    | bottom =>
        rw [hresized.bucketCount_bottom, h.buckets, hsound.capacity_bottom, hresized.levelSize,
          Table.capacity, h.sound.capacity, Nat.add_sub_cancel]
  · have hkept := kept_of_result hr hop
    refine ⟨hsound, by rw [hkept.locks]; exact h.unlocked, ?_⟩
    rw [hkept.bucketCount, hkept.capacity]
    exact h.buckets

theorem Table.Idle.result_of_returns (h : t.Idle H) (hr : Returns H tid t op t' reply) :
    t.result H op = some (t', reply) := by
  have hcovered := covered_of_returns hr
  cases hresult : t.result H op with
  | some out =>
      have hreturns := returns_result h.unlocked h.sound.half_pos hcovered hresult
      obtain ⟨rfl, rfl⟩ := hr.unique hreturns
      rfl
  | none =>
      cases op with
      | search s => cases hresult
      | insert key value => cases hresult
      | resize =>
          have hnone := Option.map_eq_none_iff.mp hresult
          have hexit : Leads ((program H).soloStep tid) (t, .called .resize) (t, .exited) := by
            have hcall : step H tid t (.called .resize) = (t, .resizing) := rfl
            have hresize : step H tid t .resizing = (t, .exited) := by rw [step, hnone]
            exact leads_of_step hcall (leads_of_step hresize (Leads.refl _))
          cases hexit.rest_unique rfl hr rfl

theorem idle_of_reached (hn : 2 ≤ n) (h : Reached H tid (levelInit n) t) : t.Idle H := by
  induction h with
  | start => exact idle_levelInit hn
  | call _ hreturns ih => exact ih.result (ih.result_of_returns hreturns)

end Idle

end HashComp.LevelHashing
