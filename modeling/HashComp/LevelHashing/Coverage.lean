import HashComp.LevelHashing.Locking
import HashComp.LevelHashing.Refinement

namespace HashComp.LevelHashing

open HashComp.Runs
open HashComp.Threads

section Fits

variable {K V : Type*}

def Local.touched (t : Table K V) : Local K V → List Slot
  | .resizing => (grid (2 ^ (t.levelSize - 1))).map Level.bottom.slot
  | l => l.request.toList ++ l.held

/-- The indices of a step lie in the arrays that they are used with. -/
structure Fits (H : Hashing K) (t : Table K V) (l : Local K V) : Prop where
  locks : InRange t l
  buckets : ∀ slot ∈ l.touched t, slot.bucket < t.bucketCount slot.level
  /-- `newBuckets` has `addr_capacity` buckets. -/
  newBuckets : l = .resizing → ∀ key,
    fIdx (H.fHash key).toNat (2 ^ (t.levelSize + 1)) < 2 ^ (t.levelSize + 1) ∧
      sIdx (H.sHash key).toNat (2 ^ (t.levelSize + 1)) < 2 ^ (t.levelSize + 1)

/-- The indices of a call, made by a thread that runs alone. -/
def CallFits [DecidableEq K] [Inhabited K] [Inhabited V] (H : Hashing K) (tid : Nat)
    (t : Table K V) (op : Op K V) : Prop :=
  ∀ n, Fits H (((program H).soloStep tid)^[n] (t, .called op)).1
    (((program H).soloStep tid)^[n] (t, .called op)).2

end Fits

section Calls

variable {K V : Type*} {H : Hashing K} {t t' : Table K V} {l l' : Local K V} {x : Slot}
  {tid n : Nat} {op : Op K V}

theorem Local.Located.addresses (h : l.Located H t) (hx : x ∈ l.touched t) :
    ∃ key, t.Addresses H key x := by
  cases l with
  | search s slots | scan key value slots =>
      cases slots with
      | nil => cases hx
      | cons slot slots =>
          cases List.mem_singleton.mp hx
          exact ⟨_, h x List.mem_cons_self⟩
  | searchLocked s slot slots | scanLocked key value slot slots =>
      cases List.mem_singleton.mp hx
      exact ⟨_, h x List.mem_cons_self⟩
  | source key value movements i =>
      cases movements with
      | nil => cases hx
      | cons m movements =>
          simp only [Local.touched, Local.request, Local.held, List.append_nil,
            Option.mem_toList] at hx
          split at hx
          · next hi =>
              cases hx
              exact ⟨_, addresses_source (h m List.mem_cons_self) hi⟩
          · cases hx
  | target key value m movements i slots =>
      have hsource := addresses_source (h.1 m List.mem_cons_self) h.2.1
      cases slots with
      | nil =>
          cases List.mem_singleton.mp hx
          exact ⟨_, hsource⟩
      | cons slot slots =>
          rcases List.mem_cons.mp hx with rfl | hx
          · exact ⟨_, addresses_of_mem_targets (h.2.2 x List.mem_cons_self)⟩
          · cases List.mem_singleton.mp hx
            exact ⟨_, hsource⟩
  | targetLocked key value m movements i slot slots =>
      rcases List.mem_cons.mp hx with rfl | hx
      · exact ⟨_, addresses_of_mem_targets (h.2.2 x List.mem_cons_self)⟩
      · cases List.mem_singleton.mp hx
        exact ⟨_, addresses_source (h.1 m List.mem_cons_self) h.2.1⟩
  | fill key value m i =>
      cases List.mem_singleton.mp hx
      exact ⟨_, addresses_source h.1 h.2.1⟩
  | resizing => cases h
  | called | done | fault | exited => cases hx

theorem mem_touched_of_request (h : l.request = some x) : x ∈ l.touched t := by
  have hmem : x ∈ l.request.toList ++ l.held := by
    rw [h]
    exact List.mem_cons_self
  cases l with
  | resizing => cases h
  | _ => exact hmem

theorem Kept.sameShape (h : Kept t t') : SameShape t t' :=
  ⟨congrFun h.capacity .top, h.levelSize, h.levelResize, h.bucketCount, h.lockCount⟩

theorem Table.Sound.fits (h : t.Sound H) (hlocks : t.lockCount = t.capacity)
    (hbuckets : t.bucketCount = t.capacity) (hl : l.Located H t) : Fits H t l where
  locks := by
    intro slot hslot
    obtain ⟨key, hkey⟩ := hl.addresses (mem_touched_of_request hslot)
    rw [hlocks]
    exact (mem_slots_iff.mp (hkey.mem_slots h.half_pos)).1
  buckets := by
    intro slot hslot
    obtain ⟨key, hkey⟩ := hl.addresses hslot
    rw [hbuckets]
    exact (mem_slots_iff.mp (hkey.mem_slots h.half_pos)).1
  newBuckets := by
    rintro rfl
    cases hl

theorem fits_of_nothing (hrequest : l.request = none) (htouched : l.touched t = [])
    (hl : l ≠ .resizing) : Fits H t l where
  locks := by
    intro slot hslot
    rw [hrequest] at hslot
    cases hslot
  buckets := by
    intro slot hslot
    rw [htouched] at hslot
    cases hslot
  newBuckets := fun heq => absurd heq hl

theorem Table.Sound.fits_resizing (h : t.Sound H) (hbuckets : t.bucketCount = t.capacity) :
    Fits H t .resizing where
  locks := nofun
  buckets := by
    intro slot hslot
    obtain ⟨p, hp, rfl⟩ := List.mem_map.mp hslot
    rw [hbuckets]
    exact h.capacity_bottom ▸ (mem_grid_iff.mp hp).1
  newBuckets := by
    intro _ key
    have hhalf := half_pow_succ_pos t.levelSize
    have hf := Nat.mod_lt (H.fHash key).toNat hhalf
    have hs := Nat.mod_lt (H.sHash key).toNat hhalf
    simp only [fIdx, sIdx]
    omega

variable [DecidableEq K] [Inhabited K] [Inhabited V]

theorem Table.Sound.fits_run (h : t.Sound H) (hlocks : t.lockCount = t.capacity)
    (hbuckets : t.bucketCount = t.capacity) (hl : l.Located H t) (tid n : Nat) :
    Fits H (((program H).soloStep tid)^[n] (t, l)).1
      (((program H).soloStep tid)^[n] (t, l)).2 := by
  let I : Table K V × Local K V → Prop := fun w =>
    w.1.Sound H ∧ w.1.lockCount = w.1.capacity ∧ w.1.bucketCount = w.1.capacity ∧
      w.2.Located H w.1
  have hinv : ∀ w, I w → I ((program H).soloStep tid w) := by
    rintro ⟨u, l⟩ ⟨hu, hul, hub, hl⟩
    have hstep : step H tid u l = ((step H tid u l).1, (step H tid u l).2) := rfl
    obtain ⟨v, locks, heffect, hv⟩ := effect_step hl hstep
    have hshape : SameShape u (step H tid u l).1 := by
      rw [hv]
      exact heffect.sameShape.trans ⟨rfl, rfl, rfl, rfl, rfl⟩
    refine ⟨?_, ?_, ?_, hl.step rfl⟩
    · rw [soloStep_eq, hv]
      exact (hu.effect hl heffect).setLocks locks
    · exact (hshape.lockCount.trans hul).trans hshape.capacity.symm
    · exact (hshape.bucketCount.trans hub).trans hshape.capacity.symm
  have hstart : I (t, l) := ⟨h, hlocks, hbuckets, hl⟩
  have hn : I (((program H).soloStep tid)^[n] (t, l)) := Leads.invariant hstart hinv ⟨n, rfl⟩
  exact hn.1.fits hn.2.1 hn.2.2.1 hn.2.2.2

theorem Table.Sound.callFits (h : t.Sound H) (hlocks : t.lockCount = t.capacity)
    (hbuckets : t.bucketCount = t.capacity) (hop : op ≠ .resize) : CallFits H tid t op :=
  h.fits_run (l := .called op) hlocks hbuckets hop tid

theorem Table.Idle.covered (h : t.Idle H) (hlocks : t.lockCount = t.capacity)
    (hl : l.Located H t) (tid : Nat) : Covered H tid t l :=
  fun n => (h.sound.fits_run hlocks (funext h.buckets) hl tid n).locks

/-- `level_resize` goes to the buckets of the old bottom level and to those of a new
top level. -/
theorem Table.Sound.resizeFits (h : t.Sound H) (hbuckets : t.bucketCount = t.capacity) :
    CallFits H tid t .resize := by
  intro n
  have hlast : ∃ w, (program H).soloStep tid (t, .resizing) = w ∧
      (program H).soloStep tid w = w ∧ Fits H w.1 w.2 := by
    have hstep : (program H).soloStep tid (t, .resizing) = step H tid t .resizing := rfl
    rw [hstep, step]
    cases t.resize H with
    | none => exact ⟨_, rfl, rfl, fits_of_nothing rfl rfl (by rintro ⟨⟩)⟩
    | some u => exact ⟨_, rfl, rfl, fits_of_nothing rfl rfl (by rintro ⟨⟩)⟩
  obtain ⟨w, hw, hrest, hfits⟩ := hlast
  rcases n with _ | _ | n
  · exact fits_of_nothing rfl rfl (by rintro ⟨⟩)
  · exact h.fits_resizing hbuckets
  · have hcall : (program H).soloStep tid (t, .called .resize) = (t, .resizing) := rfl
    rw [Function.iterate_succ_apply, Function.iterate_succ_apply, hcall, hw,
      Function.iterate_fixed hrest]
    exact hfits

end Calls

section Runs

variable {K V : Type*} [DecidableEq K] [Inhabited K] [Inhabited V] {H : Hashing K}
  {t t' : Table K V} {x : Slot} {tid n : Nat} {op : Op K V} {ops : List (Op K V)} {key : K}

theorem locks_of_reached (hn : 2 ≤ n) (h : Reached H tid (levelInit n) t) :
    t.lockCount = (levelInit n : Table K V).lockCount ∧ n ≤ t.levelSize := by
  induction h with
  | start => exact ⟨rfl, Nat.le_refl n⟩
  | @call t t' op reply hreached hcall ih =>
      have hidle := idle_of_reached hn hreached
      have hresult := hidle.result_of_returns hcall
      by_cases hop : op = .resize
      · subst op
        have hresized := resized_of_resize hidle.sound (resize_of_result hresult).1
        refine ⟨hresized.lockCount.trans ih.1, ?_⟩
        rw [hresized.levelSize]
        exact Nat.le_succ_of_le ih.2
      · have hkept := kept_of_result hresult hop
        exact ⟨hkept.lockCount.trans ih.1, by rw [hkept.levelSize]; exact ih.2⟩

omit [DecidableEq K] in
theorem lockCount_levelInit (hidle : t.Idle H) (hsize : t.levelSize = n)
    (hlocks : t.lockCount = (levelInit n : Table K V).lockCount) : t.lockCount = t.capacity := by
  funext level
  rw [hlocks]
  cases level with
  | top => rw [Table.capacity, hidle.sound.capacity, hsize]; rfl
  | bottom => rw [hidle.sound.capacity_bottom, hsize]; rfl

theorem Table.Idle.allows (h : t.Idle H) (hlocks : t.lockCount = t.capacity)
    (hops : ∀ o ∈ ops, o ≠ .resize) :
    (program H).Allows tid (CallFits H tid) t (ops ++ [op]) := by
  have hbuckets := funext h.buckets
  induction ops generalizing t with
  | nil =>
      refine ⟨?_, fun _ _ _ => trivial⟩
      by_cases hop : op = .resize
      · subst op
        exact h.sound.resizeFits hbuckets
      · exact h.sound.callFits hlocks hbuckets hop
  | cons o ops ih =>
      have ho := hops o List.mem_cons_self
      refine ⟨h.sound.callFits hlocks hbuckets ho, fun u reply hu => ?_⟩
      have hresult := h.result_of_returns hu
      have hkept := kept_of_result hresult ho
      have hidle := h.result hresult
      refine ih hidle ?_ (fun o' ho' => hops o' (List.mem_cons_of_mem o ho')) (funext hidle.buckets)
      rw [hkept.lockCount, hkept.capacity, hlocks]

theorem lt_lockCount_of_missed (h : t.Idle H) {q : Search K V}
    (hfits : CallFits H tid t (.search q)) (hmiss : t.find H q.key = none)
    (hx : x ∈ t.searchOrder H q.key) : x.bucket < t.lockCount x.level := by
  have hcovered : Covered H tid t (.called (.search q)) := fun n => (hfits n).locks
  have hcall : step H tid t (.called (.search q)) = (t, .search q (t.searchOrder H q.key)) := rfl
  have hnot : ∀ y ∈ t.searchOrder H q.key, t.holds q.key y = false := by
    simpa using List.find?_eq_none.mp hmiss
  obtain ⟨before, rest, hsplit⟩ := List.append_of_mem hx
  have hsearch := hcovered.step hcall
  rw [hsplit] at hsearch hnot
  have hleads := leads_search_miss h.unlocked
    (fun y hy => hnot y (List.mem_append_left _ hy)) hsearch
  exact (hsearch.leads hleads).inRange x rfl

/-- Deletions of a key, one after the other, take a lock that does not exist when
there are locks for half of the top level only. -/
theorem Table.Idle.exists_not_allows (h : t.Idle H)
    (hlocks : t.lockCount .top ≤ t.capacity .top / 2) (key : K) :
    ∃ (ops : List (Op K V)) (op : Op K V), (∀ o ∈ ops, o ≠ .resize) ∧
      ¬ (program H).Allows tid (CallFits H tid) t (ops ++ [op]) := by
  induction hcard : t.items.card using Nat.strongRecOn generalizing t with
  | ind k ih =>
      by_cases hfits : CallFits H tid t (.search (.delete key))
      · have hcovered : Covered H tid t (.called (.search (.delete key))) :=
          fun n => (hfits n).locks
        have hresult : t.result H (.search (.delete key)) =
          some (t.searched H (.delete key)) := rfl
        have hreturns := returns_result h.unlocked h.sound.half_pos hcovered hresult
        have hidle := h.result hresult
        have hkept := kept_of_result hresult (by rintro ⟨⟩)
        cases hfind : t.find H key with
        | none =>
            have hbucket : (⟨.top, t.sBucket H .top key, 0⟩ : Slot) ∈ t.searchOrder H key :=
              mem_searchOrder_iff.mpr ⟨Nat.zero_lt_succ 3, Or.inr rfl⟩
            have hlt : t.sBucket H .top key < t.lockCount .top :=
              lt_lockCount_of_missed h hfits hfind hbucket
            have hle : t.capacity .top / 2 ≤ t.sBucket H .top key := le_sBucket key
            exact absurd hlt (by omega)
        | some slot =>
            obtain ⟨value, hcontent⟩ := content_of_find hfind
            have hitems := items_clearToken
              (h.sound.mem_slots (content_eq_some_iff.mp hcontent).1) hcontent
            have hless : (t.searched H (.delete key)).1.items.card < k := by
              rw [← hcard, ← hitems, Multiset.card_cons, Table.searched]
              simp only [Search.key, hfind, Search.apply]
              exact Nat.lt_succ_self _
            obtain ⟨ops, op, hops, hnot⟩ := ih _ hless hidle
              (by rw [hkept.lockCount, hkept.capacity]; exact hlocks) rfl
            refine ⟨.search (.delete key) :: ops, op, ?_, fun hallows => ?_⟩
            · intro o ho
              rcases List.mem_cons.mp ho with rfl | ho
              · rintro ⟨⟩
              · exact hops o ho
            · exact hnot (hallows.2 _ _ hreturns)
      · exact ⟨[], .search (.delete key), fun _ ho => absurd ho List.not_mem_nil,
          fun hallows => hfits hallows.1⟩

/-- The calls that may be made of a table go to locks and buckets that exist exactly
when it has never been resized. -/
theorem callsFit_iff (hn : 2 ≤ n) (h : Reached H tid (levelInit n) t) :
    (∀ (ops : List (Op K V)) (op : Op K V), (∀ o ∈ ops, o ≠ .resize) →
        (program H).Allows tid (CallFits H tid) t (ops ++ [op])) ↔ t.levelSize = n := by
  have hidle := idle_of_reached hn h
  obtain ⟨hlocks, hsize⟩ := locks_of_reached hn h
  constructor
  · intro hall
    by_contra hne
    have hpow : 2 ^ (n + 1) ≤ 2 ^ t.levelSize := Nat.pow_le_pow_right (by decide) (by omega)
    have hhalf : t.lockCount .top ≤ t.capacity .top / 2 := by
      rw [hlocks, Table.capacity, hidle.sound.capacity]
      have := Nat.pow_succ 2 n
      simp only [levelInit]
      omega
    obtain ⟨ops, op, hops, hnot⟩ : ∃ (ops : List (Op K V)) (op : Op K V),
        (∀ o ∈ ops, o ≠ .resize) ∧
          ¬ (program H).Allows tid (CallFits H tid) t (ops ++ [op]) :=
      hidle.exists_not_allows hhalf default
    exact hnot (hall ops op hops)
  · intro hsame ops op hops
    exact hidle.allows (lockCount_levelInit hidle hsame hlocks) hops

/-- After a `level_resize` a query for an absent key takes a lock that does not
exist. -/
theorem query_beyond_locks : ∃ t, Reached evenOdd 0 (levelInit 2) t ∧
    ¬ CallFits evenOdd 0 (t : Table Nat Nat) (.search (.query 0)) := by
  have hresize : Returns evenOdd 0 (levelInit 2) .resize
      ((program evenOdd).afterSteps 0 2 .resize (levelInit 2 : Table Nat Nat)) .void :=
    Program.returns_of_steps (by decide +kernel)
  refine ⟨_, .call .start hresize, fun hfits => ?_⟩
  have hout := (hfits 9).locks ⟨.top, 4, 0⟩ (by decide +kernel)
  revert hout
  decide +kernel

/-- A new table. -/
theorem callsFit_levelInit :
    (∀ (ops : List (Op Nat Nat)) (op : Op Nat Nat), (∀ o ∈ ops, o ≠ .resize) →
        (program evenOdd).Allows 0 (CallFits evenOdd 0) (levelInit 2) (ops ++ [op])) ↔
      (levelInit 2 : Table Nat Nat).levelSize = 2 :=
  callsFit_iff (by decide) .start

end Runs

end HashComp.LevelHashing
