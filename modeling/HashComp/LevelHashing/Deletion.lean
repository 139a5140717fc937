import HashComp.LevelHashing.Relocation

namespace HashComp.LevelHashing

open HashComp.Runs
open HashComp.Threads

section Items

variable {K V : Type*} [DecidableEq K] {H : Hashing K} {t u : Table K V} {l l' : Local K V}
  {k : K} {x y : Slot}

def Omits (k : K) : Op K V → Prop
  | .insert key _ => key ≠ k
  | .search _ => True
  | .resize => False

theorem not_holds_of_key (h : (u.cells x).key ≠ k) : ¬ u.holds k x = true :=
  fun hx => h (holds_iff.mp hx).2

theorem not_holds_of_token (h : (u.cells x).token = false) : ¬ u.holds k x = true := by
  intro hx
  rw [(holds_iff.mp hx).1] at h
  cases h

/-- A slot that holds the key has held it before, or the item has been moved there from a
slot in which it was. -/
theorem Effect.held (heffect : Effect t l u l') (hsound : t.Sound H) (hl : l.Located H t)
    (homits : ∀ op, l.op = some op → Omits k op)
    (hlive : ∀ y z, l.Moves t y z → (t.cells y).key = k → (t.cells y).token = true)
    (hx : u.holds k x = true) :
    t.holds k x = true ∨ ∃ y, l.Moves t y x ∧ t.holds k y = true ∧ ¬ u.holds k y = true := by
  cases heffect with
  | rest => exact Or.inl hx
  | @found s slot slots htoken hkey =>
      by_cases hne : x = slot
      · subst hne
        refine Or.inl ?_
        cases s with
        | query key => exact hx
        | update key newValue =>
            have hcell := holds_iff.mp hx
            simp only [Search.apply, Table.setCell, Function.update_self] at hcell
            exact holds_iff.mpr hcell
        | delete key => exact absurd hx (not_holds_of_token (by
            simp only [Search.apply, Table.clearToken, Table.setCell, Function.update_self]))
      · rw [holds_congr] at hx
        · exact Or.inl hx
        · cases s with
          | query key => rfl
          | update key newValue => exact Function.update_of_ne hne ..
          | delete key => exact Function.update_of_ne hne ..
  | @filled key value slot slots hfree =>
      have hkey : key ≠ k := homits _ rfl
      have hne : x ≠ slot := by
        rintro rfl
        exact not_holds_of_key (by rw [cells_put_self]; exact hkey) hx
      rw [holds_congr (cells_put_of_ne hne)] at hx
      exact Or.inl hx
  | @moved key value m movements i slot slots hfree =>
      have hmoves : (Local.targetLocked key value m movements i slot slots).Moves t
        (m.source i) slot := ⟨_, _, _, _, _, _, rfl, rfl, hfree⟩
      have hne : slot ≠ m.source i := by
        rintro heq
        have hmem := hl.2.2 slot List.mem_cons_self
        rw [heq] at hmem
        exact source_notMem_targets hsound.half_pos _ _ hmem
      by_cases hslot : x = slot
      · subst hslot
        have hkey : (t.cells (m.source i)).key = k := by
          have hcell := (holds_iff.mp hx).2
          rwa [cells_relocate_target hne] at hcell
        refine Or.inr ⟨m.source i, hmoves, holds_iff.mpr ⟨hlive _ _ hmoves hkey, hkey⟩, ?_⟩
        exact not_holds_of_token (by rw [cells_relocate_source])
      · by_cases hsource : x = m.source i
        · subst hsource
          exact absurd hx (not_holds_of_token (by rw [cells_relocate_source]))
        · rw [holds_congr (cells_relocate_of_ne hsource hslot)] at hx
          exact Or.inl hx
  | @freed key value m i =>
      have hkey : key ≠ k := homits _ rfl
      have hne : x ≠ m.source i := by
        rintro rfl
        exact not_holds_of_key (by rw [cells_put_self]; exact hkey) hx
      rw [holds_congr (cells_put_of_ne hne)] at hx
      exact Or.inl hx

def Table.Once (t : Table K V) (k : K) : Prop :=
  ∀ x y, t.holds k x = true → t.holds k y = true → x = y

theorem Table.Sound.once_of_copies (hs : t.Sound H) (h : t.copies k ≤ 1) : t.Once k := by
  intro x y hx hy
  have hmem : ∀ z, t.holds k z = true → z ∈ t.slots.filter fun slot =>
      (t.cells slot).token = true ∧ (t.cells slot).key = k := fun z hz =>
    Finset.mem_filter.mpr ⟨hs.mem_slots (holds_iff.mp hz).1, holds_iff.mp hz⟩
  exact Finset.card_le_one.mp h x (hmem x hx) y (hmem y hy)

theorem Effect.once (heffect : Effect t l u l') (hsound : t.Sound H) (hl : l.Located H t)
    (homits : ∀ op, l.op = some op → Omits k op)
    (hlive : ∀ y z, l.Moves t y z → (t.cells y).key = k → (t.cells y).token = true)
    (h : t.Once k) : u.Once k := by
  intro x y hx hy
  rcases heffect.held hsound hl homits hlive hx with hx' | ⟨x', hmoves, hx', hgone⟩
  · rcases heffect.held hsound hl homits hlive hy with hy' | ⟨y', -, hy', hgone⟩
    · exact h x y hx' hy'
    · rw [← h x y' hx' hy'] at hgone
      exact absurd hx hgone
  · rcases heffect.held hsound hl homits hlive hy with hy' | ⟨y', hmoves', -, -⟩
    · rw [h x' y hx' hy'] at hgone
      exact absurd hy hgone
    · obtain ⟨_, _, _, _, _, _, rfl, -, -⟩ := hmoves
      obtain ⟨_, _, _, _, _, _, heq, -, -⟩ := hmoves'
      cases heq
      rfl

theorem Effect.deletes (heffect : Effect t l u (.done (.search (.delete k)) (.code 0)))
    (hbusy : l.returned = none) (h : t.Once k) (x : Slot) : ¬ u.holds k x = true := by
  intro hx
  generalize hdone : Local.done (.search (.delete k)) (.code 0) = l' at heffect
  cases heffect with
  | rest hreply =>
      subst hdone
      rcases hreply with hsame | ⟨op, hone⟩
      · rw [hbusy] at hsame
        cases hsame
      · cases hone
  | @found s slot slots htoken hkey =>
      cases s with
      | delete key =>
          cases hdone
          have hne : x ≠ slot := by
            rintro rfl
            exact not_holds_of_token (by
              simp only [Search.apply, Table.clearToken, Table.setCell, Function.update_self]) hx
          rw [holds_congr (Function.update_of_ne hne ..)] at hx
          exact hne (h x slot hx (holds_iff.mpr ⟨htoken, hkey⟩))
      | query | update => cases hdone
  | filled | moved | freed => cases hdone

end Items

section Runs

variable {K V : Type*} {H : Hashing K} {t t' : Table K V} {s s' : State K V}
  {a : Action (Op K V)} {l l' : Local K V} {k : K} {x y : Slot} {tid : Nat}

/-- Calls that do not insert the key. -/
def OmittingCalls (k : K) (_ : State K V) : Action (Op K V) → Prop
  | .invoke _ op => Omits k op
  | _ => True

/-- A movement moves the key out of a slot whose token is not set. -/
def Revives (k : K) (s : State K V) : Action (Op K V) → Prop
  | .run tid => ∃ l x y, s.threads tid = some l ∧ l.Moves s.shared x y ∧
      (s.shared.cells x).key = k ∧ (s.shared.cells x).token = false
  | _ => False

/-- A `level_delete` of the key has returned 0. -/
def Deleted (k : K) (s : State K V) : Prop :=
  (∃ c ∈ s.log, c.op = .search (.delete k) ∧ c.result = .code 0) ∨
    ∃ tid, s.threads tid = some (.done (.search (.delete k)) (.code 0))

theorem OmittingCalls.noResize (h : OmittingCalls k s a) : NoResize s a := by
  cases a with
  | invoke tid op =>
      rintro rfl
      cases h
  | run | ret => trivial

theorem not_revives (h : ∀ key value m movements i slot slots,
    s.threads tid ≠ some (.targetLocked key value m movements i slot slots)) :
    ¬ Revives k s (.run tid) := by
  rintro ⟨_, _, _, hl, ⟨key, value, m, movements, i, slots, rfl, -⟩, -⟩
  exact h key value m movements i _ slots hl

variable [DecidableEq K]

structure Gone (H : Hashing K) (k : K) (s : State K V) : Prop where
  safe : Safe H s
  sound : s.shared.Sound H
  only : Only (Omits k) s
  once : s.shared.Once k
  gone : Deleted k s → ∀ x, ¬ s.shared.holds k x = true

variable [Inhabited K] [Inhabited V]

theorem Gone.run (h : Gone H k s) (hl : s.threads tid = some l)
    (hbusy : l.returned = none) (hok : ¬ Revives k s (.run tid))
    (hstep : step H tid s.shared l = (s'.shared, l'))
    (hthreads : s'.threads = Function.update s.threads tid (some l')) (hlog : s'.log = s.log) :
    s'.shared.Once k ∧ (Deleted k s' → ∀ x, ¬ s'.shared.holds k x = true) := by
  have hlocated := h.safe.located tid l hl
  obtain ⟨u, locks, heffect, hshared⟩ := effect_step hlocated hstep
  have homits := (h.only.threads tid l · hl)
  have hlive : ∀ y z, l.Moves s.shared y z → (s.shared.cells y).key = k →
      (s.shared.cells y).token = true := by
    intro y z hmoves hkey
    by_contra htoken
    exact hok ⟨l, y, z, hl, hmoves, hkey, Bool.eq_false_of_not_eq_true htoken⟩
  rw [hshared]
  have honce := heffect.once h.sound hlocated homits hlive h.once
  refine ⟨honce, fun hdeleted x hx => ?_⟩
  have hbefore : Deleted k s → False := by
    intro hold
    rcases heffect.held h.sound hlocated homits hlive hx with hx' | ⟨y, -, hy, -⟩
    · exact h.gone hold x hx'
    · exact h.gone hold y hy
  rcases hdeleted with ⟨c, hc, hop⟩ | ⟨v, hv⟩
  · exact hbefore (Or.inl ⟨c, hlog ▸ hc, hop⟩)
  · rw [hthreads] at hv
    rcases update_eq_some hv with ⟨-, hnow⟩ | ⟨-, hv⟩
    · cases hnow
      exact heffect.deletes hbusy h.once x hx
    · exact hbefore (Or.inr ⟨v, hv⟩)

theorem Gone.next (h : Gone H k s) (hok : OmittingCalls k s a) (hrevives : ¬ Revives k s a)
    (hnext : (program H).next s a = some s') : Gone H k s' := by
  have hkeeps : s'.shared.Once k ∧ (Deleted k s' → ∀ x, ¬ s'.shared.holds k x = true) := by
    rcases (program H).next_cases hnext with
      ⟨tid, op, rfl, -, rfl⟩ | ⟨tid, l, rfl, hl, hbusy, rfl⟩ | ⟨tid, op, r, rfl, hdone, rfl⟩
    · refine ⟨h.once, fun hdeleted => h.gone ?_⟩
      refine hdeleted.imp_right ?_
      rintro ⟨u, hu⟩
      rcases update_eq_some hu with ⟨-, hnow⟩ | ⟨-, hu⟩
      · cases hnow
      · exact ⟨u, hu⟩
    · refine h.run hl ?_ hrevives rfl rfl rfl
      cases l with
      | done op reply => exact absurd rfl (hbusy op reply)
      | _ => rfl
    · refine ⟨h.once, fun hdeleted => h.gone ?_⟩
      rcases hdeleted with ⟨c, hc, hop, hresult⟩ | ⟨u, hu⟩
      · rcases List.mem_append.mp hc with hc | hc
        · exact Or.inl ⟨c, hc, hop, hresult⟩
        · cases List.mem_singleton.mp hc
          cases hop
          cases hresult
          exact Or.inr ⟨tid, hdone⟩
      · rcases update_eq_some hu with ⟨-, hnow⟩ | ⟨-, hu⟩
        · cases hnow
        · exact Or.inr ⟨u, hu⟩
  exact ⟨h.safe.next hok.noResize hnext, h.safe.sound_next h.sound hnext,
    h.only.next h.safe (fun tid op ha => by subst ha; exact hok) hnext, hkeeps.1, hkeeps.2⟩

/-- A key that has been deleted stays out of the table until it is inserted again, if all
locks exist and no movement takes it out of a slot whose token is not set. -/
theorem deleted_stays_deleted (hsound : t.Sound H) (hlocks : ∀ slot, t.locks slot = none)
    (hone : t.copies k = 1)
    (h : Reaches (program H).next
      (fun s a => OmittingCalls k s a ∧ LocksExist s a ∧ ¬ Revives k s a) (System.start t) s) :
    (∀ tid, ¬ Faulted s tid) ∧ (Deleted k s → ∀ x, s.shared.holds k x = false) := by
  refine ⟨not_faulted_of_reaches (fun _ _ hok => hok.2.1) h, fun hdeleted x => ?_⟩
  have hgone : Gone H k s := by
    have honce := hsound.once_of_copies (Nat.le_of_eq hone)
    refine h.invariant (I := Gone H k) ⟨Safe.start hlocks, hsound, ⟨nofun, nofun⟩, honce, ?_⟩ ?_
    · rintro (⟨c, hc, -⟩ | ⟨tid, htid⟩)
      · cases hc
      · cases htid
    · intro s a s' hs hok hnext
      exact hs.next hok.1 hok.2.2 hnext
  exact Bool.eq_false_of_not_eq_true (hgone.gone hdeleted x)

/-- A key that is deleted while another one is inserted. -/
theorem deleted_while_inserting : ∃ s : State Nat Nat, Deleted 1 s ∧ s.threads 1 ≠ none ∧
    s.shared.holds 1 ⟨.top, 1, 0⟩ = false := by
  have hreached : Reached bits 0 (levelInit 2) (loaded 2 [(1, 10)]) :=
    (reached_loaded (by decide) _).1
  have hidle := idle_of_reached (by decide) hreached
  have hadmits : Admits (program bits).next
      (fun s a => OmittingCalls 1 s a ∧ LocksExist s a ∧ ¬ Revives 1 s a)
      (System.start (loaded 2 [(1, 10)])) [.invoke 0 (.search (.delete 1)),
        .invoke 1 (.insert 2 20), .run 0, .run 1, .run 0, .run 1, .run 0] :=
    ⟨⟨trivial, trivial, id⟩, ⟨nofun, trivial, id⟩,
      ⟨trivial, by decide +kernel, not_revives nofun⟩,
      ⟨trivial, by decide +kernel, not_revives nofun⟩,
      ⟨trivial, by decide +kernel, not_revives nofun⟩,
      ⟨trivial, by decide +kernel, not_revives nofun⟩,
      ⟨trivial, by decide +kernel, not_revives nofun⟩, trivial⟩
  have hdeleted := (deleted_stays_deleted hidle.sound hidle.unlocked (by decide +kernel)
    (reaches_of_runActions hadmits rfl)).2 (Or.inr ⟨0, rfl⟩) ⟨.top, 1, 0⟩
  exact ⟨_, Or.inr ⟨0, rfl⟩, by nofun, hdeleted⟩

/-- An insertion has found all slots of its key taken when another thread deletes a key,
and then moves what it finds in the first slot that it wants to free. -/
theorem insertion_after_deletion {key : K} (value : V) {source target : Slot}
    (hidle : t.Idle H) (hlocks : t.lockCount = t.capacity) (hkey : key ≠ k)
    (hfull : t.firstFree (t.insertOrder H key) = none)
    (hreply : (t.searched H (.delete k)).2 = .code 0)
    (hmove : (t.searched H (.delete k)).1.firstMove H (t.movements H key) 0 =
      some (source, target)) :
    ∃ s, Reaches (program H).next (OmittingCalls k) (System.start t) s ∧ Deleted k s ∧
      s.shared = ((t.searched H (.delete k)).1.relocate source target).put source key value := by
  have hrun : ∀ tid (s : State K V), OmittingCalls k s (.run tid) := fun _ _ => trivial
  have hcovered : ∀ tid op, op ≠ .resize → Covered H tid t (.called op) :=
    fun tid op hop => hidle.covered (l := .called op) hlocks hop tid
  have hresult : t.result H (.search (.delete k)) =
      some ((t.searched H (.delete k)).1, .code 0) := by
    rw [← hreply]
    rfl
  generalize (t.searched H (.delete k)).1 = u at hresult hmove
  have hkept := kept_of_result hresult nofun
  have hidle' := hidle.result hresult
  -- the insertion comes to its movements
  have hscan := leads_insert_full hidle.unlocked hfull (hcovered 0 (.insert key value) nofun)
  have hinsert : OmittingCalls k (System.start t) (.invoke 0 (.insert key value)) := hkey
  obtain ⟨s₁, hreaches₁, hshared₁, hthreads₁, -⟩ :=
    Program.reaches_call hinsert (hrun 0) rfl hscan
  -- the key is deleted
  have hdelete := returns_result hidle.unlocked hidle.sound.half_pos
    (hcovered 1 (.search (.delete k)) nofun) hresult
  have hcall : OmittingCalls k s₁ (.invoke 1 (.search (.delete k))) := trivial
  have hidle₁ : s₁.threads 1 = none := by
    rw [hthreads₁]
    rfl
  obtain ⟨s₂, hreaches₂, hshared₂, hthreads₂, -⟩ :=
    Program.reaches_call hcall (hrun 1) hidle₁ (hshared₁ ▸ hdelete)
  -- the insertion makes room for its key
  have hcovered' : Covered H 0 u (.source key value (t.movements H key) 0) := by
    refine hidle'.covered (l := .source key value _ 0) ?_ ?_ 0
    · rw [hkept.lockCount, hkept.capacity, hlocks]
    · rw [← hkept.sameShape.movements]
      exact fun m hm => hm
  have hsource := leads_source hidle'.unlocked hidle'.sound.half_pos hcovered'
  rw [hmove] at hsource
  have hhere : s₂.threads 0 = some (.source key value (t.movements H key) 0) := by
    rw [hthreads₂, hthreads₁]
    rfl
  obtain ⟨s₃, hreaches₃, hshared₃, hthreads₃, -⟩ :=
    Program.reaches_run (hrun 0) hhere (by rw [hshared₂]; exact hsource)
  refine ⟨s₃, (hreaches₁.trans hreaches₂).trans hreaches₃, Or.inr ⟨1, ?_⟩, hshared₃⟩
  rw [hthreads₃, hthreads₂]
  rfl

theorem revived_insertion :
    (revived.firstFree (revived.insertOrder bits 64)).isNone ∧
      (revived.searched bits (.delete 2)).2 = .code 0 ∧
      (revived.searched bits (.delete 2)).1.firstMove bits (revived.movements bits 64) 0 =
        some (⟨.top, 0, 0⟩, ⟨.top, 3, 0⟩) ∧
      (((revived.searched bits (.delete 2)).1.relocate ⟨.top, 0, 0⟩ ⟨.top, 3, 0⟩).put
        ⟨.top, 0, 0⟩ 64 0).holds 2 ⟨.top, 3, 0⟩ = true := by
  decide +kernel

/-- A deletion of 2 returns 0, and 2 is in the bucket 3 afterwards. -/
theorem deletion_undone : ∃ t : Table Nat Nat, Reached bits 0 (levelInit 2) t ∧ t.copies 2 = 1 ∧
    ∃ s, Reaches (program bits).next (OmittingCalls 2) (System.start t) s ∧ Deleted 2 s ∧
      s.shared.holds 2 ⟨.top, 3, 0⟩ = true := by
  have hidle : revived.Idle bits := idle_of_reached (by decide) reached_revived.1
  have hlocks := lockCount_levelInit hidle reached_revived.2
    (locks_of_reached (by decide) reached_revived.1).1
  obtain ⟨hfull, hreply, hmove, hholds⟩ := revived_insertion
  obtain ⟨s, hs, hdeleted, hshared⟩ := insertion_after_deletion 0 hidle hlocks (by decide)
    (Option.isNone_iff_eq_none.mp hfull) hreply hmove
  refine ⟨revived, reached_revived.1, by decide +kernel, s, hs, hdeleted, ?_⟩
  rw [hshared]
  exact hholds

end Runs

end HashComp.LevelHashing
