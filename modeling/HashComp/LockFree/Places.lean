import HashComp.Epoch.DrainList
import HashComp.LockFree.Sequential

namespace HashComp.LockFree

open HashComp.DrainList
open HashComp.Epoch
open HashComp.HashTrie
open HashComp.LevelHash
open HashComp.Operations
open HashComp.Ownership
open HashComp.Runs
open HashComp.SlotTrie
open HashComp.Threads

section Covered

variable {K T : Type*} {L : Layout K} {D tid : Nat} {t t' : Table K T}
  {hand : Nat → List Nat} {r : List Nat} {key : K} {mapped : T} {a old : Nat} {p : Path}
  {l l' : Local K T}

def Covered (t : Table K T) (hand : Nat → List Nat) : Prop :=
  Covers (Owns t hand) (· < t.fresh)

theorem Covered.alloc (h : Covered t (Function.update hand tid r)) :
    Covered (newDataNode L tid t key mapped).2
      (Function.update hand tid ((newDataNode L tid t key mapped).1 :: r)) := by
  have htaker : Owns (newDataNode L tid t key mapped).2
      (Function.update hand tid ((newDataNode L tid t key mapped).1 :: r)) (.hand tid)
      (newDataNode L tid t key mapped).1 := by
    simp [Owns]
  have hhand : ∀ u b, b ∈ Function.update hand tid r u →
      b ∈ Function.update hand tid ((newDataNode L tid t key mapped).1 :: r) u := by
    intro u b hb
    by_cases hu : u = tid
    · subst u
      rw [Function.update_self] at hb ⊢
      exact List.mem_cons_of_mem _ hb
    · rwa [Function.update_of_ne hu] at hb ⊢
  rcases newDataNode_cases L tid t key mapped with
    ⟨rest, hpool, hpool', hfresh⟩ | ⟨-, hnew, hpool', hfresh⟩
  · have hcovers : Covers (Owns t (Function.update hand tid r))
        (· < (newDataNode L tid t key mapped).2.fresh) := by rwa [hfresh]
    refine hcovers.transfer (.pool tid) _ _ htaker ?_
    rintro (q | u | - | u) b hb
    · exact Or.inr (by simpa [Owns] using hb)
    · simp only [Owns, hpool'] at hb ⊢
      by_cases hu : u = tid
      · subst u
        rw [hpool] at hb
        rw [Function.update_self]
        rcases List.mem_cons.mp hb with rfl | hb
        · exact Or.inl ⟨rfl, rfl⟩
        · exact Or.inr hb
      · rw [Function.update_of_ne hu]
        exact Or.inr hb
    · exact Or.inr (by simpa [Owns] using hb)
    · exact Or.inr (hhand u b hb)
  · refine Covers.acquire h _ _ htaker (fun b hb => ?_) ?_
    · rw [hfresh] at hb
      rw [hnew]
      exact Nat.lt_succ_iff_lt_or_eq.mp hb
    · rintro (q | u | - | u) b hb
      · simpa [Owns] using hb
      · simpa [Owns, hpool'] using hb
      · simpa [Owns] using hb
      · exact hhand u b hb

theorem Covered.link (h : Covered t (Function.update hand tid (a :: r)))
    (hnull : t.slots p = .null) :
    Covered (setSlot t p (.data a)) (Function.update hand tid r) := by
  have htaker : Owns (setSlot t p (.data a)) (Function.update hand tid r) (.slot p) a := by
    simp [Owns]
  refine Covers.transfer h (.hand tid) _ _ htaker ?_
  rintro (q | u | - | u) b hb
  · have hne : q ≠ p := by
      rintro rfl
      cases hnull.symm.trans hb
    simp only [Owns, setSlot_slots, Function.update_of_ne hne]
    exact Or.inr hb
  · exact Or.inr hb
  · exact Or.inr hb
  · rcases mem_update_cons hb with ⟨rfl, rfl⟩ | hb
    · exact Or.inl ⟨rfl, rfl⟩
    · exact Or.inr hb

theorem Covered.unlink (h : Covered t (Function.update hand tid r)) (hold : t.slots p = .data old) :
    Covered (setSlot t p .null) (Function.update hand tid (r ++ [old])) := by
  have htaker : Owns (setSlot t p .null) (Function.update hand tid (r ++ [old]))
      (.hand tid) old := by
    simp [Owns]
  refine Covers.transfer h (.slot p) _ _ htaker ?_
  rintro (q | u | - | u) b hb
  · by_cases hq : q = p
    · subst q
      cases hold.symm.trans hb
      exact Or.inl ⟨rfl, rfl⟩
    · simp only [Owns, setSlot_slots, Function.update_of_ne hq]
      exact Or.inr hb
  · exact Or.inr hb
  · exact Or.inr hb
  · simp only [Owns] at hb ⊢
    by_cases hu : u = tid
    · subst u
      rw [Function.update_self] at hb ⊢
      exact Or.inr (List.mem_append_left _ hb)
    · rw [Function.update_of_ne hu] at hb ⊢
      exact Or.inr hb

theorem Covered.swap (h : Covered t (Function.update hand tid (a :: r)))
    (hold : t.slots p = .data old) :
    Covered (setSlot t p (.data a)) (Function.update hand tid (r ++ [old])) := by
  have hunlink := h.unlink hold
  rw [List.cons_append] at hunlink
  have hlink := hunlink.link (p := p) (Function.update_self ..)
  rwa [setSlot_setSlot] at hlink

theorem Covered.split (h : Covered t hand) (hwf : WellFormed t.slots) {i : Nat}
    (hold : t.slots p = .data old) : Covered (publishArray t p i old) hand := by
  have htaker : Owns (publishArray t p i old) hand (.slot (p ++ [i])) old :=
    (publish_eq_data_iff hwf hold).mpr (Or.inl ⟨rfl, rfl⟩)
  refine Covers.transfer h (.slot p) _ _ htaker ?_
  rintro (q | u | - | u) b hb
  · by_cases hq : q = p
    · subst q
      cases hold.symm.trans hb
      exact Or.inl ⟨rfl, rfl⟩
    · exact Or.inr ((publish_eq_data_iff hwf hold).mpr (Or.inr ⟨hq, hb⟩))
  · exact Or.inr hb
  · exact Or.inr hb
  · exact Or.inr hb

theorem Covered.push (h : Covered t (Function.update hand tid (a :: r))) :
    Covered (pushData tid t a) (Function.update hand tid r) := by
  have htaker : Owns (pushData tid t a) (Function.update hand tid r) (.pool tid) a := by
    simp [Owns, pushData]
  refine Covers.transfer h (.hand tid) _ _ htaker ?_
  rintro (q | u | - | u) b hb
  · exact Or.inr hb
  · simp only [Owns, pushData] at hb ⊢
    by_cases hu : u = tid
    · subst u
      rw [Function.update_self]
      exact Or.inr (List.mem_append_left _ hb)
    · rw [Function.update_of_ne hu]
      exact Or.inr hb
  · exact Or.inr hb
  · rcases mem_update_cons hb with ⟨rfl, rfl⟩ | hb
    · exact Or.inl ⟨rfl, rfl⟩
    · exact Or.inr hb

theorem Covered.pushAll {xs : List (Nat × Nat)}
    (h : Covered t (Function.update hand tid (xs.map Prod.snd ++ r))) :
    Covered (deleteCallbacks tid t xs) (Function.update hand tid r) := by
  induction xs generalizing t with
  | nil => exact h
  | cons x xs ih => exact ih h.push

/-- A call of the epoch exchanges nodes between the drain list and the thread. -/
theorem Covered.exchange {e : LightEpoch Nat} {xs : List (Nat × Nat)} (ys : List (Nat × Nat))
    (h : Covered t (Function.update hand tid (ys.map Prod.snd ++ r)))
    (hperm : (xs ++ pendings e.drainList).Perm (ys ++ pendings t.epoch.drainList)) :
    Covered { t with epoch := e } (Function.update hand tid (xs.map Prod.snd ++ r)) := by
  have hhand : ∀ b, b ∈ xs.map Prod.snd ++ r →
      Owns { t with epoch := e } (Function.update hand tid (xs.map Prod.snd ++ r)) (.hand tid) b := by
    intro b hb
    rwa [Owns, Function.update_self]
  have hall : ∀ b, b ∈ ys.map Prod.snd ∨ b ∈ (pendings t.epoch.drainList).map Prod.snd →
      ∃ o, Owns { t with epoch := e } (Function.update hand tid (xs.map Prod.snd ++ r)) o b := by
    intro b hb
    have hmem := (hperm.map Prod.snd).mem_iff (a := b)
    simp only [List.map_append, List.mem_append] at hmem
    rcases hmem.mpr hb with hb | hb
    · exact ⟨.hand tid, hhand b (List.mem_append_left _ hb)⟩
    · exact ⟨.drain, hb⟩
  intro b hb
  obtain ⟨q | u | - | u, ho⟩ := h b hb
  · exact ⟨.slot q, ho⟩
  · exact ⟨.pool u, ho⟩
  · exact hall b (Or.inr ho)
  · by_cases hu : u = tid
    · subst u
      simp only [Owns, Function.update_self, List.mem_append] at ho
      rcases ho with ho | ho
      · exact hall b (Or.inl ho)
      · exact ⟨.hand tid, hhand b (List.mem_append_right _ ho)⟩
    · refine ⟨.hand u, ?_⟩
      simp only [Owns, Function.update_of_ne hu] at ho ⊢
      exact ho

theorem Covered.setEpoch (h : Covered t hand) {e : LightEpoch Nat}
    (hdrain : e.drainList = t.epoch.drainList) : Covered { t with epoch := e } hand := by
  intro b hb
  obtain ⟨o, ho⟩ := h b hb
  exact ⟨o, by cases o <;> simpa [Owns, hdrain] using ho⟩

theorem Covered.transition (hsound : Sound L D t (Function.update hand tid l.unlinked))
    (h : Covered t (Function.update hand tid l.unlinked)) (htr : Transition L tid t l t' l') :
    Covered t' (Function.update hand tid l'.unlinked) := by
  have hprotect : Covered { t with epoch := t.epoch.reentrantProtect tid }
      (Function.update hand tid l.unlinked) := by
    refine h.setEpoch ?_
    obtain ⟨entry, he⟩ := reentrantProtect_eq_setEntry t.epoch tid
    rw [he]
    rfl
  cases htr with
  | link harr hcas => exact h.alloc.link (by rwa [newDataNode_slots])
  | replace harr hcas => exact h.alloc.swap (by rwa [newDataNode_slots])
  | insertLost =>
      rw [retry_unlinked]
      exact h.alloc.push
  | replaceLost =>
      rw [retry_unlinked]
      exact h.alloc.push
  | lost =>
      rw [retry_unlinked]
      exact h
  | split harr hne hcas => exact h.split hsound.wf hcas
  | unlink harr hcas => exact h.unlink hcas
  | bump => exact (Covered.exchange [] h hsound.epoch.bump_perm).pushAll
  | @register m old prior i r hr =>
      have hperm := (tryRegister_spec hr).2.2.2.2.2.2.2
      exact (Covered.exchange [(prior, old)] h hperm).pushAll
  | miss | getEnter | getMiss => exact hprotect
  | getFound =>
      refine h.setEpoch ?_
      obtain ⟨entry, he⟩ := reentrantUnprotect_eq_setEntry t.epoch tid
      rw [he]
      rfl
  | _ => exact h

theorem covered_new (expectedThreadCount expectedDataNum : Nat)
    (garbage : Nat → DataBlock K T) :
    Covered (new expectedThreadCount expectedDataNum garbage) (fun _ => []) := by
  intro a ha
  set each := expectedDataNum / expectedThreadCount with heach
  have hlt : a < expectedThreadCount * each := ha
  have hpos : 0 < each := by
    rcases Nat.eq_zero_or_pos each with hzero | hpos
    · rw [hzero, Nat.mul_zero] at hlt
      exact absurd hlt (Nat.not_lt_zero a)
    · exact hpos
  refine ⟨.pool (a / each), ?_⟩
  have hu : a / each < expectedThreadCount := Nat.div_lt_of_lt_mul (by rwa [Nat.mul_comm])
  simp only [Owns, new, ← heach, if_pos hu, List.mem_range'_1]
  refine ⟨Nat.div_mul_le_self a each, ?_⟩
  exact Nat.lt_div_mul_add hpos
end Covered

section Runs

variable {K T : Type*} {L : Layout K} {D tid : Nat} {t t' : Table K T}
  {threads : Nat → Option (Local K T)} {a : Nat}

theorem Covered.step (hadm : L.Admissible D) (hD : D < maxLevel) {l : Local K T}
    (hinv : Inv L D t threads) (h : Covered t (hand threads)) (hl : threads tid = some l) :
    Covered (step L tid t l).1 (hand (Function.update threads tid (some (step L tid t l).2))) := by
  have htr := hinv.transition hadm hD hl
  rw [hand_update]
  rw [← hand_self hl] at h
  have hsound : Sound L D t (Function.update (hand threads) tid l.unlinked) := by
    rw [hand_self hl]
    exact hinv.sound
  exact Covered.transition hsound h htr

theorem Covered.leads (hadm : L.Admissible D) (hD : D < maxLevel) {x y : Table K T × Local K T}
    (hinv : Inv L D x.1 (alone tid x.2)) (h : Covered x.1 (hand (alone tid x.2)))
    (hy : Leads ((program L).soloStep tid) x y) : Covered y.1 (hand (alone tid y.2)) := by
  refine (hy.invariant (I := fun x : Table K T × Local K T =>
    Inv L D x.1 (alone tid x.2) ∧ Covered x.1 (hand (alone tid x.2))) ⟨hinv, h⟩ ?_).2
  rintro x ⟨hinv, h⟩
  have hstep := hinv.step hadm hD (alone_self tid x.2)
  have hcov := h.step hadm hD hinv (alone_self tid x.2)
  rw [alone, Function.update_idem] at hstep hcov
  exact ⟨hstep, hcov⟩

theorem hand_alone {l : Local K T} (h : l.unlinked = []) : hand (alone tid l) = fun _ => [] := by
  rw [alone, hand_update, h]
  exact Function.update_eq_self_iff.mpr rfl

theorem covered_of_reached (hadm : L.Admissible D) (hD : D < maxLevel)
    (hinv : Inv L D t (fun _ => none)) (h : Covered t (fun _ => [])) (hrun : Reached L tid t t') :
    Covered t' (fun _ => []) := by
  induction hrun with
  | start => exact h
  | @call t₁ t₂ op r hrun hreturns ih =>
      have hbefore : Covered t₁ (hand (alone tid (begin op))) := by
        rw [hand_alone begin_unlinked]
        exact ih
      have hafter := Covered.leads (x := (t₁, begin op)) hadm hD
        ((inv_of_reached hadm hD hinv hrun).call tid op) hbefore hreturns
      rwa [hand_alone rfl] at hafter

inductive Place where
  | slot (p : Path)
  | pool (tid i : Nat)
  | drain (i : Nat)

/-- The data node is in a slot of the trie, at a position of a pool or the context of a
pending entry of the drain list. -/
def At (t : Table K T) : Place → Nat → Prop
  | .slot p, a => t.slots p = .data a
  | .pool u i, a => (t.dataPool u)[i]? = some a
  | .drain i, a => ∃ epoch, t.epoch.drainList[i]? = some (.pending epoch a)

/-- The owner that a place belongs to. -/
def Place.owner : Place → Owner
  | .slot p => .slot p
  | .pool u _ => .pool u
  | .drain _ => .drain

theorem At.owns {place : Place} (h : At t place a) : Owns t (fun _ => []) place.owner a := by
  cases place with
  | slot p => exact h
  | pool u i => exact List.mem_of_getElem? h
  | drain i =>
      obtain ⟨epoch, hi⟩ := h
      exact mem_contexts_iff.mpr ⟨i, epoch, hi⟩

theorem Sound.at_unique (h : Sound L D t (fun _ => [])) {place place' : Place}
    (hat : At t place a) (hat' : At t place' a) : place = place' := by
  have howner := h.exclusive.eq _ _ hat.owns hat'.owns
  cases place with
  | slot p =>
      cases place' <;> cases howner
      rfl
  | pool u i =>
      cases place' <;> cases howner
      have hi : i < (t.dataPool u).length := (List.getElem?_eq_some_iff.mp hat).1
      rw [(List.getElem?_inj hi (h.poolNodup u)).mp (hat.trans hat'.symm)]
  | drain i =>
      cases place' <;> cases howner
      obtain ⟨epoch, hi⟩ := hat
      obtain ⟨epoch', hj⟩ := hat'
      rw [index_unique h.drainNodup hi hj]

theorem Owns.exists_at {o : Owner} (h : Owns t (fun _ => []) o a) : ∃ place, At t place a := by
  cases o with
  | slot p => exact ⟨.slot p, h⟩
  | pool u =>
      obtain ⟨i, hi⟩ := List.mem_iff_getElem?.mp h
      exact ⟨.pool u i, hi⟩
  | drain =>
      obtain ⟨i, epoch, hi⟩ := mem_contexts_iff.mp h
      exact ⟨.drain i, epoch, hi⟩
  | hand u => cases h

/-- Between the calls of a single-threaded run the data nodes in the table are those that
have been allocated, and each is in exactly one place. -/
theorem in_one_place (hfits : Fits L) {expectedThreadCount expectedDataNum : Nat}
    {garbage : Nat → DataBlock K T}
    (h : Reached L tid (new expectedThreadCount expectedDataNum garbage) t) :
    (∀ a < t.fresh, ∃! place, At t place a) ∧ ∀ place a, At t place a → a < t.fresh := by
  obtain ⟨D, hD, hadm⟩ := hfits
  have hsound : Sound L D t (fun _ => []) := (reached_sound hadm hD h).sound
  have hcovered := covered_of_reached hadm hD (inv_new _ _ _)
    (covered_new expectedThreadCount expectedDataNum garbage) h
  refine ⟨fun a ha => ?_, fun place a hat => hsound.allocated _ a hat.owns⟩
  obtain ⟨o, ho⟩ := hcovered a ha
  obtain ⟨place, hat⟩ := ho.exists_at
  exact ⟨place, hat, fun place' hat' => hsound.at_unique hat' hat⟩

def updatedTable : Table (BitVec 64) Nat :=
  afterSteps identityLayout 1 4 (.mutate (.update 0x11 9))
    (afterSteps identityLayout 1 2 (.mutate (.insert 0x11 7)) (new 2 4 fun _ => ⟨0, 0, 0⟩))

theorem updatedTable_reached :
    Reached identityLayout 1 (new 2 4 fun _ => ⟨0, 0, 0⟩) updatedTable :=
  .call (.call .start (Program.returns_of_steps (r := .bool true) rfl))
    (Program.returns_of_steps (r := .bool true) rfl)

theorem in_one_place_updatedTable :
    (At updatedTable (.drain 0) 2 ∧ At updatedTable (.slot [1]) 3 ∧
      At updatedTable (.pool 0 1) 1 ∧ updatedTable.fresh = 4) ∧
    (∀ a < updatedTable.fresh, ∃! place, At updatedTable place a) ∧
      ∀ place a, At updatedTable place a → a < updatedTable.fresh :=
  ⟨⟨⟨1, rfl⟩, rfl, rfl, rfl⟩, in_one_place (fits_of_default rfl (Or.inl rfl)) updatedTable_reached⟩

end Runs

end HashComp.LockFree
