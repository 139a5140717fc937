import HashComp.Interleaved.Chains

namespace HashComp.Interleaved

open HashComp.Faster
open HashComp.RecordChain

variable {K : Type} {L : Layout K} {x y : System K} {t slot a called : Nat}
  {op : Request K} {key : K}

section Conditions

def Request.Writes (key : K) : Request K → Prop
  | .upsert k _ | .rmw k _ => k = key
  | _ => False

def Request.Deletes (key : K) : Request K → Prop
  | .delete k _ => k = key
  | _ => False

def recordsFrom (s : Store K) : Nat → Nat → List (Record K)
  | 0, _ => []
  | fuel + 1, address =>
      if s.headAddress ≤ address then
        match s.log address with
        | none => []
        | some record => record :: recordsFrom s fuel record.previousAddress
      else []

/-- What is in a slot is nothing, or an entry that is not tentative and whose chain
has records of the key only. -/
def SparesOthers (s : Store K) (key : K) : Option (Option HashBucketEntry) → Prop
  | some (some entry) =>
      entry.tentative = false ∧
        ∀ record ∈ recordsFrom s (entry.address + 1) entry.address, record.key = key
  | _ => True

instance decidableSparesOthers [DecidableEq K] (s : Store K) (key : K) :
    (content : Option (Option HashBucketEntry)) → Decidable (SparesOthers s key content)
  | some (some _) => inferInstanceAs (Decidable (_ ∧ ∀ record ∈ _, _))
  | some none | none => .isTrue trivial

def Pc.erased : Pc → Option Nat
  | .erasing slot => some slot
  | _ => none

/-- What a `Delete` stores over belongs to its key alone. -/
def Spares (L : Layout K) (x : System K) : Move K → Prop
  | .run t =>
      ∀ running ∈ x.history.running t, ∀ slot ∈ (x.pc t).erased,
        SparesOthers x.store running.1.key (x.store.buckets (L.idx running.1.key))[slot]?
  | _ => True

instance decidableSpares [DecidableEq K] (L : Layout K) (x : System K) :
    (m : Move K) → Decidable (Spares L x m)
  | .run _ => inferInstanceAs (Decidable (∀ running ∈ _, ∀ slot ∈ _, _))
  | .call _ _ | .ret _ | .shiftReadOnly _ | .shiftSafeReadOnly _ => .isTrue trivial

structure Expected (L : Layout K) (s : Store K) (key : K) (e : HashBucketEntry) : Prop where
  final : e.tentative = false
  tag : e.tag = L.tag key
  linked : ∃ l, Linked L s (L.idx key) (L.tag key) e.address l

def Pc.Knows (L : Layout K) (s : Store K) (op : Request K) : Pc → Prop
  | .locating _ expected | .creating _ expected _ => Expected L s op.key expected
  | .publishing _ expected newAddress =>
      Expected L s op.key expected ∧
        ∃ r, s.log newAddress = some r ∧ r.key = op.key ∧ r.previousAddress = expected.address ∧
          expected.address < newAddress ∧ s.headAddress ≤ newAddress
  | .updating a => ∃ r, s.log a = some r ∧ r.key = op.key
  | .comparing _ _ | .erasing _ => op.Deletes op.key
  | _ => True

theorem mem_recordsFrom {s : Store K} {fuel c : Nat} {l : List Nat} {r : Record K}
    (h : Chain Record.previousAddress s.log s.headAddress a l) (hfuel : a < fuel) (hc : c ∈ l)
    (hr : s.log c = some r) : r ∈ recordsFrom s fuel a := by
  induction h generalizing fuel with
  | nil => cases hc
  | @cons a r' l hle hr' hprev hl ih =>
      cases fuel with
      | zero => omega
      | succ fuel =>
          rw [recordsFrom, if_pos hle, hr']
          rcases List.mem_cons.mp hc with rfl | hc
          · rw [hr] at hr'
            cases hr'
            exact List.mem_cons_self
          · exact List.mem_cons_of_mem _ (ih (by omega) hc)

theorem Expected.grows {s s' : Store K} {e : HashBucketEntry} (h : Expected L s key e)
    (hg : Grows s s') : Expected L s' key e where
  final := h.final
  tag := h.tag
  linked := by
    obtain ⟨l, hl⟩ := h.linked
    exact ⟨l, hl.grows hg⟩

theorem Pc.Knows.grows {s s' : Store K} {pc : Pc} (h : pc.Knows L s op) (hg : Grows s s') :
    pc.Knows L s' op := by
  cases pc
  case locating => exact Expected.grows h hg
  case creating => exact Expected.grows h hg
  case publishing slot expected newAddress =>
    obtain ⟨he, r, hr, hkey, hprev, hlt, hle⟩ := h
    obtain ⟨r', hr', hkey', hprev'⟩ := hg.log newAddress r hr
    exact ⟨he.grows hg, r', hr', hkey'.trans hkey, hprev'.trans hprev, hlt, hg.head ▸ hle⟩
  case updating a =>
    obtain ⟨r, hr, hkey⟩ := h
    obtain ⟨r', hr', hkey', -⟩ := hg.log a r hr
    exact ⟨r', hr', hkey'.trans hkey⟩
  all_goals exact h

end Conditions

section Cases

inductive Effect (L : Layout K) (x : System K) (t : Nat) (op : Request K) (y : System K) :
    Prop where
  /-- The store is left alone by a thread without an entry of its own. -/
  | move (pc : Pc) (hx : (x.pc t).slot = none) (hpc : pc.slot = none)
      (h : y = x.goto t x.store pc)
  /-- `HasConflictingEntry` -/
  | look (slot : Nat) (pc : Pc)
      (hx : x.pc t = .tagging slot ∧ (∃ tag, pc = .checking slot tag 0 ∧
          ∀ e, InSlot (x.store.buckets (L.idx op.key)) slot e → tag = e.tag) ∨
        ∃ tag i, x.pc t = .checking slot tag i ∧
          (pc = .confirming slot ∧ (x.store.buckets (L.idx op.key))[i]? = none ∨
            pc = .backing slot ∨
            pc = .checking slot tag (i + 1) ∧
              ∀ e, InSlot (x.store.buckets (L.idx op.key)) i e → e.tag = tag → slot = i))
      (h : y = x.goto t x.store pc)
  | extend (i : Nat) (hpc : x.pc t = .scanning i none)
      (h : y = x.goto t (setBucket x.store (L.idx op.key)
        (x.store.buckets (L.idx op.key) ++ List.replicate kNumEntries none)) (.installing i))
  | install (slot : Nat) (hpc : x.pc t = .installing slot)
      (hfree : (x.store.buckets (L.idx op.key))[slot]? = some none)
      (h : y = x.goto t (replaceEntry x.store (L.idx op.key) slot
        (some ⟨kInvalidAddress, L.tag op.key, true⟩)) (.tagging slot))
  | back (slot : Nat) (hpc : x.pc t = .backing slot)
      (h : y = x.goto t (replaceEntry x.store (L.idx op.key) slot none) (.scanning 0 none))
  | confirm (slot : Nat) (hpc : x.pc t = .confirming slot)
      (h : y = x.goto t
        (replaceEntry x.store (L.idx op.key) slot (some (freshEntry (L.tag op.key))))
        (.locating slot (freshEntry (L.tag op.key))))
  | update (address : Nat) (record : Record K) (value : BitVec 64)
      (hpc : x.pc t = .updating address) (hr : x.store.log address = some record)
      (h : y = x.commit t { x.store with
        log := Function.update x.store.log address (some { record with value := value }) }
        op.key value)
  | erase (slot : Nat) (hpc : x.pc t = .erasing slot)
      (h : y = x.goto t (replaceEntry x.store (L.idx op.key) slot none) (.done .ok))
  | construct (slot : Nat) (expected : HashBucketEntry) (address : Nat) (value : BitVec 64)
      (hpc : x.pc t = .creating slot expected address)
      (h : y = x.goto t (constructRecord x.store (blockAllocate x.store)
        (newRecord restContext op.key value expected))
        (.publishing slot expected (blockAllocate x.store)))
  | publish (slot : Nat) (expected : HashBucketEntry) (newAddress : Nat) (record : Record K)
      (hpc : x.pc t = .publishing slot expected newAddress)
      (hslot : InSlot (x.store.buckets (L.idx op.key)) slot expected)
      (hr : x.store.log newAddress = some record)
      (h : y = x.commit t (replaceEntry x.store (L.idx op.key) slot
        (some ⟨newAddress, L.tag op.key, false⟩)) op.key record.value)
  | discard (slot : Nat) (expected : HashBucketEntry) (newAddress : Nat) (record : Record K)
      (hpc : x.pc t = .publishing slot expected newAddress)
      (hr : x.store.log newAddress = some record)
      (h : y = x.goto t { x.store with
        log := Function.update x.store.log newAddress (some { record with invalid := true }) }
        (.scanning 0 none))

theorem Request.decide_slot {s : Store K} {expected : HashBucketEntry} {pc : Pc}
    (h : op.decide s slot expected a = some pc) : pc.slot = none := by
  unfold Request.decide at h
  repeat' split at h
  all_goals
    cases h
    try rfl

theorem step_cases [DecidableEq K] (h : x.step L t op = some y) : Effect L x t op y := by
  cases hpc : x.pc t
  case idle => simp only [System.step, hpc] at h; cases h
  case finding i =>
    simp only [System.step, hpc] at h
    repeat' split at h
    all_goals
      cases h
      exact .move _ (by rw [hpc]; rfl) rfl rfl
  case loading slot =>
    simp only [System.step, hpc] at h
    split at h
    all_goals
      cases h
      exact .move _ (by rw [hpc]; rfl) rfl rfl
  case tracing address =>
    simp only [System.step, hpc] at h
    repeat' split at h
    all_goals first
      | cases h; done
      | cases h; exact .move _ (by rw [hpc]; rfl) rfl rfl
  case getting address =>
    simp only [System.step, hpc] at h
    split at h
    · cases h
    · cases h
      exact .move _ (by rw [hpc]; rfl) rfl rfl
  case scanning i atomicEntry =>
    simp only [System.step, hpc] at h
    split at h
    · split at h
      · cases h
        exact .move _ (by rw [hpc]; rfl) rfl rfl
      · cases h
        exact .extend i hpc rfl
    · cases h
      exact .move _ (by rw [hpc]; rfl) rfl rfl
    · split at h
      all_goals
        cases h
        exact .move _ (by rw [hpc]; rfl) rfl rfl
  case installing slot =>
    simp only [System.step, hpc] at h
    split at h
    · rename_i hfree
      cases h
      exact .install slot hpc hfree rfl
    · cases h
      exact .move _ (by rw [hpc]; rfl) rfl rfl
  case tagging slot =>
    simp only [System.step, hpc] at h
    split at h
    · rename_i entry hentry
      cases h
      refine .look slot _ (Or.inl ⟨hpc, _, rfl, fun e he => ?_⟩) rfl
      rw [he.unique hentry]
    · rename_i hnone
      cases h
      exact .look slot _ (Or.inl ⟨hpc, _, rfl, fun e he => absurd he (hnone e)⟩) rfl
  case checking slot tag i =>
    simp only [System.step, hpc] at h
    split at h
    · rename_i hend
      cases h
      exact .look slot _ (Or.inr ⟨tag, i, hpc, Or.inl ⟨rfl, hend⟩⟩) rfl
    · rename_i hfree
      cases h
      refine .look slot _ (Or.inr ⟨tag, i, hpc, Or.inr (Or.inr ⟨rfl, fun e he => ?_⟩)⟩) rfl
      have heq := hfree.symm.trans he
      cases heq
    · rename_i entry hentry
      split at h
      · cases h
        exact .look slot _ (Or.inr ⟨tag, i, hpc, Or.inr (Or.inl rfl)⟩) rfl
      · rename_i hpass
        cases h
        refine .look slot _ (Or.inr ⟨tag, i, hpc, Or.inr (Or.inr ⟨rfl, fun e he htag => ?_⟩)⟩) rfl
        by_contra hne
        rw [he.unique hentry] at htag
        exact hpass ⟨htag, hne⟩
  case backing slot =>
    simp only [System.step, hpc] at h
    cases h
    exact .back slot hpc rfl
  case confirming slot =>
    simp only [System.step, hpc] at h
    cases h
    exact .confirm slot hpc rfl
  case locating slot expected =>
    simp only [System.step, hpc] at h
    split at h
    · cases h
    · obtain ⟨pc, hdecide, rfl⟩ := Option.map_eq_some_iff.mp h
      exact .move pc (by rw [hpc]; rfl) (Request.decide_slot hdecide) rfl
  case updating address =>
    simp only [System.step, hpc] at h
    split at h
    · cases h
    · rename_i record hr
      split at h
      · cases h
      · simp only [setValue, hr, Option.map_some] at h
        cases h
        exact .update address record _ hpc hr rfl
  case comparing slot address =>
    simp only [System.step, hpc] at h
    repeat' split at h
    all_goals
      cases h
      exact .move _ (by rw [hpc]; rfl) rfl rfl
  case erasing slot =>
    simp only [System.step, hpc] at h
    cases h
    exact .erase slot hpc rfl
  case creating slot expected address =>
    simp only [System.step, hpc] at h
    split at h
    · cases h
    · cases h
      exact .construct slot expected address _ hpc rfl
  case publishing slot expected newAddress =>
    simp only [System.step, hpc] at h
    split at h
    · cases h
    · rename_i record hr
      split at h
      · rename_i hslot
        cases h
        exact .publish slot expected newAddress record hpc hslot hr rfl
      · cases h
        refine .discard slot expected newAddress record hpc hr ?_
        simp only [invalidate, hr, Option.map_some]
  case done reply => simp only [System.step, hpc] at h; cases h

end Cases

section Keep

theorem moves_goto (x : System K) (t : Nat) (s : Store K) (pc : Pc) :
    Moves x t (x.goto t s pc) where
  others := fun _ hu => Function.update_of_ne hu ..
  running := rfl

theorem moves_commit (x : System K) (t : Nat) (s : Store K) (key : K) (v : BitVec 64) :
    Moves x t (x.commit t s key v) where
  others := fun _ hu => Function.update_of_ne hu ..
  running := rfl

@[simp] theorem goto_pc_self (x : System K) (t : Nat) (s : Store K) (pc : Pc) :
    (x.goto t s pc).pc t = pc := Function.update_self ..

@[simp] theorem commit_pc_self (x : System K) (t : Nat) (s : Store K) (key : K) (v : BitVec 64) :
    (x.commit t s key v).pc t = .done .ok := Function.update_self ..

theorem slotSet_goto {b i : Nat} {new : Option HashBucketEntry} {pc : Pc}
    (hlen : i < (x.store.buckets b).length) :
    SlotSet x (x.goto t (replaceEntry x.store b i new) pc) b i new :=
  fun _ _ _ => inSlot_replaceEntry_iff hlen

theorem Effect.frame (h : Effect L x t op y) :
    Moves x t y ∧ y.history = x.history.tick ∧
      ∀ w ∈ y.writes, w ∈ x.writes ∨ w.time = x.history.clock := by
  have hgoto : ∀ s pc, y = x.goto t s pc → Moves x t y ∧ y.history = x.history.tick ∧
      ∀ w ∈ y.writes, w ∈ x.writes ∨ w.time = x.history.clock := by
    rintro s pc rfl
    exact ⟨moves_goto .., rfl, fun w hw => Or.inl hw⟩
  have hcommit : ∀ s key v, y = x.commit t s key v →
      Moves x t y ∧ y.history = x.history.tick ∧
        ∀ w ∈ y.writes, w ∈ x.writes ∨ w.time = x.history.clock := by
    rintro s key v rfl
    refine ⟨moves_commit .., rfl, fun w hw => ?_⟩
    rcases List.mem_cons.mp hw with rfl | hw
    · exact Or.inr rfl
    · exact Or.inl hw
  cases h with
  | update address record value hpc hr h => exact hcommit _ _ _ h
  | publish slot expected newAddress record hpc hslot hr h => exact hcommit _ _ _ h
  | move pc hx hpc h => exact hgoto _ _ h
  | look slot pc hx h => exact hgoto _ _ h
  | extend i hpc h => exact hgoto _ _ h
  | install slot hpc hfree h => exact hgoto _ _ h
  | back slot hpc h => exact hgoto _ _ h
  | confirm slot hpc h => exact hgoto _ _ h
  | erase slot hpc h => exact hgoto _ _ h
  | construct slot expected address value hpc h => exact hgoto _ _ h
  | discard slot expected newAddress record hpc hr h => exact hgoto _ _ h

theorem carries_of_effect (hs : Sound L x.store) (hk : (x.pc t).Knows L x.store op)
    (h : Effect L x t op y) : Carries x y := by
  cases h with
  | move pc hx hpc h => subst h; exact .of_log rfl rfl fun _ hw => hw
  | look slot pc hx h => subst h; exact .of_log rfl rfl fun _ hw => hw
  | extend i hpc h => subst h; exact .of_log rfl rfl fun _ hw => hw
  | install slot hpc hfree h => subst h; exact .of_log rfl rfl fun _ hw => hw
  | back slot hpc h => subst h; exact .of_log rfl rfl fun _ hw => hw
  | confirm slot hpc h => subst h; exact .of_log rfl rfl fun _ hw => hw
  | erase slot hpc h => subst h; exact .of_log rfl rfl fun _ hw => hw
  | publish slot expected newAddress record hpc hslot hr h =>
      subst h
      exact .of_log rfl rfl fun _ hw => List.mem_cons_of_mem _ hw
  | update address record value hpc hr h =>
      subst h
      rw [hpc] at hk
      obtain ⟨r, hr', hkey⟩ := hk
      rw [hr] at hr'
      cases hr'
      refine ⟨grows_update hr rfl rfl, fun a r r' hr₁ hr₂ => ?_,
        fun _ hw => List.mem_cons_of_mem _ hw⟩
      change Function.update x.store.log address _ a = some r' at hr₂
      by_cases ha : a = address
      · subst a
        rw [Function.update_self] at hr₂
        rw [hr] at hr₁
        cases hr₁
        cases hr₂
        rw [hkey]
        exact Or.inr List.mem_cons_self
      · rw [Function.update_of_ne ha, hr₁] at hr₂
        cases hr₂
        exact Or.inl rfl
  | construct slot expected address value hpc h =>
      subst h
      have hfree := hs.free _ (tailAddress_le_blockAllocate x.store)
      refine ⟨grows_constructRecord hs (tailAddress_le_blockAllocate _) _,
        fun a r r' hr₁ hr₂ => ?_, fun _ hw => hw⟩
      have hsame := (constructRecord_log hfree ⟨r, hr₁⟩).symm.trans hr₂
      rw [hr₁] at hsame
      cases hsame
      exact Or.inl rfl
  | discard slot expected newAddress record hpc hr h =>
      subst h
      refine ⟨grows_update hr rfl rfl, fun a r r' hr₁ hr₂ => ?_, fun _ hw => hw⟩
      change Function.update x.store.log newAddress _ a = some r' at hr₂
      by_cases ha : a = newAddress
      · subst a
        rw [Function.update_self] at hr₂
        rw [hr] at hr₁
        cases hr₁
        cases hr₂
        exact Or.inl rfl
      · rw [Function.update_of_ne ha, hr₁] at hr₂
        cases hr₂
        exact Or.inl rfl

/-- What is in a slot of the new store was there before, or has been put there. -/
theorem inSlot_of_replaceEntry {s : Store K} {b b' i j : Nat} {e : HashBucketEntry}
    {new : Option HashBucketEntry} (h : InSlot ((replaceEntry s b i new).buckets b') j e) :
    b' = b ∧ j = i ∧ new = some e ∨ InSlot (s.buckets b') j e := by
  by_cases hlen : i < (s.buckets b).length
  · rcases (inSlot_replaceEntry_iff hlen).mp h with hnew | ⟨-, hold⟩
    · exact Or.inl hnew
    · exact Or.inr hold
  · rw [replaceEntry, List.set_eq_of_length_le (Nat.not_lt.mp hlen), setBucket_self] at h
    exact Or.inr h

theorem inSlot_extend_iff {s : Store K} {b b' n j : Nat} {e : HashBucketEntry} :
    InSlot ((setBucket s b (s.buckets b ++ List.replicate n none)).buckets b') j e ↔
      InSlot (s.buckets b') j e := by
  by_cases hb : b' = b
  · subst b'
    rw [setBucket_same]
    exact inSlot_append_iff
  · rw [setBucket_of_ne hb]

theorem Sound.effect (hs : Sound L x.store) (hk : (x.pc t).Knows L x.store op)
    (h : Effect L x t op y) : Sound L y.store := by
  have hslots : ∀ {i : Nat} {new : Option HashBucketEntry},
      (∀ e, new = some e → ∃ l, Linked L x.store (L.idx op.key) e.tag e.address l) →
      Sound L (replaceEntry x.store (L.idx op.key) i new) := by
    intro i new hnew
    refine hs.of_log rfl rfl rfl rfl fun b' j e he => ?_
    rcases inSlot_of_replaceEntry he with ⟨rfl, rfl, hne⟩ | he
    · exact Or.inr (hnew e hne)
    · exact Or.inl he
  cases h with
  | move pc hx hpc h => subst h; exact hs
  | look slot pc hx h => subst h; exact hs
  | extend i hpc h =>
      subst h
      exact hs.of_log rfl rfl rfl rfl fun b j e he => Or.inl (inSlot_extend_iff.mp he)
  | install slot hpc hfree h =>
      subst h
      refine hslots ?_
      rintro e ⟨⟩
      exact ⟨[], .nil hs.head⟩
  | back slot hpc h => subst h; exact hslots nofun
  | confirm slot hpc h =>
      subst h
      refine hslots ?_
      rintro e ⟨⟩
      exact ⟨[], .nil hs.head⟩
  | erase slot hpc h => subst h; exact hslots nofun
  | publish slot expected newAddress record hpc hslot hr h =>
      subst h
      refine hslots ?_
      rintro e ⟨⟩
      rw [hpc] at hk
      obtain ⟨⟨-, htag, l, hl⟩, r, hr', hkey, hprev, hlt, hle⟩ := hk
      exact ⟨_, hl.push hr' hprev hlt hle (by rw [hkey]) (by rw [hkey])⟩
  | update address record value hpc hr h => subst h; exact hs.update hr rfl rfl
  | construct slot expected address value hpc h =>
      subst h
      exact hs.constructRecord (tailAddress_le_blockAllocate _) _
  | discard slot expected newAddress record hpc hr h => subst h; exact hs.update hr rfl rfl

theorem Entries.effect (he : Entries L x) (hk : (x.pc t).Knows L x.store op)
    (hrunning : x.history.running t = some (op, called))
    (hspares : ∀ slot, x.pc t = .erasing slot →
      SparesOthers x.store op.key (x.store.buckets (L.idx op.key))[slot]?)
    (h : Effect L x t op y) : Entries L y := by
  have hnone : ∀ {pc : Pc}, x.pc t = pc → pc.slot = none → ∀ j k, ¬ (x.pc t).Sees j k := by
    intro pc hpc hslot j k hs
    have := hs.slot
    rw [hpc, hslot] at this
    cases this
  -- the slot of a thread that has installed an entry is its own
  have hown : ∀ {i : Nat}, (x.pc t).slot = some i →
      InSlot (x.store.buckets (L.idx op.key)) i ⟨kInvalidAddress, L.tag op.key, true⟩ ∧
        ∀ u, u ≠ t → ¬ Owns L x u (L.idx op.key, i) := by
    intro i hi
    refine ⟨he.held t op called i hrunning hi, fun u hu howns => hu ?_⟩
    exact he.exclusive howns ⟨op, called, hrunning, rfl, hi⟩
  cases h with
  | move pc hx hpc h =>
      subst h
      exact he.keep_free (moves_goto ..).both (fun _ _ _ => Iff.rfl) (fun _ _ _ => hx)
        (by rw [goto_pc_self]; exact hpc)
  | look slot pc hx h =>
      subst h
      refine he.keep (moves_goto ..) hrunning (fun _ _ _ => Iff.rfl) (Or.inr ?_) ?_ ?_
      · rw [goto_pc_self]
        rcases hx with ⟨hpc, tag, rfl, -⟩ | ⟨tag, i, hpc, ⟨rfl, -⟩ | rfl | ⟨rfl, -⟩⟩
        all_goals
          rw [hpc]
          rfl
      · rw [goto_pc_self]
        rintro i tag k rfl
        rcases hx with ⟨hpc, tag', heq, htag⟩ | ⟨tag', j, hpc, ⟨heq, -⟩ | heq | ⟨heq, -⟩⟩
        · cases heq
          exact htag _ (hown (by rw [hpc]; rfl)).1
        · cases heq
        · cases heq
        · cases heq
          exact he.tagged t op called _ _ _ hrunning hpc
      · rw [goto_pc_self]
        intro i j e e' hi hj hij htag hsees
        rcases hx with ⟨hpc, tag', rfl, -⟩ | ⟨tag', k, hpc, ⟨rfl, hend⟩ | rfl | ⟨rfl, hpass⟩⟩
        · rw [hpc] at hsees
          exact ⟨hsees, Nat.zero_le _⟩
        · rw [hpc] at hsees
          have hlen := hj.lt_length
          rw [List.getElem?_eq_none_iff] at hend
          have := hsees.2
          omega
        · rw [hpc] at hsees
          exact hsees.1
        · rw [hpc] at hsees
          obtain ⟨rfl, hle⟩ := hsees
          refine ⟨rfl, Nat.lt_of_le_of_ne hle ?_⟩
          rintro rfl
          have htag' := he.tagged t op called _ _ _ hrunning hpc
          rw [hi.unique (hown (by rw [hpc]; rfl)).1] at htag
          exact hij (hpass e' hj (htag.symm.trans htag'.symm))
  | extend i hpc h =>
      subst h
      exact he.keep_free (moves_goto ..).both (fun _ _ _ => inSlot_extend_iff)
        (fun _ _ _ => by rw [hpc]; rfl) (by rw [goto_pc_self]; rfl)
  | install slot hpc hfree h =>
      subst h
      refine he.install (moves_goto ..) hrunning (fun e hin => ?_)
        (slotSet_goto (lt_length_of_free hfree)) (by rw [hpc]; rfl) (goto_pc_self ..)
      have heq := hfree.symm.trans hin
      cases heq
  | back slot hpc h =>
      subst h
      obtain ⟨hin, hothers⟩ := hown (by rw [hpc]; rfl)
      refine he.set (moves_goto ..) (slotSet_goto hin.lt_length) hothers nofun ?_
        (by rw [goto_pc_self]; rfl)
      intro op' called' hr j k hs
      rw [hrunning] at hr
      cases hr
      rw [hpc] at hs
      exact ⟨rfl, hs.symm, rfl⟩
  | confirm slot hpc h =>
      subst h
      obtain ⟨hin, hothers⟩ := hown (by rw [hpc]; rfl)
      refine he.set (moves_goto ..) (slotSet_goto hin.lt_length) hothers ?_ ?_
        (by rw [goto_pc_self]; rfl)
      · rintro e ⟨⟩
        exact ⟨_, hin, rfl⟩
      · intro _ _ _ j k hs
        rw [hpc] at hs
        exact hs.elim
  | update address record value hpc hr h =>
      subst h
      exact he.keep_free (moves_commit ..).both (fun _ _ _ => Iff.rfl)
        (fun _ _ _ => by rw [hpc]; rfl) (by rw [commit_pc_self]; rfl)
  | erase slot hpc h =>
      subst h
      by_cases hlen : slot < (x.store.buckets (L.idx op.key)).length
      · refine he.set (moves_goto ..) (slotSet_goto hlen) (fun u _ => ?_) nofun
          (fun _ _ _ j k hs => absurd hs (hnone hpc rfl j k)) (by rw [goto_pc_self]; rfl)
        refine he.not_owns (fun e hin => ?_) u
        have hspare := hspares slot hpc
        rw [show (x.store.buckets (L.idx op.key))[slot]? = some (some e) from hin] at hspare
        exact hspare.1
      · refine he.keep_free (moves_goto ..).both (fun b i e => ?_)
          (fun _ _ _ => by rw [hpc]; rfl) (by rw [goto_pc_self]; rfl)
        change InSlot ((replaceEntry x.store _ slot none).buckets b) i e ↔ _
        rw [replaceEntry, List.set_eq_of_length_le (Nat.not_lt.mp hlen), setBucket_self]
  | construct slot expected address value hpc h =>
      subst h
      exact he.keep_free (moves_goto ..).both (fun _ _ _ => Iff.rfl)
        (fun _ _ _ => by rw [hpc]; rfl) (by rw [goto_pc_self]; rfl)
  | publish slot expected newAddress record hpc hslot hr h =>
      subst h
      rw [hpc] at hk
      obtain ⟨hexp, -⟩ := hk
      refine he.set (moves_commit ..) (fun _ _ _ => inSlot_replaceEntry_iff hslot.lt_length)
        (fun u _ => he.not_owns (fun e hin => ?_) u) ?_
        (fun _ _ _ j k hs => absurd hs (hnone hpc rfl j k)) (by rw [commit_pc_self]; rfl)
      · rw [hin.unique hslot]
        exact hexp.final
      · rintro e ⟨⟩
        exact ⟨expected, hslot, hexp.tag⟩
  | discard slot expected newAddress record hpc hr h =>
      subst h
      exact he.keep_free (moves_goto ..).both (fun _ _ _ => Iff.rfl)
        (fun _ _ _ => by rw [hpc]; rfl) (by rw [goto_pc_self]; rfl)

/-- The first record of a key stays the first, unless a new one is put in front. -/
theorem FoundAt.effect [DecidableEq K] (hf : FoundAt L x.store key slot a) (hs : Sound L x.store)
    (he : Entries L x) (hk : (x.pc t).Knows L x.store op)
    (hrunning : x.history.running t = some (op, called))
    (hspares : ∀ slot, x.pc t = .erasing slot →
      SparesOthers x.store op.key (x.store.buckets (L.idx op.key))[slot]?)
    (hdeletes : ¬ op.Deletes key) (h : Effect L x t op y) :
    FoundAt L y.store key slot a ∨
      ∃ a', FoundAt L y.store key slot a' ∧ Recent y key x.history.clock a' := by
  have hc := carries_of_effect hs hk h
  -- it is another slot that is changed
  have hset : ∀ {i : Nat} {new : Option HashBucketEntry},
      (∀ e l, InSlot (x.store.buckets (L.idx op.key)) i e → e.tentative = false →
        Linked L x.store (L.idx key) (L.tag key) e.address l →
        firstOf Record.key x.store.log key l = some a → False) →
      FoundAt L (replaceEntry x.store (L.idx op.key) i new) key slot a := by
    intro i new hother
    obtain ⟨e, l, hin, htag, hfinal, hl, hfirst⟩ := hf
    refine ⟨e, l, ?_, htag, hfinal, hl.grows (.of_log rfl rfl), hfirst⟩
    by_cases hlen : i < (x.store.buckets (L.idx op.key)).length
    · refine (inSlot_replaceEntry_iff hlen).mpr (Or.inr ⟨?_, hin⟩)
      rintro ⟨hidx, rfl⟩
      exact hother e l (hidx ▸ hin) hfinal hl hfirst
    · rwa [replaceEntry, List.set_eq_of_length_le (Nat.not_lt.mp hlen), setBucket_self]
  have hown : ∀ {i : Nat} {new : Option HashBucketEntry}, (x.pc t).slot = some i →
      FoundAt L (replaceEntry x.store (L.idx op.key) i new) key slot a := by
    intro i new hi
    refine hset fun e l hin hfinal _ _ => ?_
    rw [hin.unique (he.held t op called i hrunning hi)] at hfinal
    cases hfinal
  cases h with
  | move pc hx hpc h => subst h; exact Or.inl (hf.grows hc.grows fun _ _ hin => hin)
  | look slot pc hx h => subst h; exact Or.inl (hf.grows hc.grows fun _ _ hin => hin)
  | extend i hpc h =>
      subst h
      exact Or.inl (hf.grows hc.grows fun _ _ hin => inSlot_extend_iff.mpr hin)
  | install slot hpc hfree h =>
      subst h
      refine Or.inl (hset fun e l hin _ _ _ => ?_)
      have heq := hfree.symm.trans hin
      cases heq
  | back slot hpc h =>
      subst h
      exact Or.inl (hown (by rw [hpc]; rfl))
  | confirm slot hpc h =>
      subst h
      exact Or.inl (hown (by rw [hpc]; rfl))
  | update address record value hpc hr h =>
      subst h
      exact Or.inl (hf.grows hc.grows fun _ _ hin => hin)
  | erase slot hpc h =>
      subst h
      refine Or.inl (hset fun e l hin _ hl hfirst => ?_)
      have hspare := hspares slot hpc
      rw [show (x.store.buckets (L.idx op.key))[slot]? = some (some e) from hin] at hspare
      obtain ⟨r, hr, rfl⟩ := firstOf_key hfirst
      have hmem := mem_recordsFrom hl.chain (Nat.lt_succ_self _) (firstOf_mem hfirst) hr
      rw [hpc] at hk
      rw [hspare.2 r hmem] at hdeletes
      exact hdeletes hk
  | construct slot expected address value hpc h =>
      subst h
      exact Or.inl (hf.grows hc.grows fun _ _ hin => hin)
  | publish slot expected newAddress record hpc hslot hr h =>
      subst h
      rw [hpc] at hk
      obtain ⟨hexp, r, hr', hkey, hprev, hlt, hle⟩ := hk
      rw [hr] at hr'
      cases hr'
      have hset : SlotSet x (x.commit t (replaceEntry x.store (L.idx op.key) slot
          (some ⟨newAddress, L.tag op.key, false⟩)) op.key record.value) (L.idx op.key) slot
          (some ⟨newAddress, L.tag op.key, false⟩) :=
        fun _ _ _ => inSlot_replaceEntry_iff hslot.lt_length
      rcases hf.push hset rfl rfl hslot hexp.tag hr hkey hprev hlt hle with hf | ⟨heq, hf⟩
      · exact Or.inl hf
      · exact Or.inr ⟨newAddress, hf, record, hr, hkey.trans heq,
          ⟨op.key, record.value, x.history.clock⟩, List.mem_cons_self, heq, rfl, Nat.le_refl _⟩
  | discard slot expected newAddress record hpc hr h =>
      subst h
      exact Or.inl (hf.grows hc.grows fun _ _ hin => hin)

end Keep

end HashComp.Interleaved
