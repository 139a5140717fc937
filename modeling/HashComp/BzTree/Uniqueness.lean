import HashComp.BzTree.Layout

namespace HashComp.BzTree

open HashComp.ByteMemory
open HashComp.Runs
open HashComp.Threads

def BaseNode.visibleKey (n : BaseNode) (i : Nat) : Option (List Byte) :=
  n.getKey (n.recordMetadata i)

/-- No two visible entries have keys that compare equal. -/
def LeafUnique (n : BaseNode) : Prop :=
  ∀ i j key key', n.visibleKey i = some key → n.visibleKey j = some key' →
    keyCompare (some key) (some key') = 0 → i = j

/-- A leaf as the threads may find it: new, or filled with records of different keys. -/
structure BuiltLeaf (parameters : ParameterSet) where
  node : BaseNode
  laid : Laid parameters node fun _ => none
  unique : LeafUnique node

def Harmless (n : BaseNode) (threads : Nat → Option LeafPc) (i : Nat) (key : List Byte) : Prop :=
  n.visibleKey i ≠ some key ∧
    ∀ t l k r, threads t = some l → l.reserved? = some (k, r) → r.slot = i → r.offset ≠ 0 →
      k.bytes ≠ key

/-- A thread leaves the second loop of `RecheckUnique` only when the entries that it has
noted have come to nothing for its key. -/
def Careful (s : System BaseNode LeafPc LeafOp ReturnCode) : Action LeafOp → Prop
  | .run t =>
      match s.threads t with
      | some (.insert key _ (.whileCheck _ checkIdx 0)) =>
          ∀ i ∈ checkIdx, Harmless s.shared s.threads i key.bytes
      | _ => True
  | _ => True

section Entries

variable {parameters : ParameterSet} {n n' : BaseNode} {threads : Nat → Option LeafPc} {t i : Nat}
  {l l' : LeafPc} {key : List Byte}

theorem visibleKey_eq_some_iff : n.visibleKey i = some key ↔ ∃ offset len,
    n.recordMetadata i = .record true offset key.length len ∧
      readBytes n.data offset key.length = key := by
  rw [BaseNode.visibleKey]
  constructor
  · intro h
    cases hm : n.recordMetadata i with
    | vacant => simp [hm, BaseNode.getKey] at h
    | inserting => simp [hm, BaseNode.getKey] at h
    | record v offset keyLength len =>
        cases v with
        | false => simp [hm, BaseNode.getKey] at h
        | true =>
            simp only [hm, BaseNode.getKey, Option.some.injEq] at h
            have hlen : key.length = keyLength := by rw [← h, readBytes_length]
            rw [hlen]
            exact ⟨offset, len, rfl, h⟩
  · rintro ⟨offset, len, hm, hk⟩
    rw [hm, BaseNode.getKey, hk]

/-- An entry becomes visible only when the thread that has reserved it publishes it. -/
theorem Laid.visibleKey_of_change (h : Laid parameters n threads) (hl : threads t = some l)
    (hc : Change parameters n l n' l')
    (hwritten : ∀ k payload r s, l = .insert k payload (.finalize r s) → r.offset ≠ 0 →
      readBytes n.data r.place k.bytes.length = k.bytes)
    (hnew : n'.visibleKey i = some key) :
    n.visibleKey i = some key ∨ ∃ k payload r s, l = .insert k payload (.finalize r s) ∧
      r.slot = i ∧ r.offset ≠ 0 ∧ k.bytes = key := by
  obtain ⟨offset, len, hm, hk⟩ := visibleKey_eq_some_iff.mp hnew
  cases hc with
  | quiet | freeze => exact Or.inl hnew
  | reserve =>
      rcases eq_or_ne i n.status.recordCount with rfl | hne
      · cases setMetadata_self.symm.trans hm
      · exact Or.inl (visibleKey_eq_some_iff.mpr
          ⟨offset, len, (setMetadata_of_ne hne).symm.trans hm, hk⟩)
  | @write _ k r r' data hlr hr hsame hdata =>
      have hm' : n.recordMetadata i = .record true offset key.length len := hm
      obtain ⟨hpad, hpos⟩ := h.records.lengths i _ _ _ _ hm'
      have hne : i ≠ r.slot := by
        rintro rfl
        rw [(h.reserved t l k r hl hlr).1] at hm'
        cases hm'
      have hapart := h.apart i r.slot offset len r.place k.totalSize (.record hm' (hpos rfl))
        (.owner hl hlr rfl rfl rfl) hne
      have hle := le_padKeyLength key.length
      refine Or.inl (visibleKey_eq_some_iff.mpr ⟨offset, len, hm', ?_⟩)
      refine (readBytes_congr fun x hlo hhi => (hdata x ?_).symm).trans hk
      rcases hapart with hap | hap
      · exact Or.inl (by omega)
      · exact Or.inr (by omega)
  | @finalize _ k r hlr hpc hopen hr =>
      obtain ⟨payload, s, hpc⟩ := hpc
      rcases eq_or_ne i r.slot with rfl | hne
      · obtain ⟨hvisible, rfl, hlen, -⟩ := RecordMetadata.record.inj (setMetadata_self.symm.trans hm)
        have hoff : r.offset ≠ 0 := of_decide_eq_true hvisible
        have hplace := ((h.reserved t l k r hl hlr).2.1).resolve_right hoff
        refine Or.inr ⟨k, payload, r, s, hpc, rfl, hoff, ?_⟩
        rw [← hwritten k payload r s hpc hoff, hlen, ← hplace]
        exact hk
      · exact Or.inl (visibleKey_eq_some_iff.mpr
          ⟨offset, len, (setMetadata_of_ne hne).symm.trans hm, hk⟩)
  | @update _ j o kl tl w hlr hopen hmj hr =>
      have hm' : n.recordMetadata i = .record true offset key.length len := hm
      obtain ⟨hpad, hpos⟩ := h.records.lengths i _ _ _ _ hm'
      obtain ⟨hpadj, hposj⟩ := h.records.lengths j _ _ _ _ hmj
      have hle := le_padKeyLength key.length
      refine Or.inl (visibleKey_eq_some_iff.mpr ⟨offset, len, hm', Eq.trans ?_ hk⟩)
      refine (readBytes_of_apart ?_).symm
      rw [bytesOf_length]
      rcases eq_or_ne i j with rfl | hne
      · rw [hm'] at hmj
        cases hmj
        exact Or.inr (by omega)
      · rcases h.apart i j offset len o tl (.record hm' (hpos rfl)) (.record hmj (hposj rfl)) hne with
          hap | hap
        · exact Or.inr (by omega)
        · exact Or.inl (by omega)
  | @delete _ j o kl tl d hlr hopen hmj hr =>
      rcases eq_or_ne i j with rfl | hne
      · cases setMetadata_self.symm.trans hm
      · exact Or.inl (visibleKey_eq_some_iff.mpr
          ⟨offset, len, (setMetadata_of_ne hne).symm.trans hm, hk⟩)

end Entries

section Knowledge

def Clean (n : BaseNode) (threads : Nat → Option LeafPc) (key : List Byte) (b : Nat) : Prop :=
  ∀ i, i < b → Harmless n threads i key

def Noted (n : BaseNode) (threads : Nat → Option LeafPc) (key : List Byte) (checkIdx : List Nat)
    (b : Nat) : Prop :=
  ∀ i, i < b → Harmless n threads i key ∨ i ∈ checkIdx

def Search.pos : Search → Nat
  | .sorted i | .bound i | .linear i => i

def Search.Ok (n : BaseNode) : Search → Prop
  | .sorted _ => True
  | .bound i => n.sortedCount ≤ i
  | .linear i => n.sortedCount ≤ i ∧ i < n.status.recordCount

def Checked (n : BaseNode) (threads : Nat → Option LeafPc) (key : List Byte) (recheck : Bool)
    (slot : Nat) : Prop :=
  slot ≤ n.status.recordCount ∧
    Clean n threads key (if recheck then n.sortedCount else slot)

variable (n : BaseNode) (threads : Nat → Option LeafPc) (key : List Byte)

def InsertPc.Knows : InsertPc → Prop
  | .retry => True
  | .checking expected s => expected.recordCount ≤ n.status.recordCount ∧
      s.pos ≤ n.status.recordCount ∧ s.Ok n ∧ Clean n threads key s.pos
  | .readMeta expected u | .reserve expected u =>
      Checked n threads key (u = .reCheck) expected.recordCount
  | .copy r | .clear r => Checked n threads key r.recheck r.slot
  | .recheckStatus r | .recheckBound r =>
      r.recheck = true ∧ Checked n threads key r.recheck r.slot
  | .scan r i linearEnd checkIdx => r.recheck = true ∧ Checked n threads key r.recheck r.slot ∧
      r.slot ≤ linearEnd ∧ Noted n threads key checkIdx (min i r.slot)
  | .whileCheck r checkIdx _ | .forCheck r checkIdx _ _ =>
      r.recheck = true ∧ Checked n threads key r.recheck r.slot ∧
        Noted n threads key checkIdx r.slot
  | .readStatus r | .finalize r _ => Checked n threads key r.recheck r.slot ∧
      (r.offset ≠ 0 → Clean n threads key r.slot)

end Knowledge

section Unmet

variable {parameters : ParameterSet} {n : BaseNode} {threads : Nat → Option LeafPc} {i : Nat}
  {k : List Byte}

/-- An entry that is not being inserted and does not have the key is harmless. -/
theorem Laid.harmless (h : Laid parameters n threads) (hins : n.recordMetadata i ≠ .inserting)
    (hk : n.visibleKey i ≠ some k) : Harmless n threads i k := by
  refine ⟨hk, fun t l key r hl hr hi _ => ?_⟩
  have := (h.reserved t l key r hl hr).1
  rw [hi] at this
  exact absurd this hins

theorem keyCompare_getKey_eq_zero_iff {m : RecordMetadata} :
    keyCompare (some k) (n.getKey m) = 0 ↔ n.getKey m = some k := by
  cases hm : n.getKey m with
  | none => simp [keyCompare]
  | some k' =>
      rw [keyCompare_eq_zero_iff, Option.some.injEq]
      exact eq_comm

theorem getKey_isVisible {m : RecordMetadata} (h : n.getKey m = some k) :
    m.isVisible = true ∧ m.keyLength = k.length := by
  cases m with
  | vacant => cases h
  | inserting => cases h
  | record v offset keyLength len =>
      cases v with
      | false => cases h
      | true =>
          refine ⟨rfl, ?_⟩
          rw [← Option.some.inj h, readBytes_length]
          rfl

/-- `check_metadata` finds an entry unique only when it is harmless, and asks for another
check only when it is being inserted. -/
theorem checkMetadata_cases : (checkMetadata n k (n.recordMetadata i) = .duplicate) ∨
    (checkMetadata n k (n.recordMetadata i) = .reCheck ∧ n.recordMetadata i = .inserting) ∨
    (checkMetadata n k (n.recordMetadata i) = .isUnique ∧ n.recordMetadata i ≠ .inserting ∧
      n.visibleKey i ≠ some k) := by
  rw [checkMetadata]
  split
  · rename_i hins
    exact Or.inr (Or.inl ⟨rfl, of_decide_eq_true hins⟩)
  · rename_i hins
    have hne : n.recordMetadata i ≠ .inserting := fun he => hins (decide_eq_true he)
    split
    · rename_i hhidden
      refine Or.inr (Or.inr ⟨rfl, hne, fun hk => ?_⟩)
      have hvisible := (getKey_isVisible hk).1
      rcases hhidden with hv | hv
      · rw [of_decide_eq_true hv] at hvisible
        cases hvisible
      · rw [hv] at hvisible
        cases hvisible
    · split
      · exact Or.inl rfl
      · rename_i hno
        refine Or.inr (Or.inr ⟨rfl, hne, fun hk => hno ?_⟩)
        exact ⟨(getKey_isVisible hk).2.symm, keyCompare_getKey_eq_zero_iff.mpr hk⟩

/-- The search passes harmless entries until it finds the key or an entry that is being
inserted. -/
theorem Laid.searchStep_knows (h : Laid parameters n threads) {s : Search}
    (hpos : s.pos ≤ n.status.recordCount) (hs : s.Ok n) (hclean : Clean n threads k s.pos) :
    match searchStep n k s with
    | .going s' => s'.pos ≤ n.status.recordCount ∧ s'.Ok n ∧ Clean n threads k s'.pos
    | .missing => Clean n threads k n.status.recordCount
    | .found _ m => checkUnique n k m = some .duplicate ∨
        checkUnique n k m = some .reCheck ∧ Clean n threads k n.sortedCount := by
  have hsorted := h.records.sorted
  -- one more entry
  have hsucc : ∀ i, Clean n threads k i → n.recordMetadata i ≠ .inserting →
      n.visibleKey i ≠ some k → Clean n threads k (i + 1) := by
    intro i hc hins hk j hj
    rcases Nat.eq_or_lt_of_le (Nat.le_of_lt_succ hj) with rfl | hlt
    · exact h.harmless hins hk
    · exact hc j hlt
  have hduplicate : ∀ m, m.isVisible = true → keyCompare (some k) (n.getKey m) = 0 →
      checkUnique n k m = some .duplicate := by
    intro m hv hcmp
    have hins : ¬ m.isInserting = true := fun hins => by
      rw [of_decide_eq_true hins] at hv
      cases hv
    rw [checkUnique, if_neg hins, if_pos hv, if_pos hcmp]
  cases s with
  | sorted i =>
      simp only [searchStep]
      split
      · rename_i heq
        split at heq
        · rename_i hlt
          split at heq
          · split at heq
            · cases heq
            · rename_i hcmp hv
              exact absurd (getKey_isVisible (keyCompare_getKey_eq_zero_iff.mp hcmp)).1 hv
          · rename_i hcmp
            cases heq
            exact ⟨Nat.le_trans hlt hsorted, trivial, hsucc i hclean (h.records.settled i hlt)
              fun hk => hcmp (keyCompare_getKey_eq_zero_iff.mpr hk)⟩
        · rename_i hge
          cases heq
          exact ⟨hsorted, Nat.le_refl _, fun j hj =>
            hclean j (Nat.lt_of_lt_of_le hj (Nat.le_of_not_lt hge))⟩
      · rename_i heq
        split at heq
        · split at heq
          · split at heq <;> cases heq
          · cases heq
        · cases heq
      · rename_i heq
        split at heq
        · split at heq
          · split at heq
            · rename_i hcmp hv
              cases heq
              exact Or.inl (hduplicate _ hv hcmp)
            · cases heq
          · cases heq
        · cases heq
  | bound i =>
      simp only [searchStep]
      split
      · rename_i heq
        split at heq
        · rename_i hlt
          cases heq
          exact ⟨hpos, ⟨hs, hlt⟩, hclean⟩
        · cases heq
      · rename_i heq
        split at heq
        · cases heq
        · rename_i hge
          exact fun j hj => hclean j (Nat.lt_of_lt_of_le hj (Nat.le_of_not_lt hge))
      · rename_i heq
        split at heq <;> cases heq
  | linear i =>
      simp only [searchStep]
      split
      · rename_i heq
        split at heq
        · cases heq
        · rename_i hins
          split at heq
          · cases heq
          · rename_i hno
            cases heq
            refine ⟨hs.2, Nat.le_succ_of_le hs.1, hsucc i hclean
              (fun he => hins (decide_eq_true he)) fun hk => hno ?_⟩
            obtain ⟨hv, hlen⟩ := getKey_isVisible hk
            exact ⟨hv, hlen, keyCompare_getKey_eq_zero_iff.mpr hk⟩
      · rename_i heq
        split at heq
        · cases heq
        · split at heq <;> cases heq
      · rename_i heq
        split at heq
        · rename_i hins
          cases heq
          refine Or.inr ⟨by rw [checkUnique, if_pos hins], fun j hj => hclean j ?_⟩
          exact Nat.lt_of_lt_of_le hj hs.1
        · split at heq
          · rename_i hv
            cases heq
            exact Or.inl (hduplicate _ hv.1 hv.2.2)
          · cases heq

end Unmet

section Step

variable {parameters : ParameterSet} {n n' : BaseNode} {threads threads' : Nat → Option LeafPc}
  {t i : Nat} {l l' : LeafPc} {key : Key} {payload : Word} {pc pc' : InsertPc} {k : List Byte}

theorem Noted.succ {checkIdx checkIdx' : List Nat} {slot : Nat}
    (h : Noted n threads k checkIdx (min i slot)) (hsub : ∀ j ∈ checkIdx, j ∈ checkIdx')
    (hi : Harmless n threads i k ∨ i ∈ checkIdx') : Noted n threads k checkIdx' (min (i + 1) slot) := by
  intro j hj
  rcases Nat.eq_or_lt_of_le (Nat.le_of_lt_succ (Nat.lt_of_lt_of_le hj (Nat.min_le_left ..))) with
    rfl | hlt
  · exact hi
  · exact (h j (by omega)).imp id (hsub j)

theorem Laid.insertStep_knows (h : Laid parameters n threads)
    (hl : threads t = some (.insert key payload pc)) (hk : pc.Knows n threads key.bytes)
    (hcareful : ∀ r checkIdx, pc = .whileCheck r checkIdx 0 →
      ∀ i ∈ checkIdx, Harmless n threads i key.bytes)
    (hgoto : (insertStep parameters n key payload pc).2 = .goto pc') :
    pc'.Knows n threads key.bytes := by
  have hphase : ∀ r, Checked n threads key.bytes r.recheck r.slot →
      (phase2 r).Knows n threads key.bytes := by
    intro r hr
    rw [phase2]
    split
    · exact ⟨‹_›, hr⟩
    · rename_i hno
      have hfalse := Bool.eq_false_iff.mpr hno
      refine ⟨hr, fun _ => ?_⟩
      have hclean := hr.2
      rwa [hfalse, if_neg Bool.false_ne_true] at hclean
  have hspace : ∀ expected u, Checked n threads key.bytes (u = .reCheck) expected.recordCount →
      checkSpace parameters key.totalSize expected u = .goto pc' → pc'.Knows n threads key.bytes := by
    intro expected u hc hgo
    rw [checkSpace] at hgo
    split at hgo
    · cases hgo
    · cases hgo
      exact hc
  cases pc with
  | retry =>
      simp only [insertStep, insertStepWith] at hgoto
      split at hgoto
      · cases hgoto
      · cases hgoto
        exact ⟨Nat.le_refl _, Nat.zero_le _, trivial, fun i hi => absurd hi (Nat.not_lt_zero i)⟩
  | checking expected s =>
      obtain ⟨hexpected, hpos, hs, hclean⟩ := hk
      have hsearch := h.searchStep_knows hpos hs hclean
      simp only [insertStep, insertStepWith] at hgoto
      split at hgoto
      · rename_i heq
        rw [heq] at hsearch
        cases hgoto
        exact ⟨hexpected, hsearch⟩
      · rename_i heq
        rw [heq] at hsearch
        refine hspace _ _ ⟨hexpected, ?_⟩ hgoto
        exact fun i hi => hsearch i (Nat.lt_of_lt_of_le hi hexpected)
      · rename_i heq
        rw [heq] at hsearch
        rcases hsearch with hdup | ⟨hre, hclean⟩
        · rw [hdup] at hgoto
          cases hgoto
        · rw [hre] at hgoto
          refine hspace expected .reCheck ⟨hexpected, ?_⟩ hgoto
          rwa [if_pos (decide_eq_true rfl)]
  | readMeta expected u =>
      simp only [insertStep, insertStepWith] at hgoto
      split at hgoto
      · cases hgoto
        exact hk
      · cases hgoto
        trivial
  | reserve expected u =>
      simp only [insertStep, insertStepWith] at hgoto
      split at hgoto
      · cases hgoto
        exact hk
      · cases hgoto
        trivial
  | copy r =>
      cases hgoto
      exact hphase r hk
  | recheckStatus r =>
      simp only [insertStep, insertStepWith] at hgoto
      split at hgoto
      · cases hgoto
      · cases hgoto
        exact hk
  | recheckBound r =>
      cases hgoto
      have hlt := h.slot_lt hl rfl
      refine ⟨hk.1, hk.2, Nat.le_of_eq (Nat.min_eq_right (Nat.le_of_lt hlt)).symm, fun j hj => ?_⟩
      refine Or.inl (hk.2.2 j ?_)
      rw [hk.1, if_pos rfl]
      exact Nat.lt_of_lt_of_le hj (Nat.min_le_left ..)
  | scan r i linearEnd checkIdx =>
      obtain ⟨hre, hchecked, hend, hnoted⟩ := hk
      simp only [insertStep, insertStepWith] at hgoto
      split at hgoto
      · rcases checkMetadata_cases (n := n) (k := key.bytes) (i := i) with
          hm | ⟨hm, -⟩ | ⟨hm, hins, hkey⟩
        · rw [hm] at hgoto
          cases hgoto
          exact hchecked
        · rw [hm] at hgoto
          cases hgoto
          exact ⟨hre, hchecked, hend, hnoted.succ (fun j hj => List.mem_append_left _ hj)
            (Or.inr (List.mem_append_right _ List.mem_cons_self))⟩
        · rw [hm] at hgoto
          cases hgoto
          exact ⟨hre, hchecked, hend, hnoted.succ (fun _ hj => hj) (Or.inl (h.harmless hins hkey))⟩
      · rename_i hge
        cases hgoto
        refine ⟨hre, hchecked, fun j hj => hnoted j ?_⟩
        omega
  | whileCheck r checkIdx needCheck =>
      obtain ⟨hre, hchecked, hnoted⟩ := hk
      simp only [insertStep, insertStepWith] at hgoto
      split at hgoto
      · rename_i hzero
        subst hzero
        cases hgoto
        refine ⟨hchecked, fun _ j hj => ?_⟩
        rcases hnoted j hj with hj | hj
        · exact hj
        · exact hcareful r checkIdx rfl j hj
      · cases hgoto
        exact ⟨hre, hchecked, hnoted⟩
  | forCheck r checkIdx needCheck i =>
      simp only [insertStep, insertStepWith] at hgoto
      split at hgoto
      · split at hgoto
        · cases hgoto
          exact hk.2.1
        · cases hgoto
          exact ⟨hk.1, hk.2⟩
        · cases hgoto
          exact ⟨hk.1, hk.2⟩
      · cases hgoto
        exact ⟨hk.1, hk.2⟩
  | clear r =>
      cases hgoto
      exact ⟨hk, fun hne => absurd rfl hne⟩
  | readStatus r =>
      simp only [insertStep, insertStepWith] at hgoto
      split at hgoto
      · cases hgoto
      · cases hgoto
        exact hk
  | finalize r s =>
      simp only [insertStep, insertStepWith] at hgoto
      split at hgoto
      · cases hgoto
      · cases hgoto
        exact hphase r hk.1

/-- What an insertion knows stays true while entries that are harmless stay so. -/
theorem InsertPc.Knows.mono (hk : pc.Knows n threads k)
    (hcount : n.status.recordCount ≤ n'.status.recordCount) (hsorted : n'.sortedCount = n.sortedCount)
    (hle : n.sortedCount ≤ n.status.recordCount)
    (hharmless : ∀ i, i < n.status.recordCount → Harmless n threads i k → Harmless n' threads' i k) :
    pc.Knows n' threads' k := by
  have hclean : ∀ b, b ≤ n.status.recordCount → Clean n threads k b → Clean n' threads' k b :=
    fun b hb hc i hi => hharmless i (Nat.lt_of_lt_of_le hi hb) (hc i hi)
  have hnoted : ∀ idx b, b ≤ n.status.recordCount → Noted n threads k idx b →
      Noted n' threads' k idx b :=
    fun idx b hb hc i hi => (hc i hi).imp (hharmless i (Nat.lt_of_lt_of_le hi hb)) id
  have hchecked : ∀ b slot, Checked n threads k b slot → Checked n' threads' k b slot := by
    rintro b slot ⟨hslot, hc⟩
    refine ⟨Nat.le_trans hslot hcount, ?_⟩
    rw [hsorted]
    refine hclean _ ?_ hc
    split
    · exact hle
    · exact hslot
  cases pc with
  | retry => trivial
  | checking expected s =>
      obtain ⟨hexpected, hpos, hs, hc⟩ := hk
      refine ⟨Nat.le_trans hexpected hcount, Nat.le_trans hpos hcount, ?_, hclean _ hpos hc⟩
      cases s with
      | sorted i => trivial
      | bound i => exact Nat.le_trans (Nat.le_of_eq hsorted) hs
      | linear i => exact ⟨Nat.le_trans (Nat.le_of_eq hsorted) hs.1, Nat.lt_of_lt_of_le hs.2 hcount⟩
  | readMeta expected u => exact hchecked _ _ hk
  | reserve expected u => exact hchecked _ _ hk
  | copy r => exact hchecked _ _ hk
  | clear r => exact hchecked _ _ hk
  | recheckStatus r => exact ⟨hk.1, hchecked _ _ hk.2⟩
  | recheckBound r => exact ⟨hk.1, hchecked _ _ hk.2⟩
  | scan r i linearEnd checkIdx =>
      obtain ⟨hre, hc, hend, hn⟩ := hk
      exact ⟨hre, hchecked _ _ hc, hend,
        hnoted _ _ (Nat.le_trans (Nat.min_le_right ..) hc.1) hn⟩
  | whileCheck r checkIdx needCheck =>
      obtain ⟨hre, hc, hn⟩ := hk
      exact ⟨hre, hchecked _ _ hc, hnoted _ _ hc.1 hn⟩
  | forCheck r checkIdx needCheck i =>
      obtain ⟨hre, hc, hn⟩ := hk
      exact ⟨hre, hchecked _ _ hc, hnoted _ _ hc.1 hn⟩
  | readStatus r => exact ⟨hchecked _ _ hk.1, fun hne => hclean _ hk.1.1 (hk.2 hne)⟩
  | finalize r s => exact ⟨hchecked _ _ hk.1, fun hne => hclean _ hk.1.1 (hk.2 hne)⟩

end Step

section Invariant

def InsertPc.copied? : InsertPc → Option Reserved
  | .copy _ => none
  | pc => pc.reserved?

def Written (n : BaseNode) (threads : Nat → Option LeafPc) : Prop :=
  ∀ t key payload pc r, threads t = some (.insert key payload pc) → pc.copied? = some r →
    r.offset ≠ 0 → readBytes n.data r.place key.bytes.length = key.bytes

structure Inv (parameters : ParameterSet) (n : BaseNode) (threads : Nat → Option LeafPc) :
    Prop where
  laid : Laid parameters n threads
  written : Written n threads
  below : ∀ j k, n.visibleKey j = some k → Clean n threads k j
  knows : ∀ t key payload pc, threads t = some (.insert key payload pc) →
    pc.Knows n threads key.bytes

variable {parameters : ParameterSet} {n n' : BaseNode} {threads : Nat → Option LeafPc} {t u i : Nat}
  {l l' : LeafPc} {key : Key} {payload : Word} {pc pc' : InsertPc} {k : List Byte} {r : Reserved}

theorem reserved?_of_copied? (h : pc.copied? = some r) : pc.reserved? = some r := by
  cases pc with
  | copy r => cases h
  | _ => exact h

theorem phase2_copied? : (phase2 r).copied? = some r := by
  rw [phase2]
  split <;> rfl

theorem Laid.place_of_change (h : Laid parameters n threads) (hl : threads t = some l)
    (hc : Change parameters n l n' l') (hu : u ≠ t) {m : LeafPc} (hm : threads u = some m)
    (hr : m.reserved? = some (key, r)) :
    readBytes n'.data r.place key.bytes.length = readBytes n.data r.place key.bytes.length := by
  have hlen : key.bytes.length ≤ key.totalSize :=
    Nat.le_trans (le_padKeyLength _) (Nat.le_add_right _ _)
  cases hc with
  | quiet | reserve | finalize | delete | freeze => rfl
  | @write _ key' r' r'' data hlr _ _ hdata =>
      have hne : r.slot ≠ r'.slot := fun he => hu (h.unique u t m l key key' r r' hm hl hr hlr he)
      have hapart := h.apart r.slot r'.slot _ _ _ _ (.owner hm hr rfl rfl rfl)
        (.owner hl hlr rfl rfl rfl) hne
      refine readBytes_congr fun x hlo hhi => hdata x ?_
      rcases hapart with hap | hap
      · exact Or.inl (by omega)
      · exact Or.inr (by omega)
  | @update _ j o kl tl w _ _ hmj _ =>
      obtain ⟨hpad, hpos⟩ := h.records.lengths j _ _ _ _ hmj
      have hne : r.slot ≠ j := by
        intro he
        have hins := (h.reserved u m key r hm hr).1
        rw [he, hmj] at hins
        cases hins
      have hapart := h.apart r.slot j _ _ _ _ (.owner hm hr rfl rfl rfl) (.record hmj (hpos rfl)) hne
      refine readBytes_of_apart ?_
      rw [bytesOf_length]
      rcases hapart with hap | hap
      · exact Or.inr (by omega)
      · exact Or.inl (by omega)

/-- An insertion that has copied its record has it in place after a step too. -/
theorem insertStep_written
    (hw : ∀ r, pc.copied? = some r → r.offset ≠ 0 →
      readBytes n.data r.place key.bytes.length = key.bytes)
    (hstep : insertStep parameters n key payload pc = (n', .goto pc')) (hr : pc'.copied? = some r)
    (hoff : r.offset ≠ 0) : readBytes n'.data r.place key.bytes.length = key.bytes := by
  cases pc with
  | retry =>
      simp only [insertStep, insertStepWith] at hstep
      split at hstep <;> cases hstep
      cases hr
  | checking expected s =>
      have hspace : ∀ u, (n, checkSpace parameters key.totalSize expected u) ≠ (n', .goto pc') := by
        intro u hgo
        rw [checkSpace] at hgo
        split at hgo <;> cases hgo
        cases hr
      simp only [insertStep, insertStepWith] at hstep
      split at hstep
      · cases hstep
        cases hr
      · exact absurd hstep (hspace _)
      · split at hstep
        · cases hstep
        · exact absurd hstep (hspace _)
        · cases hstep
  | readMeta expected u =>
      simp only [insertStep, insertStepWith] at hstep
      split at hstep <;> cases hstep <;> cases hr
  | reserve expected u =>
      simp only [insertStep, insertStepWith] at hstep
      split at hstep <;> cases hstep <;> cases hr
  | copy r' =>
      cases hstep
      rw [phase2_copied?] at hr
      cases hr
      have hpad := le_padKeyLength key.bytes.length
      refine (readBytes_of_apart ?_).trans readBytes_writeBytes
      exact Or.inr (by omega)
  | recheckStatus r' =>
      simp only [insertStep, insertStepWith] at hstep
      split at hstep <;> cases hstep
      exact hw r hr hoff
  | recheckBound r' =>
      cases hstep
      exact hw r hr hoff
  | scan r' i linearEnd checkIdx =>
      simp only [insertStep, insertStepWith] at hstep
      split at hstep
      · split at hstep <;> cases hstep <;> exact hw r hr hoff
      · cases hstep
        exact hw r hr hoff
  | whileCheck r' checkIdx needCheck =>
      simp only [insertStep, insertStepWith] at hstep
      split at hstep <;> cases hstep <;> exact hw r hr hoff
  | forCheck r' checkIdx needCheck i =>
      have hkeep : ∀ pc₁ : InsertPc, pc₁.copied? = some r' → (n, Outcome.goto pc₁) = (n', .goto pc') →
          readBytes n'.data r.place key.bytes.length = key.bytes := by
        intro pc₁ hpc₁ heq
        obtain ⟨rfl, hpc⟩ := Prod.mk.inj heq
        rw [← Outcome.goto.inj hpc, hpc₁] at hr
        cases hr
        exact hw r rfl hoff
      simp only [insertStep, insertStepWith] at hstep
      split at hstep
      · split at hstep <;> exact hkeep _ rfl hstep
      · exact hkeep _ rfl hstep
  | clear r' =>
      cases hstep
      cases hr
      exact absurd rfl hoff
  | readStatus r' =>
      simp only [insertStep, insertStepWith] at hstep
      split at hstep <;> cases hstep
      exact hw r hr hoff
  | finalize r' s =>
      simp only [insertStep, insertStepWith] at hstep
      split at hstep
      · cases hstep
      · cases hstep
        rw [phase2_copied?] at hr
        cases hr
        exact hw r rfl hoff

theorem Change.recordCount_le (hc : Change parameters n l n' l') :
    n.status.recordCount ≤ n'.status.recordCount ∧ n'.sortedCount = n.sortedCount := by
  cases hc with
  | reserve => exact ⟨Nat.le_succ _, rfl⟩
  | quiet | write | finalize | update | delete | freeze => exact ⟨Nat.le_refl _, rfl⟩

theorem Laid.lt_of_visibleKey (h : Laid parameters n threads) (hk : n.visibleKey i = some k) :
    i < n.status.recordCount := by
  refine Nat.lt_of_not_le fun hle => ?_
  rw [BaseNode.visibleKey, (h.records.slots i).mpr hle] at hk
  cases hk

theorem Harmless.update (h : Harmless n threads i k) {o : Option LeafPc}
    (ho : ∀ m, o = some m → m.reserved? = none) : Harmless n (Function.update threads t o) i k := by
  refine ⟨h.1, fun u m key r hm hr => ?_⟩
  rcases update_eq_some hm with ⟨-, hm⟩ | ⟨-, hm⟩
  · rw [ho m hm] at hr
    cases hr
  · exact h.2 u m key r hm hr

theorem Inv.update (h : Inv parameters n threads) {o : Option LeafPc}
    (ho : ∀ m, o = some m → m.reserved? = none ∧ m.LocalOk parameters)
    (hpc : ∀ key payload pc, o = some (.insert key payload pc) → pc = .retry) :
    Inv parameters n (Function.update threads t o) := by
  have hharmless : ∀ i k, Harmless n threads i k → Harmless n (Function.update threads t o) i k :=
    fun i k hi => hi.update fun m hm => (ho m hm).1
  refine ⟨h.laid.update ho, ?_, fun j k hj i hi => hharmless i k (h.below j k hj i hi), ?_⟩
  · intro u key payload pc r hm hr
    rcases update_eq_some hm with ⟨-, hm⟩ | ⟨-, hm⟩
    · rw [hpc key payload pc hm] at hr
      cases hr
    · exact h.written u key payload pc r hm hr
  · intro u key payload pc hm
    rcases update_eq_some hm with ⟨-, hm⟩ | ⟨-, hm⟩
    · rw [hpc key payload pc hm]
      trivial
    · exact (h.knows u key payload pc hm).mono (Nat.le_refl _) rfl h.laid.records.sorted
        fun i _ hi => hharmless i _ hi

theorem Inv.harmless_of_change (h : Inv parameters n threads) (hl : threads t = some l)
    (hc : Change parameters n l n' l') (hi : i < n.status.recordCount)
    (hharmless : Harmless n threads i k) :
    Harmless n' (Function.update threads t (some l')) i k := by
  refine ⟨fun hk => ?_, fun u m key r hm hr hslot hoff => ?_⟩
  · rcases h.laid.visibleKey_of_change hl hc
      (fun key payload r s hpc => h.written t key payload _ r (hpc ▸ hl) rfl) hk with
      hk | ⟨key, payload, r, s, hpc, hslot, hoff, hkey⟩
    · exact hharmless.1 hk
    · exact hharmless.2 t l key r hl (by rw [hpc]; rfl) hslot hoff hkey
  · rcases update_eq_some hm with ⟨rfl, hl'⟩ | ⟨-, hm⟩
    · cases hl'
      rcases reserved_of_change hc hr with ⟨r', hr', hslot', hoff'⟩ | hnew
      · exact hharmless.2 u l key r' hl hr' (hslot'.trans hslot) (hoff' hoff)
      · omega
    · exact hharmless.2 u m key r hm hr hslot hoff

theorem Inv.step (h : Inv parameters n threads) (hl : threads t = some l)
    (hcareful : ∀ key payload r checkIdx, l = .insert key payload (.whileCheck r checkIdx 0) →
      ∀ i ∈ checkIdx, Harmless n threads i key.bytes) :
    Inv parameters (leafStep parameters n l).1
      (Function.update threads t (some (leafStep parameters n l).2)) := by
  have hok := h.laid.localOk t l hl
  have hc := leafStep_change (n := n) hok
  obtain ⟨hcount, hsorted⟩ := hc.recordCount_le
  have hharmless : ∀ i k, i < n.status.recordCount → Harmless n threads i k →
      Harmless (leafStep parameters n l).1
        (Function.update threads t (some (leafStep parameters n l).2)) i k :=
    fun i k hi => h.harmless_of_change hl hc hi
  -- the place of an insertion after its own step
  have hinsert : ∀ key payload pc', (leafStep parameters n l).2 = .insert key payload pc' →
      ∃ pc, l = .insert key payload pc ∧
        insertStep parameters n key payload pc = ((leafStep parameters n l).1, .goto pc') := by
    intro key payload pc' hl'
    cases l with
    | insert key' payload' pc =>
        cases hs : (insertStep parameters n key' payload' pc).2 with
        | goto pc'' =>
            simp only [leafStep, hs, Outcome.pc] at hl'
            cases hl'
            exact ⟨pc, rfl, Prod.ext rfl hs⟩
        | ret rc =>
            simp only [leafStep, hs, Outcome.pc] at hl'
            cases hl'
        | abort =>
            simp only [leafStep, hs, Outcome.pc] at hl'
            cases hl'
    | update key' payload' pc =>
        cases hs : (updateStep n key' payload' pc).2 <;>
          simp only [leafStep, hs, Outcome.pc] at hl' <;> cases hl'
    | delete key' pc =>
        cases hs : (deleteStep n key' pc).2 <;>
          simp only [leafStep, hs, Outcome.pc] at hl' <;> cases hl'
    | freeze pc =>
        cases hs : (freezeStep n pc).2 <;>
          simp only [leafStep, hs, Outcome.pc] at hl' <;> cases hl'
    | done op rc => cases hl'
    | aborted => cases hl'
  refine ⟨h.laid.change hl hc (leafStep_localOk hok), ?_, fun j k hj i hi => ?_, ?_⟩
  · intro u key payload pc r hm hr hoff
    rcases update_eq_some hm with ⟨rfl, hl'⟩ | ⟨hu, hm⟩
    · obtain ⟨pc', rfl, hstep⟩ := hinsert key payload pc (Option.some.inj hl')
      exact insertStep_written (fun r' => h.written u key payload pc' r' hl) hstep hr hoff
    · have hheld : (LeafPc.insert key payload pc).reserved? = some (key, r) := by
        rw [LeafPc.reserved?, reserved?_of_copied? hr]
        rfl
      rw [h.laid.place_of_change hl hc hu hm hheld]
      exact h.written u key payload pc r hm hr hoff
  · rcases h.laid.visibleKey_of_change hl hc
      (fun key payload r s hpc => h.written t key payload _ r (hpc ▸ hl) rfl) hj with
      hj | ⟨key, payload, r, s, hpc, hslot, hoff, hkey⟩
    · exact hharmless i k (Nat.lt_trans hi (h.laid.lt_of_visibleKey hj)) (h.below j k hj i hi)
    · have hknows := h.knows t key payload _ (hpc ▸ hl)
      rw [← hslot] at hi
      rw [← hkey]
      exact hharmless i _ (Nat.lt_of_lt_of_le hi hknows.1.1) (hknows.2 hoff i hi)
  · intro u key payload pc hm
    rcases update_eq_some hm with ⟨rfl, hl'⟩ | ⟨-, hm⟩
    · obtain ⟨pc', rfl, hstep⟩ := hinsert key payload pc (Option.some.inj hl')
      refine (h.laid.insertStep_knows hl (h.knows u key payload pc' hl) ?_
        (congrArg Prod.snd hstep)).mono hcount hsorted h.laid.records.sorted fun i => hharmless i _
      rintro r checkIdx rfl
      exact hcareful key payload r checkIdx rfl
    · exact (h.knows u key payload pc hm).mono hcount hsorted h.laid.records.sorted
        fun i => hharmless i _

theorem Inv.leafUnique (h : Inv parameters n threads) : LeafUnique n := by
  intro i j key key' hi hj hcmp
  obtain rfl := keyCompare_eq_zero_iff.mp hcmp
  rcases Nat.lt_trichotomy i j with hlt | rfl | hgt
  · exact absurd hi (h.below j key hj i hlt).1
  · rfl
  · exact absurd hj (h.below i key hi j hgt).1

end Invariant

section Runs

variable {parameters : ParameterSet} {s s' : System BaseNode LeafPc LeafOp ReturnCode}

theorem inv_start (start : BuiltLeaf parameters) : Inv parameters start.node fun _ => none := by
  refine ⟨start.laid, nofun, fun j k hj i hi => ⟨fun hk => ?_, nofun⟩, nofun⟩
  exact Nat.ne_of_lt hi (start.unique i j k k hk hj (keyCompare_eq_zero_iff.mpr rfl))

theorem Inv.next {a : Action LeafOp} (h : Inv parameters s.shared s.threads) (hok : Careful s a)
    (hnext : (leafProgram parameters).next s a = some s') : Inv parameters s'.shared s'.threads := by
  rcases Program.next_cases hnext with
    ⟨t, op, rfl, -, rfl⟩ | ⟨t, l, rfl, hl, -, rfl⟩ | ⟨t, op, r, rfl, -, rfl⟩
  · refine h.update (fun m hm => ?_) fun key payload pc hpc => ?_
    · cases hm
      exact ⟨begin_reserved? op, begin_localOk op⟩
    · cases op with
      | insert => exact ((LeafPc.insert.inj (Option.some.inj hpc)).2.2).symm
      | update | delete | freeze => cases hpc
  · refine h.step hl ?_
    rintro key payload r checkIdx rfl
    simpa only [Careful, hl] using hok
  · exact h.update nofun nofun

/-- Where every thread that leaves the second loop of `RecheckUnique` is careful, no two
visible records of a leaf have the same key. -/
theorem leafUnique_of_careful (start : BuiltLeaf parameters)
    (h : Reaches (leafProgram parameters).next Careful (System.start start.node) s) :
    LeafUnique s.shared :=
  (h.invariant (I := fun s => Inv parameters s.shared s.threads) (inv_start start)
    fun _ _ _ hinv hok hnext => hinv.next hok hnext).leafUnique

def BuiltLeaf.new (parameters : ParameterSet) : BuiltLeaf parameters where
  node := BaseNode.new true parameters.leafNodeSize
  laid := laid_new
  unique := nofun

def begins (t count : Nat) (op : LeafOp) : List (Action LeafOp) :=
  .invoke t op :: List.replicate count (.run t)

theorem one_fits : ([1] : List Byte).length ≤ 65520 := by decide

def keyOne : Key := ⟨[1], one_fits⟩
def keyTwo : Key := ⟨[2], by decide⟩

/-- Two threads insert different keys, and the first one publishes its record before the
second one checks again. -/
def differentKeys : List (Action LeafOp) :=
  begins 0 5 (.insert keyOne 0) ++ begins 1 4 (.insert keyTwo 1) ++
    List.replicate 3 (.run 0) ++ List.replicate 10 (.run 1)

def NotesNothing (s : System BaseNode LeafPc LeafOp ReturnCode) : Action LeafOp → Prop
  | .run t =>
      match s.threads t with
      | some (.insert _ _ (.whileCheck _ checkIdx 0)) => checkIdx = []
      | _ => True
  | _ => True

instance : ∀ (s : System BaseNode LeafPc LeafOp ReturnCode) a, Decidable (NotesNothing s a)
  | s, .run t => by
      unfold NotesNothing
      dsimp only
      split <;> infer_instance
  | _, .invoke _ _ | _, .ret _ => .isTrue trivial

theorem leafUnique_differentKeys : ∃ s,
    runActions (leafProgram .default).next (System.start (BuiltLeaf.new .default).node)
      differentKeys = some s ∧
    s.shared.visibleKey 0 = some [1] ∧ s.shared.visibleKey 1 = some [2] ∧ LeafUnique s.shared := by
  have hview : (runActions (leafProgram .default).next (System.start (BuiltLeaf.new .default).node)
      differentKeys).map (fun s => (s.shared.visibleKey 0, s.shared.visibleKey 1)) =
      some (some [1], some [2]) := by
    decide +kernel
  obtain ⟨s, hs, hkeys⟩ := Option.map_eq_some_iff.mp hview
  obtain ⟨h0, h1⟩ := Prod.mk.inj hkeys
  have hadmits : Admits (leafProgram .default).next NotesNothing
      (System.start (BuiltLeaf.new .default).node) differentKeys := by
    decide +kernel
  refine ⟨s, hs, h0, h1, leafUnique_of_careful (BuiltLeaf.new .default)
    ((reaches_of_runActions hadmits hs).mono fun s a hn => ?_)⟩
  cases a with
  | invoke t op => trivial
  | ret t => trivial
  | run t =>
      simp only [NotesNothing] at hn
      simp only [Careful]
      split
      · rename_i heq
        simp only [heq] at hn
        rw [hn]
        exact nofun
      · trivial

/-- Beside a record of another key, two threads insert one key: the second notes the
entry of the first, looks at the entry zero in its place and goes on. -/
def twoInsertions : List (Action LeafOp) :=
  begins 0 8 (.insert keyOne 0) ++ begins 1 7 (.insert keyTwo 1) ++
    begins 2 20 (.insert keyTwo 2) ++ List.replicate 3 (.run 1)

/-- Both insertions publish their record. -/
theorem leafUnique_false :
    ¬ ∀ (start : BuiltLeaf .default) s,
      Reaches (leafProgram .default).next (fun _ _ => True) (System.start start.node) s →
        LeafUnique s.shared := by
  intro hall
  have hview : (runActions (leafProgram .default).next (System.start (BuiltLeaf.new .default).node)
      twoInsertions).map (fun s => (s.shared.visibleKey 1, s.shared.visibleKey 2)) =
      some (some [2], some [2]) := by
    decide +kernel
  obtain ⟨s, hs, hkeys⟩ := Option.map_eq_some_iff.mp hview
  obtain ⟨h1, h2⟩ := Prod.mk.inj hkeys
  have hreach := reaches_of_runActions (admits_of_forall fun _ _ _ => trivial) hs
  exact absurd (hall _ s hreach 1 2 [2] [2] h1 h2 (by decide)) (by decide)

end Runs

end HashComp.BzTree
