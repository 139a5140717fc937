import HashComp.BzTree.LeafMachine

namespace HashComp.BzTree

open HashComp.ByteMemory
open HashComp.Threads

section Reservations

def InsertPc.reserved? : InsertPc → Option Reserved
  | .copy r | .recheckStatus r | .recheckBound r | .scan r _ _ _ | .whileCheck r _ _
  | .forCheck r _ _ _ | .clear r | .readStatus r | .finalize r _ => some r
  | .retry | .checking _ _ | .readMeta _ _ | .reserve _ _ => none

def LeafPc.reserved? : LeafPc → Option (Key × Reserved)
  | .insert key _ pc => pc.reserved?.map fun r => (key, r)
  | _ => none

@[simp] theorem phase2_reserved? {r : Reserved} : (phase2 r).reserved? = some r := by
  rw [phase2]
  split <;> rfl

def LeafPc.LocalOk (parameters : ParameterSet) : LeafPc → Prop
  | .insert key _ (.readMeta expected _) | .insert key _ (.reserve expected _) =>
      expected.frozen = false ∧
        expected.usedSpace + 8 + key.totalSize < parameters.splitThreshold
  | .insert _ _ (.checking expected _) => expected.frozen = false
  | .insert _ _ (.finalize _ s) => s.frozen = false
  | .update _ _ (.search oldStatus _) | .delete _ (.search oldStatus _) => oldStatus.frozen = false
  | .update _ _ (.readPayload oldStatus _ m) | .update _ _ (.swap oldStatus _ m _)
  | .delete _ (.swap oldStatus _ m) => oldStatus.frozen = false ∧ m.isVisible = true
  | .freeze (.swap expected) => expected.frozen = false
  | _ => True

end Reservations

inductive Holds (n : BaseNode) (threads : Nat → Option LeafPc) (i offset len : Nat) : Prop
  | record {visible : Bool} {keyLength : Nat}
      (hm : n.recordMetadata i = .record visible offset keyLength len) (ho : offset ≠ 0) :
      Holds n threads i offset len
  | owner {t : Nat} {l : LeafPc} {key : Key} {r : Reserved} (hl : threads t = some l)
      (hr : l.reserved? = some (key, r)) (hi : r.slot = i) (ho : r.place = offset)
      (hlen : key.totalSize = len) : Holds n threads i offset len

structure Records (n : BaseNode) : Prop where
  slots : ∀ i, n.recordMetadata i = .vacant ↔ n.status.recordCount ≤ i
  sorted : n.sortedCount ≤ n.status.recordCount
  settled : ∀ i, i < n.sortedCount → n.recordMetadata i ≠ .inserting
  lengths : ∀ i visible offset keyLength totalLength,
    n.recordMetadata i = .record visible offset keyLength totalLength →
      padKeyLength keyLength + 8 = totalLength ∧ (visible = true → offset ≠ 0)

structure Laid (parameters : ParameterSet) (n : BaseNode) (threads : Nat → Option LeafPc) :
    Prop where
  size : n.size = parameters.leafNodeSize
  fits : n.status.usedSpace ≤ n.size
  records : Records n
  within : ∀ i offset len, Holds n threads i offset len →
    n.size ≤ offset + n.status.blockSize ∧ offset + len ≤ n.size
  apart : ∀ i j offset len offset' len', Holds n threads i offset len →
    Holds n threads j offset' len' → i ≠ j → Apart offset len offset' len'
  reserved : ∀ t l key r, threads t = some l → l.reserved? = some (key, r) →
    n.recordMetadata r.slot = .inserting ∧ (r.offset = r.place ∨ r.offset = 0) ∧ r.place ≠ 0
  unique : ∀ t t' l l' key key' r r', threads t = some l → threads t' = some l' →
    l.reserved? = some (key, r) → l'.reserved? = some (key', r') → r.slot = r'.slot → t = t'
  localOk : ∀ t l, threads t = some l → l.LocalOk parameters

inductive Change (parameters : ParameterSet) (n : BaseNode) (l : LeafPc) :
    BaseNode → LeafPc → Prop
  | quiet {l' : LeafPc} (hr : l'.reserved? = none ∨ l'.reserved? = l.reserved?) :
      Change parameters n l n l'
  | reserve {l' : LeafPc} {key : Key} {place : Nat} {recheck : Bool}
      (hl : l.reserved? = none) (hopen : n.status.frozen = false)
      (hroom : n.status.usedSpace + 8 + key.totalSize < parameters.splitThreshold)
      (hplace : place = n.size - (n.status.blockSize + key.totalSize))
      (hr : l'.reserved? = some (key, ⟨n.status.recordCount, place, place, recheck⟩)) :
      Change parameters n l { n.setMetadata n.status.recordCount .inserting with
        status := n.status.prepareForInsert key.totalSize } l'
  | write {l' : LeafPc} {key : Key} {r r' : Reserved} {data : Memory}
      (hl : l.reserved? = some (key, r)) (hr : l'.reserved? = some (key, r'))
      (hsame : r'.slot = r.slot ∧ r'.place = r.place ∧ (r'.offset = r.offset ∨ r'.offset = 0))
      (hdata : ∀ i, i < r.place ∨ r.place + key.totalSize ≤ i → data i = n.data i) :
      Change parameters n l { n with data := data } l'
  | finalize {l' : LeafPc} {key : Key} {r : Reserved} (hl : l.reserved? = some (key, r))
      (hpc : ∃ payload s, l = .insert key payload (.finalize r s))
      (hopen : n.status.frozen = false) (hr : l'.reserved? = none) :
      Change parameters n l (n.setMetadata r.slot
        (.finalizeForInsert r.offset key.bytes.length key.totalSize)) l'
  | update {l' : LeafPc} {i offset keyLength totalLength : Nat} {payload : Word}
      (hl : l.reserved? = none) (hopen : n.status.frozen = false)
      (hm : n.recordMetadata i = .record true offset keyLength totalLength)
      (hr : l'.reserved? = none) :
      Change parameters n l
        { n with data := writeWord n.data (offset + padKeyLength keyLength) payload } l'
  | delete {l' : LeafPc} {i offset keyLength totalLength deletedSize : Nat}
      (hl : l.reserved? = none) (hopen : n.status.frozen = false)
      (hm : n.recordMetadata i = .record true offset keyLength totalLength)
      (hr : l'.reserved? = none)
      (hpc : ∃ key, l = .delete key (.swap n.status i (n.recordMetadata i))) :
      Change parameters n l { n.setMetadata i (.record false offset keyLength totalLength) with
        status := { n.status with deletedSize := deletedSize } } l'
  | freeze {l' : LeafPc} (hl : l.reserved? = none) (hopen : n.status.frozen = false)
      (hr : l'.reserved? = none) (hpc : ∃ pc, l = .freeze pc) :
      Change parameters n l { n with status := n.status.freeze } l'

section Steps

variable {parameters : ParameterSet} {n : BaseNode} {key : Key} {payload : Word} {l : LeafPc}

theorem writes_outside {m : Memory} {place : Nat} {bytes : List Byte} {w : Word} {i : Nat}
    (hlen : bytes.length = key.bytes.length) (hi : i < place ∨ place + key.totalSize ≤ i) :
    writeWord (writeBytes m place bytes) (place + padKeyLength key.bytes.length) w i = m i := by
  have hpad := le_padKeyLength key.bytes.length
  have htotal : key.totalSize = padKeyLength key.bytes.length + 8 := rfl
  rw [writeWord, writeBytes_of_outside (by rw [bytesOf_length]; omega),
    writeBytes_of_outside (by omega)]

theorem insertStep_change {pc : InsertPc} (hok : (LeafPc.insert key payload pc).LocalOk parameters) :
    Change parameters n (.insert key payload pc)
      (leafStep parameters n (.insert key payload pc)).1
      (leafStep parameters n (.insert key payload pc)).2 := by
  have hgoto : ∀ (pc' : InsertPc) (r : Reserved), pc.reserved? = some r →
      pc'.reserved? = some r → Change parameters n (.insert key payload pc) n
      ((Outcome.goto pc').pc (.insert key payload) (.insert key payload)) := by
    intro pc' r h h'
    refine .quiet (Or.inr ?_)
    show pc'.reserved?.map _ = pc.reserved?.map _
    rw [h, h']
  cases pc with
  | retry =>
      simp only [leafStep, insertStep, insertStepWith]
      split <;> exact .quiet (Or.inl rfl)
  | checking expected s =>
      have hspace : ∀ u, ((checkSpace parameters key.totalSize expected u).pc (.insert key payload)
          (.insert key payload)).reserved? = none := by
        intro u
        rw [checkSpace]
        split <;> rfl
      simp only [leafStep, insertStep, insertStepWith]
      split
      · exact .quiet (Or.inl rfl)
      · exact .quiet (Or.inl (hspace _))
      · split
        · exact .quiet (Or.inl rfl)
        · exact .quiet (Or.inl (hspace _))
        · exact .quiet (Or.inl rfl)
  | readMeta expected u =>
      simp only [leafStep, insertStep, insertStepWith]
      split <;> exact .quiet (Or.inl rfl)
  | reserve expected u =>
      simp only [leafStep, insertStep, insertStepWith]
      split
      · rename_i h
        obtain ⟨rfl, -⟩ := h
        exact .reserve rfl hok.1 hok.2 rfl rfl
      · exact .quiet (Or.inl rfl)
  | copy r =>
      refine @Change.write _ _ _ _ _ r r _ rfl ?_ ⟨rfl, rfl, Or.inl rfl⟩
        fun i hi => writes_outside rfl hi
      simp [leafStep, insertStep, insertStepWith, Outcome.pc, LeafPc.reserved?]
  | recheckStatus r =>
      simp only [leafStep, insertStep, insertStepWith]
      split
      · exact .quiet (Or.inl rfl)
      · exact hgoto _ r rfl rfl
  | recheckBound r =>
      simp only [leafStep, insertStep, insertStepWith]
      exact hgoto _ r rfl rfl
  | scan r i linearEnd checkIdx =>
      simp only [leafStep, insertStep, insertStepWith]
      split
      · split <;> exact hgoto _ r rfl rfl
      · exact hgoto _ r rfl rfl
  | whileCheck r checkIdx needCheck =>
      simp only [leafStep, insertStep, insertStepWith]
      split <;> exact hgoto _ r rfl rfl
  | forCheck r checkIdx needCheck i =>
      simp only [leafStep, insertStep, insertStepWith]
      split
      · split <;> exact hgoto _ r rfl rfl
      · exact hgoto _ r rfl rfl
  | clear r =>
      exact @Change.write _ _ _ _ _ r { r with offset := 0 } _ rfl rfl ⟨rfl, rfl, Or.inr rfl⟩
        fun i hi => writes_outside (List.length_replicate ..) hi
  | readStatus r =>
      simp only [leafStep, insertStep, insertStepWith]
      split
      · exact .quiet (Or.inl rfl)
      · exact hgoto _ r rfl rfl
  | finalize r s =>
      simp only [leafStep, insertStep, insertStepWith]
      split
      · rename_i h
        obtain ⟨rfl, -⟩ := h
        exact .finalize rfl ⟨payload, _, rfl⟩ hok rfl
      · exact hgoto _ r rfl phase2_reserved?

theorem updateStep_change {pc : UpdatePc} (hok : (LeafPc.update key payload pc).LocalOk parameters) :
    Change parameters n (.update key payload pc)
      (leafStep parameters n (.update key payload pc)).1
      (leafStep parameters n (.update key payload pc)).2 := by
  have hquiet : ∀ o : Outcome UpdatePc, Change parameters n (.update key payload pc) n
      (o.pc (.update key payload) (.update key payload)) := by
    intro o
    cases o <;> exact .quiet (Or.inl rfl)
  cases pc with
  | retry =>
      simp only [leafStep, updateStep]
      split <;> exact hquiet _
  | search oldStatus s =>
      simp only [leafStep, updateStep]
      split
      · exact hquiet _
      · exact hquiet _
      · split <;> exact hquiet _
  | readPayload oldStatus i m =>
      simp only [leafStep, updateStep]
      split
      · split
        · exact hquiet _
        · split <;> exact hquiet _
      · exact hquiet _
  | swap oldStatus i m recordPayload =>
      cases m with
      | vacant => exact .quiet (Or.inl rfl)
      | inserting => exact .quiet (Or.inl rfl)
      | record visible offset keyLength totalLength =>
          simp only [leafStep, updateStep]
          split
          · rename_i h
            obtain ⟨-, hm, rfl⟩ := h
            obtain ⟨hopen, rfl⟩ := hok
            exact .update rfl hopen hm rfl
          · exact hquiet _

theorem deleteStep_change {pc : DeletePc} (hok : (LeafPc.delete key pc).LocalOk parameters) :
    Change parameters n (.delete key pc) (leafStep parameters n (.delete key pc)).1
      (leafStep parameters n (.delete key pc)).2 := by
  have hquiet : ∀ o : Outcome DeletePc, Change parameters n (.delete key pc) n
      (o.pc (.delete key) (.delete key)) := by
    intro o
    cases o <;> exact .quiet (Or.inl rfl)
  cases pc with
  | retry =>
      simp only [leafStep, deleteStep]
      split <;> exact hquiet _
  | search oldStatus s =>
      simp only [leafStep, deleteStep]
      split
      · exact hquiet _
      · exact hquiet _
      · split <;> exact hquiet _
  | swap oldStatus i m =>
      cases m with
      | vacant => exact .quiet (Or.inl rfl)
      | inserting => exact .quiet (Or.inl rfl)
      | record visible offset keyLength totalLength =>
          simp only [leafStep, deleteStep]
          split
          · rename_i h
            obtain ⟨rfl, hm⟩ := h
            obtain ⟨hopen, rfl⟩ := hok
            exact .delete rfl hopen hm rfl ⟨key, by rw [hm]⟩
          · exact hquiet _

theorem leafStep_change (hok : l.LocalOk parameters) :
    Change parameters n l (leafStep parameters n l).1 (leafStep parameters n l).2 := by
  cases l with
  | insert key payload pc => exact insertStep_change hok
  | update key payload pc => exact updateStep_change hok
  | delete key pc => exact deleteStep_change hok
  | freeze pc =>
      cases pc with
      | read =>
          simp only [leafStep, freezeStep]
          split <;> exact .quiet (Or.inl rfl)
      | swap expected =>
          simp only [leafStep, freezeStep]
          split
          · rename_i h
            subst h
            exact .freeze rfl hok rfl ⟨_, rfl⟩
          · exact .quiet (Or.inl rfl)
  | done op rc => exact .quiet (Or.inr rfl)
  | aborted => exact .quiet (Or.inr rfl)

end Steps

section Metadata

variable {n : BaseNode} {i j : Nat} {m : RecordMetadata}

@[simp] theorem setMetadata_self : (n.setMetadata i m).recordMetadata i = m :=
  Function.update_self ..

theorem setMetadata_of_ne (h : j ≠ i) : (n.setMetadata i m).recordMetadata j = n.recordMetadata j :=
  Function.update_of_ne h ..

end Metadata

section Kept

variable {parameters : ParameterSet} {n n' : BaseNode} {threads : Nat → Option LeafPc} {t i : Nat}
  {l l' : LeafPc} {offset len : Nat}

/-- A step gives away no region, and at most one is new: that of the slot it reserves. -/
theorem Laid.holds_of_change (h : Laid parameters n threads) (hl : threads t = some l)
    (hc : Change parameters n l n' l')
    (hnew : Holds n' (Function.update threads t (some l')) i offset len) :
    Holds n threads i offset len ∨
      (i = n.status.recordCount ∧ n.size - n'.status.blockSize = offset ∧
        n'.status.blockSize = n.status.blockSize + len) := by
  -- the regions that other threads hold
  have hother : ∀ u m key r, u ≠ t → threads u = some m → m.reserved? = some (key, r) →
      r.slot = i → r.place = offset → key.totalSize = len → Holds n threads i offset len :=
    fun _ _ _ _ _ hm hr hi ho hlen => .owner hm hr hi ho hlen
  cases hnew with
  | @record visible keyLength hm ho =>
      cases hc with
      | quiet | write | update | freeze => exact Or.inl (.record hm ho)
      | reserve =>
          rcases eq_or_ne i n.status.recordCount with rfl | hne
          · cases setMetadata_self.symm.trans hm
          · exact Or.inl (.record ((setMetadata_of_ne hne).symm.trans hm) ho)
      | @finalize _ key r hlr _ _ _ =>
          rcases eq_or_ne i r.slot with rfl | hne
          · cases setMetadata_self.symm.trans hm
            have hplace := ((h.reserved t l key r hl hlr).2.1).resolve_right ho
            exact Or.inl (.owner hl hlr rfl hplace.symm rfl)
          · exact Or.inl (.record ((setMetadata_of_ne hne).symm.trans hm) ho)
      | @delete _ j o kl tl _ _ _ hmj _ =>
          rcases eq_or_ne i j with rfl | hne
          · cases setMetadata_self.symm.trans hm
            exact Or.inl (.record hmj ho)
          · exact Or.inl (.record ((setMetadata_of_ne hne).symm.trans hm) ho)
  | @owner u m key r hm hr hi ho hlen =>
      rcases update_eq_some hm with ⟨rfl, hl'⟩ | ⟨hu, hm⟩
      · cases hl'
        cases hc with
        | quiet hq =>
            rcases hq with hq | hq
            · rw [hq] at hr
              cases hr
            · exact Or.inl (.owner hl (hq ▸ hr) hi ho hlen)
        | reserve _ _ _ hplace hr' =>
            rw [hr'] at hr
            cases hr
            subst hi ho hlen
            exact Or.inr ⟨rfl, hplace.symm, rfl⟩
        | write hlr hr' hsame _ =>
            rw [hr'] at hr
            cases hr
            exact Or.inl (.owner hl hlr (hsame.1 ▸ hi) (hsame.2.1 ▸ ho) hlen)
        | finalize _ _ _ hr' | update _ _ _ hr' | delete _ _ _ hr' | freeze _ _ hr' =>
            rw [hr'] at hr
            cases hr
      · exact Or.inl (hother u m key r hu hm hr hi ho hlen)

theorem Records.change (h : Laid parameters n threads) (hl : threads t = some l)
    (hc : Change parameters n l n' l') : Records n' := by
  have hr := h.records
  cases hc with
  | quiet | write | update | freeze => exact ⟨hr.slots, hr.sorted, hr.settled, hr.lengths⟩
  | reserve =>
      refine ⟨fun i => ?_, Nat.le_succ_of_le hr.sorted, fun i hi => ?_, fun i v o kl tl hm => ?_⟩
      · rcases eq_or_ne i n.status.recordCount with rfl | hne
        · refine ⟨fun hv => ?_, fun hle => absurd hle (Nat.not_succ_le_self _)⟩
          cases setMetadata_self.symm.trans hv
        · refine Iff.trans (Iff.of_eq (congrArg (· = _) (setMetadata_of_ne hne))) ?_
          rw [hr.slots i]
          exact ⟨fun hle => Nat.lt_of_le_of_ne hle hne.symm, Nat.le_of_succ_le⟩
      · have hlt : i < n.status.recordCount := Nat.lt_of_lt_of_le hi hr.sorted
        rw [show (_ : BaseNode).recordMetadata i = n.recordMetadata i from
          setMetadata_of_ne (Nat.ne_of_lt hlt)]
        exact hr.settled i hi
      · rcases eq_or_ne i n.status.recordCount with rfl | hne
        · cases setMetadata_self.symm.trans hm
        · exact hr.lengths i v o kl tl ((setMetadata_of_ne hne).symm.trans hm)
  | @finalize _ key r hlr _ _ _ =>
      have hins := (h.reserved t l key r hl hlr).1
      refine ⟨fun i => ?_, hr.sorted, fun i hi => ?_, fun i v o kl tl hm => ?_⟩
      · rcases eq_or_ne i r.slot with rfl | hne
        · rw [setMetadata_self]
          refine ⟨nofun, fun hle => ?_⟩
          rw [(hr.slots r.slot).mpr hle] at hins
          cases hins
        · rw [setMetadata_of_ne hne]
          exact hr.slots i
      · rcases eq_or_ne i r.slot with rfl | hne
        · exact absurd hins (hr.settled r.slot hi)
        · rw [setMetadata_of_ne hne]
          exact hr.settled i hi
      · rcases eq_or_ne i r.slot with rfl | hne
        · cases setMetadata_self.symm.trans hm
          exact ⟨rfl, fun hv => of_decide_eq_true hv⟩
        · exact hr.lengths i v o kl tl ((setMetadata_of_ne hne).symm.trans hm)
  | @delete _ j o' kl' tl' _ _ _ hmj _ =>
      refine ⟨fun i => ?_, hr.sorted, fun i hi => ?_, fun i v o kl tl hm => ?_⟩
      · rcases eq_or_ne i j with rfl | hne
        · refine Iff.trans (Iff.of_eq (congrArg (· = _) setMetadata_self)) ⟨nofun, fun hle => ?_⟩
          rw [(hr.slots i).mpr hle] at hmj
          cases hmj
        · exact Iff.trans (Iff.of_eq (congrArg (· = _) (setMetadata_of_ne hne))) (hr.slots i)
      · rcases eq_or_ne i j with rfl | hne
        · rw [show (_ : BaseNode).recordMetadata i = _ from setMetadata_self]
          exact nofun
        · rw [show (_ : BaseNode).recordMetadata i = n.recordMetadata i from setMetadata_of_ne hne]
          exact hr.settled i hi
      · rcases eq_or_ne i j with rfl | hne
        · cases setMetadata_self.symm.trans hm
          exact ⟨(hr.lengths _ _ _ _ _ hmj).1, nofun⟩
        · exact hr.lengths i v o kl tl ((setMetadata_of_ne hne).symm.trans hm)

theorem Laid.place_pos (h : Laid parameters n threads) {key : Key}
    (hroom : n.status.usedSpace + 8 + key.totalSize < parameters.splitThreshold) :
    32 + n.status.blockSize + key.totalSize + n.status.recordCount * 8 + 8 < n.size := by
  have hsize := h.size
  have hle := parameters.split_le
  rw [StatusWord.usedSpace] at hroom
  omega

theorem Laid.fits_change (h : Laid parameters n threads) (hc : Change parameters n l n' l') :
    n'.size = n.size ∧ n.status.blockSize ≤ n'.status.blockSize ∧ n'.status.usedSpace ≤ n'.size := by
  have hfits := h.fits
  rw [StatusWord.usedSpace] at hfits
  cases hc with
  | @reserve _ key _ _ _ _ hroom _ _ =>
      have := h.place_pos hroom
      refine ⟨rfl, Nat.le_add_right _ _, ?_⟩
      show 32 + (n.status.blockSize + key.totalSize) + (n.status.recordCount + 1) * 8 ≤ n.size
      omega
  | quiet | write | update | freeze | finalize | delete => exact ⟨rfl, Nat.le_refl _, hfits⟩

theorem Laid.reserved_change (h : Laid parameters n threads) (hl : threads t = some l)
    (hc : Change parameters n l n' l') {u : Nat} {m : LeafPc} {key : Key} {r : Reserved}
    (hm : Function.update threads t (some l') u = some m) (hr : m.reserved? = some (key, r)) :
    n'.recordMetadata r.slot = .inserting ∧ (r.offset = r.place ∨ r.offset = 0) ∧ r.place ≠ 0 := by
  rcases update_eq_some hm with ⟨rfl, hl'⟩ | ⟨hu, hm⟩
  · cases hl'
    cases hc with
    | quiet hq =>
        rcases hq with hq | hq
        · rw [hq] at hr
          cases hr
        · exact h.reserved u l key r hl (hq ▸ hr)
    | @reserve _ _ place _ _ _ hroom hplace hr' =>
        rw [hr'] at hr
        cases hr
        have := h.place_pos hroom
        refine ⟨setMetadata_self, Or.inl rfl, ?_⟩
        show place ≠ 0
        omega
    | @write _ _ r₀ _ _ hlr hr' hsame _ =>
        rw [hr'] at hr
        cases hr
        obtain ⟨hslot, hplace, hoffset⟩ := hsame
        obtain ⟨hins, hoff, hpos⟩ := h.reserved u l key r₀ hl hlr
        rw [hslot, hplace]
        refine ⟨hins, ?_, hpos⟩
        rcases hoffset with he | he
        · rwa [he]
        · exact Or.inr he
    | finalize _ _ _ hr' | update _ _ _ hr' | delete _ _ _ hr' | freeze _ _ hr' =>
        rw [hr'] at hr
        cases hr
  · obtain ⟨hins, hrest⟩ := h.reserved u m key r hm hr
    refine ⟨?_, hrest⟩
    cases hc with
    | quiet | write | update | freeze => exact hins
    | reserve =>
        refine (setMetadata_of_ne ?_).trans hins
        intro he
        rw [(h.records.slots r.slot).mpr (Nat.le_of_eq he.symm)] at hins
        cases hins
    | @finalize _ key' r' hlr _ _ _ =>
        refine (setMetadata_of_ne ?_).trans hins
        exact fun he => hu (h.unique u t m l key key' r r' hm hl hr hlr he)
    | @delete _ j _ _ _ _ _ _ hmj _ =>
        refine (setMetadata_of_ne ?_).trans hins
        rintro rfl
        rw [hmj] at hins
        cases hins

/-- The slot that a thread has reserved after a step was its own before, or is new. -/
theorem reserved_of_change (hc : Change parameters n l n' l') {key : Key} {r : Reserved}
    (hr : l'.reserved? = some (key, r)) :
    (∃ r', l.reserved? = some (key, r') ∧ r'.slot = r.slot ∧ (r.offset ≠ 0 → r'.offset ≠ 0)) ∨
      r.slot = n.status.recordCount := by
  cases hc with
  | quiet hq =>
      rcases hq with hq | hq
      · rw [hq] at hr
        cases hr
      · exact Or.inl ⟨r, hq ▸ hr, rfl, id⟩
  | reserve _ _ _ _ hr' =>
      rw [hr'] at hr
      cases hr
      exact Or.inr rfl
  | write hlr hr' hsame _ =>
      rw [hr'] at hr
      cases hr
      refine Or.inl ⟨_, hlr, hsame.1.symm, fun hne => ?_⟩
      rcases hsame.2.2 with he | he
      · rwa [← he]
      · exact absurd he hne
  | finalize _ _ _ hr' | update _ _ _ hr' | delete _ _ _ hr' | freeze _ _ hr' =>
      rw [hr'] at hr
      cases hr

theorem Laid.slot_lt (h : Laid parameters n threads) {key : Key} {r : Reserved}
    (hl : threads t = some l) (hr : l.reserved? = some (key, r)) :
    r.slot < n.status.recordCount := by
  refine Nat.lt_of_not_le fun hle => ?_
  have hins := (h.reserved t l key r hl hr).1
  rw [(h.records.slots r.slot).mpr hle] at hins
  cases hins

theorem Laid.unique_change (h : Laid parameters n threads) (hl : threads t = some l)
    (hc : Change parameters n l n' l') {u : Nat} {m : LeafPc} {key key' : Key} {r r' : Reserved}
    (hu : u ≠ t) (hm : threads u = some m) (hr : m.reserved? = some (key, r))
    (hr' : l'.reserved? = some (key', r')) : r.slot ≠ r'.slot := by
  rcases reserved_of_change hc hr' with ⟨r₀, hr₀, hslot, -⟩ | hnew
  · rw [← hslot]
    exact fun he => hu (h.unique u t m l key key' r r₀ hm hl hr hr₀ he)
  · rw [hnew]
    exact Nat.ne_of_lt (h.slot_lt hm hr)

theorem Laid.change (h : Laid parameters n threads) (hl : threads t = some l)
    (hc : Change parameters n l n' l') (hok : l'.LocalOk parameters) :
    Laid parameters n' (Function.update threads t (some l')) := by
  obtain ⟨hsize, hblock, hfits⟩ := h.fits_change hc
  have hfits' := hfits
  rw [StatusWord.usedSpace] at hfits'
  refine ⟨hsize.trans h.size, hfits, Records.change h hl hc, fun i o len hi => ?_,
    fun i j o len o' len' hi hj hij => ?_, fun u m key r => h.reserved_change hl hc, ?_, ?_⟩
  · rcases h.holds_of_change hl hc hi with hold | ⟨-, ho, hb⟩
    · obtain ⟨hlo, hhi⟩ := h.within i o len hold
      omega
    · omega
  · rcases h.holds_of_change hl hc hi with hi | ⟨rfl, ho, hb⟩
    · rcases h.holds_of_change hl hc hj with hj | ⟨rfl, ho, hb⟩
      · exact h.apart i j o len o' len' hi hj hij
      · obtain ⟨hlo, -⟩ := h.within i o len hi
        exact Or.inr (by omega)
    · rcases h.holds_of_change hl hc hj with hj | ⟨rfl, -, -⟩
      · obtain ⟨hlo, -⟩ := h.within j o' len' hj
        exact Or.inl (by omega)
      · exact absurd rfl hij
  · intro u u' m m' key key' r r' hm hm' hr hr' he
    rcases update_eq_some hm with ⟨rfl, hl₁⟩ | ⟨hu, hold⟩
    · cases hl₁
      rcases update_eq_some hm' with ⟨rfl, -⟩ | ⟨hu', hold'⟩
      · rfl
      · exact absurd he.symm (h.unique_change hl hc hu' hold' hr' hr)
    · rcases update_eq_some hm' with ⟨rfl, hl₂⟩ | ⟨-, hold'⟩
      · cases hl₂
        exact absurd he (h.unique_change hl hc hu hold hr hr')
      · exact h.unique u u' m m' key key' r r' hold hold' hr hr' he
  · intro u m hm
    rcases update_eq_some hm with ⟨-, hl'⟩ | ⟨-, hm⟩
    · cases hl'
      exact hok
    · exact h.localOk u m hm

/-- The layout is the same for other threads that have reserved nothing more. -/
theorem Laid.of_threads (h : Laid parameters n threads) {threads' : Nat → Option LeafPc}
    (hold : ∀ u m key r, threads' u = some m → m.reserved? = some (key, r) → threads u = some m)
    (hok : ∀ u m, threads' u = some m → m.LocalOk parameters) : Laid parameters n threads' := by
  have hholds : ∀ i offset len, Holds n threads' i offset len → Holds n threads i offset len := by
    intro i offset len hh
    cases hh with
    | record hm hne => exact .record hm hne
    | owner hl hr hi hp hlen => exact .owner (hold _ _ _ _ hl hr) hr hi hp hlen
  refine ⟨h.size, h.fits, h.records, fun i o len hi => h.within i o len (hholds i o len hi),
    fun i j o len o' len' hi hj => h.apart i j o len o' len' (hholds i o len hi) (hholds j o' len' hj),
    fun u m key r hm hr => h.reserved u m key r (hold u m key r hm hr) hr, ?_, hok⟩
  intro u u' m m' key key' r r' hm hm' hr hr'
  exact h.unique u u' m m' key key' r r' (hold u m key r hm hr) (hold u' m' key' r' hm' hr') hr hr'

theorem Laid.update (h : Laid parameters n threads) {o : Option LeafPc}
    (ho : ∀ m, o = some m → m.reserved? = none ∧ m.LocalOk parameters) :
    Laid parameters n (Function.update threads t o) := by
  refine h.of_threads (fun u m key r hm hr => ?_) fun u m hm => ?_
  · rcases update_eq_some hm with ⟨-, hm⟩ | ⟨-, hm⟩
    · rw [(ho m hm).1] at hr
      cases hr
    · exact hm
  · rcases update_eq_some hm with ⟨-, hm⟩ | ⟨-, hm⟩
    · exact (ho m hm).2
    · exact h.localOk u m hm

end Kept

section Local

variable {parameters : ParameterSet} {n : BaseNode} {key : List Byte} {s : Search} {i : Nat}
  {m : RecordMetadata} {l : LeafPc}

theorem searchStep_found (h : searchStep n key s = .found i m) :
    m = n.recordMetadata i ∧ (m.isInserting = true ∨ m.isVisible = true) := by
  cases s with
  | sorted j =>
      simp only [searchStep] at h
      split at h
      · split at h
        · split at h
          · rename_i hv
            cases h
            exact ⟨rfl, Or.inr hv⟩
          · cases h
        · cases h
      · cases h
  | bound j =>
      simp only [searchStep] at h
      split at h <;> cases h
  | linear j =>
      simp only [searchStep] at h
      split at h
      · rename_i hi
        cases h
        exact ⟨rfl, Or.inl hi⟩
      · split at h
        · rename_i hv
          cases h
          exact ⟨rfl, Or.inr hv.1⟩
        · cases h

theorem leafStep_localOk (hok : l.LocalOk parameters) : (leafStep parameters n l).2.LocalOk parameters := by
  have hopen : ∀ b : Bool, ¬ b = true → b = false := fun b hb => Bool.eq_false_iff.mpr hb
  cases l with
  | insert key payload pc =>
      have hspace : ∀ expected u, expected.frozen = false →
          ((checkSpace parameters key.totalSize expected u).pc (.insert key payload)
            (.insert key payload)).LocalOk parameters := by
        intro expected u he
        rw [checkSpace]
        split
        · trivial
        · exact ⟨he, Nat.lt_of_not_le ‹_›⟩
      have hphase : ∀ r, (LeafPc.insert key payload (phase2 r)).LocalOk parameters := by
        intro r
        rw [phase2]
        split <;> trivial
      cases pc with
      | retry =>
          simp only [leafStep, insertStep, insertStepWith]
          split
          · trivial
          · exact hopen _ ‹_›
      | checking expected s =>
          simp only [leafStep, insertStep, insertStepWith]
          split
          · exact hok
          · exact hspace _ _ hok
          · split
            · trivial
            · exact hspace _ _ hok
            · trivial
      | readMeta expected u =>
          simp only [leafStep, insertStep, insertStepWith]
          split
          · exact hok
          · trivial
      | reserve expected u =>
          simp only [leafStep, insertStep, insertStepWith]
          split <;> trivial
      | copy r => exact hphase r
      | recheckStatus r =>
          simp only [leafStep, insertStep, insertStepWith]
          split <;> trivial
      | recheckBound r => trivial
      | scan r i linearEnd checkIdx =>
          simp only [leafStep, insertStep, insertStepWith]
          split
          · split <;> trivial
          · trivial
      | whileCheck r checkIdx needCheck =>
          simp only [leafStep, insertStep, insertStepWith]
          split <;> trivial
      | forCheck r checkIdx needCheck i =>
          simp only [leafStep, insertStep, insertStepWith]
          split
          · split <;> trivial
          · trivial
      | clear r => trivial
      | readStatus r =>
          simp only [leafStep, insertStep, insertStepWith]
          split
          · trivial
          · exact hopen _ ‹_›
      | finalize r s =>
          simp only [leafStep, insertStep, insertStepWith]
          split
          · trivial
          · exact hphase r
  | update key payload pc =>
      cases pc with
      | retry =>
          simp only [leafStep, updateStep]
          split
          · trivial
          · exact hopen _ ‹_›
      | search oldStatus s =>
          simp only [leafStep, updateStep]
          split
          · exact hok
          · trivial
          · rename_i hfound
            split
            · trivial
            · rename_i hins
              exact ⟨hok, (searchStep_found hfound).2.resolve_left hins⟩
      | readPayload oldStatus i m =>
          simp only [leafStep, updateStep]
          split
          · split
            · trivial
            · split
              · trivial
              · exact hok
          · trivial
      | swap oldStatus i m recordPayload =>
          simp only [leafStep, updateStep]
          split
          · split <;> trivial
          · trivial
  | delete key pc =>
      cases pc with
      | retry =>
          simp only [leafStep, deleteStep]
          split
          · trivial
          · exact hopen _ ‹_›
      | search oldStatus s =>
          simp only [leafStep, deleteStep]
          split
          · exact hok
          · trivial
          · rename_i hfound
            split
            · trivial
            · rename_i hins
              exact ⟨hok, (searchStep_found hfound).2.resolve_left hins⟩
      | swap oldStatus i m =>
          simp only [leafStep, deleteStep]
          split
          · split <;> trivial
          · trivial
  | freeze pc =>
      cases pc with
      | read =>
          simp only [leafStep, freezeStep]
          split
          · trivial
          · exact hopen _ ‹_›
      | swap expected =>
          simp only [leafStep, freezeStep]
          split <;> trivial
  | done op rc => trivial
  | aborted => trivial

theorem begin_reserved? (op : LeafOp) : op.begin.reserved? = none := by
  cases op <;> rfl

theorem begin_localOk (op : LeafOp) : op.begin.LocalOk parameters := by
  cases op <;> trivial

end Local

section Built

variable {parameters : ParameterSet} {n : BaseNode} {threads : Nat → Option LeafPc} {i offset len : Nat}

theorem laid_new : Laid parameters (BaseNode.new true parameters.leafNodeSize) fun _ => none := by
  have hvacant : ∀ i, (BaseNode.new true parameters.leafNodeSize).recordMetadata i = .vacant :=
    fun _ => rfl
  have hnone : ∀ i offset len,
      ¬ Holds (BaseNode.new true parameters.leafNodeSize) (fun _ => none) i offset len := by
    intro i offset len hh
    cases hh with
    | record hm => cases (hvacant i).symm.trans hm
    | owner hl => cases hl
  refine ⟨rfl, parameters.large, ⟨fun i => ⟨fun _ => Nat.zero_le i, fun _ => hvacant i⟩,
    Nat.le_refl 0, fun i hi => absurd hi (Nat.not_lt_zero i), fun i v o kl tl hm => ?_⟩,
    fun i o len hi => absurd hi (hnone i o len), fun i j o len o' len' hi => absurd hi (hnone i o len),
    fun t l key r hl => ?_, fun t t' l l' key key' r r' hl => ?_, fun t l hl => ?_⟩
  · cases (hvacant i).symm.trans hm
  all_goals cases hl

end Built

end HashComp.BzTree
