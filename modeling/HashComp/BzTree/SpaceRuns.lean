import HashComp.BzTree.SpaceBounds

/-!
The space of a leaf stays in order in every run when a leaf of `split_threshold` bytes has
room for fewer records than the record count can hold, the length of no key wraps when it is
padded and every offset fits in the metadata; where a record fits at all, only then.
-/

namespace HashComp.BzTree.Space

open HashComp.Runs

section Ledgers

variable {ledger : Ledger}

theorem eight_mul_count_le (h : ∀ i < ledger.count, 8 ≤ (ledger.range i).len) :
    ledger.count * 8 ≤ ledger.block := by
  have hsum := Finset.card_nsmul_le_sum (Finset.range ledger.count)
    (fun i => (ledger.range i).len) 8 fun i hi => h i (Finset.mem_range.mp hi)
  rw [Finset.card_range, nsmul_eq_mul] at hsum
  exact hsum

theorem deleted_le_block (h : ∀ i < ledger.count, ledger.gone i ≤ (ledger.range i).len) :
    ledger.deleted ≤ ledger.block :=
  Finset.sum_le_sum fun i hi => h i (Finset.mem_range.mp hi)

end Ledgers

section Steps

variable {split_threshold high key_size slot total offset totalLength : Nat} {leaf leaf' : Leaf}
  {ledger : Ledger} {visible : Bool} {l l' : LeafPc} {e : Event}

theorem eight_le_totalSize : 8 ≤ totalSize key_size :=
  Nat.le_add_left 8 _

/-- A key whose padded length does not wrap is copied to where it has been reserved. -/
theorem copiedSize_eq (h : key_size ≤ 65528) : copiedSize key_size = totalSize key_size := by
  refine Nat.max_eq_right ?_
  rw [totalSize, padKeyLength16, padKeyLength]
  omega

theorem LedgerOk.slot_lt {m : Metadata} (h : LedgerOk leaf ledger high)
    (hm : leaf.metadata slot = m) (hne : m ≠ .vacant) : slot < ledger.count := by
  by_contra hslot
  exact hne (hm ▸ h.vacant slot (Nat.not_lt.mp hslot))

theorem LedgerOk.reserved {status : BitVec 64} (h : LedgerOk leaf ledger high)
    (hcounts : Counts status high (ledger.count + 1) (ledger.block + total) ledger.deleted)
    (htotal : 8 ≤ total) (hroom : 32 + (ledger.count + 1) * 8 + (ledger.block + total) ≤ leaf.size) :
    LedgerOk
      { leaf with status := status, metadata := leaf.setMetadata ledger.count .inserting }
      (ledger.note (.reserved ⟨leaf.size - (ledger.block + total), total⟩)) high := by
  set ledger' := ledger.note (.reserved ⟨leaf.size - (ledger.block + total), total⟩)
  have hcount : ledger'.count = ledger.count + 1 := rfl
  have hblock : ledger'.block = ledger.block + total := block_reserved
  have hold : ∀ {i}, i < ledger.count → ledger'.range i = ledger.range i :=
    fun hi => Function.update_of_ne (Nat.ne_of_lt hi) _ _
  have hnew : ledger'.range ledger.count = ⟨leaf.size - (ledger.block + total), total⟩ :=
    Function.update_self ..
  have hgone : ∀ {i}, i ≠ ledger.count → ledger'.gone i = ledger.gone i :=
    fun hi => Function.update_of_ne hi _ _
  have hgone' : ledger'.gone ledger.count = 0 := Function.update_self ..
  have hcopied : ∀ {i}, i ≠ ledger.count → ledger'.copied i = ledger.copied i :=
    fun hi => Function.update_of_ne hi _ _
  have hcopied' : ledger'.copied ledger.count = 0 := Function.update_self ..
  have hmetadata : ∀ {i}, i ≠ ledger.count →
      leaf.setMetadata ledger.count .inserting i = leaf.metadata i :=
    fun hi => Function.update_of_ne hi _ _
  have hmetadata' : leaf.setMetadata ledger.count .inserting ledger.count = .inserting :=
    Function.update_self ..
  have hrecord : ∀ {i offset totalLength},
      leaf.setMetadata ledger.count .inserting i = .record true offset totalLength →
        i < ledger.count ∧ leaf.metadata i = .record true offset totalLength := by
    intro i offset totalLength hi
    have hne : i ≠ ledger.count := by
      rintro rfl
      cases hmetadata'.symm.trans hi
    have hi' := (hmetadata hne).symm.trans hi
    exact ⟨h.slot_lt hi' Metadata.noConfusion, hi'⟩
  constructor
  case counts => rwa [hcount, hblock, deleted_reserved]
  case fits => rwa [hcount, hblock]
  case lengths =>
    intro i hi
    rcases Nat.lt_succ_iff_lt_or_eq.mp hi with hi | rfl
    · rw [hold hi]
      exact h.lengths i hi
    · rwa [hnew]
  case area =>
    intro i hi
    rw [hblock]
    dsimp only
    rcases Nat.lt_succ_iff_lt_or_eq.mp hi with hi | rfl
    · have harea := h.area i hi
      rw [hold hi]
      exact ⟨by omega, harea.2⟩
    · rw [hnew]
      dsimp only
      omega
  case apart =>
    intro i hi j hj hne
    rcases Nat.lt_succ_iff_lt_or_eq.mp hi with hi | rfl
    · rcases Nat.lt_succ_iff_lt_or_eq.mp hj with hj | rfl
      · rw [hold hi, hold hj]
        exact h.apart i hi j hj hne
      · have harea := h.area i hi
        rw [hold hi, hnew]
        dsimp only
        omega
    · rcases Nat.lt_succ_iff_lt_or_eq.mp hj with hj | rfl
      · have harea := h.area j hj
        rw [hold hj, hnew]
        dsimp only
        omega
      · exact absurd rfl hne
  case vacant =>
    intro i hi
    rw [hcount] at hi
    exact (hmetadata (by omega)).trans (h.vacant i (by omega))
  case visible =>
    intro i offset totalLength hi
    obtain ⟨hlt, hi⟩ := hrecord hi
    rw [hgone (Nat.ne_of_lt hlt), hold hlt]
    exact h.visible i offset totalLength hi
  case published =>
    intro i offset totalLength hi
    obtain ⟨hlt, hi⟩ := hrecord hi
    rw [hold hlt]
    exact h.published i offset totalLength hi
  case copied =>
    intro i hi
    rcases Nat.lt_succ_iff_lt_or_eq.mp hi with hi | rfl
    · rw [hold hi, hcopied (Nat.ne_of_lt hi)]
      exact h.copied i hi
    · rw [hcopied']
      exact Nat.zero_le _
  case inserting =>
    intro i hi
    by_cases hne : i = ledger.count
    · rw [hne, hgone']
    · rw [hgone hne]
      exact h.inserting i ((hmetadata hne).symm.trans hi)
  case gone =>
    intro i hi
    rcases Nat.lt_succ_iff_lt_or_eq.mp hi with hi | rfl
    · rw [hold hi, hgone (Nat.ne_of_lt hi)]
      exact h.gone i hi
    · rw [hgone']
      exact Nat.zero_le _

theorem LedgerOk.copied_slot {len : Nat} (h : LedgerOk leaf ledger high)
    (hlen : len ≤ (ledger.range slot).len) : LedgerOk leaf (ledger.note (.copied slot len)) high := by
  refine ⟨h.counts, h.lengths, h.fits, h.area, h.apart, h.vacant, h.visible, h.published,
    h.inserting, fun i hi => ?_, h.gone⟩
  change Function.update ledger.copied slot len i ≤ (ledger.range i).len
  by_cases hne : i = slot
  · rw [hne, Function.update_self]
    exact hlen
  · rw [Function.update_of_ne hne]
    exact h.copied i hi

theorem LedgerOk.finalized (h : LedgerOk leaf ledger high) (hm : leaf.metadata slot = .inserting)
    (htotal : totalLength ≤ (ledger.range slot).len)
    (hoffset : visible = true → offset = (ledger.range slot).offset) :
    LedgerOk { leaf with metadata := leaf.setMetadata slot (.record visible offset totalLength) }
      ledger high := by
  have hother : ∀ {i}, i ≠ slot →
      leaf.setMetadata slot (.record visible offset totalLength) i = leaf.metadata i :=
    fun hi => Function.update_of_ne hi _ _
  have hslot : leaf.setMetadata slot (.record visible offset totalLength) slot =
      .record visible offset totalLength :=
    Function.update_self ..
  have hlt := h.slot_lt hm Metadata.noConfusion
  refine ⟨h.counts, h.lengths, h.fits, h.area, h.apart, fun i hi => ?_, fun i o t hi => ?_,
    fun i o t hi => ?_, fun i hi => ?_, h.copied, h.gone⟩
  · exact (hother (Nat.ne_of_gt (Nat.lt_of_lt_of_le hlt hi))).trans (h.vacant i hi)
  · by_cases hne : i = slot
    · subst hne
      cases hslot.symm.trans hi
      exact ⟨h.inserting _ hm, htotal⟩
    · exact h.visible i o t ((hother hne).symm.trans hi)
  · by_cases hne : i = slot
    · subst hne
      cases hslot.symm.trans hi
      exact hoffset rfl
    · exact h.published i o t ((hother hne).symm.trans hi)
  · by_cases hne : i = slot
    · subst hne
      cases hslot.symm.trans hi
    · exact h.inserting i ((hother hne).symm.trans hi)

theorem LedgerOk.deleted (h : LedgerOk leaf ledger high)
    (hm : leaf.metadata slot = .record true offset totalLength) :
    LedgerOk
      { leaf with
        status := setDeleteSize leaf.status (deletedSize leaf.status + totalLength)
        metadata := leaf.setMetadata slot (.record false offset totalLength) }
      (ledger.note (.deleted slot totalLength)) high := by
  set ledger' := ledger.note (.deleted slot totalLength)
  have hlt := h.slot_lt hm Metadata.noConfusion
  obtain ⟨hzero, hle⟩ := h.visible slot offset totalLength hm
  have hother : ∀ {i}, i ≠ slot →
      leaf.setMetadata slot (.record false offset totalLength) i = leaf.metadata i :=
    fun hi => Function.update_of_ne hi _ _
  have hslot : leaf.setMetadata slot (.record false offset totalLength) slot =
      .record false offset totalLength :=
    Function.update_self ..
  have hrecord : ∀ {i o t}, leaf.setMetadata slot (.record false offset totalLength) i =
      .record true o t → i ≠ slot := by
    rintro i o t hi rfl
    cases hslot.symm.trans hi
  have hgone : ∀ {i}, i ≠ slot → ledger'.gone i = ledger.gone i :=
    fun hi => Function.update_of_ne hi _ _
  have hgone' : ledger'.gone slot = totalLength :=
    (Function.update_self ..).trans (by rw [hzero, Nat.zero_add])
  have hgones : ∀ i < ledger'.count, ledger'.gone i ≤ (ledger'.range i).len := by
    intro i hi
    by_cases hne : i = slot
    · rw [hne, hgone']
      exact hle
    · rw [hgone hne]
      exact h.gone i hi
  have hdeleted : ledger'.deleted = ledger.deleted + totalLength := deleted_deleted hlt
  have hcounts : Counts (setDeleteSize leaf.status (deletedSize leaf.status + totalLength)) high
      ledger'.count ledger'.block ledger'.deleted := by
    rw [hdeleted, h.counts.deleted]
    refine h.counts.setDeleteSize ?_
    calc ledger.deleted + totalLength
        = ledger'.deleted := hdeleted.symm
      _ ≤ ledger.block := deleted_le_block hgones
      _ < 2 ^ 22 := (counts_iff.mp h.counts).2.2.1
  refine ⟨hcounts, h.lengths, h.fits, h.area, h.apart, fun i hi => ?_, fun i o t hi => ?_,
    fun i o t hi => ?_, fun i hi => ?_, h.copied, hgones⟩
  · exact (hother (Nat.ne_of_gt (Nat.lt_of_lt_of_le hlt hi))).trans (h.vacant i hi)
  · have hne := hrecord hi
    rw [hgone hne]
    exact h.visible i o t ((hother hne).symm.trans hi)
  · exact h.published i o t ((hother (hrecord hi)).symm.trans hi)
  · have hne : i ≠ slot := by
      rintro rfl
      cases hslot.symm.trans hi
    rw [hgone hne]
    exact h.inserting i ((hother hne).symm.trans hi)

end Steps

section Runs

variable {split_threshold size maxKey : Nat} {leaf leaf' : Leaf} {ledger : Ledger} {high : Nat}
  {l l' : LeafPc} {e : Event} {s t : State}

def LeafPc.Holds (ledger : Ledger) (l : LeafPc) : Prop :=
  ∀ r, l.held = some r → r.slot < ledger.count ∧ (ledger.range r.slot).len = r.total ∧
    (r.offset ≠ 0 → r.offset = (ledger.range r.slot).offset)

theorem range_note {slot : Nat} (h : slot < ledger.count) :
    slot < (ledger.note e).count ∧ (ledger.note e).range slot = ledger.range slot := by
  cases e with
  | nothing => exact ⟨h, rfl⟩
  | reserved range => exact ⟨Nat.lt_succ_of_lt h, Function.update_of_ne (Nat.ne_of_lt h) _ _⟩
  | copied slot' len => exact ⟨h, rfl⟩
  | deleted slot' totalLength => exact ⟨h, rfl⟩

theorem LeafPc.Holds.note (h : l.Holds ledger) : l.Holds (ledger.note e) := by
  intro r hheld
  obtain ⟨hlt, hlen, hoffset⟩ := h r hheld
  obtain ⟨hlt', hrange⟩ := range_note (e := e) hlt
  exact ⟨hlt', by rw [hrange, hlen], by rwa [hrange]⟩

theorem LeafPc.holds_of_none (h : l.held = none) : l.Holds ledger := by
  intro r hheld
  cases h.symm.trans hheld

/-- The bounds under which the space of a leaf of `size` bytes stays in order: on the space
that its records may take, on its offsets and on its keys. -/
structure Bounded (split_threshold size maxKey : Nat) : Prop where
  space : split_threshold ≤ 2 ^ 20 + 32
  offsets : size < 2 ^ 28 + 8
  keys : maxKey ≤ 65528

theorem Change.keeps (hchange : Change split_threshold maxKey leaf l leaf' e l')
    (h : LedgerOk leaf ledger high) (hl : l.Holds ledger) (hT : split_threshold ≤ leaf.size)
    (hsize : leaf.size < 2 ^ 32)
    (hfew : split_threshold ≤ 48 ∨ Bounded split_threshold leaf.size maxKey) :
    LedgerOk leaf' (ledger.note e) high ∧ l'.Holds (ledger.note e) ∧ leaf'.size = leaf.size := by
  cases hchange with
  | quiet hheld =>
      refine ⟨h, ?_, rfl⟩
      rcases hheld with hnone | hsame
      · exact LeafPc.holds_of_none hnone
      · exact fun r hl' => hl r (hsame ▸ hl')
  | @reserve _ key_size recheck hroom hheld =>
      have hbounded := hfew.resolve_left (Nat.not_le.mpr (lt_of_le_of_lt least_le_room hroom))
      have hspace := hbounded.space
      have hmany := eight_mul_count_le h.lengths
      have htotal : 8 ≤ totalSize key_size := eight_le_totalSize
      rw [usedSpace, h.counts.count, h.counts.block] at hroom
      have hcounts : Counts (prepareForInsert leaf.status (totalSize key_size)) high
          (ledger.count + 1) (ledger.block + totalSize key_size) ledger.deleted :=
        h.counts.prepareForInsert (by omega) (by omega)
      have hoffset : (leaf.size + 2 ^ 32 - blockSize (prepareForInsert leaf.status
          (totalSize key_size))) % 2 ^ 32 = leaf.size - (ledger.block + totalSize key_size) := by
        rw [hcounts.block]
        omega
      rw [hoffset, h.counts.count] at hheld ⊢
      refine ⟨h.reserved hcounts htotal (by omega), fun r hl' => ?_, rfl⟩
      cases hheld.symm.trans hl'
      refine ⟨Nat.lt_succ_self _, ?_⟩
      simp only [Ledger.note, Function.update_self, implies_true, and_self]
  | @copied _ r key_size hlow hheld hkey htotal hstays =>
      have hbounded := hfew.resolve_left (Nat.not_le.mpr hlow)
      obtain ⟨hlt, hlen, hoffset⟩ := hl r hheld
      have hcopied : copiedSize key_size ≤ (ledger.range r.slot).len := by
        rw [copiedSize_eq (hkey.trans hbounded.keys), hlen, htotal]
      refine ⟨h.copied_slot hcopied, fun r' hl' => ?_, rfl⟩
      rcases hstays with hsame | hzero
      · cases hsame.symm.trans hl'
        exact ⟨hlt, hlen, hoffset⟩
      · cases hzero.symm.trans hl'
        exact ⟨hlt, hlen, fun hne => absurd rfl hne⟩
  | @finalize _ r hlow hheld hm hnone =>
      have hbounded := hfew.resolve_left (Nat.not_le.mpr hlow)
      obtain ⟨hlt, hlen, hoffset⟩ := hl r hheld
      have hbelow : (ledger.range r.slot).offset < 2 ^ 28 := by
        have harea := (h.area r.slot hlt).2
        have height := h.lengths r.slot hlt
        have hoffsets := hbounded.offsets
        omega
      refine ⟨h.finalized hm (hlen ▸ Nat.mod_le _ _) fun hvisible => ?_,
        LeafPc.holds_of_none hnone, rfl⟩
      rw [hoffset (of_decide_eq_true hvisible), Nat.mod_eq_of_lt hbelow]
  | delete hm hnone => exact ⟨h.deleted hm, LeafPc.holds_of_none hnone, rfl⟩

structure Inv (split_threshold size maxKey : Nat) (s : State) : Prop where
  size : s.leaf.size = size
  ledger : LedgerOk s.leaf s.ledger s.high
  holds : ∀ tid l, s.threads tid = some l → l.Holds s.ledger
  localOk : ∀ tid l, s.threads tid = some l → l.LocalOk split_threshold maxKey

theorem Inv.setThread {tid : Nat} {o : Option LeafPc} (h : Inv split_threshold size maxKey s)
    (ho : ∀ l ∈ o, l.Holds s.ledger ∧ l.LocalOk split_threshold maxKey) :
    Inv split_threshold size maxKey { s with threads := Function.update s.threads tid o } := by
  have hall : ∀ tid' l, Function.update s.threads tid o tid' = some l →
      l.Holds s.ledger ∧ l.LocalOk split_threshold maxKey := by
    intro tid' l hl
    by_cases hne : tid' = tid
    · rw [hne, Function.update_self] at hl
      exact ho l hl
    · rw [Function.update_of_ne hne] at hl
      exact ⟨h.holds tid' l hl, h.localOk tid' l hl⟩
  exact ⟨h.size, h.ledger, fun tid' l hl => (hall tid' l hl).1,
    fun tid' l hl => (hall tid' l hl).2⟩

def KeysUpTo (maxKey : Nat) : Action → Prop
  | .call _ (.insert key_size) => key_size ≤ maxKey
  | _ => True

theorem inv_next (hT : split_threshold ≤ size) (hsize : size < 2 ^ 32)
    (hfew : split_threshold ≤ 48 ∨ Bounded split_threshold size maxKey) {a : Action}
    (h : Inv split_threshold size maxKey s) (hkeys : KeysUpTo maxKey a)
    (hnext : next split_threshold s a = some t) : Inv split_threshold size maxKey t := by
  cases a with
  | call tid op =>
      simp only [next] at hnext
      split at hnext
      · cases hnext
        refine h.setThread fun l hl => ?_
        cases hl
        refine ⟨LeafPc.holds_of_none (by cases op <;> rfl), ?_⟩
        cases op with
        | insert key_size => exact ⟨hkeys, trivial⟩
        | delete => trivial
      · cases hnext
  | run tid answer found =>
      obtain ⟨l, hl, rfl⟩ := Option.map_eq_some_iff.mp hnext
      have hlocal := h.localOk tid l hl
      have hsz := h.size
      have hchange : Change split_threshold maxKey s.leaf l
          (leafStep split_threshold s.leaf answer found l).1
          (leafStep split_threshold s.leaf answer found l).2.1
          (leafStep split_threshold s.leaf answer found l).2.2 := leafStep_change hlocal
      obtain ⟨hledger, hholds, hsize'⟩ :=
        hchange.keeps h.ledger (h.holds tid l hl) (hsz ▸ hT) (hsz ▸ hsize) (hsz ▸ hfew)
      have hbase : Inv split_threshold size maxKey
          { s with
            leaf := (leafStep split_threshold s.leaf answer found l).1
            ledger := s.ledger.note (leafStep split_threshold s.leaf answer found l).2.1 } :=
        ⟨hsize'.trans hsz, hledger, fun tid' l' hl' => (h.holds tid' l' hl').note, h.localOk⟩
      refine hbase.setThread fun l' hl' => ?_
      cases hl'
      exact ⟨hholds, leafStep_localOk hlocal⟩
  | ret tid =>
      simp only [next] at hnext
      split at hnext
      · cases hnext
        exact h.setThread fun l hl => by cases hl
      · cases hnext

/-- A leaf in order on which no thread works. -/
def Fresh (s : State) : Prop :=
  LedgerOk s.leaf s.ledger s.high ∧ ∀ tid, s.threads tid = none

/-- The space of a leaf of `size` bytes is in order in every state of every run that inserts
keys of at most `maxKey` bytes. -/
def SpaceSafe (split_threshold size maxKey : Nat) : Prop :=
  ∀ s t, s.leaf.size = size → Fresh s →
    Reaches (next split_threshold) (fun _ => KeysUpTo maxKey) s t → SpaceOk t

theorem spaceSafe_of_bounded (hT : split_threshold ≤ size) (hsize : size < 2 ^ 32)
    (hfew : split_threshold ≤ 48 ∨ Bounded split_threshold size maxKey) :
    SpaceSafe split_threshold size maxKey := by
  rintro s t hs ⟨hledger, hnone⟩ hrun
  have hinit : Inv split_threshold size maxKey s := by
    refine ⟨hs, hledger, fun tid l hl => ?_, fun tid l hl => ?_⟩
    · cases (hnone tid).symm.trans hl
    · cases (hnone tid).symm.trans hl
  exact (hrun.invariant hinit fun _ _ _ hinv hkeys hnext =>
    inv_next hT hsize hfew hinv hkeys hnext).ledger.spaceOk

end Runs

section Filling

variable {split_threshold size maxKey key_size k : Nat} {s : State}

structure Filled (size k : Nat) (s : State) : Prop where
  size : s.leaf.size = size
  count : s.ledger.count = k
  counts : Counts s.leaf.status 0 k (k * 8) 0
  vacant : ∀ i, k ≤ i → s.leaf.metadata i = .vacant
  idle : ∀ tid, k ≤ tid → s.threads tid = none

def State.withThread (s : State) (tid : Nat) (l : LeafPc) : State :=
  { s with threads := Function.update s.threads tid (some l) }

theorem withThread_reaches {tid : Nat} {answer : Uniqueness} {l l' : LeafPc} {leaf' : Leaf}
    {e : Event} (hstep : leafStep split_threshold s.leaf answer none l = (leaf', e, l')) :
    Reaches (next split_threshold) (fun _ => KeysUpTo maxKey) (s.withThread tid l)
      (State.withThread { s with leaf := leaf', ledger := s.ledger.note e } tid l') := by
  refine (Reaches.refl _).tail (a := .run tid answer none) trivial ?_
  have hl : (s.withThread tid l).threads tid = some l := Function.update_self ..
  rw [next, hl, Option.map_some]
  change some { s with
    leaf := (leafStep split_threshold s.leaf answer none l).1
    ledger := s.ledger.note (leafStep split_threshold s.leaf answer none l).2.1
    threads := Function.update (Function.update s.threads tid (some l)) tid
      (some (leafStep split_threshold s.leaf answer none l).2.2) } = _
  rw [hstep, Function.update_idem]
  rfl

/-- Where the next eight bytes of the leaf are reserved. -/
def State.place (s : State) : Nat :=
  (s.leaf.size + 2 ^ 32 - blockSize (prepareForInsert s.leaf.status 8)) % 2 ^ 32

/-- The eight bytes at `place` have been reserved with slot `k` and a new status. -/
def State.reserving (s : State) (k : Nat) (word : BitVec 64) (place : Nat) : State :=
  { s with
    leaf := { s.leaf with status := word, metadata := s.leaf.setMetadata k .inserting }
    ledger := s.ledger.note (.reserved ⟨place, 8⟩) }

def State.reserved (s : State) (k : Nat) : State :=
  s.reserving k (prepareForInsert s.leaf.status 8) s.place

/-- Thread `k` reserves eight bytes, while another key may be being inserted. -/
theorem Filled.reserve (h : Filled size k s) (hkey : key_size ≤ maxKey)
    (htotal : totalSize key_size = 8) (hroom : k * 16 + 48 < split_threshold) :
    Reaches (next split_threshold) (fun _ => KeysUpTo maxKey) s
      ((s.reserved k).withThread k (.insert key_size (.copy ⟨k, 8, s.place, true⟩))) := by
  have hfrozen := isFrozen_eq_false h.counts
  have hroom' : ¬ split_threshold ≤ usedSpace s.leaf.status + 8 + totalSize key_size := by
    rw [usedSpace, h.counts.count, h.counts.block, htotal]
    omega
  have hvacant : s.leaf.metadata k = .vacant := h.vacant k (Nat.le_refl k)
  have hcall : Reaches (next split_threshold) (fun _ => KeysUpTo maxKey) s
      (s.withThread k (.insert key_size .retry)) :=
    (Reaches.refl s).tail (a := .call k (.insert key_size)) hkey
      (by rw [next, h.idle k (Nat.le_refl k)]; rfl)
  have hretry : leafStep split_threshold s.leaf .reCheck none (.insert key_size .retry) =
      (s.leaf, .nothing, .insert key_size (.checkUnique s.leaf.status)) := by
    simp only [leafStep, insertStep, hfrozen]
    rfl
  have hcheck : leafStep split_threshold s.leaf .reCheck none
      (.insert key_size (.checkUnique s.leaf.status)) =
        (s.leaf, .nothing, .insert key_size (.readMeta s.leaf.status true)) := by
    simp only [leafStep, insertStep, if_neg hroom']
    rfl
  have hread : leafStep split_threshold s.leaf .reCheck none
      (.insert key_size (.readMeta s.leaf.status true)) =
        (s.leaf, .nothing, .insert key_size (.reserve s.leaf.status true)) := by
    simp only [leafStep, insertStep, h.counts.count, if_pos hvacant]
    rfl
  have hreserve : leafStep split_threshold s.leaf .reCheck none
      (.insert key_size (.reserve s.leaf.status true)) =
        ((s.reserved k).leaf, .reserved ⟨s.place, 8⟩,
          .insert key_size (.copy ⟨k, 8, s.place, true⟩)) := by
    simp only [leafStep, insertStep, h.counts.count, hvacant, htotal, and_self, if_true]
    rfl
  exact hcall.trans <| (withThread_reaches hretry).trans <|
    (withThread_reaches hcheck).trans <| (withThread_reaches hread).trans <|
      withThread_reaches hreserve

/-- The empty leaf of `size` bytes. -/
def empty (size : Nat) : State where
  leaf := ⟨size, 0, fun _ => .vacant⟩
  ledger := ⟨0, fun _ => ⟨0, 0⟩, fun _ => 0, fun _ => 0⟩
  high := 0
  threads := fun _ => none

theorem filled_empty : Filled size 0 (empty size) :=
  ⟨rfl, rfl, counts_zero, fun _ _ => rfl, fun _ _ => rfl⟩

theorem fresh_empty (h : 32 ≤ size) : Fresh (empty size) := by
  refine ⟨?_, fun _ => rfl⟩
  constructor
  case counts => exact counts_zero
  case fits => exact h
  case vacant => exact fun _ _ => rfl
  case visible => exact fun _ _ _ hi => Metadata.noConfusion hi
  case published => exact fun _ _ _ hi => Metadata.noConfusion hi
  case inserting => exact fun _ hi => Metadata.noConfusion hi
  all_goals exact fun i hi => absurd hi (Nat.not_lt_zero i)

theorem Filled.reserving {word : BitVec 64} {place : Nat} {l : LeafPc} (h : Filled size k s)
    (hcounts : Counts word 0 (k + 1) ((k + 1) * 8) 0) :
    Filled size (k + 1) ((s.reserving k word place).withThread k l) := by
  refine ⟨h.size, congrArg (· + 1) h.count, hcounts, fun i hi => ?_, fun tid htid => ?_⟩
  · exact (Function.update_of_ne (Nat.ne_of_gt hi) _ _).trans (h.vacant i (Nat.le_of_lt hi))
  · exact (Function.update_of_ne (Nat.ne_of_gt htid) _ _).trans (h.idle tid (Nat.le_of_lt htid))

theorem Filled.succ {l : LeafPc} (h : Filled size k s) (hk : k + 1 < 2 ^ 16) :
    Filled size (k + 1) ((s.reserved k).withThread k l) := by
  have hcounts : Counts (prepareForInsert s.leaf.status 8) 0 (k + 1) (k * 8 + 8) 0 :=
    h.counts.prepareForInsert hk (by omega)
  rw [← Nat.succ_mul] at hcounts
  exact h.reserving hcounts

theorem exists_filled (hT : 2 ^ 20 + 32 < split_threshold) (hk : k < 2 ^ 16) :
    ∃ s, Reaches (next split_threshold) (fun _ => KeysUpTo maxKey) (empty size) s ∧
      Filled size k s := by
  induction k with
  | zero => exact ⟨_, Reaches.refl _, filled_empty⟩
  | succ k ih =>
      obtain ⟨s, hrun, hs⟩ := ih (Nat.lt_of_succ_lt hk)
      have htotal : totalSize 0 = 8 := rfl
      have hroom : k * 16 + 48 < split_threshold := by omega
      exact ⟨_, hrun.trans (hs.reserve (Nat.zero_le maxKey) htotal hroom), hs.succ hk⟩

/-- A leaf that takes more records than the record count can hold does not count them. -/
theorem not_spaceSafe_of_many (hT : 2 ^ 20 + 32 < split_threshold) (hsize : split_threshold ≤ size) :
    ¬ SpaceSafe split_threshold size maxKey := by
  intro hsafe
  have hfull : 2 ^ 16 - 1 < 2 ^ 16 := by decide
  obtain ⟨s, hrun, hs⟩ := exists_filled hT hfull
  have hroom : (2 ^ 16 - 1) * 16 + 48 < split_threshold := by omega
  have htotal : totalSize 0 = 8 := rfl
  have hok := hsafe _ _ rfl (fresh_empty (by omega))
    (hrun.trans (hs.reserve (Nat.zero_le maxKey) htotal hroom))
  have hlt : recordCount (s.reserved (2 ^ 16 - 1)).leaf.status < 2 ^ 16 := recordCount_lt
  have hcount : (s.reserved (2 ^ 16 - 1)).ledger.count = 2 ^ 16 - 1 + 1 :=
    congrArg (· + 1) hs.count
  have hfields : recordCount (s.reserved (2 ^ 16 - 1)).leaf.status =
      (s.reserved (2 ^ 16 - 1)).ledger.count := hok.fields.count
  rw [hfields, hcount] at hlt
  exact absurd hlt (by decide)

section Alone

theorem place_empty (h : 48 < size) (hsize : size < 2 ^ 32) : (empty size).place = size - 8 := by
  have hblock : blockSize (prepareForInsert 0 8) = 8 := by decide
  change (size + 2 ^ 32 - blockSize (prepareForInsert 0 8)) % 2 ^ 32 = _
  rw [hblock]
  omega

def copiedAlone (size key_size : Nat) : State :=
  { (empty size).reserved 0 with
    ledger := ((empty size).reserved 0).ledger.note (.copied 0 (copiedSize key_size)) }

theorem copiedAlone_reaches (hkey : key_size ≤ maxKey) (htotal : totalSize key_size = 8)
    (hroom : 48 < split_threshold) :
    Reaches (next split_threshold) (fun _ => KeysUpTo maxKey) (empty size)
      ((copiedAlone size key_size).withThread 0
        (.insert key_size (.recheckUnique ⟨0, 8, (empty size).place, true⟩))) := by
  have hcopy : leafStep split_threshold ((empty size).reserved 0).leaf .isUnique none
      (.insert key_size (.copy ⟨0, 8, (empty size).place, true⟩)) =
        (((empty size).reserved 0).leaf, .copied 0 (copiedSize key_size),
          .insert key_size (.recheckUnique ⟨0, 8, (empty size).place, true⟩)) := rfl
  exact (filled_empty.reserve hkey htotal (by omega)).trans (withThread_reaches hcopy)

theorem not_spaceSafe_of_wide (hT : 48 < split_threshold) (hsize : split_threshold ≤ size)
    (hbound : size < 2 ^ 32) (hkey : 65529 ≤ maxKey) : ¬ SpaceSafe split_threshold size maxKey := by
  intro hsafe
  have hok := hsafe _ _ rfl (fresh_empty (by omega)) (copiedAlone_reaches hkey (by decide) hT)
  have hend : (empty size).place + 65529 ≤ size := (hok.behind 0 Nat.zero_lt_one).2
  rw [place_empty (by omega) hbound] at hend
  omega

def publishedAlone (size : Nat) : Leaf :=
  { (copiedAlone size 0).leaf with
    metadata := (copiedAlone size 0).leaf.setMetadata 0
      (.record ((empty size).place ≠ 0) ((empty size).place % 2 ^ 28) 8) }

theorem not_spaceSafe_of_large (hT : 48 < split_threshold) (hsize : 2 ^ 28 + 8 ≤ size)
    (hbound : size < 2 ^ 32) : ¬ SpaceSafe split_threshold size maxKey := by
  intro hsafe
  have hplace : (empty size).place = size - 8 := place_empty (by omega) hbound
  have hcopied : Reaches (next split_threshold) (fun _ => KeysUpTo maxKey) (empty size) _ :=
    copiedAlone_reaches (Nat.zero_le maxKey) rfl hT
  have hfrozen : isFrozen (copiedAlone size 0).leaf.status = false :=
    show isFrozen (prepareForInsert 0 8) = false by decide
  have hrecheck : leafStep split_threshold (copiedAlone size 0).leaf .isUnique none
      (.insert 0 (.recheckUnique ⟨0, 8, (empty size).place, true⟩)) =
        ((copiedAlone size 0).leaf, .nothing,
          .insert 0 (.readStatus ⟨0, 8, (empty size).place, true⟩)) := by
    simp only [leafStep, insertStep, hfrozen]
    rfl
  have hstatus : leafStep split_threshold (copiedAlone size 0).leaf .isUnique none
      (.insert 0 (.readStatus ⟨0, 8, (empty size).place, true⟩)) =
        ((copiedAlone size 0).leaf, .nothing, .insert 0
          (.finalize ⟨0, 8, (empty size).place, true⟩ (copiedAlone size 0).leaf.status)) := by
    simp only [leafStep, insertStep, hfrozen]
    rfl
  have hpublish : leafStep split_threshold (copiedAlone size 0).leaf .isUnique none
      (.insert 0 (.finalize ⟨0, 8, (empty size).place, true⟩ (copiedAlone size 0).leaf.status)) =
        (publishedAlone size, .nothing, .done .ok) := by
    have hmetadata : (copiedAlone size 0).leaf.metadata 0 = .inserting := rfl
    simp only [leafStep, insertStep, hmetadata, and_self, if_true]
    rfl
  have hok := hsafe _ _ rfl (fresh_empty (by omega)) <|
    hcopied.trans <| (withThread_reaches hrecheck).trans <|
      (withThread_reaches hstatus).trans (withThread_reaches hpublish)
  have hmetadata : (publishedAlone size).metadata 0 = .record true ((size - 8) % 2 ^ 28) 8 := by
    have hne : size - 8 ≠ 0 := by omega
    have hrecord : (publishedAlone size).metadata 0 =
        .record ((empty size).place ≠ 0) ((empty size).place % 2 ^ 28) 8 := rfl
    rw [hrecord, hplace, decide_eq_true hne]
  have hoffset : (size - 8) % 2 ^ 28 = (empty size).place := hok.published 0 _ _ hmetadata
  rw [hplace] at hoffset
  omega

end Alone

/-- The space of a leaf is in order in every run exactly if no record fits in it or the bounds
hold: `split_threshold` keeps the record count in its 16 bits, the offsets take 28 bits, and
no key is so long that its padded length wraps. -/
theorem spaceSafe_iff (hT : split_threshold ≤ size) (hsize : size < 2 ^ 32) :
    SpaceSafe split_threshold size maxKey ↔
      split_threshold ≤ 48 ∨ Bounded split_threshold size maxKey := by
  refine ⟨fun hsafe => ?_, spaceSafe_of_bounded hT hsize⟩
  by_contra hnot
  obtain ⟨hlow, hnot⟩ := not_or.mp hnot
  have hlow := Nat.not_le.mp hlow
  refine hnot ⟨Nat.not_lt.mp fun hlt => not_spaceSafe_of_many hlt hT hsafe,
    Nat.not_le.mp fun hle => not_spaceSafe_of_large hlow hle hsize hsafe,
    Nat.not_lt.mp fun hlt => not_spaceSafe_of_wide hlow hT hsize hlt hsafe⟩

theorem spaceSafe_3072 : (3072 ≤ 4096 ∧ 4096 < 2 ^ 32) ∧ SpaceSafe 3072 4096 8 :=
  ⟨by decide, (spaceSafe_iff (by decide) (by decide)).mpr (.inr ⟨by decide, by decide, by decide⟩)⟩

theorem record_count_carries : ¬ SpaceSafe (2 ^ 21) (2 ^ 21) 0 :=
  not_spaceSafe_of_many (by decide) (Nat.le_refl _)

end Filling

end HashComp.BzTree.Space
