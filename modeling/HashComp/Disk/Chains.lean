import HashComp.Disk.Model

/-!
The chains of a store whose records leave memory: a search goes from an entry
down the links of the records until it is below the first address of the log.
No step takes a record out of the log or changes its key or its link, and an
entry that moves on leads back to where it was.
-/

namespace HashComp.Disk

open HashComp.Faster
open HashComp.RecordChain

variable {K : Type} {L : Layout K} {s s' : Store K} {a b c headAddress fuel : Nat} {i slot : Nat}
  {key k : K} {e : HashBucketEntry} {r : Record K} {o o' : Option (BitVec 64)} {v : BitVec 64}
  {touched : Option Nat}

section Searches

def Follows (s : Store K) (a b : Nat) : Prop :=
  Passes Record.previousAddress s.log (fun _ _ => True) a b

def Misses (s : Store K) (key : K) (a b : Nat) : Prop :=
  Passes Record.previousAddress s.log (fun _ r => r.key ≠ key) a b

def Searches (s : Store K) (key : K) (headAddress a b : Nat) : Prop :=
  Passes Record.previousAddress s.log (fun c r => headAddress ≤ c ∧ r.key ≠ key) a b

def Stored (s : Store K) (a : Nat) : Prop :=
  s.beginAddress ≤ a → ∃ r, s.log a = some r

theorem Misses.follows (h : Misses s key a b) : Follows s a b :=
  h.mono fun _ _ _ => trivial

theorem Misses.trans (h : Misses s key a b) (h' : Misses s key b c) : Misses s key a c :=
  Passes.trans h h'

theorem Searches.misses (h : Searches s key headAddress a b) : Misses s key a b :=
  h.mono fun _ _ hp => hp.2

inductive Newest (s : Store K) (key : K) (a : Nat) : Option Nat → Prop where
  | found {b : Nat} {r : Record K} (h : Misses s key a b) (hb : s.beginAddress ≤ b)
      (hr : s.log b = some r) (hkey : r.key = key) : Newest s key a (some b)
  | absent {b : Nat} (h : Misses s key a b) (hb : b < s.beginAddress) : Newest s key a none

theorem Newest.unique {m n : Option Nat} (h : Newest s key a m) (h' : Newest s key a n) :
    m = n := by
  have hends : ∀ {b c : Nat}, Misses s key a b → Misses s key a c →
      (∀ r, s.log c = some r → s.beginAddress ≤ c → r.key = key) → s.beginAddress ≤ c → b < c →
      False := by
    intro b c hb hc hkey hle hlt
    obtain ⟨-, hrest⟩ := hb.split hc (Nat.le_of_lt hlt)
    obtain ⟨r, hr, hne, -⟩ := hrest.head (Nat.ne_of_gt hlt)
    exact hne (hkey r hr hle)
  have hat : ∀ {c : Nat} {r r' : Record K}, s.log c = some r → r.key = key → s.log c = some r' →
      r'.key = key := by
    intro c r r' hr hkey hr'
    rw [hr] at hr'
    cases hr'
    exact hkey
  cases h with
  | @found b r h hb hr hkey =>
      cases h' with
      | @found c r' h' hc hr' hkey' =>
          rcases Nat.lt_trichotomy b c with hlt | rfl | hlt
          · exact (hends h h' (fun _ hx _ => hat hr' hkey' hx) hc hlt).elim
          · rfl
          · exact (hends h' h (fun _ hx _ => hat hr hkey hx) hb hlt).elim
      | absent h' hc =>
          exact (hends h' h (fun _ hx _ => hat hr hkey hx) hb (Nat.lt_of_lt_of_le hc hb)).elim
  | absent h hb =>
      cases h' with
      | found h' hc hr' hkey' =>
          exact (hends h h' (fun _ hx _ => hat hr' hkey' hx) hc (Nat.lt_of_lt_of_le hb hc)).elim
      | absent => rfl

/-- What lies before an address that a search gets to has no record of the key. -/
theorem Newest.before {m : Option Nat} (h : Newest s key b m) (hm : Misses s key a b) :
    Newest s key a m := by
  cases h with
  | found h hb hr hkey => exact .found (hm.trans h) hb hr hkey
  | absent h hb => exact .absent (hm.trans h) hb

variable [DecidableEq K]

theorem traceBackForKeyMatch_spec (hlinks : ∀ a r, s.log a = some r →
      r.previousAddress < a ∧ Stored s r.previousAddress)
    (hhead : s.beginAddress ≤ headAddress) (ha : Stored s a) (hfuel : a < fuel) :
    ∃ found, traceBackForKeyMatch s key headAddress fuel a = some found ∧
      Searches s key headAddress a found ∧ Stored s found ∧
      (found < headAddress ∨ headAddress ≤ found ∧ ∃ r, s.log found = some r ∧ r.key = key) := by
  induction fuel generalizing a with
  | zero => omega
  | succ fuel ih =>
      unfold traceBackForKeyMatch
      by_cases hle : headAddress ≤ a
      · obtain ⟨r, hr⟩ := ha (Nat.le_trans hhead hle)
        simp only [if_pos hle, hr]
        by_cases hkey : key = r.key
        · exact ⟨a, if_pos hkey, .refl a, ha, Or.inr ⟨hle, r, hr, hkey.symm⟩⟩
        · obtain ⟨hlt, hstored⟩ := hlinks a r hr
          obtain ⟨found, htrace, hsearch, hfound⟩ := ih hstored (by omega)
          refine ⟨found, ?_, .step hr ⟨hle, Ne.symm hkey⟩ hlt hsearch, hfound⟩
          rw [if_neg hkey, htrace]
      · exact ⟨a, if_neg hle, .refl a, ha, Or.inl (Nat.not_le.mp hle)⟩

end Searches

section Stores

structure Sound (s : Store K) : Prop where
  begin : kInvalidAddress < s.beginAddress
  head : s.beginAddress ≤ s.headAddress
  safe : s.headAddress ≤ s.safeReadOnlyAddress
  readOnly : s.safeReadOnlyAddress ≤ s.readOnlyAddress
  tail : s.readOnlyAddress ≤ s.tailAddress
  free : ∀ a, s.tailAddress ≤ a → s.log a = none
  low : ∀ a r, s.log a = some r → s.beginAddress ≤ a
  settled : ∀ b, Settled (s.buckets b)
  links : ∀ a r, s.log a = some r → r.previousAddress < a ∧ Stored s r.previousAddress
  entries : ∀ b i e, InSlot (s.buckets b) i e → Stored s e.address

theorem sound_new : Sound (Store.new : Store K) := by
  have hempty : ∀ b i e, ¬ InSlot ((Store.new : Store K).buckets b) i e := by
    intro b i e he
    change InSlot ([] ++ List.replicate kNumEntries none) i e at he
    exact not_inSlot_nil (inSlot_append_iff.mp he)
  exact ⟨(by decide : kInvalidAddress < kCacheLineBytes), Nat.le_refl _, Nat.le_refl _,
    Nat.le_refl _, Nat.le_refl _, fun _ _ => rfl, nofun,
    fun b => ⟨fun i e he => absurd he (hempty b i e),
      fun i j e e' he => absurd he (hempty b i e)⟩, nofun,
    fun b i e he => absurd he (hempty b i e)⟩

theorem Sound.search_spec [DecidableEq K] (hs : Sound s) (key : K)
    (hhead : s.beginAddress ≤ headAddress) (ha : Stored s a) :
    ∃ found, search s key headAddress a = some found ∧ Searches s key headAddress a found ∧
      Stored s found ∧
      (found < headAddress ∨ headAddress ≤ found ∧ ∃ r, s.log found = some r ∧ r.key = key) :=
  traceBackForKeyMatch_spec hs.links hhead ha (Nat.lt_succ_self a)

theorem Sound.lt_tail (hs : Sound s) (hr : s.log a = some r) : a < s.tailAddress := by
  by_contra hle
  rw [hs.free a (Nat.not_lt.mp hle)] at hr
  cases hr

theorem Sound.stored_lt_tail (hs : Sound s) (ha : Stored s a) : a < s.tailAddress := by
  rcases Nat.lt_or_ge a s.beginAddress with hlt | hle
  · have := hs.head
    have := hs.safe
    have := hs.readOnly
    have := hs.tail
    omega
  · obtain ⟨r, hr⟩ := ha hle
    exact hs.lt_tail hr

theorem Follows.stored (hs : Sound s) (h : Follows s a b) (ha : Stored s a) : Stored s b := by
  induction h with
  | refl => exact ha
  | step hr _ _ _ ih => exact ih (hs.links _ _ hr).2

def OnChain (L : Layout K) (s : Store K) (key : K) (a : Nat) : Prop :=
  ∃ i e, InSlot (s.buckets (L.idx key)) i e ∧ e.tag = L.tag key ∧ Follows s e.address a

structure Unlinked (s : Store K) (a : Nat) : Prop where
  entries : ∀ b i e, InSlot (s.buckets b) i e → e.address ≠ a
  links : ∀ c r, s.log c = some r → r.previousAddress ≠ a

theorem OnChain.linked (h : OnChain L s key a) : ¬ Unlinked s a := by
  obtain ⟨i, e, he, -, hfollows⟩ := h
  intro hno
  rcases hfollows.last with heq | ⟨c, r, hr, heq⟩
  · exact hno.entries _ i e he heq
  · exact hno.links c r hr heq

theorem OnChain.follows (h : OnChain L s key a) (hf : Follows s a b) : OnChain L s key b := by
  obtain ⟨i, e, he, htag, hfollows⟩ := h
  exact ⟨i, e, he, htag, hfollows.trans hf⟩

theorem OnChain.stored (hs : Sound s) (h : OnChain L s key a) : Stored s a := by
  obtain ⟨i, e, he, -, hfollows⟩ := h
  exact hfollows.stored hs (hs.entries _ i e he)

theorem OnChain.from_entry (hs : Sound s) (h : OnChain L s key a)
    (he : InSlot (s.buckets (L.idx key)) slot e) (htag : e.tag = L.tag key) :
    Follows s e.address a := by
  obtain ⟨i, e', he', htag', hfollows⟩ := h
  have hi := (hs.settled _).unique _ _ _ _ he he' (htag.trans htag'.symm)
  subst hi
  have heq := he.unique he'
  subst heq
  exact hfollows

inductive Holds (L : Layout K) (s : Store K) (key : K) : Option (BitVec 64) → Prop where
  | found {i a : Nat} {e : HashBucketEntry} {r : Record K}
      (he : InSlot (s.buckets (L.idx key)) i e) (htag : e.tag = L.tag key)
      (h : Newest s key e.address (some a)) (hr : s.log a = some r) : Holds L s key (some r.value)
  | absent {i : Nat} {e : HashBucketEntry} (he : InSlot (s.buckets (L.idx key)) i e)
      (htag : e.tag = L.tag key) (h : Newest s key e.address none) : Holds L s key none
  | untagged (h : Untagged (L.tag key) (s.buckets (L.idx key))) : Holds L s key none

end Stores

section Changes

/-- What a step may do to a store: `touched` is the one record that it writes or
links. -/
structure Change (s s' : Store K) (touched : Option Nat) : Prop where
  begin : s'.beginAddress = s.beginAddress
  head : s.headAddress ≤ s'.headAddress
  log : ∀ a r, s.log a = some r →
    ∃ r', s'.log a = some r' ∧ r'.key = r.key ∧ r'.previousAddress = r.previousAddress
  same : ∀ a r, s.log a = some r → some a ≠ touched → s'.log a = some r
  slots : ∀ b i e, InSlot (s.buckets b) i e →
    ∃ e', InSlot (s'.buckets b) i e' ∧ e'.tag = e.tag ∧ Follows s' e'.address e.address
  unlinked : ∀ a r, s.log a = some r → some a ≠ touched → Unlinked s a → Unlinked s' a

theorem Change.follows (h : Change s s' touched) (hf : Follows s a b) : Follows s' a b := by
  refine hf.map fun c r hr _ => ?_
  obtain ⟨r', hr', -, hprev⟩ := h.log c r hr
  exact ⟨r', hr', trivial, hprev⟩

theorem Change.misses (h : Change s s' touched) (hm : Misses s key a b) : Misses s' key a b := by
  refine hm.map fun c r hr hne => ?_
  obtain ⟨r', hr', hkey, hprev⟩ := h.log c r hr
  exact ⟨r', hr', hkey ▸ hne, hprev⟩

theorem Change.onChain (h : Change s s' touched) (ho : OnChain L s key a) :
    OnChain L s' key a := by
  obtain ⟨i, e, he, htag, hfollows⟩ := ho
  obtain ⟨e', he', htag', hfollows'⟩ := h.slots _ i e he
  exact ⟨i, e', he', htag'.trans htag, hfollows'.trans (h.follows hfollows)⟩

theorem Change.newest {m : Option Nat} (h : Change s s' touched) (hn : Newest s key a m) :
    Newest s' key a m := by
  cases hn with
  | found hm hb hr hkey =>
      obtain ⟨r', hr', hkey', -⟩ := h.log _ _ hr
      exact .found (h.misses hm) (h.begin ▸ hb) hr' (hkey'.trans hkey)
  | absent hm hb => exact .absent (h.misses hm) (by rw [h.begin]; exact hb)

theorem Change.of_same (hbegin : s'.beginAddress = s.beginAddress)
    (hhead : s.headAddress ≤ s'.headAddress) (hlog : s'.log = s.log)
    (hbuckets : s'.buckets = s.buckets) : Change s s' none where
  begin := hbegin
  head := hhead
  log := fun _ r hr => ⟨r, by rw [hlog]; exact hr, rfl, rfl⟩
  same := by
    intro a r hr _
    rw [hlog]
    exact hr
  slots := fun _ _ e he => ⟨e, by rw [hbuckets]; exact he, rfl, .refl _⟩
  unlinked := by
    intro a r _ _ hno
    constructor
    · rw [hbuckets]
      exact hno.entries
    · rw [hlog]
      exact hno.links

theorem Change.refl (s : Store K) : Change s s none :=
  .of_same rfl (Nat.le_refl _) rfl rfl

def setRecord (s : Store K) (a : Nat) (r : Record K) : Store K :=
  { s with log := Function.update s.log a (some r) }

theorem setRecord_log_self : (setRecord s a r).log a = some r :=
  Function.update_self ..

theorem setRecord_log_of_ne (h : c ≠ a) : (setRecord s a r).log c = s.log c :=
  Function.update_of_ne h ..

theorem change_setRecord (r' : Record K) (hr : s.log a = some r) (hkey : r'.key = r.key)
    (hprev : r'.previousAddress = r.previousAddress) : Change s (setRecord s a r') (some a) where
  begin := rfl
  head := Nat.le_refl _
  log := by
    intro c rc hc
    by_cases hca : c = a
    · subst c
      rw [hr] at hc
      cases hc
      exact ⟨r', setRecord_log_self, hkey, hprev⟩
    · exact ⟨rc, (setRecord_log_of_ne hca).trans hc, rfl, rfl⟩
  same := by
    intro c rc hc hne
    have hca : c ≠ a := fun h => hne (congrArg some h)
    exact (setRecord_log_of_ne hca).trans hc
  slots := fun _ _ e he => ⟨e, he, rfl, .refl _⟩
  unlinked := by
    intro c _ _ _ hno
    refine ⟨hno.entries, fun d rd hd => ?_⟩
    by_cases hda : d = a
    · subst d
      rw [setRecord_log_self] at hd
      cases hd
      rw [hprev]
      exact hno.links _ r hr
    · rw [setRecord_log_of_ne hda] at hd
      exact hno.links d rd hd

theorem Unlinked.setRecord {r' : Record K} (h : Unlinked s c) (hr : s.log a = some r)
    (hprev : r'.previousAddress = r.previousAddress) : Unlinked (setRecord s a r') c where
  entries := h.entries
  links := by
    intro d rd hd
    by_cases hda : d = a
    · subst d
      rw [setRecord_log_self] at hd
      cases hd
      rw [hprev]
      exact h.links _ r hr
    · rw [setRecord_log_of_ne hda] at hd
      exact h.links d rd hd

theorem Sound.setRecord {r' : Record K} (hs : Sound s) (hr : s.log a = some r)
    (hprev : r'.previousAddress = r.previousAddress) : Sound (setRecord s a r') := by
  have hstored : ∀ c, Stored s c → Stored (Disk.setRecord s a r') c := by
    intro c hc hle
    obtain ⟨rc, hrc⟩ := hc hle
    by_cases hca : c = a
    · subst c
      exact ⟨r', setRecord_log_self⟩
    · exact ⟨rc, (setRecord_log_of_ne hca).trans hrc⟩
  refine ⟨hs.begin, hs.head, hs.safe, hs.readOnly, hs.tail, fun c hc => ?_, fun c rc hrc => ?_,
    hs.settled, fun c rc hrc => ?_, fun b i e he => hstored _ (hs.entries b i e he)⟩
  · have hca : c ≠ a := by
      rintro rfl
      rw [hs.free c hc] at hr
      cases hr
    exact (setRecord_log_of_ne hca).trans (hs.free c hc)
  · by_cases hca : c = a
    · subst c
      exact hs.low _ r hr
    · rw [setRecord_log_of_ne hca] at hrc
      exact hs.low c rc hrc
  · by_cases hca : c = a
    · subst c
      rw [setRecord_log_self] at hrc
      cases hrc
      rw [hprev]
      exact ⟨(hs.links _ r hr).1, hstored _ (hs.links _ r hr).2⟩
    · rw [setRecord_log_of_ne hca] at hrc
      exact ⟨(hs.links c rc hrc).1, hstored _ (hs.links c rc hrc).2⟩

theorem setValue_eq (hr : s.log a = some r) (v : BitVec 64) :
    setValue s a v = some (setRecord s a { r with value := v }) := by
  rw [setValue, hr]
  rfl

theorem invalidate_eq (hr : s.log a = some r) :
    invalidate s a = setRecord s a { r with invalid := true } := by
  rw [invalidate, hr]
  rfl

/-- A record that nothing leads to yet. -/
structure Fresh (s : Store K) (key : K) (expected : HashBucketEntry) (a : Nat)
    (r : Record K) : Prop where
  record : s.log a = some r
  key : r.key = key
  previous : r.previousAddress = expected.address
  begin : s.beginAddress ≤ a
  unlinked : Unlinked s a

section Allocate

variable {expected : HashBucketEntry}

theorem begin_le_blockAllocate (hs : Sound s) : s.beginAddress ≤ blockAllocate s := by
  have := hs.head
  have := hs.safe
  have := hs.readOnly
  have := hs.tail
  have := tailAddress_le_blockAllocate s
  omega

theorem allocate_log_of_ne (h : c ≠ blockAllocate s) :
    (allocate s key v expected).log c = s.log c :=
  Function.update_of_ne h ..

theorem allocate_log_self : (allocate s key v expected).log (blockAllocate s) =
    some ⟨key, v, 1, expected.address, false⟩ :=
  Function.update_self ..

theorem ne_blockAllocate (hs : Sound s) (hr : s.log a = some r) : a ≠ blockAllocate s := by
  have := hs.lt_tail hr
  have := tailAddress_le_blockAllocate s
  omega

theorem change_allocate (hs : Sound s) (key : K) (v : BitVec 64)
    (hexpected : OnChain L s key expected.address) : Change s (allocate s key v expected) none where
  begin := rfl
  head := Nat.le_refl _
  log := fun _ r hr => ⟨r, (allocate_log_of_ne (ne_blockAllocate hs hr)).trans hr, rfl, rfl⟩
  same := fun _ r hr _ => (allocate_log_of_ne (ne_blockAllocate hs hr)).trans hr
  slots := fun _ _ e he => ⟨e, he, rfl, .refl _⟩
  unlinked := by
    intro a _ _ _ hno
    refine ⟨hno.entries, fun c rc hc => ?_⟩
    by_cases hca : c = blockAllocate s
    · subst c
      rw [allocate_log_self] at hc
      cases hc
      rintro rfl
      exact hexpected.linked hno
    · rw [allocate_log_of_ne hca] at hc
      exact hno.links c rc hc

theorem Sound.constructRecord (hs : Sound s) (hprev : Stored s r.previousAddress) :
    Sound (constructRecord s (blockAllocate s) r) := by
  have htail := tailAddress_le_blockAllocate s
  have hsize : 0 < recordSize := by decide
  have hold : ∀ {c : Nat}, c ≠ blockAllocate s →
      (Faster.constructRecord s (blockAllocate s) r).log c = s.log c :=
    fun h => Function.update_of_ne h ..
  have hself : (Faster.constructRecord s (blockAllocate s) r).log (blockAllocate s) = some r :=
    Function.update_self ..
  have hstored : ∀ {c : Nat}, Stored s c →
      Stored (Faster.constructRecord s (blockAllocate s) r) c := by
    intro c hc hle
    obtain ⟨rc, hrc⟩ := hc hle
    exact ⟨rc, (hold (ne_blockAllocate hs hrc)).trans hrc⟩
  refine ⟨hs.begin, hs.head, hs.safe, hs.readOnly, ?_, fun c hc => ?_, fun c rc hc => ?_,
    hs.settled, fun c rc hc => ?_, fun b i e he => hstored (hs.entries b i e he)⟩
  · have := hs.tail
    change s.readOnlyAddress ≤ blockAllocate s + recordSize
    omega
  · change blockAllocate s + recordSize ≤ c at hc
    rw [hold (by omega)]
    exact hs.free c (by omega)
  · by_cases hca : c = blockAllocate s
    · subst c
      exact begin_le_blockAllocate hs
    · rw [hold hca] at hc
      exact hs.low c rc hc
  · by_cases hca : c = blockAllocate s
    · subst c
      rw [hself] at hc
      cases hc
      exact ⟨Nat.lt_of_lt_of_le (hs.stored_lt_tail hprev) htail, hstored hprev⟩
    · rw [hold hca] at hc
      exact ⟨(hs.links c rc hc).1, hstored (hs.links c rc hc).2⟩

theorem Sound.allocate (hs : Sound s) (hexpected : Stored s expected.address) :
    Sound (allocate s key v expected) :=
  hs.constructRecord hexpected

theorem fresh_allocate (hs : Sound s) (hexpected : Stored s expected.address) :
    Fresh (allocate s key v expected) key expected (blockAllocate s)
      ⟨key, v, 1, expected.address, false⟩ where
  record := allocate_log_self
  key := rfl
  previous := rfl
  begin := begin_le_blockAllocate hs
  unlinked := by
    have htail := tailAddress_le_blockAllocate s
    refine ⟨fun b i e he => ?_, fun c rc hc => ?_⟩
    · have := hs.stored_lt_tail (hs.entries b i e he)
      omega
    · by_cases hca : c = blockAllocate s
      · subst c
        rw [allocate_log_self] at hc
        cases hc
        have := hs.stored_lt_tail hexpected
        change expected.address ≠ _
        omega
      · rw [allocate_log_of_ne hca] at hc
        have := (hs.links c rc hc).1
        have := hs.lt_tail hc
        omega

end Allocate

theorem change_setBucket {bucket : Bucket}
    (hkeep : ∀ i e, InSlot (s.buckets b) i e → InSlot bucket i e)
    (hnew : ∀ i e, InSlot bucket i e →
      InSlot (s.buckets b) i e ∨ e.address = kInvalidAddress)
    (hinvalid : ∀ r, s.log kInvalidAddress ≠ some r) :
    Change s (setBucket s b bucket) none where
  begin := rfl
  head := Nat.le_refl _
  log := fun _ r hr => ⟨r, hr, rfl, rfl⟩
  same := fun _ _ hr _ => hr
  slots := by
    intro b' i e he
    refine ⟨e, ?_, rfl, .refl _⟩
    by_cases hb : b' = b
    · subst b'
      rw [setBucket_same]
      exact hkeep i e he
    · rw [setBucket_of_ne hb]
      exact he
  unlinked := by
    intro a r hr _ hno
    refine ⟨fun b' i e he => ?_, hno.links⟩
    by_cases hb : b' = b
    · subst b'
      rw [setBucket_same] at he
      rcases hnew i e he with he | heq
      · exact hno.entries _ i e he
      · rw [heq]
        rintro rfl
        exact hinvalid r hr
    · rw [setBucket_of_ne hb] at he
      exact hno.entries b' i e he

theorem Sound.setBucket {bucket : Bucket} (hs : Sound s) (hsettled : Settled bucket)
    (hstored : ∀ i e, InSlot bucket i e → Stored s e.address) : Sound (setBucket s b bucket) := by
  refine ⟨hs.begin, hs.head, hs.safe, hs.readOnly, hs.tail, hs.free, hs.low, fun b' => ?_,
    hs.links, fun b' i e he => ?_⟩
  · by_cases hb : b' = b
    · subst b'
      rw [setBucket_same]
      exact hsettled
    · rw [setBucket_of_ne hb]
      exact hs.settled b'
  · by_cases hb : b' = b
    · subst b'
      rw [setBucket_same] at he
      exact hstored i e he
    · rw [setBucket_of_ne hb] at he
      exact hs.entries b' i e he

section Publish

variable {expected : HashBucketEntry}

theorem change_publish (he : InSlot (s.buckets b) slot expected) (hnew : Fresh s key expected a r)
    (hlt : expected.address < a) :
    Change s (replaceEntry s b slot (some ⟨a, expected.tag, false⟩)) (some a) where
  begin := rfl
  head := Nat.le_refl _
  log := fun _ r hr => ⟨r, hr, rfl, rfl⟩
  same := fun _ _ hr _ => hr
  slots := by
    intro b' i e he'
    by_cases hat : b' = b ∧ i = slot
    · obtain ⟨rfl, rfl⟩ := hat
      have heq := he.unique he'
      subst heq
      refine ⟨_, (inSlot_replaceEntry_iff he.lt_length).mpr (Or.inl ⟨rfl, rfl, rfl⟩), rfl, ?_⟩
      refine .step hnew.record trivial ?_ ?_
      · rwa [hnew.previous]
      · rw [hnew.previous]
        exact .refl _
    · exact ⟨e, (inSlot_replaceEntry_iff he.lt_length).mpr (Or.inr ⟨hat, he'⟩), rfl, .refl _⟩
  unlinked := by
    intro c _ _ hne hno
    refine ⟨fun b' i e he' => ?_, hno.links⟩
    rcases (inSlot_replaceEntry_iff he.lt_length).mp he' with ⟨-, -, heq⟩ | ⟨-, he'⟩
    · cases heq
      rintro rfl
      exact hne rfl
    · exact hno.entries b' i e he'

theorem Sound.publish (hs : Sound s) (he : InSlot (s.buckets b) slot expected)
    (hnew : Fresh s key expected a r) :
    Sound (replaceEntry s b slot (some ⟨a, expected.tag, false⟩)) := by
  refine hs.setBucket ((hs.settled b).replace he rfl rfl) fun i e he' => ?_
  rcases (inSlot_set_iff he.lt_length).mp he' with ⟨-, heq⟩ | ⟨-, he'⟩
  · cases heq
    exact fun _ => ⟨r, hnew.record⟩
  · exact hs.entries b i e he'

end Publish

structure EntryAt (L : Layout K) (s s' : Store K) (key : K) (slot : Nat)
    (expected : HashBucketEntry) : Prop where
  sound : Sound s'
  change : Change s s' none
  slot : InSlot (s'.buckets (L.idx key)) slot expected
  tag : expected.tag = L.tag key
  keeps : ∀ b i e, InSlot (s.buckets b) i e → InSlot (s'.buckets b) i e
  new : ∀ b i e, InSlot (s'.buckets b) i e →
    InSlot (s.buckets b) i e ∨ e.address < s.beginAddress

theorem findOrCreateEntry_step (hs : Sound s) (key : K) :
    ∃ slot expected bucket,
      findOrCreateEntry (L.tag key) (s.buckets (L.idx key)) = some (slot, expected, bucket) ∧
      EntryAt L s (setBucket s (L.idx key) bucket) key slot expected := by
  rcases findOrCreateEntry_spec (L.tag key) (hs.settled (L.idx key)).final with
    ⟨i, e, he, htag, hfind⟩ | ⟨hno, i, bucket', hins, hfind⟩
  · refine ⟨i, e, _, hfind, ?_⟩
    rw [setBucket_self]
    exact ⟨hs, .refl s, he, htag, fun _ _ _ => id, fun _ _ _ => Or.inl⟩
  · have hnew : ∀ j e, InSlot bucket' j e →
        InSlot (s.buckets (L.idx key)) j e ∨ e.address = kInvalidAddress := by
      intro j e he
      by_cases hj : j = i
      · subst j
        have heq := he.unique hins.slot
        subst heq
        exact Or.inr rfl
      · exact Or.inl ((hins.others j e hj).mp he)
    have hold : ∀ j e, InSlot (s.buckets (L.idx key)) j e → InSlot bucket' j e := by
      intro j e he
      have hj : j ≠ i := by
        rintro rfl
        exact hins.free e he
      exact (hins.others j e hj).mpr he
    refine ⟨i, freshEntry (L.tag key), bucket', hfind, ?_, ?_, ?_, rfl, ?_, ?_⟩
    · refine hs.setBucket ((hs.settled _).installed hno rfl hins) fun j e he => ?_
      rcases hnew j e he with he | heq
      · exact hs.entries _ j e he
      · intro hle
        have := hs.begin
        omega
    · exact change_setBucket hold hnew fun r hr =>
        absurd (hs.low _ r hr) (Nat.not_le.mpr hs.begin)
    · rw [setBucket_same]
      exact hins.slot
    · intro b j e he
      by_cases hb : b = L.idx key
      · subst b
        rw [setBucket_same]
        exact hold j e he
      · rwa [setBucket_of_ne hb]
    · intro b j e he
      by_cases hb : b = L.idx key
      · subst b
        rw [setBucket_same] at he
        refine (hnew j e he).imp_right fun heq => ?_
        rw [heq]
        exact hs.begin
      · rw [setBucket_of_ne hb] at he
        exact Or.inl he

section Contents

variable {expected : HashBucketEntry}

theorem Holds.keep (h : Holds L s key o) (hc : Change s s' touched)
    (hunlinked : ∀ a, touched = some a → Unlinked s a)
    (hkeeps : ∀ b i e, InSlot (s.buckets b) i e → InSlot (s'.buckets b) i e)
    (hnew : ∀ b i e, InSlot (s'.buckets b) i e →
      InSlot (s.buckets b) i e ∨ e.address < s.beginAddress) : Holds L s' key o := by
  cases h with
  | @found i a e r he htag h hr =>
      have hchain : OnChain L s key a := by
        cases h with
        | found hm => exact ⟨i, e, he, htag, hm.follows⟩
      exact .found (hkeeps _ _ _ he) htag (hc.newest h)
        (hc.same a r hr fun heq => hchain.linked (hunlinked a heq.symm))
  | absent he htag h => exact .absent (hkeeps _ _ _ he) htag (hc.newest h)
  | untagged h =>
      by_cases hstill : Untagged (L.tag key) (s'.buckets (L.idx key))
      · exact .untagged hstill
      · unfold Untagged at hstill
        push Not at hstill
        obtain ⟨i, e, he, htag⟩ := hstill
        rcases hnew _ i e he with hold | hlt
        · exact absurd htag (h i e hold)
        · exact .absent he htag (.absent (.refl _) (by rwa [hc.begin]))

theorem holds_publish (he : InSlot (s.buckets (L.idx key)) slot expected)
    (hnew : Fresh s key expected a r) :
    Holds L (replaceEntry s (L.idx key) slot (some ⟨a, L.tag key, false⟩)) key (some r.value) :=
  .found ((inSlot_replaceEntry_iff he.lt_length).mpr (Or.inl ⟨rfl, rfl, rfl⟩)) rfl
    (.found (.refl a) hnew.begin hnew.record hnew.key) hnew.record

theorem Holds.publish (h : Holds L s k o) (hne : k ≠ key)
    (he : InSlot (s.buckets (L.idx key)) slot expected) (htag : expected.tag = L.tag key)
    (hnew : Fresh s key expected a r) (hlt : expected.address < a) :
    Holds L (replaceEntry s (L.idx key) slot (some ⟨a, L.tag key, false⟩)) k o := by
  have hc : Change s (replaceEntry s (L.idx key) slot (some ⟨a, L.tag key, false⟩)) (some a) := by
    rw [← htag]
    exact change_publish he hnew hlt
  have hpass : Misses (replaceEntry s (L.idx key) slot (some ⟨a, L.tag key, false⟩)) k a
      expected.address := by
    refine .step hnew.record ?_ ?_ ?_
    · rw [hnew.key]
      exact hne.symm
    · rwa [hnew.previous]
    · rw [hnew.previous]
      exact .refl _
  -- the entry of `k` is the one exchanged, or one that has stayed
  have hentry : ∀ {i : Nat} {e : HashBucketEntry} {m : Option Nat},
      InSlot (s.buckets (L.idx k)) i e → e.tag = L.tag k → Newest s k e.address m →
      ∃ i e, InSlot ((replaceEntry s (L.idx key) slot
        (some ⟨a, L.tag key, false⟩)).buckets (L.idx k)) i e ∧ e.tag = L.tag k ∧
        Newest (replaceEntry s (L.idx key) slot (some ⟨a, L.tag key, false⟩)) k e.address m := by
    intro i e m he' htag' h
    by_cases hat : L.idx k = L.idx key ∧ i = slot
    · obtain ⟨hidx, rfl⟩ := hat
      rw [hidx] at he'
      have heq := he.unique he'
      subst heq
      exact ⟨_, _, (inSlot_replaceEntry_iff he.lt_length).mpr (Or.inl ⟨hidx, rfl, rfl⟩),
        htag.symm.trans htag', (hc.newest h).before hpass⟩
    · exact ⟨_, _, (inSlot_replaceEntry_iff he.lt_length).mpr (Or.inr ⟨hat, he'⟩), htag',
        hc.newest h⟩
  cases h with
  | found he' htag' h hr =>
      obtain ⟨i, e, hslot, htag'', hn⟩ := hentry he' htag' h
      exact .found hslot htag'' hn hr
  | absent he' htag' h =>
      obtain ⟨i, e, hslot, htag'', hn⟩ := hentry he' htag' h
      exact .absent hslot htag'' hn
  | untagged h =>
      refine .untagged fun i e he' => ?_
      rcases (inSlot_replaceEntry_iff he.lt_length).mp he' with ⟨hidx, rfl, heq⟩ | ⟨-, he'⟩
      · cases heq
        rw [hidx] at h
        change L.tag key ≠ L.tag k
        rw [← htag]
        exact h _ expected he
      · exact h i e he'

end Contents

end Changes

end HashComp.Disk
