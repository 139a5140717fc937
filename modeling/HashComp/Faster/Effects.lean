import HashComp.Faster.Chains

namespace HashComp.Faster

open HashComp.RecordChain

variable {K : Type} {L : Layout K} {s s' : Store K} {key k : K}
  {a address b i j slot : Nat} {e e' expected : HashBucketEntry} {l l' : List Nat} {r : Record K}
  {o o' : Option (BitVec 64)} {p : Option Nat} {v : BitVec 64} {ctx : Context} {bucket : Bucket}

section Buckets

theorem Settled.replace (h : Settled bucket) (he : InSlot bucket i e) (htag : e'.tag = e.tag)
    (hfinal : e'.tentative = false) : Settled (bucket.set i (some e')) where
  final := by
    intro j e₁ h₁
    rcases (inSlot_set_iff he.lt_length).mp h₁ with ⟨-, heq⟩ | ⟨-, h₁⟩
    · cases heq
      exact hfinal
    · exact h.final j e₁ h₁
  unique := by
    intro j₁ j₂ e₁ e₂ h₁ h₂ heq
    rcases (inSlot_set_iff he.lt_length).mp h₁ with ⟨rfl, hx₁⟩ | ⟨hj₁, h₁⟩
    · cases hx₁
      rcases (inSlot_set_iff he.lt_length).mp h₂ with ⟨rfl, -⟩ | ⟨hj₂, h₂⟩
      · rfl
      · exact h.unique _ _ _ _ he h₂ (htag.symm.trans heq)
    · rcases (inSlot_set_iff he.lt_length).mp h₂ with ⟨hj₂, hx₂⟩ | ⟨hj₂, h₂⟩
      · cases hx₂
        rw [hj₂]
        exact h.unique _ _ _ _ h₁ he (heq.trans htag)
      · exact h.unique _ _ _ _ h₁ h₂ heq

theorem Settled.erase (h : Settled bucket) (hi : i < bucket.length) :
    Settled (bucket.set i none) where
  final := by
    intro j e₁ h₁
    rcases (inSlot_set_iff hi).mp h₁ with ⟨-, hx⟩ | ⟨-, h₁⟩
    · cases hx
    · exact h.final j e₁ h₁
  unique := by
    intro j₁ j₂ e₁ e₂ h₁ h₂ heq
    rcases (inSlot_set_iff hi).mp h₁ with ⟨-, hx⟩ | ⟨-, h₁⟩
    · cases hx
    · rcases (inSlot_set_iff hi).mp h₂ with ⟨-, hx⟩ | ⟨-, h₂⟩
      · cases hx
      · exact h.unique _ _ _ _ h₁ h₂ heq

theorem setBucket_same (b : Nat) : (setBucket s b bucket).buckets b = bucket :=
  Function.update_self ..

theorem setBucket_of_ne {b' : Nat} (h : b' ≠ b) :
    (setBucket s b bucket).buckets b' = s.buckets b' :=
  Function.update_of_ne h ..

theorem setBucket_self : setBucket s b (s.buckets b) = s := by
  simp [setBucket]

def replaceEntry (s : Store K) (b slot : Nat) (x : Option HashBucketEntry) : Store K :=
  setBucket s b ((s.buckets b).set slot x)

theorem inSlot_replaceEntry_iff {x : Option HashBucketEntry} {b' : Nat}
    (hlen : slot < (s.buckets b).length) :
    InSlot ((replaceEntry s b slot x).buckets b') i e ↔
      b' = b ∧ i = slot ∧ x = some e ∨ ¬ (b' = b ∧ i = slot) ∧ InSlot (s.buckets b') i e := by
  by_cases hb : b' = b
  · subst b'
    rw [replaceEntry, setBucket_same, inSlot_set_iff hlen]
    simp
  · rw [replaceEntry, setBucket_of_ne hb]
    simp [hb]

theorem constructRecord_log {c : Nat} (hfree : s.log a = none) (hc : ∃ r, s.log c = some r) :
    (constructRecord s a r).log c = s.log c := by
  refine Function.update_of_ne ?_ ..
  rintro rfl
  obtain ⟨r', hr'⟩ := hc
  rw [hfree] at hr'
  cases hr'

theorem tailAddress_le_blockAllocate (s : Store K) : s.tailAddress ≤ blockAllocate s := by
  unfold blockAllocate
  split
  · exact Nat.le_refl _
  · rw [Nat.mul_comm]
    exact Nat.le_of_lt (Nat.lt_mul_div_succ _ (by decide))

theorem Leads.setBucket (h : Leads L s b i e l)
    (hslot : InSlot ((Faster.setBucket s address bucket).buckets b) i e) :
    Leads L (Faster.setBucket s address bucket) b i e l :=
  ⟨hslot, h.chain, h.keys⟩

end Buckets

section Locate

structure LocatedAt [DecidableEq K] (L : Layout K) (s : Store K) (key : K) (x : Located K)
    (l : List Nat) : Prop where
  valid : Valid L x.store
  newest : ∀ k p, Newest L s k p → Newest L x.store k p
  holds : ∀ k o, Holds L s k o → Holds L x.store k o
  store : ∃ bucket, x.store = setBucket s (L.idx key) bucket
  leads : Leads L x.store (L.idx key) x.slot x.expected l
  tag : x.expected.tag = L.tag key
  origin : Leads L s (L.idx key) x.slot x.expected l ∨
    l = [] ∧ Untagged (L.tag key) (s.buckets (L.idx key))
  address : firstOf Record.key x.store.log key l = some x.address ∨
    firstOf Record.key x.store.log key l = none ∧ x.address < x.store.headAddress

theorem Valid.install (hv : Valid L s) {bucket' : Bucket}
    (hno : Untagged (L.tag key) (s.buckets (L.idx key)))
    (hins : Installed (s.buckets (L.idx key)) i (freshEntry (L.tag key)) bucket') :
    Valid L (setBucket s (L.idx key) bucket') ∧
      Leads L (setBucket s (L.idx key) bucket') (L.idx key) i (freshEntry (L.tag key)) [] := by
  have hfresh : Leads L (setBucket s (L.idx key) bucket') (L.idx key) i
      (freshEntry (L.tag key)) [] := by
    refine ⟨?_, .nil hv.head, fun a ha => absurd ha List.not_mem_nil⟩
    rw [setBucket_same]
    exact hins.slot
  refine ⟨⟨hv.begin, hv.head, hv.safe, hv.readOnly, hv.tail, hv.free, fun b => ?_,
    fun b j e he => ?_⟩, hfresh⟩
  · by_cases hb : b = L.idx key
    · subst b
      rw [setBucket_same]
      exact (hv.settled _).installed hno rfl hins
    · rw [setBucket_of_ne hb]
      exact hv.settled b
  · by_cases hb : b = L.idx key
    · subst b
      rw [setBucket_same] at he
      by_cases hj : j = i
      · subst j
        have heq := he.symm.trans hins.slot
        cases heq
        exact ⟨[], hfresh⟩
      · obtain ⟨l, hl⟩ := hv.chains _ j e ((hins.others j e hj).mp he)
        exact ⟨l, hl.setBucket (by rwa [setBucket_same])⟩
    · rw [setBucket_of_ne hb] at he
      obtain ⟨l, hl⟩ := hv.chains b j e he
      exact ⟨l, hl.setBucket (by rwa [setBucket_of_ne hb])⟩

variable [DecidableEq K]

theorem Newest.install {bucket' : Bucket} (hv : Valid L s)
    (hno : Untagged (L.tag key) (s.buckets (L.idx key)))
    (hins : Installed (s.buckets (L.idx key)) i (freshEntry (L.tag key)) bucket')
    (h : Newest L s k p) : Newest L (setBucket s (L.idx key) bucket') k p := by
  have hfresh := (hv.install hno hins).2
  by_cases hb : L.idx k = L.idx key
  · cases h with
    | @entry j e l hl htag =>
        have hj : j ≠ i := by
          rintro rfl
          exact hins.free e (hb ▸ hl.slot)
        refine .entry (hl.setBucket ?_) htag
        rw [hb, setBucket_same]
        exact (hins.others j e hj).mpr (hb ▸ hl.slot)
    | untagged h =>
        by_cases htag : L.tag k = L.tag key
        · have hnew : Leads L (setBucket s (L.idx key) bucket') (L.idx k) i
              (freshEntry (L.tag key)) [] := hb ▸ hfresh
          exact .entry hnew htag.symm
        · refine .untagged fun j e he => ?_
          rw [hb, setBucket_same] at he
          by_cases hj : j = i
          · subst j
            have heq := he.symm.trans hins.slot
            cases heq
            exact Ne.symm htag
          · exact h j e (hb ▸ (hins.others j e hj).mp he)
  · cases h with
    | entry hl htag =>
        refine .entry (hl.setBucket ?_) htag
        rw [setBucket_of_ne hb]
        exact hl.slot
    | untagged h =>
        refine .untagged ?_
        rwa [setBucket_of_ne hb]

theorem Holds.install {bucket' : Bucket} (hv : Valid L s)
    (hno : Untagged (L.tag key) (s.buckets (L.idx key)))
    (hins : Installed (s.buckets (L.idx key)) i (freshEntry (L.tag key)) bucket')
    (h : Holds L s k o) : Holds L (setBucket s (L.idx key) bucket') k o :=
  h.of_newest (fun _ hp => hp.install hv hno hins) fun _ _ _ _ => rfl

theorem locate_spec (hv : Valid L s) (key : K) :
    ∃ x l, locate L s key = some x ∧ LocatedAt L s key x l := by
  unfold locate
  rcases findOrCreateEntry_spec (L.tag key) (hv.settled (L.idx key)).final with
    ⟨i, e, he, htag, hfind⟩ | ⟨hno, i, bucket', hins, hfind⟩
  · obtain ⟨l, hl⟩ := hv.chains _ i e he
    obtain ⟨found, latest, hrec, hfound⟩ := findRecord_spec hl.chain key
    refine ⟨⟨i, e, found, latest, s⟩, l, ?_, hv, fun k p h => h, fun k o h => h,
      ⟨_, setBucket_self.symm⟩, hl, htag, Or.inl hl, hfound⟩
    simp [hfind, setBucket_self, hrec]
  · obtain ⟨hvalid, hl⟩ := hv.install hno hins
    obtain ⟨found, latest, hrec, hfound⟩ := findRecord_spec hl.chain key
    refine ⟨⟨i, freshEntry (L.tag key), found, latest, _⟩, [], ?_, hvalid,
      fun k p h => h.install hv hno hins, fun k o h => h.install hv hno hins, ⟨_, rfl⟩, hl, rfl,
      Or.inr ⟨rfl, hno⟩, hfound⟩
    simp only [hfind, Option.bind_eq_bind, Option.bind_some, hrec]
    rfl

end Locate

section Write

structure SameBounds (s s' : Store K) : Prop where
  readOnly : s'.readOnlyAddress = s.readOnlyAddress
  safe : s'.safeReadOnlyAddress = s.safeReadOnlyAddress
  head : s'.headAddress = s.headAddress

variable [DecidableEq K]

/-- A store with the record of the key where it was, or in the mutable region. -/
structure Sets (L : Layout K) (s : Store K) (key : K) (v : BitVec 64) (s' : Store K) : Prop where
  valid : Valid L s'
  placed : ∃ a, Newest L s' key (some a) ∧ (Newest L s key (some a) ∨ s.readOnlyAddress ≤ a)
  value : Holds L s' key (some v)
  newest : ∀ k, k ≠ key → ∀ p, Newest L s k p → Newest L s' k p
  others : ∀ k, k ≠ key → ∀ o, Holds L s k o → Holds L s' k o
  bounds : SameBounds s s'

/-- A store that maps every key to what it was mapped to. -/
structure Keeps (L : Layout K) (s s' : Store K) : Prop where
  valid : Valid L s'
  newest : ∀ k p, Newest L s k p → Newest L s' k p
  holds : ∀ k o, Holds L s k o → Holds L s' k o
  bounds : SameBounds s s'

theorem LocatedAt.keeps {x : Located K} (h : LocatedAt L s key x l) : Keeps L s x.store where
  valid := h.valid
  newest := h.newest
  holds := h.holds
  bounds := by
    obtain ⟨bucket, hs⟩ := h.store
    rw [hs]
    exact ⟨rfl, rfl, rfl⟩

theorem Keeps.sets (hv : Valid L s) (h : Keeps L s s') {s'' : Store K}
    (h' : Sets L s' key v s'') : Sets L s key v s'' where
  valid := h'.valid
  placed := by
    obtain ⟨a, ha, hplace⟩ := h'.placed
    refine ⟨a, ha, hplace.imp (fun hold => ?_) fun hle => h.bounds.readOnly ▸ hle⟩
    obtain ⟨p, hp⟩ := Newest.total hv key
    rwa [(h.newest key p hp).unique h.valid hold] at hp
  value := h'.value
  newest := fun k hk p hp => h'.newest k hk p (h.newest k p hp)
  others := fun k hk o ho => h'.others k hk o (h.holds k o ho)
  bounds := ⟨h'.bounds.readOnly.trans h.bounds.readOnly, h'.bounds.safe.trans h.bounds.safe,
    h'.bounds.head.trans h.bounds.head⟩

theorem setValue_spec (hv : Valid L s) (hl : Leads L s (L.idx key) slot e l)
    (htag : e.tag = L.tag key) (hfirst : firstOf Record.key s.log key l = some a)
    (v : BitVec 64) : ∃ s', setValue s a v = some s' ∧ Sets L s key v s' := by
  obtain ⟨r, hr, hkey⟩ := firstOf_key hfirst
  let log' := Function.update s.log a (some { r with value := v })
  have hprev : ∀ b, (log' b).map Record.previousAddress = (s.log b).map Record.previousAddress := by
    intro b
    by_cases hb : b = a
    · subst b
      simp [log', hr]
    · simp [log', hb]
  have hkeys : ∀ b, (log' b).map Record.key = (s.log b).map Record.key := by
    intro b
    by_cases hb : b = a
    · subst b
      simp [log', hr]
    · simp [log', hb]
  have hchain : ∀ b i e l, Leads L s b i e l → Leads L { s with log := log' } b i e l := by
    intro b i e l h
    refine ⟨h.slot, h.chain.frame fun b _ => hprev b, fun c hc r' hr' => ?_⟩
    have hmap := hkeys c
    change log' c = some r' at hr'
    rw [hr', Option.map_some, eq_comm, Option.map_eq_some_iff] at hmap
    obtain ⟨r₀, hr₀, heq⟩ := hmap
    rw [← heq]
    exact h.keys c hc r₀ hr₀
  have hnewest : ∀ k p, Newest L s k p → Newest L { s with log := log' } k p := by
    intro k p hp
    cases hp with
    | @entry i e l hl htag =>
        have hsame := firstOf_congr (k := k) (l := l) fun b _ => hkeys b
        rw [← hsame]
        exact .entry (hchain _ _ _ _ hl) htag
    | untagged h => exact .untagged h
  have hplace : Newest L s key (some a) := hfirst ▸ .entry hl htag
  refine ⟨{ s with log := log' }, by rw [setValue, hr]; rfl, ⟨⟨hv.begin, hv.head, hv.safe,
    hv.readOnly, hv.tail, fun b hb => ?_, hv.settled, fun b i e he => ?_⟩,
    ⟨a, hnewest key _ hplace, Or.inl hplace⟩, ?_, fun k _ => hnewest k, ?_, ⟨rfl, rfl, rfl⟩⟩⟩
  · have hne : b ≠ a := by
      rintro rfl
      rw [hv.free b hb] at hr
      cases hr
    simpa [log', hne] using hv.free b hb
  · obtain ⟨l', hl'⟩ := hv.chains b i e he
    exact ⟨l', hchain b i e l' hl'⟩
  · have hholds := (hnewest key _ hplace).holds
    have hval : (log' a).map Record.value = some v := by simp [log']
    rwa [Option.bind_some, hval] at hholds
  · intro k hk o ho
    refine ho.of_newest (hnewest k) fun b r' hr' hk' => ?_
    have hb : b ≠ a := by
      rintro rfl
      rw [hr] at hr'
      cases hr'
      exact hk (hk'.symm.trans hkey)
    simp [log', hb]

theorem constructRecord_spec (hv : Valid L s) (ha : s.tailAddress ≤ a) (r : Record K) :
    Keeps L s (constructRecord s a r) := by
  have hchain : ∀ b i e l, Leads L s b i e l → Leads L (constructRecord s a r) b i e l := by
    intro b i e l h
    refine ⟨h.slot, h.chain.update (hv.free a ha) r, fun c hc r' hr' => ?_⟩
    rw [constructRecord_log (hv.free a ha) (h.chain.record hc)] at hr'
    exact h.keys c hc r' hr'
  have hnewest : ∀ k p, Newest L s k p → Newest L (constructRecord s a r) k p := by
    intro k p hp
    cases hp with
    | @entry i e l hl htag =>
        have hsame : firstOf Record.key (constructRecord s a r).log k l =
            firstOf Record.key s.log k l := by
          refine firstOf_congr fun c hc => ?_
          rw [constructRecord_log (hv.free a ha) (hl.chain.record hc)]
        rw [← hsame]
        exact .entry (hchain _ _ _ _ hl) htag
    | untagged h => exact .untagged h
  refine ⟨⟨hv.begin, hv.head, hv.safe, hv.readOnly, ?_, fun b hb => ?_, hv.settled,
    fun b i e he => ?_⟩, hnewest, fun k o ho => ?_, rfl, rfl, rfl⟩
  · have := hv.tail
    change s.readOnlyAddress ≤ a + recordSize
    omega
  · change a + recordSize ≤ b at hb
    have hne : b ≠ a := by
      have : 0 < recordSize := by decide
      omega
    have hfree := hv.free b (by omega)
    simpa [constructRecord, hne] using hfree
  · obtain ⟨l, hl⟩ := hv.chains b i e he
    exact ⟨l, hchain b i e l hl⟩
  · refine ho.of_newest (hnewest k) fun c r' hr' _ => ?_
    rw [constructRecord_log (hv.free a ha) ⟨r', hr'⟩]

theorem replaceEntry_spec (hv : Valid L s) (hl : Leads L s (L.idx key) slot expected l)
    (htag : expected.tag = L.tag key) (hr : s.log a = some r) (hkey : r.key = key)
    (hprev : r.previousAddress = expected.address) (hhead : s.readOnlyAddress ≤ a)
    (hlt : expected.address < a) :
    Sets L s key r.value (replaceEntry s (L.idx key) slot (some ⟨a, L.tag key, false⟩)) := by
  let s' := replaceEntry s (L.idx key) slot (some ⟨a, L.tag key, false⟩)
  have hlen := hl.slot.lt_length
  have hself : Leads L s' (L.idx key) slot ⟨a, L.tag key, false⟩ (a :: l) := by
    refine ⟨(inSlot_replaceEntry_iff hlen).mpr (Or.inl ⟨rfl, rfl, rfl⟩),
      .cons (Nat.le_trans (Nat.le_trans hv.safe hv.readOnly) hhead) hr (by rwa [hprev]) (by rw [hprev]; exact hl.chain), fun c hc r' hr' => ?_⟩
    rcases List.mem_cons.mp hc with rfl | hc
    · have heq := hr'.symm.trans hr
      cases heq
      rw [hkey]
      exact ⟨rfl, rfl⟩
    · rw [← htag]
      exact hl.keys c hc r' hr'
  have hkeep : ∀ b i e l', ¬ (b = L.idx key ∧ i = slot) → Leads L s b i e l' →
      Leads L s' b i e l' := by
    intro b i e l' hne h
    exact ⟨(inSlot_replaceEntry_iff hlen).mpr (Or.inr ⟨hne, h.slot⟩), h.chain, h.keys⟩
  have hplace : Newest L s' key (some a) := by
    have hfirst : firstOf Record.key s.log key (a :: l) = some a := by
      rw [firstOf_cons hr, if_pos hkey]
    rw [← hfirst]
    exact .entry hself rfl
  have hnewest : ∀ k, k ≠ key → ∀ p, Newest L s k p → Newest L s' k p := by
    intro k hk p hp
    cases hp with
    | @entry i e l' hl' htag' =>
        by_cases hat : L.idx k = L.idx key ∧ i = slot
        · obtain ⟨hidx, rfl⟩ := hat
          have heq := (hidx ▸ hl'.slot).symm.trans hl.slot
          cases heq
          have hll : l' = l := hl'.chain.unique hl.chain
          subst l'
          have hsame : firstOf Record.key s.log k (a :: l) = firstOf Record.key s.log k l := by
            rw [firstOf_cons hr, if_neg fun h => hk (h.symm.trans hkey)]
          rw [← hsame]
          exact .entry (hidx ▸ hself) (htag.symm.trans htag')
        · exact .entry (hkeep _ _ _ _ hat hl') htag'
    | untagged h =>
        refine .untagged fun i e he => ?_
        rcases (inSlot_replaceEntry_iff hlen).mp he with ⟨hidx, rfl, heq⟩ | ⟨-, he⟩
        · cases heq
          change L.tag key ≠ L.tag k
          rw [← htag]
          exact h i expected (hidx ▸ hl.slot)
        · exact h i e he
  refine ⟨⟨hv.begin, hv.head, hv.safe, hv.readOnly, hv.tail, hv.free, fun b => ?_,
    fun b i e he => ?_⟩, ⟨a, hplace, Or.inr hhead⟩, ?_, hnewest,
    fun k hk o ho => ho.of_newest (hnewest k hk) fun _ _ _ _ => rfl, rfl, rfl, rfl⟩
  · by_cases hb : b = L.idx key
    · subst b
      rw [replaceEntry, setBucket_same]
      exact (hv.settled _).replace hl.slot htag.symm rfl
    · rw [replaceEntry, setBucket_of_ne hb]
      exact hv.settled b
  · rcases (inSlot_replaceEntry_iff hlen).mp he with ⟨rfl, rfl, heq⟩ | ⟨hne, he⟩
    · cases heq
      exact ⟨_, hself⟩
    · obtain ⟨l', hl'⟩ := hv.chains b i e he
      exact ⟨l', hkeep b i e l' hne hl'⟩
  · have hholds := hplace.holds
    have hval : (s'.log a).map Record.value = some r.value := by
      change (s.log a).map Record.value = some r.value
      rw [hr, Option.map_some]
    rwa [Option.bind_some, hval] at hholds

theorem eraseEntry_spec (hv : Valid L s) (hl : Leads L s b slot e l) :
    Valid L (replaceEntry s b slot none) ∧
      (∀ k, L.idx k = b → L.tag k = e.tag → Holds L (replaceEntry s b slot none) k none) ∧
      ∀ k, ¬ (L.idx k = b ∧ L.tag k = e.tag) → ∀ o, Holds L s k o →
        Holds L (replaceEntry s b slot none) k o := by
  have hlen := hl.slot.lt_length
  have hkeep : ∀ b' i e' l', ¬ (b' = b ∧ i = slot) → Leads L s b' i e' l' →
      Leads L (replaceEntry s b slot none) b' i e' l' := by
    intro b' i e' l' hne h
    exact ⟨(inSlot_replaceEntry_iff hlen).mpr (Or.inr ⟨hne, h.slot⟩), h.chain, h.keys⟩
  refine ⟨⟨hv.begin, hv.head, hv.safe, hv.readOnly, hv.tail, hv.free, fun b' => ?_,
    fun b' i e' he' => ?_⟩, fun k hidx htag => ?_, fun k hne o ho => ?_⟩
  · by_cases hb : b' = b
    · subst b'
      rw [replaceEntry, setBucket_same]
      exact (hv.settled _).erase hlen
    · rw [replaceEntry, setBucket_of_ne hb]
      exact hv.settled b'
  · rcases (inSlot_replaceEntry_iff hlen).mp he' with ⟨-, -, heq⟩ | ⟨hne, he'⟩
    · cases heq
    · obtain ⟨l', hl'⟩ := hv.chains b' i e' he'
      exact ⟨l', hkeep b' i e' l' hne hl'⟩
  · refine .untagged fun i e' he' htag' => ?_
    rcases (inSlot_replaceEntry_iff hlen).mp he' with ⟨-, -, heq⟩ | ⟨hne, he'⟩
    · cases heq
    · rw [hidx] at he' hne
      exact hne ⟨rfl, (hv.settled b).unique _ _ _ _ he' hl.slot (htag'.trans htag)⟩
  · cases ho with
    | @entry i e' l' hl' htag' =>
        refine .entry (hkeep _ _ _ _ ?_ hl') htag'
        rintro ⟨hidx, rfl⟩
        have heq := (hidx ▸ hl'.slot).symm.trans hl.slot
        cases heq
        exact hne ⟨hidx, htag'.symm⟩
    | untagged h =>
        refine .untagged fun i e' he' => ?_
        rcases (inSlot_replaceEntry_iff hlen).mp he' with ⟨-, -, heq⟩ | ⟨-, he'⟩
        · cases heq
        · exact h i e' he'

theorem createRecord_spec (hv : Valid L s) (hl : Leads L s (L.idx key) slot expected l)
    (htag : expected.tag = L.tag key) (ctx : Context) (v : BitVec 64) :
    ∃ s', createRecord L s ctx key v slot expected = some (.success, s') ∧
      Sets L s key v s' := by
  have htail := tailAddress_le_blockAllocate s
  have hro : s.readOnlyAddress ≤ blockAllocate s := Nat.le_trans hv.tail htail
  have hlt : expected.address < blockAllocate s := by
    rcases Nat.lt_or_ge expected.address s.headAddress with hlt | hge
    · have := hv.safe
      have := hv.readOnly
      omega
    · obtain ⟨l', r, -, hr, -⟩ := hl.chain.eq_cons hge
      by_contra hle
      rw [hv.free _ (by omega)] at hr
      cases hr
  have hkeeps := constructRecord_spec hv htail (newRecord ctx key v expected)
  have hl' : Leads L (constructRecord s (blockAllocate s) (newRecord ctx key v expected))
      (L.idx key) slot expected l := by
    obtain ⟨l', hl'⟩ := hkeeps.valid.chains _ _ _ hl.slot
    have hsame : l' = l := hl'.chain.unique (hl.chain.update (hv.free _ htail) _)
    rwa [hsame] at hl'
  refine ⟨_, ?_, hkeeps.sets hv (replaceEntry_spec hkeeps.valid hl' htag (Function.update_self ..)
    rfl rfl hro hlt)⟩
  have hslot : ((constructRecord s (blockAllocate s) (newRecord ctx key v expected)).buckets
      (L.idx key))[slot]? = some (some expected) := hl.slot
  simp only [createRecord, compareExchange, if_pos hslot, Option.map_some]
  rfl

end Write

end HashComp.Faster
