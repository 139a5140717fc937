import HashComp.Interleaved.Entries

namespace HashComp.Interleaved

open HashComp.Faster
open HashComp.RecordChain

variable {K : Type} {L : Layout K} {s s' : Store K} {x y : System K} {b i slot a c since : Nat}
  {tag : BitVec 14} {l : List Nat} {key k : K} {e : HashBucketEntry} {new : Option HashBucketEntry}
  {r : Record K} {v : BitVec 64}

/-- The records at `l` are those of a chain from address `a`, all of them with
keys of the bucket and the tag. -/
structure Linked (L : Layout K) (s : Store K) (b : Nat) (tag : BitVec 14) (a : Nat)
    (l : List Nat) : Prop where
  chain : Chain Record.previousAddress s.log s.headAddress a l
  keys : ∀ c ∈ l, ∀ r, s.log c = some r → L.idx r.key = b ∧ L.tag r.key = tag

structure Sound (L : Layout K) (s : Store K) : Prop where
  head : kInvalidAddress < s.headAddress
  readOnly : s.headAddress ≤ s.readOnlyAddress
  tail : s.readOnlyAddress ≤ s.tailAddress
  free : ∀ a, s.tailAddress ≤ a → s.log a = none
  chains : ∀ b i e, InSlot (s.buckets b) i e → ∃ l, Linked L s b e.tag e.address l

structure Grows (s s' : Store K) : Prop where
  head : s'.headAddress = s.headAddress
  log : ∀ a r, s.log a = some r →
    ∃ r', s'.log a = some r' ∧ r'.key = r.key ∧ r'.previousAddress = r.previousAddress

structure Carries (x y : System K) : Prop where
  grows : Grows x.store y.store
  values : ∀ a r r', x.store.log a = some r → y.store.log a = some r' →
    r'.value = r.value ∨ ⟨r.key, r'.value, x.history.clock⟩ ∈ y.writes
  writes : ∀ w ∈ x.writes, w ∈ y.writes

/-- The record at the address is one of the key, and its value has been written
at `since` or later. -/
def Recent (x : System K) (key : K) (since a : Nat) : Prop :=
  ∃ r, x.store.log a = some r ∧ r.key = key ∧
    ∃ w ∈ x.writes, w.key = key ∧ w.value = r.value ∧ since ≤ w.time

section Grow

theorem Grows.of_log (hlog : s'.log = s.log) (hhead : s'.headAddress = s.headAddress) :
    Grows s s' where
  head := hhead
  log := fun a r hr => ⟨r, by rw [hlog]; exact hr, rfl, rfl⟩

theorem Carries.of_log (hlog : y.store.log = x.store.log)
    (hhead : y.store.headAddress = x.store.headAddress) (hwrites : ∀ w ∈ x.writes, w ∈ y.writes) :
    Carries x y where
  grows := .of_log hlog hhead
  values := by
    intro a r r' hr hr'
    rw [hlog, hr] at hr'
    cases hr'
    exact Or.inl rfl
  writes := hwrites

theorem Linked.grows (h : Linked L s b tag a l) (hg : Grows s s') : Linked L s' b tag a l where
  chain := by
    rw [hg.head]
    refine h.chain.frame fun c hc => ?_
    obtain ⟨r, hr⟩ := h.chain.record hc
    obtain ⟨r', hr', -, hprev⟩ := hg.log c r hr
    rw [hr, hr', Option.map_some, Option.map_some, hprev]
  keys := by
    intro c hc r' hr'
    obtain ⟨r, hr⟩ := h.chain.record hc
    obtain ⟨r'', hr'', hkey, -⟩ := hg.log c r hr
    rw [hr'] at hr''
    cases hr''
    rw [hkey]
    exact h.keys c hc r hr

theorem Linked.firstOf_grows [DecidableEq K] (h : Linked L s b tag a l) (hg : Grows s s') (k : K) :
    firstOf Record.key s'.log k l = firstOf Record.key s.log k l := by
  refine firstOf_congr fun c hc => ?_
  obtain ⟨r, hr⟩ := h.chain.record hc
  obtain ⟨r', hr', hkey, -⟩ := hg.log c r hr
  rw [hr, hr', Option.map_some, Option.map_some, hkey]

theorem Recent.carries (h : Recent x key since a) (hc : Carries x y)
    (hsince : since ≤ x.history.clock) : Recent y key since a := by
  obtain ⟨r, hr, rfl, w, hw, hkey, hvalue, hle⟩ := h
  obtain ⟨r', hr', hkey', -⟩ := hc.grows.log a r hr
  refine ⟨r', hr', hkey', ?_⟩
  rcases hc.values a r r' hr hr' with hsame | hnew
  · exact ⟨w, hc.writes w hw, hkey, hvalue.trans hsame.symm, hle⟩
  · exact ⟨_, hnew, rfl, rfl, hsince⟩

theorem Recent.mono {since' : Nat} (h : Recent x key since' a) (hle : since ≤ since') :
    Recent x key since a := by
  obtain ⟨r, hr, hkey, w, hw, hwkey, hvalue, hle'⟩ := h
  exact ⟨r, hr, hkey, w, hw, hwkey, hvalue, Nat.le_trans hle hle'⟩

theorem Linked.push (h : Linked L s b tag a l) (hr : s.log c = some r)
    (hprev : r.previousAddress = a)
    (hlt : a < c) (hhead : s.headAddress ≤ c) (hidx : L.idx r.key = b) (htag : L.tag r.key = tag) :
    Linked L s b tag c (c :: l) where
  chain := .cons hhead hr (by rwa [hprev]) (by rw [hprev]; exact h.chain)
  keys := by
    intro c' hc r' hr'
    rcases List.mem_cons.mp hc with rfl | hc
    · rw [hr] at hr'
      cases hr'
      exact ⟨hidx, htag⟩
    · exact h.keys c' hc r' hr'

theorem Linked.nil (hlt : a < s.headAddress) : Linked L s b tag a [] where
  chain := .nil hlt
  keys := nofun

theorem Linked.address_lt (h : Linked L s b tag a l) (hs : Sound L s) : a < s.tailAddress := by
  by_contra hle
  have hhead : s.headAddress ≤ a := by
    have := hs.readOnly
    have := hs.tail
    omega
  obtain ⟨l', r, -, hr, -⟩ := h.chain.eq_cons hhead
  rw [hs.free a (Nat.not_lt.mp hle)] at hr
  cases hr

end Grow

section Log

theorem grows_update {r' : Record K} (hr : s.log a = some r) (hkey : r'.key = r.key)
    (hprev : r'.previousAddress = r.previousAddress) :
    Grows s { s with log := Function.update s.log a (some r') } where
  head := rfl
  log := by
    intro c rc hc
    by_cases hca : c = a
    · subst c
      rw [hr] at hc
      cases hc
      exact ⟨r', Function.update_self .., hkey, hprev⟩
    · exact ⟨rc, (Function.update_of_ne hca ..).trans hc, rfl, rfl⟩

theorem grows_constructRecord (hs : Sound L s) (ha : s.tailAddress ≤ a) (r : Record K) :
    Grows s (constructRecord s a r) where
  head := rfl
  log := fun _ rc hc =>
    ⟨rc, (constructRecord_log (hs.free a ha) ⟨rc, hc⟩).trans hc, rfl, rfl⟩

theorem Sound.of_grows (h : Sound L s) (hg : Grows s s')
    (hreadOnly : s.readOnlyAddress ≤ s'.readOnlyAddress)
    (htail : s'.readOnlyAddress ≤ s'.tailAddress)
    (hfree : ∀ a, s'.tailAddress ≤ a → s'.log a = none)
    (hslots : ∀ b i e, InSlot (s'.buckets b) i e →
      InSlot (s.buckets b) i e ∨ ∃ l, Linked L s' b e.tag e.address l) : Sound L s' where
  head := by
    rw [hg.head]
    exact h.head
  readOnly := by
    rw [hg.head]
    exact Nat.le_trans h.readOnly hreadOnly
  tail := htail
  free := hfree
  chains := by
    intro b i e he
    rcases hslots b i e he with he | hl
    · obtain ⟨l, hl⟩ := h.chains b i e he
      exact ⟨l, hl.grows hg⟩
    · exact hl

theorem Sound.of_log (h : Sound L s) (hlog : s'.log = s.log)
    (hhead : s'.headAddress = s.headAddress) (hreadOnly : s'.readOnlyAddress = s.readOnlyAddress)
    (htail : s'.tailAddress = s.tailAddress)
    (hslots : ∀ b i e, InSlot (s'.buckets b) i e →
      InSlot (s.buckets b) i e ∨ ∃ l, Linked L s b e.tag e.address l) : Sound L s' := by
  have hg : Grows s s' := .of_log hlog hhead
  refine h.of_grows hg (Nat.le_of_eq hreadOnly.symm) ?_ ?_ fun b i e he => ?_
  · rw [hreadOnly, htail]
    exact h.tail
  · rw [htail, hlog]
    exact h.free
  · rcases hslots b i e he with he | ⟨l, hl⟩
    · exact Or.inl he
    · exact Or.inr ⟨l, hl.grows hg⟩

theorem Sound.update {r' : Record K} (h : Sound L s) (hr : s.log a = some r)
    (hkey : r'.key = r.key) (hprev : r'.previousAddress = r.previousAddress) :
    Sound L { s with log := Function.update s.log a (some r') } := by
  refine h.of_grows (grows_update hr hkey hprev) (Nat.le_refl _) h.tail (fun c hc => ?_)
    fun b i e he => Or.inl he
  have hne : c ≠ a := by
    rintro rfl
    rw [h.free c hc] at hr
    cases hr
  exact (Function.update_of_ne hne ..).trans (h.free c hc)

theorem Sound.constructRecord (h : Sound L s) (ha : s.tailAddress ≤ a) (r : Record K) :
    Sound L (constructRecord s a r) := by
  refine h.of_grows (grows_constructRecord h ha r) (Nat.le_refl _) ?_ (fun c hc => ?_)
    fun b i e he => Or.inl he
  · have := h.tail
    change s.readOnlyAddress ≤ a + recordSize
    omega
  · change a + recordSize ≤ c at hc
    have hne : c ≠ a := by
      have : 0 < recordSize := by decide
      omega
    exact (Function.update_of_ne hne ..).trans (h.free c (by omega))

end Log

section Found

variable [DecidableEq K]

/-- The chain of the key's entry, which is in this slot, has its first record of
the key at address `a`. -/
def FoundAt (L : Layout K) (s : Store K) (key : K) (slot a : Nat) : Prop :=
  ∃ e l, InSlot (s.buckets (L.idx key)) slot e ∧ e.tag = L.tag key ∧ e.tentative = false ∧
    Linked L s (L.idx key) (L.tag key) e.address l ∧ firstOf Record.key s.log key l = some a

theorem FoundAt.grows (h : FoundAt L s key slot a) (hg : Grows s s')
    (hslot : ∀ e, e.tentative = false → InSlot (s.buckets (L.idx key)) slot e →
      InSlot (s'.buckets (L.idx key)) slot e) : FoundAt L s' key slot a := by
  obtain ⟨e, l, he, htag, hfinal, hl, hfirst⟩ := h
  refine ⟨e, l, hslot e hfinal he, htag, hfinal, hl.grows hg, ?_⟩
  rw [hl.firstOf_grows hg]
  exact hfirst

theorem foundAt_of_push (hl : Linked L x.store (L.idx k) (L.tag k) a l)
    (hset : SlotSet x y (L.idx k) i (some ⟨c, L.tag k, false⟩))
    (hlog : y.store.log = x.store.log) (hhead : y.store.headAddress = x.store.headAddress)
    (hr : x.store.log c = some r) (hkey : r.key = k) (hprev : r.previousAddress = a)
    (hlt : a < c) (hle : x.store.headAddress ≤ c) : FoundAt L y.store k i c := by
  have hl' := (hl.push hr hprev hlt hle (by rw [hkey]) (by rw [hkey])).grows (.of_log hlog hhead)
  refine ⟨_, _, (hset _ _ _).mpr (Or.inl ⟨rfl, rfl, rfl⟩), rfl, rfl, hl', ?_⟩
  rw [firstOf_cons (by rw [hlog]; exact hr), if_pos hkey]

theorem FoundAt.push {expected : HashBucketEntry} (h : FoundAt L x.store key slot a)
    (hset : SlotSet x y (L.idx k) i (some ⟨c, L.tag k, false⟩))
    (hlog : y.store.log = x.store.log) (hhead : y.store.headAddress = x.store.headAddress)
    (hslot : InSlot (x.store.buckets (L.idx k)) i expected) (htag : expected.tag = L.tag k)
    (hr : x.store.log c = some r) (hkey : r.key = k) (hprev : r.previousAddress = expected.address)
    (hlt : expected.address < c) (hle : x.store.headAddress ≤ c) :
    FoundAt L y.store key slot a ∨ k = key ∧ FoundAt L y.store key slot c := by
  by_cases hat : L.idx key = L.idx k ∧ slot = i
  · obtain ⟨hidx, rfl⟩ := hat
    obtain ⟨e, l, he, htag', hfinal, hl, hfirst⟩ := h
    rw [hidx] at he
    have heq := he.unique hslot
    subst heq
    by_cases hkk : k = key
    · subst hkk
      exact Or.inr ⟨rfl, foundAt_of_push hl hset hlog hhead hr hkey hprev hlt hle⟩
    · have htags : L.tag k = L.tag key := htag.symm.trans htag'
      refine Or.inl ⟨_, _, (hset _ _ _).mpr (Or.inl ⟨hidx, rfl, rfl⟩), htags, rfl,
        (hl.push hr hprev hlt hle (by rw [hkey, hidx]) (by rw [hkey, htags])).grows
          (.of_log hlog hhead), ?_⟩
      rw [firstOf_cons (by rw [hlog]; exact hr), if_neg (hkey ▸ hkk), hlog, hfirst]
  · exact Or.inl (h.grows (.of_log hlog hhead) fun _ _ he => (hset _ _ _).mpr (Or.inr ⟨hat, he⟩))

end Found

end HashComp.Interleaved
