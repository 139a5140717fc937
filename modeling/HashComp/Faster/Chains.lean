import HashComp.Faster.Buckets

namespace HashComp.Faster

open HashComp.RecordChain

variable {K : Type} [DecidableEq K] {L : Layout K} {s s' : Store K} {key k : K}
  {a address b i fuel : Nat} {e e' : HashBucketEntry} {l l' : List Nat} {r : Record K}
  {o o' : Option (BitVec 64)} {p p' : Option Nat} {v : BitVec 64} {ctx : Context}

/-- The entry `e` in slot `i` of bucket `b` leads to the records at `l`. -/
structure Leads (L : Layout K) (s : Store K) (b i : Nat) (e : HashBucketEntry) (l : List Nat) :
    Prop where
  slot : InSlot (s.buckets b) i e
  chain : Chain Record.previousAddress s.log s.headAddress e.address l
  keys : ∀ a ∈ l, ∀ r, s.log a = some r → L.idx r.key = b ∧ L.tag r.key = e.tag

structure Valid (L : Layout K) (s : Store K) : Prop where
  begin : s.beginAddress = s.headAddress
  head : kInvalidAddress < s.headAddress
  safe : s.headAddress ≤ s.safeReadOnlyAddress
  readOnly : s.safeReadOnlyAddress ≤ s.readOnlyAddress
  tail : s.readOnlyAddress ≤ s.tailAddress
  free : ∀ a, s.tailAddress ≤ a → s.log a = none
  settled : ∀ b, Settled (s.buckets b)
  chains : ∀ b i e, InSlot (s.buckets b) i e → ∃ l, Leads L s b i e l

def valueIn (log : Nat → Option (Record K)) (key : K) (l : List Nat) : Option (BitVec 64) :=
  (firstOf Record.key log key l).bind fun a => (log a).map Record.value

inductive Holds (L : Layout K) (s : Store K) (key : K) : Option (BitVec 64) → Prop where
  | entry {i : Nat} {e : HashBucketEntry} {l : List Nat} (hl : Leads L s (L.idx key) i e l)
      (htag : e.tag = L.tag key) : Holds L s key (valueIn s.log key l)
  | untagged (h : Untagged (L.tag key) (s.buckets (L.idx key))) : Holds L s key none

/-- Where the newest record of the key is, if there is one. -/
inductive Newest (L : Layout K) (s : Store K) (key : K) : Option Nat → Prop where
  | entry {i : Nat} {e : HashBucketEntry} {l : List Nat} (hl : Leads L s (L.idx key) i e l)
      (htag : e.tag = L.tag key) : Newest L s key (firstOf Record.key s.log key l)
  | untagged (h : Untagged (L.tag key) (s.buckets (L.idx key))) : Newest L s key none

/-- The newest record of the key lies between the two read-only addresses. -/
def Fuzzy (L : Layout K) (s : Store K) (key : K) : Prop :=
  ∃ a, Newest L s key (some a) ∧ s.safeReadOnlyAddress ≤ a ∧ a < s.readOnlyAddress

section Holds

omit [DecidableEq K] in
theorem Leads.unique (h : Leads L s b i e l) (h' : Leads L s b i e l') : l = l' :=
  h.chain.unique h'.chain

theorem Newest.total (hv : Valid L s) (key : K) : ∃ p, Newest L s key p := by
  by_cases h : Untagged (L.tag key) (s.buckets (L.idx key))
  · exact ⟨none, .untagged h⟩
  · unfold Untagged at h
    push Not at h
    obtain ⟨i, e, he, htag⟩ := h
    obtain ⟨l, hl⟩ := hv.chains _ i e he
    exact ⟨_, .entry hl htag⟩

theorem Newest.unique (hv : Valid L s) (h : Newest L s key p) (h' : Newest L s key p') :
    p = p' := by
  cases h with
  | @entry i e l hl htag =>
      cases h' with
      | @entry i' e' l' hl' htag' =>
          have hi := (hv.settled _).unique _ _ _ _ hl.slot hl'.slot (htag.trans htag'.symm)
          subst hi
          have he := hl.slot.symm.trans hl'.slot
          cases he
          rw [hl.unique hl']
      | untagged h => exact absurd htag (h _ _ hl.slot)
  | untagged h =>
      cases h' with
      | entry hl' htag' => exact absurd htag' (h _ _ hl'.slot)
      | untagged h' => rfl

theorem Newest.record (h : Newest L s key (some a)) : ∃ r, s.log a = some r ∧ r.key = key := by
  generalize hp : some a = p at h
  cases h with
  | entry hl htag => exact firstOf_key hp.symm
  | untagged h => cases hp

theorem Newest.holds (h : Newest L s key p) :
    Holds L s key (p.bind fun a => (s.log a).map Record.value) := by
  cases h with
  | entry hl htag => exact .entry hl htag
  | untagged h => exact .untagged h

theorem Holds.newest (h : Holds L s key o) :
    ∃ p, Newest L s key p ∧ o = p.bind fun a => (s.log a).map Record.value := by
  cases h with
  | entry hl htag => exact ⟨_, .entry hl htag, rfl⟩
  | untagged h => exact ⟨none, .untagged h, rfl⟩

theorem Holds.total (hv : Valid L s) (key : K) : ∃ o, Holds L s key o := by
  obtain ⟨p, hp⟩ := Newest.total hv key
  exact ⟨_, hp.holds⟩

theorem Holds.unique (hv : Valid L s) (h : Holds L s key o) (h' : Holds L s key o') : o = o' := by
  obtain ⟨p, hp, rfl⟩ := h.newest
  obtain ⟨p', hp', rfl⟩ := h'.newest
  rw [hp.unique hv hp']

/-- A key keeps its value where its newest record stays in its place with its value. -/
theorem Holds.of_newest (h : Holds L s key o)
    (hnewest : ∀ p, Newest L s key p → Newest L s' key p)
    (hsame : ∀ a r, s.log a = some r → r.key = key →
      (s'.log a).map Record.value = (s.log a).map Record.value) : Holds L s' key o := by
  obtain ⟨p, hp, rfl⟩ := h.newest
  have hvalue : (p.bind fun a => (s'.log a).map Record.value) =
      p.bind fun a => (s.log a).map Record.value := by
    cases p with
    | none => rfl
    | some a =>
        obtain ⟨r, hr, hkey⟩ := hp.record
        exact hsame a r hr hkey
  rw [← hvalue]
  exact (hnewest p hp).holds

end Holds

section Search

theorem traceBackForKeyMatch_spec (fuel : Nat) (key : K)
    (h : Chain Record.previousAddress s.log s.headAddress a l) (hfuel : a < fuel) :
    ∃ found, traceBackForKeyMatch s key s.headAddress fuel a = some found ∧
      (firstOf Record.key s.log key l = some found ∨
        firstOf Record.key s.log key l = none ∧ found < s.headAddress) := by
  induction fuel generalizing a l with
  | zero => omega
  | succ fuel ih =>
      unfold traceBackForKeyMatch
      split
      · rename_i hle
        obtain ⟨l', r, rfl, hr, hprev, htail⟩ := h.eq_cons hle
        rw [hr, firstOf_cons hr]
        by_cases hk : key = r.key
        · exact ⟨a, if_pos hk, Or.inl (if_pos hk.symm)⟩
        · simp only [if_neg hk, if_neg (Ne.symm hk)]
          exact ih htail (by omega)
      · rename_i hlt
        rw [h.eq_nil (Nat.not_le.mp hlt)]
        exact ⟨a, rfl, Or.inr ⟨rfl, Nat.not_le.mp hlt⟩⟩

theorem findRecord_spec (h : Chain Record.previousAddress s.log s.headAddress a l) (key : K) :
    ∃ found latest, findRecord s key a = some (found, latest) ∧
      (firstOf Record.key s.log key l = some found ∨
        firstOf Record.key s.log key l = none ∧ found < s.headAddress) := by
  unfold findRecord
  split
  · rename_i hle
    obtain ⟨l', r, rfl, hr, hprev, htail⟩ := h.eq_cons hle
    rw [hr, firstOf_cons hr]
    by_cases hk : key = r.key
    · exact ⟨a, r.checkpointVersion, if_pos hk, Or.inl (if_pos hk.symm)⟩
    · simp only [if_neg hk, if_neg (Ne.symm hk)]
      obtain ⟨found, htrace, hfound⟩ := traceBackForKeyMatch_spec (a + 1) key
        htail (by omega)
      exact ⟨found, r.checkpointVersion, by rw [htrace, Option.map_some], hfound⟩
  · rename_i hlt
    rw [h.eq_nil (Nat.not_le.mp hlt)]
    exact ⟨a, 0, rfl, Or.inr ⟨rfl, Nat.not_le.mp hlt⟩⟩

def readOutcome (o : Option (BitVec 64)) : OperationStatus × Option (BitVec 64) :=
  (if o.isSome then .success else .notFound, o)

theorem internalRead_spec (hv : Valid L s) (hphase : ctx.phase ≠ .prepare)
    (h : Holds L s key o) : internalRead L s ctx key = some (readOutcome o) := by
  unfold internalRead
  rcases findEntry_spec (L.tag key) (hv.settled (L.idx key)).final with
    ⟨i, e, he, htag, hfind⟩ | ⟨hno, hfind⟩
  · obtain ⟨l, hl⟩ := hv.chains _ i e he
    rw [hfind, h.unique hv (.entry hl htag)]
    obtain ⟨found, latest, hrec, hfound⟩ := findRecord_spec hl.chain key
    have hphase' : ¬ (ctx.phase = .prepare ∧ latest > ctx.version) := fun hp => hphase hp.1
    simp only [hrec, if_neg hphase', valueIn]
    rcases hfound with hfirst | ⟨hfirst, hlt⟩
    · obtain ⟨r, hr, -⟩ := firstOf_key hfirst
      have hhead := (hl.chain.bounds (firstOf_mem hfirst)).1
      simp only [hfirst, Option.bind_some, hr, Option.map_some, if_pos hhead, ite_self]
      rfl
    · have hsafe : ¬ s.safeReadOnlyAddress ≤ found := by
        have := hv.safe
        omega
      have hbegin : ¬ s.beginAddress ≤ found := by
        rw [hv.begin]
        exact Nat.not_le.mpr hlt
      simp only [hfirst, Option.bind_none, if_neg hsafe, if_neg (Nat.not_le.mpr hlt), if_neg hbegin]
      rfl
  · rw [hfind, h.unique hv (.untagged hno)]
    rfl

end Search

end HashComp.Faster
