import HashComp.Faster.Refinement

namespace HashComp.Faster

open HashComp.RecordChain

variable {K : Type} [DecidableEq K] {L : Layout K} {s s' : Store K} {key k : K} {ctx : Context}
  {input : BitVec 64} {x y z : Session K} {m m' : MapState K} {op : Op K} {r : Result K}

def SameEntry (L : Layout K) (k key : K) : Prop :=
  L.idx k = L.idx key ∧ L.tag k = L.tag key

instance (L : Layout K) (k key : K) : Decidable (SameEntry L k key) :=
  inferInstanceAs (Decidable (_ ∧ _))

/-- The most recent record of the hash is one of `key` that may be changed in
place, and no other key has a record behind it. -/
def OnlyMutableHead (L : Layout K) (s : Store K) (key : K) : Prop :=
  ∃ i e a l, Leads L s (L.idx key) i e (a :: l) ∧ e.tag = L.tag key ∧
    s.readOnlyAddress ≤ a ∧ ∀ b ∈ a :: l, ∀ r, s.log b = some r → r.key = key

def withoutEntry (L : Layout K) (key : K) (m : K → Option (BitVec 64)) : K → Option (BitVec 64) :=
  fun k => if SameEntry L k key then none else m k

/-- What `InternalDelete` does, by where the most recent record of the key is. -/
theorem internalDelete_spec (hv : Valid L s) (hrest : ctx.phase = .rest) (key : K)
    (input : BitVec 64) :
    (∃ i e a l s', Leads L s (L.idx key) i e (a :: l) ∧ e.tag = L.tag key ∧
      firstOf Record.key s.log key (a :: l) = some a ∧ s.readOnlyAddress ≤ a ∧
      internalDelete L s ctx key input = some (.success, s') ∧ Valid L s' ∧
      ∀ m : K → Option (BitVec 64), (∀ k, Holds L s k (m k)) →
        ∀ k, Holds L s' k (withoutEntry L key m k)) ∨
    (∃ s' v, ¬ OnlyMutableHead L s key ∧ Holds L s key (some v) ∧
      internalDelete L s ctx key input = some (.success, s') ∧ Keeps L s s') ∨
    (∃ s', ¬ OnlyMutableHead L s key ∧
      internalDelete L s ctx key input = some (.success, s') ∧ Sets L s key input s') := by
  obtain ⟨x, l, hloc, hx⟩ := locate_spec hv key
  have hbounds := hx.keeps.bounds
  have hlog : x.store.log = s.log := by
    obtain ⟨bucket, hs⟩ := hx.store
    rw [hs]
    rfl
  -- the entry that the condition speaks of is the one that is found
  have honly : ∀ i e a l', Leads L s (L.idx key) i e (a :: l') → e.tag = L.tag key →
      l = a :: l' ∧ x.expected.address = a := by
    intro i e a l' hl htag
    rcases hx.origin with horigin | ⟨-, hno⟩
    · have hi := (hv.settled _).unique _ _ _ _ hl.slot horigin.slot (htag.trans hx.tag.symm)
      subst hi
      have heq := hl.slot.symm.trans horigin.slot
      cases heq
      have hsame := horigin.unique hl
      subst hsame
      cases hl.chain with
      | cons => exact ⟨rfl, rfl⟩
    · exact absurd htag (hno _ _ hl.slot)
  simp only [internalDelete, hloc, Option.bind_eq_bind, Option.bind_some, hrest, acquire]
  by_cases hro : x.store.readOnlyAddress ≤ x.address
  · have hfirst := hx.first_of_readOnly (Nat.le_trans hx.valid.head_le_readOnly hro)
    have hslot : (x.store.buckets (L.idx key))[x.slot]? = some (some x.expected) := hx.leads.slot
    rw [if_pos hro, hslot]
    by_cases hhead : x.expected.address = x.address
    · have hge : x.store.headAddress ≤ x.expected.address := by
        rw [hhead]
        exact (hx.leads.chain.bounds (firstOf_mem hfirst)).1
      obtain ⟨l', r, rfl, -, -, -⟩ := hx.leads.chain.eq_cons hge
      obtain horigin | ⟨hnil, -⟩ := hx.origin
      · rw [hlog, ← hhead] at hfirst
        obtain ⟨hvalid, hgone, hkeep⟩ := eraseEntry_spec hx.valid hx.leads
        refine Or.inl ⟨_, _, _, _, _, horigin, hx.tag, hfirst, ?_, if_pos hhead, hvalid,
          fun m hm k => ?_⟩
        · rw [hhead, ← hbounds.readOnly]
          exact hro
        · unfold withoutEntry
          by_cases hk : SameEntry L k key
          · rw [if_pos hk]
            exact hgone k hk.1 (hk.2.trans hx.tag.symm)
          · rw [if_neg hk]
            refine hkeep k (fun h => hk ⟨h.1, h.2.trans hx.tag⟩) _ ?_
            exact hx.holds k _ (hm k)
      · cases hnil
    · obtain ⟨r, hr, -⟩ := firstOf_key hfirst
      refine Or.inr (Or.inl ⟨x.store, r.value, ?_, ?_, if_neg hhead, hx.keeps⟩)
      · rintro ⟨i, e, a, l', hl, htag, -, hall⟩
        obtain ⟨rfl, haddr⟩ := honly i e a l' hl htag
        obtain ⟨ra, hra⟩ := hl.chain.record List.mem_cons_self
        rw [hlog, firstOf_cons hra, if_pos (hall a List.mem_cons_self ra hra)] at hfirst
        exact hhead (haddr.trans (Option.some.inj hfirst))
      · rcases hx.origin with horigin | ⟨hnil, -⟩
        · have hval : valueIn s.log key l = some r.value := by
            rw [valueIn, ← hlog, hfirst, Option.bind_some, hr, Option.map_some]
          rw [← hval]
          exact .entry horigin hx.tag
        · subst hnil
          cases hfirst
  · obtain ⟨s', hcreate, hsets⟩ := createRecord_spec hx.valid hx.leads hx.tag ctx input
    refine Or.inr (Or.inr ⟨s', ?_, by rw [if_neg hro, ← hcreate], hx.keeps.sets hv hsets⟩)
    rintro ⟨i, e, a, l', hl, htag, hle, hall⟩
    obtain ⟨rfl, haddr⟩ := honly i e a l' hl htag
    obtain ⟨ra, hra⟩ := hl.chain.record List.mem_cons_self
    have hfirst : firstOf Record.key x.store.log key (a :: l') = some a := by
      rw [hlog, firstOf_cons hra, if_pos (hall a List.mem_cons_self ra hra)]
    rcases hx.address with haddress | ⟨hnone, -⟩
    · rw [hfirst] at haddress
      rw [hbounds.readOnly, ← Option.some.inj haddress] at hro
      exact hro hle
    · rw [hfirst] at hnone
      cases hnone

section Session

/-- What a `Delete` makes of the map: it loses the keys of an entry, stays as it
is, or gets a value for the key. -/
inductive MapDelete (L : Layout K) (s : Store K) (m : MapState K) (key : K) (input : BitVec 64) :
    MapState K → Prop where
  | wipe (honly : OnlyMutableHead L s key ↔ ∀ k ≠ key, SameEntry L k key → m.map k = none) :
      MapDelete L s m key input { m with map := withoutEntry L key m.map }
  | nothing (hnot : ¬ OnlyMutableHead L s key) (hkey : m.map key ≠ none) :
      MapDelete L s m key input m
  | create (hnot : ¬ OnlyMutableHead L s key) :
      MapDelete L s m key input { m with map := Function.update m.map key (some input) }

theorem Represents.keeps (h : Represents L x m) (hkeeps : Keeps L x.store s') :
    Represents L { x with store := s' } m where
  valid := hkeeps.valid
  rest := h.rest
  holds := fun k => hkeeps.holds k _ (h.holds k)
  requests := h.requests
  pendingRest := h.pendingRest

/-- Where the most recent record of the hash is one of `key` and mutable, the
other records of the hash are those that other keys are found by. -/
theorem onlyMutableHead_iff {i a : Nat} {e : HashBucketEntry} {l : List Nat}
    (h : Represents L x m) (hl : Leads L x.store (L.idx key) i e (a :: l))
    (htag : e.tag = L.tag key) (hro : x.store.readOnlyAddress ≤ a) :
    OnlyMutableHead L x.store key ↔ ∀ k ≠ key, SameEntry L k key → m.map k = none := by
  have hvalue : ∀ k, SameEntry L k key → m.map k = valueIn x.store.log k (a :: l) := by
    intro k hk
    apply (h.holds k).unique h.valid
    apply Holds.entry
    · rw [hk.1]
      exact hl
    · exact htag.trans hk.2.symm
  constructor
  · rintro ⟨i', e', a', l', hl', htag', -, hall⟩ k hne hk
    have hi := (h.valid.settled _).unique _ _ _ _ hl.slot hl'.slot (htag.trans htag'.symm)
    subst hi
    have he := hl.slot.symm.trans hl'.slot
    cases he
    have hsame := hl.unique hl'
    cases hsame
    have hnone : firstOf Record.key x.store.log k (a :: l) = none := by
      rw [firstOf_eq_none_iff]
      intro b hb r hr hkey
      exact hne (hkey.symm.trans (hall b hb r hr))
    rw [hvalue k hk, valueIn, hnone]
    rfl
  · intro hnone
    refine ⟨i, e, a, l, hl, htag, hro, fun b hb r hr => ?_⟩
    by_contra hne
    obtain ⟨hidx, htagr⟩ := hl.keys b hb r hr
    have hsame : SameEntry L r.key key := ⟨hidx, htagr.trans htag⟩
    cases hfirst : firstOf Record.key x.store.log r.key (a :: l) with
    | none => exact firstOf_eq_none_iff.mp hfirst b hb r hr rfl
    | some c =>
        obtain ⟨rc, hrc, -⟩ := firstOf_key hfirst
        have hgone := (hvalue r.key hsame).symm.trans (hnone r.key hne hsame)
        rw [valueIn, hfirst, Option.bind_some, hrc] at hgone
        cases hgone

theorem Represents.delete (h : Represents L x m) (key : K) (input : BitVec 64) :
    ∃ y m', x.call L (.delete key input) = some (.ok, y) ∧
      MapDelete L x.store m key input m' ∧ Represents L y m' := by
  rcases internalDelete_spec h.valid h.rest key input with
    ⟨i, e, a, l, s', hl, htag, -, hro, hdelete, hvalid, hholds⟩ |
    ⟨s', v, hnot, hheld, hdelete, hkeeps⟩ | ⟨s', hnot, hdelete, hsets⟩
  · refine ⟨{ x with store := s' }, _, by simp only [Session.call, hdelete],
      .wipe (onlyMutableHead_iff h hl htag hro), ?_⟩
    exact ⟨hvalid, h.rest, hholds m.map h.holds, h.requests, h.pendingRest⟩
  · have hkey : m.map key ≠ none := by
      rw [(h.holds key).unique h.valid hheld]
      exact Option.some_ne_none v
    exact ⟨{ x with store := s' }, m, by simp only [Session.call, hdelete], .nothing hnot hkey,
      h.keeps hkeeps⟩
  · exact ⟨{ x with store := s' }, _, by simp only [Session.call, hdelete], .create hnot,
      h.sets hsets⟩

/-- The sessions that calls lead to. -/
inductive Reached (L : Layout K) : Session K → Prop where
  | new : Reached L Session.new
  | call {x y : Session K} {op : Op K} {r : Result K} (hx : Reached L x)
      (h : x.call L op = some (r, y)) : Reached L y

theorem Represents.any_call (h : Represents L x m) (hcall : x.call L op = some (r, y)) :
    ∃ m', Represents L y m' ∧
      (MapCall (Fuzzy L x.store) m op r m' ∨ ∃ key input, op = .delete key input ∧
        MapDelete L x.store m key input m') := by
  by_cases hdelete : ∃ key input, op = .delete key input
  · obtain ⟨key, input, rfl⟩ := hdelete
    obtain ⟨z, m', hz, hmap, hrep⟩ := h.delete key input
    rw [hcall] at hz
    cases hz
    exact ⟨m', hrep, Or.inr ⟨key, input, rfl, hmap⟩⟩
  · push Not at hdelete
    obtain ⟨r', z, m', hz, hmap, hrep⟩ := h.call op hdelete
    rw [hcall] at hz
    cases hz
    exact ⟨m', hrep, Or.inl hmap⟩

theorem Reached.represents (h : Reached L x) : ∃ m, Represents L x m := by
  induction h with
  | new => exact ⟨_, represents_new⟩
  | call hx hcall ih =>
      obtain ⟨m, hm⟩ := ih
      obtain ⟨m', hm', -⟩ := hm.any_call hcall
      exact ⟨m', hm'⟩

/-- The call is an `Upsert` or a `Delete` of the key, or has applied an `Rmw` to
it. -/
def Writes (key : K) : Op K → Result K → Prop
  | .upsert k _, _ => k = key
  | .delete k _, _ => k = key
  | .rmw k _, r => k = key ∧ r = .ok
  | .completePending, .completed requests _ => key ∈ requests.map Prod.fst
  | _, _ => False

inductive RunsWithout (L : Layout K) (key : K) : Session K → Session K → Prop where
  | refl {x : Session K} : RunsWithout L key x x
  | call {x y z : Session K} {op : Op K} {r : Result K} (hrun : RunsWithout L key x y)
      (h : y.call L op = some (r, z)) (hnot : ¬ Writes key op r) : RunsWithout L key x z

/-- `Delete` returns `Ok`, the key is not found until it is written again, and
the other keys are read as before. -/
def DeletesExactly (L : Layout K) (x : Session K) (key : K) (input : BitVec 64) : Prop :=
  ∃ y, x.call L (.delete key input) = some (.ok, y) ∧
    (∀ z, RunsWithout L key y z → z.call L (.read key) = some (.notFound, z)) ∧
    ∀ k ≠ key, (y.call L (.read k)).map Prod.fst = (x.call L (.read k)).map Prod.fst

theorem Completes.untouched {m m' : K → Option (BitVec 64)}
    {requests completed remaining : List (K × BitVec 64)} {fuzzy : K → Prop}
    (h : Completes fuzzy m requests completed remaining m') (hkey : key ∉ completed.map Prod.fst) :
    m' key = m key := by
  induction h with
  | nil => rfl
  | apply hfuzzy h ih =>
      rw [List.map_cons, List.mem_cons, not_or] at hkey
      rw [ih hkey.2, applyRmw, Function.update_of_ne hkey.1]
  | keep hfuzzy h ih => exact ih hkey

theorem MapCall.untouched {fuzzy : K → Prop} (h : MapCall fuzzy m op r m') (hnot : ¬ Writes key op r) :
    m'.map key = m.map key := by
  cases h with
  | found => rfl
  | notFound => rfl
  | upsert => exact Function.update_of_ne (fun heq => hnot heq.symm) ..
  | rmw => exact Function.update_of_ne (fun heq => hnot ⟨heq.symm, rfl⟩) ..
  | rmwPending => rfl
  | completePending hcompletes => exact hcompletes.untouched hnot
  | shiftReadOnly => rfl
  | shiftSafeReadOnly => rfl

theorem MapDelete.absent (h : MapDelete L s m key input m') (hne : key ≠ k)
    (hnone : m.map k = none) : m'.map k = none := by
  cases h with
  | wipe =>
      change (if SameEntry L k key then none else m.map k) = none
      rw [hnone, ite_self]
  | nothing => exact hnone
  | create =>
      change Function.update m.map key (some input) k = none
      rw [Function.update_of_ne hne.symm, hnone]

theorem RunsWithout.absent (h : RunsWithout L key x y) (hx : Represents L x m)
    (hnone : m.map key = none) : ∃ m', Represents L y m' ∧ m'.map key = none := by
  induction h with
  | refl => exact ⟨m, hx, hnone⟩
  | call hrun hcall hnot ih =>
      obtain ⟨m₁, hm₁, hnone₁⟩ := ih
      obtain ⟨m₂, hm₂, hmap⟩ := hm₁.any_call hcall
      refine ⟨m₂, hm₂, ?_⟩
      rcases hmap with hmap | ⟨key', input, rfl, hmap⟩
      · rw [hmap.untouched hnot, hnone₁]
      · exact hmap.absent hnot hnone₁

/-- `Delete` removes exactly its key just where the most recent record of its
hash is one of the key, may be changed in place, and has only records of the key
behind it. -/
theorem deletesExactly_iff (hx : Reached L x) (key : K) (input : BitVec 64) :
    DeletesExactly L x key input ↔ OnlyMutableHead L x.store key := by
  obtain ⟨m, hm⟩ := hx.represents
  obtain ⟨y, m', hcall, hdelete, hm'⟩ := hm.delete key input
  constructor
  · rintro ⟨y', hcall', hfound, hothers⟩
    rw [hcall] at hcall'
    cases hcall'
    have hnone : m'.map key = none := by
      have hread := hfound y .refl
      rw [hm'.read key] at hread
      exact readResult_injective (congrArg Prod.fst (Option.some.inj hread))
    cases hdelete with
    | wipe honly =>
        refine honly.mpr fun k hne hk => ?_
        have hread := hothers k hne
        rw [hm'.read k, hm.read k] at hread
        have heq := readResult_injective (Option.some.inj hread)
        rw [← heq]
        exact if_pos hk
    | nothing hnot hkey => exact absurd hnone hkey
    | create hnot =>
        change Function.update m.map key (some input) key = none at hnone
        rw [Function.update_self] at hnone
        cases hnone
  · intro honly
    cases hdelete with
    | wipe hiff =>
        have hempty := hiff.mp honly
        refine ⟨y, hcall, fun z hz => ?_, fun k hne => ?_⟩
        · obtain ⟨m₁, hm₁, hnone⟩ := hz.absent hm' (if_pos ⟨rfl, rfl⟩)
          rw [hm₁.read key, hnone]
          rfl
        · rw [hm'.read k, hm.read k]
          by_cases hk : SameEntry L k key
          · simp only [withoutEntry, if_pos hk, hempty k hne hk, Option.map_some]
          · simp only [withoutEntry, if_neg hk, Option.map_some]
    | nothing hnot => exact absurd honly hnot
    | create hnot => exact absurd honly hnot

/-- Two keys with one hash. -/
theorem deletesExactly_iff_sharing :
    ∃ x y, (Session.new : Session (BitVec 64)).call ⟨fun _ => 0, 16⟩ (.upsert 1 10) =
        some (.ok, x) ∧
      x.call ⟨fun _ => 0, 16⟩ (.upsert 2 20) = some (.ok, y) ∧
      (DeletesExactly ⟨fun _ => 0, 16⟩ y 2 99 ↔ OnlyMutableHead ⟨fun _ => 0, 16⟩ y.store 2) := by
  obtain ⟨_, x, m, hx, hmap, hrep⟩ := represents_new.call (.upsert (1 : BitVec 64) 10)
    (fun _ _ => nofun)
  cases hmap
  obtain ⟨_, y, m', hy, hmap, -⟩ := hrep.call (.upsert 2 20) (fun _ _ => nofun)
  cases hmap
  exact ⟨x, y, hx, hy, deletesExactly_iff (.call (.call .new hx) hy) 2 99⟩

/-- Deleting the older of two keys with one hash does nothing, deleting the newer
removes both, and deleting an absent key inserts it. -/
theorem delete_misses_key :
    ((Session.new : Session (BitVec 64)).calls ⟨fun _ => 0, 16⟩
      [.upsert 1 10, .upsert 2 20, .delete 1 99, .read 1, .read 2, .delete 2 99, .read 1, .read 2,
        .delete 3 7, .read 3]).map Prod.fst =
      some [.ok, .ok, .ok, .value 10, .value 20, .ok, .notFound, .notFound, .ok, .value 7] := by
  decide

end Session

end HashComp.Faster
