import HashComp.Faster.Effects
import HashComp.Faster.Session

namespace HashComp.Faster

open HashComp.RecordChain

section Map

structure MapState (K : Type) where
  map : K → Option (BitVec 64)
  requests : List (K × BitVec 64)

def rmwValue (incr : BitVec 64) : Option (BitVec 64) → BitVec 64
  | none => incr
  | some v => v + incr

variable {K : Type} [DecidableEq K]

def applyRmw (m : K → Option (BitVec 64)) (key : K) (incr : BitVec 64) :
    K → Option (BitVec 64) :=
  Function.update m key (some (rmwValue incr (m key)))

/-- `CompletePending` takes the requests in order and applies a request, or keeps it for the
next time if its key is fuzzy. -/
inductive Completes (fuzzy : K → Prop) : (K → Option (BitVec 64)) → List (K × BitVec 64) →
    List (K × BitVec 64) → List (K × BitVec 64) → (K → Option (BitVec 64)) → Prop where
  | nil {m} : Completes fuzzy m [] [] [] m
  | apply {m m' key incr rest completed remaining} (hfuzzy : ¬ fuzzy key)
      (h : Completes fuzzy (applyRmw m key incr) rest completed remaining m') :
      Completes fuzzy m ((key, incr) :: rest) ((key, incr) :: completed) remaining m'
  | keep {m m' key incr rest completed remaining} (hfuzzy : fuzzy key)
      (h : Completes fuzzy m rest completed remaining m') :
      Completes fuzzy m ((key, incr) :: rest) completed ((key, incr) :: remaining) m'

inductive MapCall (fuzzy : K → Prop) : MapState K → Op K → Result K → MapState K → Prop where
  | found {x key v} (h : x.map key = some v) : MapCall fuzzy x (.read key) (.value v) x
  | notFound {x key} (h : x.map key = none) : MapCall fuzzy x (.read key) .notFound x
  | upsert {x key input} : MapCall fuzzy x (.upsert key input) .ok
      { x with map := Function.update x.map key (some input) }
  | rmw {x key incr} (hfuzzy : ¬ fuzzy key) :
      MapCall fuzzy x (.rmw key incr) .ok { x with map := applyRmw x.map key incr }
  | rmwPending {x key incr} (hfuzzy : fuzzy key) :
      MapCall fuzzy x (.rmw key incr) .pending { x with requests := x.requests ++ [(key, incr)] }
  | completePending {x completed remaining m}
      (h : Completes fuzzy x.map x.requests completed remaining m) :
      MapCall fuzzy x .completePending (.completed completed remaining.isEmpty) ⟨m, remaining⟩
  | shiftReadOnly {x address} : MapCall fuzzy x (.shiftReadOnly address) .shifted x
  | shiftSafeReadOnly {x address} : MapCall fuzzy x (.shiftSafeReadOnly address) .shifted x

/-- The calls of a session, each of which does to the map what it should while the keys are
fuzzy that are so in the log. -/
inductive MapCalls (L : Layout K) : Session K → MapState K → List (Op K) → List (Result K) →
    Session K → MapState K → Prop where
  | nil {x m} : MapCalls L x m [] [] x m
  | cons {x y z m m₁ m' op ops r rs} (hcall : x.call L op = some (r, y))
      (h : MapCall (Fuzzy L x.store) m op r m₁) (hrest : MapCalls L y m₁ ops rs z m') :
      MapCalls L x m (op :: ops) (r :: rs) z m'

end Map

variable {K : Type} [DecidableEq K] {L : Layout K} {s s' : Store K} {key : K} {ctx : Context}
  {o : Option (BitVec 64)} {v input incr : BitVec 64} {x y : Session K} {m : MapState K}

section Operations

theorem LocatedAt.first_of_readOnly {l : List Nat} {x : Located K} (h : LocatedAt L s key x l)
    (hro : x.store.headAddress ≤ x.address) :
    firstOf Record.key x.store.log key l = some x.address := by
  rcases h.address with hfirst | ⟨-, hlt⟩
  · exact hfirst
  · exact absurd hro (Nat.not_le.mpr hlt)

theorem LocatedAt.value {l : List Nat} {x : Located K} (h : LocatedAt L s key x l)
    (ho : Holds L s key o) : o = valueIn x.store.log key l :=
  (h.holds key o ho).unique h.valid (.entry h.leads h.tag)

omit [DecidableEq K] in
theorem Valid.head_le_readOnly (h : Valid L s) : s.headAddress ≤ s.readOnlyAddress :=
  Nat.le_trans h.safe h.readOnly

theorem Keeps.fuzzy_iff (hv : Valid L s) (h : Keeps L s s') :
    Fuzzy L s' key ↔ Fuzzy L s key := by
  obtain ⟨p, hp⟩ := Newest.total hv key
  rw [Fuzzy, Fuzzy, h.bounds.safe, h.bounds.readOnly]
  constructor
  · rintro ⟨a, ha, hin⟩
    rw [(h.newest key p hp).unique h.valid ha] at hp
    exact ⟨a, hp, hin⟩
  · rintro ⟨a, ha, hin⟩
    exact ⟨a, h.newest key _ ha, hin⟩

/-- What is written to a key leaves the same keys fuzzy, where this one was not. -/
theorem Sets.fuzzy_iff (hv : Valid L s) (h : Sets L s key v s') (hnot : ¬ Fuzzy L s key) (k : K) :
    Fuzzy L s' k ↔ Fuzzy L s k := by
  by_cases hk : k = key
  · subst k
    refine iff_of_false ?_ hnot
    rintro ⟨a, ha, hle, hlt⟩
    rw [h.bounds.safe] at hle
    rw [h.bounds.readOnly] at hlt
    obtain ⟨a', ha', hplace⟩ := h.placed
    cases ha.unique h.valid ha'
    rcases hplace with hold | hro
    · exact hnot ⟨a, hold, hle, hlt⟩
    · exact absurd hlt (Nat.not_lt.mpr hro)
  · obtain ⟨p, hp⟩ := Newest.total hv k
    rw [Fuzzy, Fuzzy, h.bounds.safe, h.bounds.readOnly]
    constructor
    · rintro ⟨a, ha, hin⟩
      rw [(h.newest k hk p hp).unique h.valid ha] at hp
      exact ⟨a, hp, hin⟩
    · rintro ⟨a, ha, hin⟩
      exact ⟨a, h.newest k hk _ ha, hin⟩

theorem LocatedAt.fuzzy_iff {l : List Nat} {x : Located K} (hv : Valid L s)
    (h : LocatedAt L s key x l) : Fuzzy L s key ↔
      x.store.safeReadOnlyAddress ≤ x.address ∧ x.address < x.store.readOnlyAddress := by
  rw [← h.keeps.fuzzy_iff hv]
  have hnewest : Newest L x.store key _ := .entry h.leads h.tag
  constructor
  · rintro ⟨a, ha, hin⟩
    have hfirst := hnewest.unique h.valid ha
    rcases h.address with hfound | ⟨hnone, -⟩
    · rw [hfound] at hfirst
      cases hfirst
      exact hin
    · rw [hnone] at hfirst
      cases hfirst
  · rintro ⟨hle, hlt⟩
    rw [h.first_of_readOnly (Nat.le_trans h.valid.safe hle)] at hnewest
    exact ⟨_, hnewest, hle, hlt⟩

theorem internalUpsert_spec (hv : Valid L s) (hrest : ctx.phase = .rest) (key : K)
    (input : BitVec 64) :
    ∃ s', internalUpsert L s ctx key input = some (.success, s') ∧ Sets L s key input s' := by
  obtain ⟨x, l, hloc, hx⟩ := locate_spec hv key
  simp only [internalUpsert, hloc, Option.bind_eq_bind, Option.bind_some, hrest, true_and, acquire]
  by_cases hro : x.store.readOnlyAddress ≤ x.address
  · obtain ⟨s', hput, hsets⟩ := setValue_spec hx.valid hx.leads hx.tag
      (hx.first_of_readOnly (Nat.le_trans hx.valid.head_le_readOnly hro)) input
    refine ⟨s', ?_, hx.keeps.sets hv hsets⟩
    rw [if_pos hro, putAtomic, hput]
    rfl
  · obtain ⟨s', hcreate, hsets⟩ := createRecord_spec hx.valid hx.leads hx.tag ctx input
    refine ⟨s', ?_, hx.keeps.sets hv hsets⟩
    rw [if_neg hro, if_neg hro, ← hcreate]

/-- An `Rmw` is applied unless the key is fuzzy. -/
theorem internalRmw_spec (hv : Valid L s) (hrest : ctx.phase = .rest) (ho : Holds L s key o)
    (incr : BitVec 64) :
    (∃ s', internalRmw L s ctx key incr = some (.success, s') ∧ ¬ Fuzzy L s key ∧
      Sets L s key (rmwValue incr o) s') ∨
    (∃ s', internalRmw L s ctx key incr = some (.retryLater, s') ∧ Fuzzy L s key ∧
      Keeps L s s') := by
  obtain ⟨x, l, hloc, hx⟩ := locate_spec hv key
  have hval := hx.value ho
  have hfuzzy := hx.fuzzy_iff hv
  simp only [internalRmw, hloc, Option.bind_eq_bind, Option.bind_some, hrest, true_and, acquire]
  by_cases hhead : x.store.headAddress ≤ x.address
  · have hfirst := hx.first_of_readOnly hhead
    obtain ⟨r, hr, -⟩ := firstOf_key hfirst
    have ho : o = some r.value := by
      rw [hval, valueIn, hfirst, Option.bind_some, hr, Option.map_some]
    by_cases hro : x.store.readOnlyAddress ≤ x.address
    · obtain ⟨s', hput, hsets⟩ := setValue_spec hx.valid hx.leads hx.tag hfirst (r.value + incr)
      refine Or.inl ⟨s', ?_, fun h => ?_, ?_⟩
      · simp only [if_pos hro, rmwAtomic, hr, hput]
        rfl
      · exact absurd (hfuzzy.mp h).2 (Nat.not_lt.mpr hro)
      · rw [ho]
        exact hx.keeps.sets hv hsets
    · rw [if_neg hro, if_neg hro]
      by_cases hsafe : x.store.safeReadOnlyAddress ≤ x.address
      · exact Or.inr ⟨x.store, if_pos hsafe, hfuzzy.mpr ⟨hsafe, Nat.not_le.mp hro⟩, hx.keeps⟩
      · obtain ⟨s', hcreate, hsets⟩ := createRecord_spec hx.valid hx.leads hx.tag ctx
          (r.value + incr)
        refine Or.inl ⟨s', ?_, fun h => absurd (hfuzzy.mp h).1 hsafe, ?_⟩
        · have hbegin : ¬ x.address < x.store.beginAddress := by
            rw [hx.valid.begin]
            exact Nat.not_lt.mpr hhead
          simp only [if_neg hsafe, if_pos hhead, rmwCreateRecord, if_neg hbegin, hr, hcreate]
        · rw [ho]
          exact hx.keeps.sets hv hsets
  · have hnone : firstOf Record.key x.store.log key l = none := by
      rcases hx.address with hfirst | ⟨hfirst, -⟩
      · exact absurd (hx.leads.chain.bounds (firstOf_mem hfirst)).1 hhead
      · exact hfirst
    have ho : o = none := by
      rw [hval, valueIn, hnone]
      rfl
    have hro : ¬ x.store.readOnlyAddress ≤ x.address := by
      have := hx.valid.head_le_readOnly
      omega
    have hsafe : ¬ x.store.safeReadOnlyAddress ≤ x.address := by
      have := hx.valid.safe
      omega
    have hbegin : x.address < x.store.beginAddress := by
      rw [hx.valid.begin]
      exact Nat.not_le.mp hhead
    obtain ⟨s', hcreate, hsets⟩ := createRecord_spec hx.valid hx.leads hx.tag ctx incr
    refine Or.inl ⟨s', ?_, fun h => absurd (hfuzzy.mp h).1 hsafe, ?_⟩
    · simp only [if_neg hro, if_neg hsafe, if_neg hhead, if_neg (Nat.not_le.mpr hbegin),
        rmwCreateRecord, if_pos hbegin, hcreate]
    · rw [ho]
      exact hx.keeps.sets hv hsets

end Operations

section Session

/-- The session stands for the map and the pending requests. -/
structure Represents (L : Layout K) (x : Session K) (m : MapState K) : Prop where
  valid : Valid L x.store
  rest : x.context.phase = .rest
  holds : ∀ key, Holds L x.store key (m.map key)
  requests : x.retryRequests.map (fun r => (r.key, r.incr)) = m.requests
  pendingRest : ∀ r ∈ x.retryRequests, r.context.phase = .rest

omit [DecidableEq K] in
theorem not_inSlot_new {b i : Nat} {e : HashBucketEntry} :
    ¬ InSlot ((Store.new : Store K).buckets b) i e := by
  intro he
  have hmem := List.mem_of_getElem? he
  simp [Store.new] at hmem

omit [DecidableEq K] in
theorem valid_new : Valid L (Store.new : Store K) where
  begin := rfl
  head := show kInvalidAddress < kCacheLineBytes by decide
  safe := Nat.le_refl _
  readOnly := Nat.le_refl _
  tail := Nat.le_refl _
  free := fun _ _ => rfl
  settled := fun _ =>
    ⟨fun _ _ he => absurd he not_inSlot_new, fun _ _ _ _ he => absurd he not_inSlot_new⟩
  chains := fun _ _ _ he => absurd he not_inSlot_new

theorem represents_new : Represents L Session.new ⟨fun _ => none, []⟩ where
  valid := valid_new
  rest := rfl
  holds := fun _ => .untagged fun _ _ he => absurd he not_inSlot_new
  requests := rfl
  pendingRest := fun _ hr => absurd hr List.not_mem_nil

theorem Sets.holds {m : K → Option (BitVec 64)} (h : Sets L s key v s')
    (hm : ∀ k, Holds L s k (m k)) (k : K) :
    Holds L s' k (Function.update m key (some v) k) := by
  by_cases hk : k = key
  · subst k
    rw [Function.update_self]
    exact h.value
  · rw [Function.update_of_ne hk]
    exact h.others k hk _ (hm k)

omit [DecidableEq K] in
theorem fuzzy_lt [DecidableEq K] (h : Fuzzy L s key) :
    s.safeReadOnlyAddress < s.readOnlyAddress := by
  obtain ⟨a, -, hle, hlt⟩ := h
  exact Nat.lt_of_le_of_lt hle hlt

/-- The keys that are fuzzy stay so while the requests are taken. -/
theorem completeRetryRequests_spec {requests : List (PendingRmw K)} {m : K → Option (BitVec 64)}
    {fuzzy : K → Prop} (hv : Valid L s) (hm : ∀ k, Holds L s k (m k))
    (hfuzzy : ∀ k, Fuzzy L s k ↔ fuzzy k) (hrest : ∀ r ∈ requests, r.context.phase = .rest) :
    ∃ completed remaining s' m',
      completeRetryRequests L s requests = some (completed, remaining, s') ∧
      Completes fuzzy m (requests.map fun r => (r.key, r.incr)) completed
        (remaining.map fun r => (r.key, r.incr)) m' ∧
      Valid L s' ∧ (∀ k, Holds L s' k (m' k)) ∧ (∀ r ∈ remaining, r.context.phase = .rest) ∧
      (s.safeReadOnlyAddress = s.readOnlyAddress → remaining = []) := by
  induction requests generalizing s m with
  | nil => exact ⟨[], [], s, m, rfl, .nil, hv, hm, hrest, fun _ => rfl⟩
  | cons r requests ih =>
      have hr := hrest r List.mem_cons_self
      have htail : ∀ r ∈ requests, r.context.phase = .rest :=
        fun q hq => hrest q (List.mem_cons_of_mem _ hq)
      rcases internalRmw_spec hv hr (hm r.key) r.incr with
        ⟨s₁, hrmw, hnot, hsets⟩ | ⟨s₁, hrmw, hin, hkeeps⟩
      · obtain ⟨completed, remaining, s', m', hcomplete, hspec, hv', hm', hrest', hdone⟩ :=
          ih hsets.valid (hsets.holds hm) (fun k => (hsets.fuzzy_iff hv hnot k).trans (hfuzzy k))
            htail
        refine ⟨(r.key, r.incr) :: completed, remaining, s', m', ?_,
          hspec.apply fun h => hnot ((hfuzzy _).mpr h), hv', hm', hrest', fun hsame => hdone ?_⟩
        · simp only [completeRetryRequests, hrmw, hcomplete, Option.map_some]
        · rw [hsets.bounds.safe, hsets.bounds.readOnly]
          exact hsame
      · obtain ⟨completed, remaining, s', m', hcomplete, hspec, hv', hm', hrest', -⟩ :=
          ih hkeeps.valid (fun k => hkeeps.holds k _ (hm k))
            (fun k => (hkeeps.fuzzy_iff hv).trans (hfuzzy k)) htail
        refine ⟨completed, r :: remaining, s', m', ?_, hspec.keep ((hfuzzy _).mp hin), hv', hm', ?_,
          fun hsame => absurd hsame (Nat.ne_of_lt (fuzzy_lt hin))⟩
        · simp only [completeRetryRequests, hrmw, hcomplete, Option.map_some]
        · intro q hq
          rcases List.mem_cons.mp hq with rfl | hq
          · exact hr
          · exact hrest' q hq

theorem Represents.shift {ro safe : Nat} (h : Represents L x m)
    (hsafe : x.store.headAddress ≤ safe) (hro : safe ≤ ro) (htail : ro ≤ x.store.tailAddress) :
    Represents L { x with store := { x.store with
      readOnlyAddress := ro
      safeReadOnlyAddress := safe } } m where
  valid :=
    { begin := h.valid.begin
      head := h.valid.head
      safe := hsafe
      readOnly := hro
      tail := htail
      free := h.valid.free
      settled := h.valid.settled
      chains := fun b i e he => by
        obtain ⟨l, hl⟩ := h.valid.chains b i e he
        exact ⟨l, hl.slot, hl.chain, hl.keys⟩ }
  rest := h.rest
  holds := by
    intro key
    have ho := h.holds key
    generalize m.map key = o at ho ⊢
    cases ho with
    | entry hl htag => exact .entry ⟨hl.slot, hl.chain, hl.keys⟩ htag
    | untagged hno => exact .untagged hno
  requests := h.requests
  pendingRest := h.pendingRest

theorem Represents.sets (h : Represents L x m) (hsets : Sets L x.store key v s') :
    Represents L { x with store := s' } { m with map := Function.update m.map key (some v) } where
  valid := hsets.valid
  rest := h.rest
  holds := hsets.holds h.holds
  requests := h.requests
  pendingRest := h.pendingRest

def readResult : Option (BitVec 64) → Result K
  | none => .notFound
  | some v => .value v

omit [DecidableEq K] in
theorem readResult_injective {o o' : Option (BitVec 64)}
    (h : (readResult o : Result K) = readResult o') : o = o' := by
  cases o with
  | none =>
      cases o' with
      | none => rfl
      | some v => cases h
  | some v =>
      cases o' with
      | none => cases h
      | some v' =>
          cases h
          rfl

theorem Represents.read (h : Represents L x m) (key : K) :
    x.call L (.read key) = some (readResult (m.map key), x) := by
  have hread := internalRead_spec h.valid (by rw [h.rest]; decide) (h.holds key)
  cases hmap : m.map key with
  | none =>
      rw [hmap] at hread
      simp only [Session.call, hread, readOutcome]
      rfl
  | some v =>
      rw [hmap] at hread
      simp only [Session.call, hread, readOutcome]
      rfl

theorem Represents.call (op : Op K) (h : Represents L x m)
    (hdelete : ∀ key input, op ≠ .delete key input) :
    ∃ r y m', x.call L op = some (r, y) ∧ MapCall (Fuzzy L x.store) m op r m' ∧
      Represents L y m' := by
  cases op with
  | read key =>
      refine ⟨_, x, m, h.read key, ?_, h⟩
      cases hmap : m.map key with
      | none => exact .notFound hmap
      | some v => exact .found hmap
  | upsert key input =>
      obtain ⟨s', hup, hsets⟩ := internalUpsert_spec h.valid h.rest key input
      exact ⟨.ok, _, _, by simp only [Session.call, hup], .upsert, h.sets hsets⟩
  | rmw key incr =>
      rcases internalRmw_spec h.valid h.rest (h.holds key) incr with
        ⟨s', hrmw, hnot, hsets⟩ | ⟨s', hrmw, hfuzzy, hkeeps⟩
      · exact ⟨.ok, _, _, by simp only [Session.call, hrmw], .rmw hnot, h.sets hsets⟩
      · have hcall : x.call L (.rmw key incr) = some (.pending, { x with
            store := s'
            retryRequests := x.retryRequests ++ [⟨key, incr, x.context⟩] }) := by
          simp only [Session.call, hrmw]
        refine ⟨_, _, _, hcall, .rmwPending hfuzzy, hkeeps.valid, h.rest,
          fun k => hkeeps.holds k _ (h.holds k), ?_, fun r hr => ?_⟩
        · simp [h.requests]
        · rcases List.mem_append.mp hr with hr | hr
          · exact h.pendingRest r hr
          · rw [List.mem_singleton.mp hr]
            exact h.rest
  | delete key input => exact absurd rfl (hdelete key input)
  | completePending =>
      obtain ⟨completed, remaining, s', m', hcomplete, hspec, hv', hm', hrest', -⟩ :=
        completeRetryRequests_spec h.valid h.holds (fun _ => Iff.rfl) h.pendingRest
      rw [h.requests] at hspec
      have hcall : x.call L .completePending =
          some (.completed completed (remaining.map fun r => (r.key, r.incr)).isEmpty,
            { x with store := s', retryRequests := remaining }) := by
        simp only [Session.call, hcomplete, Option.map_some, List.isEmpty_map]
      exact ⟨_, _, _, hcall, .completePending hspec, hv', h.rest, hm', rfl, hrest'⟩
  | shiftReadOnly address =>
      by_cases hrange : x.store.readOnlyAddress ≤ address ∧ address ≤ x.store.tailAddress
      · refine ⟨.shifted, _, m, if_pos hrange, .shiftReadOnly, ?_⟩
        exact h.shift h.valid.safe (Nat.le_trans h.valid.readOnly hrange.1) hrange.2
      · exact ⟨.shifted, x, m, if_neg hrange, .shiftReadOnly, h⟩
  | shiftSafeReadOnly address =>
      by_cases hrange : x.store.safeReadOnlyAddress ≤ address ∧ address ≤ x.store.readOnlyAddress
      · refine ⟨.shifted, _, m, if_pos hrange, .shiftSafeReadOnly, ?_⟩
        exact h.shift (Nat.le_trans h.valid.safe hrange.1) hrange.2 h.valid.tail
      · exact ⟨.shifted, x, m, if_neg hrange, .shiftSafeReadOnly, h⟩

theorem Represents.completePending_done (h : Represents L x m)
    (hsame : x.store.safeReadOnlyAddress = x.store.readOnlyAddress) :
    ∃ completed y, x.call L .completePending = some (.completed completed true, y) := by
  obtain ⟨completed, remaining, s', m', hcomplete, -, -, -, -, hdone⟩ :=
    completeRetryRequests_spec h.valid h.holds (fun _ => Iff.rfl) h.pendingRest
  refine ⟨completed, { x with store := s', retryRequests := [] }, ?_⟩
  simp only [Session.call, hcomplete, Option.map_some, hdone hsame]
  rfl

theorem Represents.calls {ops : List (Op K)} (h : Represents L x m)
    (hdelete : ∀ key input, .delete key input ∉ ops) :
    ∃ rs y m', x.calls L ops = some (rs, y) ∧ MapCalls L x m ops rs y m' ∧
      Represents L y m' := by
  induction ops generalizing x m with
  | nil => exact ⟨[], x, m, rfl, .nil, h⟩
  | cons op ops ih =>
      obtain ⟨r, y, m₁, hcall, hmap, hy⟩ := h.call op
        fun key input heq => hdelete key input (heq ▸ List.mem_cons_self)
      obtain ⟨rs, z, m', hcalls, hmaps, hz⟩ := ih hy
        fun key input hmem => hdelete key input (List.mem_cons_of_mem _ hmem)
      refine ⟨r :: rs, z, m', ?_, .cons hcall hmap hmaps, hz⟩
      simp only [Session.calls, hcall, hcalls]

/-- Every sequence of reads, upserts, additions and retries, with the read-only
addresses moving in between, returns what the map would, and an addition goes pending only
while its key is fuzzy. -/
theorem session_refines_map (L : Layout K) (ops : List (Op K))
    (hdelete : ∀ key input, .delete key input ∉ ops) :
    ∃ rs y m, Session.new.calls L ops = some (rs, y) ∧
      MapCalls L Session.new ⟨fun _ => none, []⟩ ops rs y m ∧ Represents L y m :=
  represents_new.calls hdelete

/-- An addition that goes pending and is applied at the second attempt. -/
theorem session_refines_map_pending :
    ∃ y m, (Session.new : Session Nat).calls oneEntry
        [.upsert 1 10, .upsert 2 20, .shiftReadOnly 112, .rmw 1 5, .completePending,
          .shiftSafeReadOnly 112, .completePending, .read 1] =
      some ([.ok, .ok, .shifted, .pending, .completed [] false, .shifted,
        .completed [(1, 5)] true, .value 15], y) ∧
      MapCalls oneEntry Session.new ⟨fun _ => none, []⟩
        [.upsert 1 10, .upsert 2 20, .shiftReadOnly 112, .rmw 1 5, .completePending,
          .shiftSafeReadOnly 112, .completePending, .read 1]
        [.ok, .ok, .shifted, .pending, .completed [] false, .shifted,
          .completed [(1, 5)] true, .value 15] y m ∧
      Represents oneEntry y m := by
  have hreplies : ((Session.new : Session Nat).calls oneEntry
      [.upsert 1 10, .upsert 2 20, .shiftReadOnly 112, .rmw 1 5, .completePending,
        .shiftSafeReadOnly 112, .completePending, .read 1]).map Prod.fst =
      some [.ok, .ok, .shifted, .pending, .completed [] false, .shifted,
        .completed [(1, 5)] true, .value 15] := by
    decide +kernel
  obtain ⟨rs, y, m, hcalls, hmaps, hy⟩ := session_refines_map oneEntry
    [.upsert 1 10, .upsert 2 20, .shiftReadOnly 112, .rmw 1 5, .completePending,
      .shiftSafeReadOnly 112, .completePending, .read 1] (by simp)
  rw [hcalls, Option.map_some, Option.some.injEq] at hreplies
  cases hreplies
  exact ⟨y, m, hcalls, hmaps, hy⟩

end Session

end HashComp.Faster
