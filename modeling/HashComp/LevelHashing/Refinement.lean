import HashComp.LevelHashing.Calls

namespace HashComp.LevelHashing

open HashComp.Slots
open HashComp.Threads

section Bags

variable {K V : Type*}

/-- The replies to the calls of a history are those of a bag that is empty at first,
and leave it as it is now. -/
inductive BagCalls : List (Op K V × Reply V) → Multiset (K × V) → Prop where
  | start : BagCalls [] 0
  | call {history : List (Op K V × Reply V)} {b b' : Multiset (K × V)} {op : Op K V}
      {reply : Reply V} (h : BagCalls history b) (hcall : BagCall b op reply b') :
      BagCalls (history ++ [(op, reply)]) b'

theorem items_levelInit [Inhabited K] [Inhabited V] (n : Nat) :
    (levelInit n : Table K V).items = 0 :=
  items_eq_zero fun _ _ => rfl

variable [DecidableEq K]

/-- The number of occupied slots that hold a key. -/
def Table.copies (t : Table K V) (key : K) : Nat :=
  (t.slots.filter fun slot => (t.cells slot).token = true ∧ (t.cells slot).key = key).card

/-- A `level_insert` of the key has returned 0. -/
def inserts (key : K) : Op K V × Reply V → Bool
  | (.insert key' _, .code 0) => key' = key
  | _ => false

/-- A `level_delete` of the key has returned 0. -/
def deletes (key : K) : Op K V × Reply V → Bool
  | (.search (.delete key'), .code 0) => key' = key
  | _ => false

variable {history : List (Op K V × Reply V)} {b b' : Multiset (K × V)} {op : Op K V}
  {reply : Reply V} {key : K} {t t' : Table K V}

theorem copies_eq_count (t : Table K V) (key : K) :
    t.copies key = (t.items.map Prod.fst).count key := by
  rw [Table.items, count_map_items, Table.copies]
  refine congrArg Finset.card (Finset.filter_congr fun slot _ => ?_)
  constructor
  · rintro ⟨htoken, hkey⟩
    exact ⟨_, content_of_token htoken, hkey⟩
  · rintro ⟨e, he, hkey⟩
    obtain ⟨htoken, hkey', -⟩ := content_eq_some_iff.mp he
    exact ⟨htoken, hkey'.trans hkey⟩

theorem BagCall.count (h : BagCall b op reply b') (key : K) :
    (b'.map Prod.fst).count key + (if deletes key (op, reply) then 1 else 0) =
      (b.map Prod.fst).count key + (if inserts key (op, reply) then 1 else 0) := by
  cases h with
  | deleted =>
      rename_i key' value
      by_cases hkey : key' = key
      · simp [deletes, inserts, hkey]
      · simp [deletes, inserts, hkey, Multiset.count_cons_of_ne (Ne.symm hkey)]
  | inserted =>
      rename_i key' value
      by_cases hkey : key' = key
      · simp [deletes, inserts, hkey]
      · simp [deletes, inserts, hkey, Multiset.count_cons_of_ne (Ne.symm hkey)]
  | found h => simp [deletes, inserts]
  | updated => simp [deletes, inserts, Multiset.map_cons, Multiset.count_cons]
  | missed h => rename_i s; cases s <;> simp [deletes, inserts]
  | refused => simp [deletes, inserts]
  | resized => simp [deletes, inserts]

theorem BagCalls.count (h : BagCalls history b) (key : K) :
    (b.map Prod.fst).count key + history.countP (deletes key) =
      history.countP (inserts key) := by
  induction h with
  | start => rfl
  | call _ hcall ih =>
      have hlast := hcall.count key
      simp only [List.countP_append, List.countP_singleton]
      omega

end Bags

section Runs

variable {K V : Type*} [DecidableEq K] [Inhabited K] [Inhabited V] {H : Hashing K}
  {history : List (Op K V × Reply V)} {t t' : Table K V} {op : Op K V} {reply : Reply V}
  {tid n : Nat}

/-- The calls of a history have been made one after the other. -/
inductive Called (H : Hashing K) (tid : Nat) (t₀ : Table K V) :
    List (Op K V × Reply V) → Table K V → Prop where
  | start : Called H tid t₀ [] t₀
  | call {history : List (Op K V × Reply V)} {t t' : Table K V} {op : Op K V}
      {reply : Reply V} (h : Called H tid t₀ history t) (hcall : Returns H tid t op t' reply) :
      Called H tid t₀ (history ++ [(op, reply)]) t'

theorem Called.bagCalls (hn : 2 ≤ n) (h : Called H tid (levelInit n) history t) :
    t.Idle H ∧ BagCalls history t.items := by
  induction h with
  | start =>
      rw [items_levelInit]
      exact ⟨idle_levelInit hn, .start⟩
  | call _ hcall ih =>
      have hresult := ih.1.result_of_returns hcall
      exact ⟨ih.1.result hresult, ih.2.call (ih.1.sound.result hresult).2⟩

/-- A `level_resize` comes to its end. -/
def Completes (H : Hashing K) (t : Table K V) (op : Op K V) : Prop :=
  op = .resize → (t.resize H).isSome

/-- All locks that the calls of a sequence take lie in `level_locks`. -/
abbrev AllCovered (H : Hashing K) (tid : Nat) (t : Table K V) (ops : List (Op K V)) : Prop :=
  (program H).Allows tid (fun t op => Covered H tid t (.called op)) t ops

theorem exists_result (h : Completes H t op) : ∃ t' reply, t.result H op = some (t', reply) := by
  cases op with
  | search s => exact ⟨_, _, rfl⟩
  | insert key value => exact ⟨_, _, rfl⟩
  | resize =>
      obtain ⟨t', ht'⟩ := Option.isSome_iff_exists.mp (h rfl)
      exact ⟨t', .void, by rw [Table.result, ht']; rfl⟩

/-- Calls whose locks exist and whose resizes come to their end return, one after the
other. -/
theorem Called.exists_append {ops : List (Op K V)} (hn : 2 ≤ n)
    (h : Called H tid (levelInit n) history t)
    (hcompletes : (program H).Allows tid (Completes H) t ops)
    (hcovered : AllCovered H tid t ops) :
    ∃ later t', later.map Prod.fst = ops ∧ Called H tid (levelInit n) (history ++ later) t' := by
  induction ops generalizing history t with
  | nil => exact ⟨[], t, rfl, by rwa [List.append_nil]⟩
  | cons op ops ih =>
      have hidle := (h.bagCalls hn).1
      obtain ⟨t', reply, hresult⟩ := exists_result hcompletes.1
      have hreturns := returns_result hidle.unlocked hidle.sound.half_pos hcovered.1 hresult
      obtain ⟨later, u, hops, hcalled⟩ := ih (h.call hreturns)
        (hcompletes.2 t' reply hreturns) (hcovered.2 t' reply hreturns)
      refine ⟨(op, reply) :: later, u, by rw [List.map_cons, hops], ?_⟩
      rwa [List.append_assoc] at hcalled

/-- Any sequence of calls whose locks exist and whose resizes come to their end returns.
Then a key has as many slots as insertions of it have returned 0, less the deletions of
it that have, and every reply has been that of a bag. -/
theorem bag_of_calls {ops : List (Op K V)} (hn : 2 ≤ n)
    (hcompletes : (program H).Allows tid (Completes H) (levelInit n : Table K V) ops)
    (hcovered : AllCovered H tid (levelInit n : Table K V) ops) :
    ∃ history t, history.map Prod.fst = ops ∧ Called H tid (levelInit n) history t ∧
      BagCalls history t.items ∧
        ∀ key, t.copies key + history.countP (deletes key) = history.countP (inserts key) := by
  obtain ⟨history, t, hops, hcalled⟩ :=
    Called.exists_append hn .start hcompletes hcovered
  have hbag := (hcalled.bagCalls hn).2
  refine ⟨history, t, hops, hcalled, hbag, fun key => ?_⟩
  rw [copies_eq_count]
  exact hbag.count key

/-- Keys with two hash values of their own. -/
def evenOdd : Hashing Nat where
  fHash := fun key => BitVec.ofNat 64 (key % 2)
  sHash := fun _ => 0

def afterInsert (t : Table Nat Nat) (steps key value : Nat) : Table Nat Nat :=
  (program evenOdd).afterSteps 0 steps (.insert key value) t

/-- The second insertion of a key takes a second slot, and the first one keeps its
value. -/
theorem inserted_twice : ∃ t, Called evenOdd 0 (levelInit 2)
    [(.insert 1 10, .code 0), (.insert 1 20, .code 0),
      (.search (.query 1), .value 10)] t ∧ t.copies 1 = 2 := by
  have hfirst : Returns evenOdd 0 (levelInit 2) (.insert 1 10)
      (afterInsert (levelInit 2) 3 1 10) (.code 0) :=
    Program.returns_of_steps (by decide +kernel)
  have hsecond : Returns evenOdd 0 (afterInsert (levelInit 2) 3 1 10) (.insert 1 20)
      (afterInsert (afterInsert (levelInit 2) 3 1 10) 5 1 20) (.code 0) :=
    Program.returns_of_steps (by decide +kernel)
  have hquery : Returns evenOdd 0 (afterInsert (afterInsert (levelInit 2) 3 1 10) 5 1 20)
      (.search (.query 1)) ((program evenOdd).afterSteps 0 3 (.search (.query 1))
        (afterInsert (afterInsert (levelInit 2) 3 1 10) 5 1 20)) (.value 10) :=
    Program.returns_of_steps (by decide +kernel)
  exact ⟨_, .call (.call (.call .start hfirst) hsecond) hquery, by decide +kernel⟩

/-- A key that is inserted twice and deleted once keeps one of its slots. -/
theorem bag_inserted_twice : ∃ (history : List (Op Nat Nat × Reply Nat)) (t : Table Nat Nat),
    history.map Prod.fst = [.insert 1 10, .insert 1 20, .search (.delete 1)] ∧
      Called evenOdd 0 (levelInit 2) history t ∧ BagCalls history t.items ∧
        ∀ key, t.copies key + history.countP (deletes key) = history.countP (inserts key) := by
  have hfirst : Returns evenOdd 0 (levelInit 2) (.insert 1 10)
      (afterInsert (levelInit 2) 3 1 10) (.code 0) :=
    Program.returns_of_steps (by decide +kernel)
  have hsecond : Returns evenOdd 0 (afterInsert (levelInit 2) 3 1 10) (.insert 1 20)
      (afterInsert (afterInsert (levelInit 2) 3 1 10) 5 1 20) (.code 0) :=
    Program.returns_of_steps (by decide +kernel)
  have hdelete : Returns evenOdd 0 (afterInsert (afterInsert (levelInit 2) 3 1 10) 5 1 20)
      (.search (.delete 1)) ((program evenOdd).afterSteps 0 3 (.search (.delete 1))
        (afterInsert (afterInsert (levelInit 2) 3 1 10) 5 1 20)) (.code 0) :=
    Program.returns_of_steps (by decide +kernel)
  refine bag_of_calls (by decide) ⟨nofun, fun _ _ _ => ⟨nofun, fun _ _ _ => ⟨nofun, ?_⟩⟩⟩
    ⟨covered_of_returns hfirst, fun t reply ht => ?_⟩
  · exact fun _ _ _ => trivial
  · rw [(ht.unique hfirst).1]
    refine ⟨covered_of_returns hsecond, fun u reply' hu => ?_⟩
    rw [(hu.unique hsecond).1]
    exact ⟨covered_of_returns hdelete, fun _ _ _ => trivial⟩

end Runs

section Map

inductive MapCall {K V : Type*} [DecidableEq K] :
    (K → Option V) → Op K V → Reply V → (K → Option V) → Prop where
  | found {m : K → Option V} {key : K} {value : V} (h : m key = some value) :
      MapCall m (.search (.query key)) (.value value) m
  | updated {m : K → Option V} {key : K} {newValue : V} (h : (m key).isSome) :
      MapCall m (.search (.update key newValue)) (.code 0)
        (Function.update m key (some newValue))
  | deleted {m : K → Option V} {key : K} (h : (m key).isSome) :
      MapCall m (.search (.delete key)) (.code 0) (Function.update m key none)
  | missed {m : K → Option V} {s : Search K V} (h : m s.key = none) :
      MapCall m (.search s) (.code 1) m
  | inserted {m : K → Option V} {key : K} {value : V} (h : m key = none) :
      MapCall m (.insert key value) (.code 0) (Function.update m key (some value))
  | refused {m : K → Option V} {key : K} {value : V} :
      MapCall m (.insert key value) (.code 1) m
  | resized {m : K → Option V} : MapCall m .resize .void m

/-- The occupied slots hold the items of the map, each in one slot, and each in one
of the two buckets of its key. -/
structure Represents {K V : Type*} (H : Hashing K) (t : Table K V) (m : K → Option V) :
    Prop where
  holds : ∀ key value, m key = some value ↔ ∃ slot, t.content slot = some (key, value)
  unique : ∀ slot slot', (t.cells slot).token = true → (t.cells slot').token = true →
    (t.cells slot).key = (t.cells slot').key → slot = slot'
  placed : ∀ slot, (t.cells slot).token = true → slot.index < assocNum ∧
    (slot.bucket = fIdx (H.fHash (t.cells slot).key).toNat (t.capacity slot.level) ∨
      slot.bucket = sIdx (H.sHash (t.cells slot).key).toNat (t.capacity slot.level))

variable {K V : Type*} {H : Hashing K} {t t' : Table K V} {m m' : K → Option V}
  {b b' : Multiset (K × V)} {op : Op K V} {reply : Reply V} {tid n : Nat}

structure IsMap (b : Multiset (K × V)) (m : K → Option V) : Prop where
  nodup : (b.map Prod.fst).Nodup
  mem_iff : ∀ key value, (key, value) ∈ b ↔ m key = some value

theorem IsMap.eq_none (h : IsMap b m) {key : K} (hnot : ∀ value, (key, value) ∉ b) :
    m key = none :=
  Option.eq_none_iff_forall_ne_some.mpr fun value hm => hnot value ((h.mem_iff key value).mpr hm)

theorem IsMap.notMem_keys (h : IsMap b m) {key : K} (hm : m key = none) :
    key ∉ b.map Prod.fst := by
  intro hmem
  obtain ⟨⟨key', value⟩, he, rfl⟩ := Multiset.mem_map.mp hmem
  rw [h.mem_iff, hm] at he
  cases he

theorem notMem_of_query_missed {key : K} (h : BagCall b (.search (.query key)) (.code 1) b')
    (value : V) : (key, value) ∉ b := by
  cases h with
  | missed hnot => exact hnot value

theorem IsMap.represents (h : IsMap t.items m) (hs : t.Sound H) : Represents H t m where
  holds := by
    intro key value
    rw [← h.mem_iff, hs.mem_items_iff]
  unique := by
    intro slot slot' hslot hslot' hkey
    exact eq_of_nodup Prod.fst h.nodup (hs.mem_slots hslot) (hs.mem_slots hslot')
      (content_of_token hslot) (content_of_token hslot') hkey
  placed := hs.placed

variable [DecidableEq K] {key : K} {value : V}

theorem IsMap.cons (h : IsMap b m) (hm : m key = none) :
    IsMap ((key, value) ::ₘ b) (Function.update m key (some value)) where
  nodup := by
    rw [Multiset.map_cons, Multiset.nodup_cons]
    exact ⟨h.notMem_keys hm, h.nodup⟩
  mem_iff := by
    intro k v
    rw [Multiset.mem_cons, h.mem_iff]
    by_cases hk : k = key
    · subst k
      rw [Function.update_self, hm]
      simp [eq_comm]
    · rw [Function.update_of_ne hk]
      simp [hk]

theorem IsMap.tail (h : IsMap ((key, value) ::ₘ b) m) :
    IsMap b (Function.update m key none) where
  nodup := by
    have hnodup := h.nodup
    rw [Multiset.map_cons, Multiset.nodup_cons] at hnodup
    exact hnodup.2
  mem_iff := by
    intro k v
    have hnodup := h.nodup
    rw [Multiset.map_cons, Multiset.nodup_cons] at hnodup
    by_cases hk : k = key
    · subst k
      rw [Function.update_self]
      constructor
      · intro hmem
        exact absurd (Multiset.mem_map_of_mem Prod.fst hmem) hnodup.1
      · intro hsome
        cases hsome
    · rw [Function.update_of_ne hk, ← h.mem_iff, Multiset.mem_cons]
      simp [hk]

/-- A call on a bag that is a map does to the map what it should, if it inserts no key
that is present. -/
theorem IsMap.call (h : IsMap b m) (hcall : BagCall b op reply b')
    (hop : ∀ key value, op = .insert key value → m key = none) :
    ∃ m', MapCall m op reply m' ∧ IsMap b' m' := by
  cases hcall with
  | found hmem => exact ⟨m, .found ((h.mem_iff _ _).mp hmem), h⟩
  | updated =>
      rename_i b₀ key value newValue
      have hm := (h.mem_iff key value).mp (Multiset.mem_cons_self _ _)
      refine ⟨_, .updated (by rw [hm]; rfl), ?_⟩
      have hcons : IsMap ((key, newValue) ::ₘ b₀) _ :=
        h.tail.cons (Function.update_self key none m)
      rwa [Function.update_idem] at hcons
  | deleted =>
      rename_i key value
      have hm := (h.mem_iff key value).mp (Multiset.mem_cons_self _ _)
      exact ⟨_, .deleted (by rw [hm]; rfl), h.tail⟩
  | missed hnot => exact ⟨m, .missed (h.eq_none hnot), h⟩
  | inserted =>
      have hm := hop _ _ rfl
      exact ⟨_, .inserted hm, h.cons hm⟩
  | refused => exact ⟨m, .refused, h⟩
  | resized => exact ⟨m, .resized, h⟩

end Map

section Calls

variable {K V : Type*} [DecidableEq K] [Inhabited K] [Inhabited V] {H : Hashing K}
  {t t' : Table K V} {m : K → Option V} {op : Op K V} {ops : List (Op K V)}
  {reply : Reply V} {tid n : Nat}

/-- The calls that a sequence may contain: an insertion of a key for which
`level_query` returns 1, and a `level_resize` that does not exit. -/
def Permitted (H : Hashing K) (tid : Nat) (t : Table K V) : Op K V → Prop
  | .search _ => True
  | .insert key _ => ∃ t', Returns H tid t (.search (.query key)) t' (.code 1)
  | .resize => ∃ t', t.resize H = some t'

/-- Every call of a sequence returns what it should for a map, and the table holds
the items of the map before and after it. -/
def Refines (H : Hashing K) (tid : Nat) : Table K V → (K → Option V) → List (Op K V) → Prop
  | t, m, [] => Represents H t m
  | t, m, op :: ops => Represents H t m ∧ ∃ t' reply m', Returns H tid t op t' reply ∧
      MapCall m op reply m' ∧ Refines H tid t' m' ops

theorem allCovered_of_refines (h : Refines H tid t m ops) : AllCovered H tid t ops := by
  induction ops generalizing t m with
  | nil => trivial
  | cons op ops ih =>
      obtain ⟨-, t', reply, m', hreturns, -, hrest⟩ := h
      refine ⟨covered_of_returns hreturns, fun u reply' hu => ?_⟩
      rw [(hu.unique hreturns).1]
      exact ih hrest

theorem Table.Idle.refines (h : t.Idle H) (hm : IsMap t.items m)
    (hpermitted : (program H).Allows tid (Permitted H tid) t ops)
    (hcovered : AllCovered H tid t ops) : Refines H tid t m ops := by
  induction ops generalizing t m with
  | nil => exact hm.represents h.sound
  | cons op ops ih =>
      obtain ⟨hop, hpermitted⟩ := hpermitted
      obtain ⟨hop', hcovered⟩ := hcovered
      have hcompletes : Completes H t op := by
        rintro rfl
        exact Option.isSome_iff_exists.mpr hop
      obtain ⟨t', reply, hresult⟩ := exists_result hcompletes
      have hreturns := returns_result h.unlocked h.sound.half_pos hop' hresult
      obtain ⟨m', hcall, hm'⟩ := hm.call (h.sound.result hresult).2 <| by
        rintro key value rfl
        obtain ⟨u, hu⟩ := hop
        exact hm.eq_none (notMem_of_query_missed (h.sound.result (h.result_of_returns hu)).2)
      exact ⟨hm.represents h.sound, t', reply, m', hreturns, hcall,
        ih (h.result hresult) hm' (hpermitted t' reply hreturns) (hcovered t' reply hreturns)⟩

/-- Level hashing refines a map, with insertions of absent keys, movements and
resizes, exactly when it takes no lock beyond the end of `level_locks`. -/
theorem refines_iff_covered (H : Hashing K) (hn : 2 ≤ n)
    (hpermitted : (program H).Allows tid (Permitted H tid) (levelInit n : Table K V) ops) :
    Refines H tid (levelInit n) (fun _ => none) ops ↔ AllCovered H tid (levelInit n) ops := by
  refine ⟨allCovered_of_refines, fun hcovered => ?_⟩
  refine (idle_levelInit hn).refines ?_ hpermitted hcovered
  rw [items_levelInit]
  exact ⟨Multiset.nodup_zero, by simp⟩

/-- After a `level_resize` a search for an absent key takes a lock that lies beyond
the end of `level_locks`. -/
theorem query_after_resize :
    (program evenOdd).Allows 0 (Permitted evenOdd 0) (levelInit 2 : Table Nat Nat)
        [.resize, .search (.query 0)] ∧
      ¬ Refines evenOdd 0 (levelInit 2 : Table Nat Nat) (fun _ => none)
        [.resize, .search (.query 0)] := by
  refine ⟨⟨Option.isSome_iff_exists.mp (by decide +kernel), fun t reply _ => ⟨trivial, ?_⟩⟩, ?_⟩
  · intro _ _ _
    trivial
  · rintro ⟨-, t', reply, m', hresize, -, -, u, reply', m'', hquery, -⟩
    have hcall : Returns evenOdd 0 (levelInit 2) .resize
        ((program evenOdd).afterSteps 0 2 .resize (levelInit 2 : Table Nat Nat)) .void :=
      Program.returns_of_steps (by decide +kernel)
    rw [(hresize.unique hcall).1] at hquery
    have hout := covered_of_returns hquery 9 ⟨.top, 4, 0⟩ (by decide +kernel)
    revert hout
    decide +kernel

/-- An insertion, a resize and a query of the key.  The resize leaves the key in the bottom
level, so the query looks at its buckets of the top level before and goes beyond the end
of `level_locks`: neither side holds. -/
theorem refines_insert_resize :
    Refines evenOdd 0 (levelInit 2 : Table Nat Nat) (fun _ => none)
        [.insert 1 10, .resize, .search (.query 1)] ↔
      AllCovered evenOdd 0 (levelInit 2) [.insert 1 10, .resize, .search (.query 1)] := by
  have habsent : Returns evenOdd 0 (levelInit 2 : Table Nat Nat) (.search (.query 1))
      ((program evenOdd).afterSteps 0 34 (.search (.query 1)) (levelInit 2)) (.code 1) :=
    Program.returns_of_steps (by decide +kernel)
  have hinsert : Returns evenOdd 0 (levelInit 2) (.insert 1 10)
      (afterInsert (levelInit 2) 3 1 10) (.code 0) :=
    Program.returns_of_steps (by decide +kernel)
  refine refines_iff_covered evenOdd (by decide) ⟨⟨_, habsent⟩, fun t reply ht => ⟨?_, ?_⟩⟩
  · rw [(ht.unique hinsert).1]
    exact Option.isSome_iff_exists.mp (by decide +kernel)
  · exact fun u reply' _ => ⟨trivial, fun _ _ _ => trivial⟩
end Calls

end HashComp.LevelHashing
