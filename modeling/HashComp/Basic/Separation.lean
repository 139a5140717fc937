import HashComp.Basic.Invariant

namespace HashComp.Basic

open HashComp.LevelHash
open HashComp.SlotTrie

variable {K T : Type*} {L : Layout K} {t t' : Table K T} {key : K} {mapped : T}
  {p : Path} {a : K × T} {keySize : Nat}

section Refusal

def Unchanged (L : Layout K) (t t' : Table K T) : Prop :=
  ∀ key, get L t' key = get L t key ∧ find L t' key = find L t key

/-- The insertion returns, and leaves every key alone if it is refused. -/
def RefusesSafely (L : Layout K) (t : Table K T) (key : K) (mapped : T) : Prop :=
  ∃ b t', insert L t key mapped = some (b, t') ∧ (b = false → Unchanged L t t')

theorem Dropped.not_found (h : Sound L t) (hslot : t.slots p = .data a)
    (hdrop : Dropped L t p t') (q : Path) (b : K × T) : ¬ Found L t' a.1 q b := by
  intro hfound
  have hdepth : q.length ≤ t.maxLevel := by
    rw [← hdrop.maxLevel]
    exact hfound.depth
  obtain ⟨hne, hb⟩ := (hdrop.reach q b hdepth).mp hfound.slot
  refine hne (h.placed.eq_of_frag_eq h.wellFormed hb hslot ?_)
  change L.fragment (L.hasher b.1) = L.fragment (L.hasher a.1)
  rw [hfound.hash]

/-- A refused insertion changes nothing unless it has pushed a node below the
last level. -/
theorem refusesSafely_iff (L : Layout K) (hlevel : L.hashLevel ≤ 10) (keySize : Nat)
    (t : Table K T) (ht : Reached L keySize t) (key : K) (mapped : T) :
    RefusesSafely L t key mapped ↔ ¬ Outrun L t key := by
  have h := ht.sound.1
  constructor
  · rintro ⟨b, t', hins, hsafe⟩ ⟨hshift, p, a, hmeets⟩
    obtain ⟨t'', hins', hdrop⟩ := insert_of_outrun mapped h hmeets hshift
    rw [hins'] at hins
    cases hins
    have hget := (hsafe rfl a.1).1
    rw [get_of_found h ⟨hmeets.slot, rfl, hmeets.depth⟩,
      get_of_not_found hdrop.sound (hdrop.not_found h hmeets.slot)] at hget
    cases hget
  · intro hout
    have hmeets : ∀ p a, ¬ Meets L t key p a := by
      intro p a hmeets
      rcases Nat.lt_or_ge (L.hashLevel * t.maxLevel) 64 with hshift | hshift
      · exact hout ⟨hshift, p, a, hmeets⟩
      · exact hmeets.foreign (Layout.eq_of_fragment_eq hlevel hshift hmeets.agree)
    by_cases hover : Overfull L t key
    · exact ⟨_, _, insert_of_overfull h hover, fun _ _ => ⟨rfl, rfl⟩⟩
    · rcases insert_cases mapped h hover hmeets with ⟨-, -, -, hins⟩ | ⟨t', -, hins⟩
      · exact ⟨_, _, hins, fun _ _ => ⟨rfl, rfl⟩⟩
      · exact ⟨_, _, hins, fun hfalse => absurd hfalse (by decide)⟩

theorem not_outrun_of_covers (hcov : 64 ≤ L.hashLevel * t.maxLevel) : ¬ Outrun L t key :=
  fun hout => absurd hout.1 (Nat.not_lt.mpr hcov)

/-- With keys of eight bytes only `HASH_LEVEL`s below four leave bits unread. -/
theorem covers_of_eight_bytes (hmin : 4 ≤ L.hashLevel) (hmax : L.hashLevel ≤ 10)
    (ht : Reached L 8 t) : 64 ≤ L.hashLevel * t.maxLevel := by
  obtain ⟨-, fuel, hcount⟩ := ht.sound
  have hsize : L.arraySize = getPower2 L.hashLevel := by
    simp [Layout.arraySize, Nat.not_lt.mpr hmax]
  have henough : ∀ hl ∈ [4, 5, 6, 7, 8, 9, 10],
      (Constructor.maxLevel (getPower2 hl) 8 20).any (fun n => 64 ≤ hl * n) := by
    decide
  have hmem : L.hashLevel ∈ [4, 5, 6, 7, 8, 9, 10] := by
    simp only [List.mem_cons, List.not_mem_nil]
    omega
  obtain ⟨n, hn, hcov⟩ := (Option.any_eq_true ..).mp (henough _ hmem)
  have hmore := Constructor.maxLevel_mono (Nat.le_add_right fuel 20) hcount
  rw [hsize, Constructor.maxLevel_mono (Nat.le_add_left 20 fuel) hn] at hmore
  rw [← Option.some.inj hmore]
  exact of_decide_eq_true hcov

set_option maxRecDepth 100000 in
/-- A third key in a table whose levels read 63 of the 64 bits: it agrees with the second one
at the first level. -/
theorem refusesSafely_iff_three :
    ∃ t : Table (BitVec 64) Nat, Reached ⟨id, 3⟩ 8 t ∧ get ⟨id, 3⟩ t 0 = some (.pair 0 5) ∧
      get ⟨id, 3⟩ t 1 = some (.pair 1 6) ∧
      (RefusesSafely ⟨id, 3⟩ t 9 7 ↔ ¬ Outrun ⟨id, 3⟩ t 9) := by
  have hview : ((new ⟨(id : BitVec 64 → BitVec 64), 3⟩ 8 25 : Option (Table _ Nat)).bind fun t₀ =>
      (calls ⟨id, 3⟩ t₀ [.insert 0 5, .insert 1 6]).map fun r =>
        (get ⟨id, 3⟩ r.2 0, get ⟨id, 3⟩ r.2 1)) = some (some (.pair 0 5), some (.pair 1 6)) := by
    decide
  obtain ⟨t₀, ht₀, hcalls⟩ := Option.bind_eq_some_iff.mp hview
  obtain ⟨⟨rs, t⟩, hrs, hgets⟩ := Option.map_eq_some_iff.mp hcalls
  obtain ⟨hfirst, hsecond⟩ := Prod.mk.inj hgets
  have hreached : Reached ⟨id, 3⟩ 8 t := ⟨t₀, _, rs, ⟨25, ht₀⟩, hrs⟩
  exact ⟨t, hreached, hfirst, hsecond, refusesSafely_iff ⟨id, 3⟩ (by decide) 8 t hreached 9 7⟩

set_option maxRecDepth 100000 in
/-- The hashes 0 and 2^63 agree at all 21 levels of three bits: the refused
insertion makes the stored key disappear. -/
theorem insert_loses_resident :
    ((new ⟨(id : BitVec 64 → BitVec 64), 3⟩ 8 25).bind fun t =>
        (calls ⟨id, 3⟩ t [.insert 0 5, .get 0, .insert (1 <<< 63) 6, .get 0]).map Prod.fst) =
      some [.bool true, .pair 0 5, .bool false, .outOfRange] := by
  decide

end Refusal

section Collision

variable (keyEqual : K → K → Bool)

/-- The call acts on an entry with a key equal to its own, or finds none and leaves the table as
it is; an insertion is refused only if such an entry is present. -/
def Respects (L : Layout K) (t : Table K T) : Op K T → Prop
  | .insert key mapped => ∀ t', insert L t key mapped = some (false, t') →
      ∃ a, Stored t a ∧ keyEqual a.1 key
  | .get key => get L t key = some .outOfRange ∨
      ∃ a, Stored t a ∧ keyEqual a.1 key ∧ get L t key = some (.pair a.1 a.2)
  | .find key => find L t key = some (.shared none) ∨
      ∃ a, Stored t a ∧ keyEqual a.1 key ∧ find L t key = some (.shared (some a))
  | .update key mapped => update L t key mapped = some (false, t) ∨
      ∃ p a, t.slots p = .data a ∧ keyEqual a.1 key ∧
        update L t key mapped = some (true, setSlot t p (.data (a.1, mapped)))
  | .remove key => remove L t key = some (false, t) ∨
      ∃ p a, t.slots p = .data a ∧ keyEqual a.1 key ∧
        remove L t key = some (true, { setSlot t p .null with size := t.size - 1 })
  | .reserve _ | .size => True

/-- No node of another key stands in for that of the call, save one that an update leaves as it
is beside an equal key with the same value, and no levels are missing to store a node. -/
def ToldApart (L : Layout K) (t : Table K T) : Op K T → Prop
  | .insert key _ => (∃ p a, Found L t key p a) ∨ Outrun L t key ∨ Overfull L t key →
      ∃ a, Stored t a ∧ keyEqual a.1 key
  | .get key | .find key | .remove key => ∀ p a, Found L t key p a → keyEqual a.1 key
  | .update key mapped => ∀ p a, Found L t key p a → keyEqual a.1 key ∨
      a.2 = mapped ∧ ∃ b, Stored t b ∧ keyEqual b.1 key ∧ b.2 = mapped
  | .reserve _ | .size => True

theorem update_of_found (h : Sound L t) (hfound : Found L t key p a) :
    update L t key mapped = some (true, setSlot t p (.data (a.1, mapped))) := by
  simp only [update, locator_of_found h hfound, Option.map_some, located_of_found hfound]

theorem remove_of_found (h : Sound L t) (hfound : Found L t key p a) :
    remove L t key = some (true, { setSlot t p .null with size := t.size - 1 }) := by
  rw [remove, locator_of_found h hfound, Option.map_some]

theorem setSlot_self {s : Slot (K × T)} : (setSlot t p s).slots p = s :=
  Function.update_self ..

theorem setSlot_of_ne {q : Path} {s : Slot (K × T)} (hne : q ≠ p) :
    (setSlot t p s).slots q = t.slots q :=
  Function.update_of_ne hne ..

/-- Two ways to write a value agree only in one slot, or where they write what is there. -/
theorem eq_or_same_of_setSlot {q : Path} {b : K × T} (hp : t.slots p = .data a)
    (hq : t.slots q = .data b)
    (heq : setSlot t p (.data (a.1, mapped)) = setSlot t q (.data (b.1, mapped))) :
    a = b ∨ a.2 = mapped ∧ b.2 = mapped := by
  by_cases hpq : p = q
  · subst hpq
    exact Or.inl (Slot.data.inj (hp.symm.trans hq))
  · have hat : ∀ r, (setSlot t p (.data (a.1, mapped))).slots r =
        (setSlot t q (.data (b.1, mapped))).slots r := fun r => by rw [heq]
    have ha := hat p
    have hb := hat q
    rw [setSlot_self, setSlot_of_ne hpq, hp] at ha
    rw [setSlot_self, setSlot_of_ne (Ne.symm hpq), hq] at hb
    exact Or.inr ⟨(congrArg Prod.snd (Slot.data.inj ha)).symm, congrArg Prod.snd (Slot.data.inj hb)⟩

theorem eq_of_setSlot_null {q : Path} (hp : t.slots p = .data a)
    (heq : setSlot t p (.null : Slot (K × T)) = setSlot t q .null) : p = q := by
  by_contra hpq
  have hat : (setSlot t p (.null : Slot (K × T))).slots p = (setSlot t q .null).slots p := by
    rw [heq]
  rw [setSlot_self, setSlot_of_ne hpq, hp] at hat
  cases hat

/-- An insertion is refused where a node of an equal hash is found or where the
levels run out. -/
theorem refused_iff (mapped : T) (h : Sound L t) :
    (∃ t', insert L t key mapped = some (false, t')) ↔
      (∃ p a, Found L t key p a) ∨ Outrun L t key ∨ Overfull L t key := by
  constructor
  · rintro ⟨t', hins⟩
    by_contra hnone
    push Not at hnone
    obtain ⟨hfound, hout, hover⟩ := hnone
    by_cases hmeets : ∃ p a, Meets L t key p a
    · obtain ⟨p, a, hmeets⟩ := hmeets
      rcases Nat.lt_or_ge (L.hashLevel * t.maxLevel) 64 with hshift | hshift
      · exact hout ⟨hshift, p, a, hmeets⟩
      · rw [insert_of_undefined h hmeets hshift] at hins
        cases hins
    · push Not at hmeets
      rcases insert_cases mapped h hover hmeets with ⟨p, a, hf, -⟩ | ⟨t'', -, hins'⟩
      · exact hfound p a hf
      · rw [hins'] at hins
        cases hins
  · rintro (⟨p, a, hfound⟩ | ⟨hshift, p, a, hmeets⟩ | hover)
    · exact ⟨t, insert_of_found h hfound⟩
    · obtain ⟨t', hins, -⟩ := insert_of_outrun mapped h hmeets hshift
      exact ⟨t', hins⟩
    · exact ⟨t, insert_of_overfull h hover⟩

theorem respects_get_iff (h : Sound L t) :
    Respects keyEqual L t (.get key) ↔ ToldApart keyEqual L t (.get key) := by
  rw [Respects, ToldApart]
  constructor
  · rintro hr p a hfound
    rw [get_of_found h hfound] at hr
    rcases hr with hr | ⟨b, -, hb, heq⟩
    · cases hr
    · obtain ⟨hkey, -⟩ := Result.pair.inj (Option.some.inj heq)
      rwa [hkey]
  · intro hr
    by_cases hex : ∃ p a, Found L t key p a
    · obtain ⟨p, a, hfound⟩ := hex
      exact Or.inr ⟨a, ⟨p, hfound.slot⟩, hr p a hfound, get_of_found h hfound⟩
    · exact Or.inl (get_of_not_found h fun p a hfound => hex ⟨p, a, hfound⟩)

theorem respects_find_iff (h : Sound L t) :
    Respects keyEqual L t (.find key) ↔ ToldApart keyEqual L t (.find key) := by
  rw [Respects, ToldApart]
  constructor
  · rintro hr p a hfound
    rw [find_of_found h hfound] at hr
    rcases hr with hr | ⟨b, -, hb, heq⟩
    · cases hr
    · cases heq
      exact hb
  · intro hr
    by_cases hex : ∃ p a, Found L t key p a
    · obtain ⟨p, a, hfound⟩ := hex
      exact Or.inr ⟨a, ⟨p, hfound.slot⟩, hr p a hfound, find_of_found h hfound⟩
    · refine Or.inl ?_
      rw [find, locator_of_not_found h fun p a hfound => hex ⟨p, a, hfound⟩]
      rfl

theorem respects_update_iff (h : Sound L t) :
    Respects keyEqual L t (.update key mapped) ↔ ToldApart keyEqual L t (.update key mapped) := by
  rw [Respects, ToldApart]
  constructor
  · rintro hr p a hfound
    rw [update_of_found h hfound] at hr
    rcases hr with hr | ⟨q, b, hq, hb, heq⟩
    · cases hr
    · have hsame := (Prod.mk.inj (Option.some.inj heq)).2
      rcases eq_or_same_of_setSlot hfound.slot hq hsame with rfl | ⟨ha, hb'⟩
      · exact Or.inl hb
      · exact Or.inr ⟨ha, b, ⟨q, hq⟩, hb, hb'⟩
  · intro hr
    by_cases hex : ∃ p a, Found L t key p a
    · obtain ⟨p, a, hfound⟩ := hex
      rw [update_of_found h hfound]
      rcases hr p a hfound with ha | ⟨ha, b, ⟨q, hq⟩, hb, hb'⟩
      · exact Or.inr ⟨p, a, hfound.slot, ha, rfl⟩
      · have hkept : ∀ {r : Path} {c : K × T}, t.slots r = .data c → c.2 = mapped →
            setSlot t r (.data (c.1, mapped)) = t := by
          intro r c hr hc
          rw [← hc, setSlot, ← hr, Function.update_eq_self]
        refine Or.inr ⟨q, b, hq, hb, ?_⟩
        rw [hkept hfound.slot ha, hkept hq hb']
    · refine Or.inl ?_
      simp only [update, locator_of_not_found h fun p a hfound => hex ⟨p, a, hfound⟩,
        Option.map_some]

theorem respects_remove_iff (h : Sound L t) :
    Respects keyEqual L t (.remove key) ↔ ToldApart keyEqual L t (.remove key) := by
  rw [Respects, ToldApart]
  constructor
  · rintro hr p a hfound
    rw [remove_of_found h hfound] at hr
    rcases hr with hr | ⟨q, b, hq, hb, heq⟩
    · cases hr
    · have hslots := congrArg Table.slots (Prod.mk.inj (Option.some.inj heq)).2
      have hpq : p = q := eq_of_setSlot_null (t := { t with size := t.size - 1 }) hfound.slot
        (congrArg (fun s => { t with slots := s, size := t.size - 1 }) hslots)
      subst hpq
      rwa [Slot.data.inj (hfound.slot.symm.trans hq)]
  · intro hr
    by_cases hex : ∃ p a, Found L t key p a
    · obtain ⟨p, a, hfound⟩ := hex
      exact Or.inr ⟨p, a, hfound.slot, hr p a hfound, remove_of_found h hfound⟩
    · refine Or.inl ?_
      rw [remove, locator_of_not_found h fun p a hfound => hex ⟨p, a, hfound⟩]
      rfl

/-- Hashes stand in for keys throughout: a call respects its key exactly where
no other key has its hash, and an insertion where the levels suffice. -/
theorem respects_iff_toldApart (L : Layout K) (keySize : Nat) (t : Table K T)
    (ht : Reached L keySize t) (op : Op K T) :
    Respects keyEqual L t op ↔ ToldApart keyEqual L t op := by
  have h := ht.sound.1
  cases op with
  | insert key mapped =>
      rw [Respects, ToldApart, ← refused_iff mapped h]
      exact ⟨fun hr ⟨t', hins⟩ => hr t' hins, fun hr t' hins => hr ⟨t', hins⟩⟩
  | get key => exact respects_get_iff keyEqual h
  | find key => exact respects_find_iff keyEqual h
  | update key mapped => exact respects_update_iff keyEqual h
  | remove key => exact respects_remove_iff keyEqual h
  | reserve newCap | size => exact Iff.rfl

set_option maxRecDepth 100000 in
/-- Two keys of different hashes, and a third one with the hash of the first. -/
theorem respects_iff_toldApart_two :
    ∃ t : Table Nat Nat, Reached ⟨fun k => BitVec.ofNat 64 (k % 4), 4⟩ 8 t ∧
      get ⟨fun k => BitVec.ofNat 64 (k % 4), 4⟩ t 1 = some (.pair 1 10) ∧
      get ⟨fun k => BitVec.ofNat 64 (k % 4), 4⟩ t 2 = some (.pair 2 20) ∧
      (Respects (· == ·) ⟨fun k => BitVec.ofNat 64 (k % 4), 4⟩ t (.update 5 30) ↔
        ToldApart (· == ·) ⟨fun k => BitVec.ofNat 64 (k % 4), 4⟩ t (.update 5 30)) := by
  have hview : ((new ⟨fun k : Nat => BitVec.ofNat 64 (k % 4), 4⟩ 8 20 :
      Option (Table Nat Nat)).bind fun t₀ =>
        (calls ⟨fun k => BitVec.ofNat 64 (k % 4), 4⟩ t₀ [.insert 1 10, .insert 2 20]).map fun r =>
          (get ⟨fun k => BitVec.ofNat 64 (k % 4), 4⟩ r.2 1,
            get ⟨fun k => BitVec.ofNat 64 (k % 4), 4⟩ r.2 2)) =
      some (some (.pair 1 10), some (.pair 2 20)) := by
    decide
  obtain ⟨t₀, ht₀, hcalls⟩ := Option.bind_eq_some_iff.mp hview
  obtain ⟨⟨rs, t⟩, hrs, hgets⟩ := Option.map_eq_some_iff.mp hcalls
  obtain ⟨hfirst, hsecond⟩ := Prod.mk.inj hgets
  have hreached : Reached ⟨fun k : Nat => BitVec.ofNat 64 (k % 4), 4⟩ 8 t :=
    ⟨t₀, _, rs, ⟨20, ht₀⟩, hrs⟩
  exact ⟨t, hreached, hfirst, hsecond,
    respects_iff_toldApart _ _ 8 t hreached (.update 5 30)⟩

/-- With one hash for all keys the second key is refused, read as the first and
removed in its place. -/
theorem colliding_key_acts_on_other :
    ((new ⟨fun _ : Nat => 0, 4⟩ 8 20).bind fun t =>
        (calls ⟨fun _ : Nat => 0, 4⟩ t
          [.insert 1 10, .insert 2 20, .get 2, .update 2 30, .get 1, .remove 2,
            .get 1]).map Prod.fst) =
      some [.bool true, .bool false, .pair 1 10, .bool true, .pair 1 30, .bool true,
        .outOfRange] := by
  decide

end Collision

end HashComp.Basic
