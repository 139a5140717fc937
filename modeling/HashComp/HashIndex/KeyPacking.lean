import Mathlib.Tactic

namespace HashComp.HashIndex

/-- How a call fails to return: a read behind `keys[key_cnt - 1]`, an assertion, or
`1UL << len` by the width of the word. -/
inductive Fault
  | readPastKeys
  | assertion
  | shift
  deriving DecidableEq, Repr

/-- One round of the loop: the assertion on `keys[i]`, and the key that takes it in. -/
def packKey (len key k : UInt64) : Except Fault UInt64 :=
  if 64 ≤ len then .error .shift
  else if k < 1 <<< len then .ok ((key <<< len) ||| k)
  else .error .assertion

def packKeys (len : UInt64) : Nat → List UInt64 → UInt64 → Except Fault UInt64
  | 0, _, key => .ok key
  | _ + 1, [], _ => .error .readPastKeys
  | rounds + 1, k :: keys, key => (packKey len key k).bind (packKeys len rounds keys)

/-- `merge_idx_key(key_cnt, keys)`, with the allocated part of the array. -/
def mergeIdxKey (key_cnt : UInt64) (keys : List UInt64) : Except Fault UInt64 :=
  let len := 64 / key_cnt
  packKeys len len.toNat keys 0

/-- `merge_idx_key(key1, key2)`. -/
def mergeIdxKey₂ (key1 key2 : UInt64) : Except Fault UInt64 :=
  if key1 < (1 : UInt64) <<< 32 ∧ key2 < (1 : UInt64) <<< 32 then
    .ok ((key1 <<< 32) ||| key2)
  else .error .assertion

/-- `merge_idx_key(key1, key2, key3)`. -/
def mergeIdxKey₃ (key1 key2 key3 : UInt64) : Except Fault UInt64 :=
  if key1 < (1 : UInt64) <<< 21 ∧ key2 < (1 : UInt64) <<< 21 ∧ key3 < (1 : UInt64) <<< 21 then
    .ok ((key1 <<< 42) ||| (key2 <<< 21) ||| key3)
  else .error .assertion

/-- The array holds `key_cnt` keys, each of `64 / key_cnt` bits. -/
def Fits (key_cnt : UInt64) (keys : List UInt64) : Prop :=
  keys.length = key_cnt.toNat ∧ ∀ k ∈ keys, k.toNat < 2 ^ (64 / key_cnt.toNat)

/-- The packing of `key_cnt` keys reads these keys only, tells any two tuples apart and
agrees with the forms for two and for three keys. -/
structure Packs (key_cnt : UInt64) : Prop where
  reads : ∀ keys, Fits key_cnt keys → ∃ key, mergeIdxKey key_cnt keys = .ok key
  injective : ∀ keys keys', Fits key_cnt keys → Fits key_cnt keys' →
    mergeIdxKey key_cnt keys = mergeIdxKey key_cnt keys' → keys = keys'
  two : key_cnt = 2 → ∀ key1 key2, key1.toNat < 2 ^ 32 → key2.toNat < 2 ^ 32 →
    mergeIdxKey 2 [key1, key2] = mergeIdxKey₂ key1 key2
  three : key_cnt = 3 → ∀ key1 key2 key3,
    key1.toNat < 2 ^ 21 → key2.toNat < 2 ^ 21 → key3.toNat < 2 ^ 21 →
    mergeIdxKey 3 [key1, key2, key3] = mergeIdxKey₃ key1 key2 key3

section Loop

variable {len key key' k k' r : UInt64} {keys keys' : List UInt64} {rounds : Nat}

theorem toNat_one_shiftLeft (hlen : len.toNat < 64) :
    ((1 : UInt64) <<< len).toNat = 2 ^ len.toNat := by
  have hpow : 2 ^ len.toNat < 2 ^ 64 := Nat.pow_lt_pow_right (by norm_num) hlen
  rw [UInt64.toNat_shiftLeft, Nat.mod_eq_of_lt hlen, UInt64.toNat_one, Nat.one_shiftLeft,
    Nat.mod_eq_of_lt hpow]

theorem packKey_eq (key : UInt64) (hlen : len.toNat < 64) (hk : k.toNat < 2 ^ len.toNat)
    (hfits : key.toNat * 2 ^ len.toNat < 2 ^ 64) :
    packKey len key k = .ok ((key <<< len) ||| k) ∧
      ((key <<< len) ||| k).toNat = key.toNat * 2 ^ len.toNat + k.toNat := by
  constructor
  · have hshift : ¬64 ≤ len := by
      rw [UInt64.le_iff_toNat_le]
      exact Nat.not_le.mpr hlen
    have hlt : k < 1 <<< len := by
      rw [UInt64.lt_iff_toNat_lt, toNat_one_shiftLeft hlen]
      exact hk
    rw [packKey, if_neg hshift, if_pos hlt]
  · rw [UInt64.toNat_or, UInt64.toNat_shiftLeft, Nat.mod_eq_of_lt hlen, Nat.shiftLeft_eq,
      Nat.mod_eq_of_lt hfits, ← Nat.shiftLeft_eq, Nat.shiftLeft_add_eq_or_of_lt hk]

theorem packKeys_length (h : packKeys len rounds keys key = .ok r) : rounds ≤ keys.length := by
  induction rounds generalizing keys key with
  | zero => exact Nat.zero_le _
  | succ rounds ih =>
      rcases keys with _ | ⟨k, keys⟩
      · cases h
      · rw [packKeys] at h
        rcases hpack : packKey len key k with fault | packed
        · rw [hpack] at h
          cases h
        · rw [hpack] at h
          exact Nat.succ_le_succ (ih h)

theorem packKeys_append (hle : rounds ≤ keys.length) :
    packKeys len rounds (keys ++ keys') key = packKeys len rounds keys key := by
  induction rounds generalizing keys key with
  | zero => rfl
  | succ rounds ih =>
      rcases keys with _ | ⟨k, keys⟩
      · cases hle
      · rw [List.cons_append, packKeys, packKeys]
        congr 1
        funext packed
        exact ih (Nat.le_of_succ_le_succ hle)

/-- As long as all keys fit in the word the loop packs them, each to its own place. -/
theorem packKeys_injective {i : Nat} (hlen : len.toNat < 64)
    (hroom : len.toNat * (i + rounds) ≤ 64) (hkey : key.toNat < 2 ^ (len.toNat * i))
    (hkey' : key'.toNat < 2 ^ (len.toNat * i)) (hlength : keys.length = rounds)
    (hlength' : keys'.length = rounds) (hkeys : ∀ k ∈ keys, k.toNat < 2 ^ len.toNat)
    (hkeys' : ∀ k ∈ keys', k.toNat < 2 ^ len.toNat) :
    (∃ r, packKeys len rounds keys key = .ok r) ∧
      (packKeys len rounds keys key = packKeys len rounds keys' key' →
        key = key' ∧ keys = keys') := by
  induction rounds generalizing i key key' keys keys' with
  | zero =>
      rw [List.length_eq_zero_iff] at hlength hlength'
      subst hlength hlength'
      exact ⟨⟨key, rfl⟩, fun h => ⟨Except.ok.inj h, rfl⟩⟩
  | succ rounds ih =>
      rcases keys with _ | ⟨k, keys⟩
      · cases hlength
      rcases keys' with _ | ⟨k', keys'⟩
      · cases hlength'
      have hk : k.toNat < 2 ^ len.toNat := hkeys k List.mem_cons_self
      have hk' : k'.toNat < 2 ^ len.toNat := hkeys' k' List.mem_cons_self
      have hnext : 2 ^ (len.toNat * (i + 1)) ≤ 2 ^ 64 :=
        Nat.pow_le_pow_right (by norm_num)
          (le_trans (Nat.mul_le_mul_left _ (by omega)) hroom)
      have hstep : ∀ {key k : UInt64}, key.toNat < 2 ^ (len.toNat * i) →
          k.toNat < 2 ^ len.toNat →
          key.toNat * 2 ^ len.toNat + k.toNat < 2 ^ (len.toNat * (i + 1)) := by
        intro key k hkey hk
        rw [Nat.mul_add, Nat.mul_one, pow_add]
        calc key.toNat * 2 ^ len.toNat + k.toNat
            < key.toNat * 2 ^ len.toNat + 2 ^ len.toNat := by omega
          _ = (key.toNat + 1) * 2 ^ len.toNat := by ring
          _ ≤ 2 ^ (len.toNat * i) * 2 ^ len.toNat := Nat.mul_le_mul_right _ hkey
      have hbound := hstep hkey hk
      have hbound' := hstep hkey' hk'
      obtain ⟨hpack, hvalue⟩ := packKey_eq key hlen hk (by omega)
      obtain ⟨hpack', hvalue'⟩ := packKey_eq key' hlen hk' (by omega)
      rw [← hvalue] at hbound
      rw [← hvalue'] at hbound'
      obtain ⟨hreturns, hinjective⟩ := ih (by rw [Nat.add_right_comm, Nat.add_assoc]; exact hroom)
        hbound hbound' (Nat.succ.inj hlength) (Nat.succ.inj hlength')
        (fun k hk => hkeys k (List.mem_cons_of_mem _ hk))
        (fun k hk => hkeys' k (List.mem_cons_of_mem _ hk))
      rw [packKeys, packKeys, hpack, hpack']
      refine ⟨hreturns, fun h => ?_⟩
      obtain ⟨hpacked, rfl⟩ := hinjective h
      have heq := congrArg UInt64.toNat hpacked
      rw [hvalue, hvalue'] at heq
      have hlow : k.toNat = k'.toNat := by
        have hmod := congrArg (· % 2 ^ len.toNat) heq
        simpa only [Nat.mul_add_mod_self_right, Nat.mod_eq_of_lt hk, Nat.mod_eq_of_lt hk'] using hmod
      rw [hlow] at heq
      have hhigh := Nat.eq_of_mul_eq_mul_right (Nat.two_pow_pos _) (Nat.add_right_cancel heq)
      exact ⟨UInt64.toNat.inj hhigh, by rw [UInt64.toNat.inj hlow]⟩

end Loop

section Counts

variable {key_cnt : UInt64} {keys : List UInt64}

theorem toNat_len : (64 / key_cnt).toNat = 64 / key_cnt.toNat := by
  rw [UInt64.toNat_div]
  rfl

theorem fits_replicate : Fits key_cnt (List.replicate key_cnt.toNat 0) := by
  refine ⟨List.length_replicate, fun k hk => ?_⟩
  rw [List.eq_of_mem_replicate hk]
  exact Nat.two_pow_pos _

theorem Packs.len_le (h : Packs key_cnt) : 64 / key_cnt.toNat ≤ key_cnt.toNat := by
  obtain ⟨key, hkey⟩ := h.reads _ fits_replicate
  have hlength := packKeys_length hkey
  rwa [List.length_replicate, toNat_len] at hlength

theorem not_packs_of_lt (hpos : 0 < 64 / key_cnt.toNat)
    (hlt : 64 / key_cnt.toNat < key_cnt.toNat) : ¬Packs key_cnt := by
  intro h
  obtain ⟨n, hn⟩ : ∃ n, key_cnt.toNat = n + 1 :=
    ⟨key_cnt.toNat - 1, by omega⟩
  have hfits : ∀ last : UInt64, last.toNat < 2 →
      Fits key_cnt (List.replicate n 0 ++ [last]) := by
    intro last hlast
    refine ⟨by rw [List.length_append, List.length_replicate, hn]; rfl, fun k hk => ?_⟩
    have hone : (2 : Nat) ≤ 2 ^ (64 / key_cnt.toNat) :=
      Nat.pow_le_pow_right (n := 2) (by norm_num) hpos
    rcases List.mem_append.mp hk with hk | hk
    · rw [List.eq_of_mem_replicate hk]
      exact Nat.two_pow_pos _
    · rw [List.mem_singleton.mp hk]
      exact lt_of_lt_of_le hlast hone
  have hsame : ∀ last : UInt64, mergeIdxKey key_cnt (List.replicate n 0 ++ [last]) =
      packKeys (64 / key_cnt) (64 / key_cnt).toNat (List.replicate n 0) 0 := by
    intro last
    refine packKeys_append ?_
    rw [List.length_replicate, toNat_len]
    omega
  have heq := h.injective _ _ (hfits 0 (by decide)) (hfits 1 (by decide))
    ((hsame 0).trans (hsame 1).symm)
  have hlast := List.append_cancel_left heq
  cases hlast

theorem packs_eight : Packs 8 := by
  have hfits : ∀ keys, Fits 8 keys → keys.length = 8 ∧ ∀ k ∈ keys, k.toNat < 2 ^ 8 :=
    fun keys h => h
  have hzero : (0 : UInt64).toNat < 2 ^ (UInt64.toNat 8 * 0) := by decide
  have hpack := fun keys keys' (h : Fits 8 keys) (h' : Fits 8 keys') =>
    packKeys_injective (i := 0) (by decide) (by decide) hzero hzero
      (hfits keys h).1 (hfits keys' h').1 (hfits keys h).2 (hfits keys' h').2
  refine ⟨fun keys h => (hpack keys keys h h).1, fun keys keys' h h' heq => ?_, ?_, ?_⟩
  · exact ((hpack keys keys' h h').2 heq).2
  · intro h
    cases h
  · intro h
    cases h

theorem packs_of_gt (h : 64 < key_cnt) : Packs key_cnt := by
  have hlt : 64 < key_cnt.toNat := UInt64.lt_iff_toNat_lt.mp h
  have hlen : 64 / key_cnt.toNat = 0 := Nat.div_eq_of_lt hlt
  have hzero : ∀ keys, Fits key_cnt keys → keys = List.replicate key_cnt.toNat 0 := by
    rintro keys ⟨hlength, hkeys⟩
    refine List.eq_replicate_iff.mpr ⟨hlength, fun k hk => ?_⟩
    have hk := hkeys k hk
    rw [hlen] at hk
    exact UInt64.toNat.inj (Nat.lt_one_iff.mp hk)
  refine ⟨fun keys _ => ⟨0, ?_⟩, fun keys keys' h h' _ => ?_, ?_, ?_⟩
  · rw [mergeIdxKey]
    simp only [toNat_len, hlen, packKeys]
  · rw [hzero keys h, hzero keys' h']
  · rintro rfl
    exact absurd hlt (by decide)
  · rintro rfl
    exact absurd hlt (by decide)

/-- `merge_idx_key(key_cnt, keys)` packs eight keys, and packs nothing else than zeros. -/
theorem packs_iff (h : 0 < key_cnt) : Packs key_cnt ↔ key_cnt = 8 ∨ 64 < key_cnt := by
  constructor
  · intro hpacks
    by_contra hnot
    obtain ⟨hne, hle⟩ := not_or.mp hnot
    have hle : key_cnt.toNat ≤ 64 := UInt64.le_iff_toNat_le.mp (UInt64.not_lt.mp hle)
    have hne : key_cnt.toNat ≠ 8 := fun heq => hne (UInt64.toNat.inj heq)
    have hpos : 0 < key_cnt.toNat := UInt64.lt_iff_toNat_lt.mp h
    have hlen := hpacks.len_le
    refine not_packs_of_lt (Nat.div_pos hle hpos) ?_ hpacks
    refine lt_of_le_of_ne hlen fun heq => ?_
    generalize key_cnt.toNat = n at *
    interval_cases n <;> omega
  · rintro (rfl | h)
    · exact packs_eight
    · exact packs_of_gt h

theorem packs_iff_eight : Packs 8 ↔ (8 : UInt64) = 8 ∨ (64 : UInt64) < 8 :=
  packs_iff (by decide)

end Counts

/-- Two keys are packed with thirty keys behind them. -/
theorem merge_two_reads_past :
    Fits 2 [1, 2] ∧ mergeIdxKey 2 [1, 2] = .error .readPastKeys ∧
      mergeIdxKey₂ 1 2 = .ok 0x100000002 ∧ ¬Packs 2 := by
  have hfits : Fits 2 [1, 2] := ⟨rfl, by simp⟩
  have hreads : mergeIdxKey 2 [1, 2] = .error .readPastKeys := rfl
  have hpair : mergeIdxKey₂ 1 2 = .ok 0x100000002 := rfl
  refine ⟨hfits, hreads, hpair, fun h => ?_⟩
  obtain ⟨key, hkey⟩ := h.reads _ hfits
  rw [hreads] at hkey
  cases hkey

end HashComp.HashIndex
