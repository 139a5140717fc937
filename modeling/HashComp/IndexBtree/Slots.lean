import HashComp.IndexBtree.Model
import HashComp.Library.Separators

namespace HashComp.IndexBtree

open HashComp.CheckedLoops
open HashComp.Separators

section Searches

variable {n : BtNode} {key : Nat}

theorem leafHasKey_spec (key : Nat) (hn : n.numKeys ≤ order - 1) :
    (∃ i, leafHasKey n key = .ok (some i) ∧ i < n.numKeys ∧ n.keys.slot i = key) ∨
      leafHasKey n key = .ok none ∧ ∀ i, i < n.numKeys → n.keys.slot i ≠ key := by
  obtain ⟨k, hk, -, hle, hfalse, htrue⟩ := scanUp_spec (fun i => do
      let k ← n.keys.read i
      .ok (k == key)) (fun i => n.keys.slot i == key)
    (Nat.zero_le n.numKeys) fun i _ hi => by rw [Cells.read_ok (by omega), ok_bind]
  rcases Nat.lt_or_ge k n.numKeys with hlt | hge
  · refine Or.inl ⟨k, ?_, hlt, ?_⟩
    · rw [leafHasKey, hk, ok_bind, if_pos hlt]
    · simpa using htrue hlt
  · refine Or.inr ⟨?_, fun i hi => ?_⟩
    · rw [leafHasKey, hk, ok_bind, if_neg (by omega)]
    · simpa using hfalse i (Nat.zero_le i) (by omega)

theorem childFor_spec (key : Nat) (hn : n.numKeys ≤ order - 1) :
    ∃ i, i ≤ n.numKeys ∧ (∀ j, j < i → n.keys.slot j ≤ key) ∧
      (i < n.numKeys → key < n.keys.slot i) ∧ childFor n key = deref (n.pointers.slot i) := by
  obtain ⟨k, hk, -, hle, hfalse, htrue⟩ := scanUp_spec (fun i => do
      let k ← n.keys.read i
      .ok (decide (key < k))) (fun i => decide (key < n.keys.slot i))
    (Nat.zero_le n.numKeys) fun i _ hi => by rw [Cells.read_ok (by omega), ok_bind]
  refine ⟨k, hle, fun j hj => ?_, fun h => ?_, ?_⟩
  · simpa using hfalse j (Nat.zero_le j) hj
  · simpa using htrue h
  · have hlt : k < order := by
      have : order - 1 < order := by decide
      omega
    rw [childFor, hk, ok_bind, Cells.read_ok hlt, ok_bind]

theorem insertionPoint_spec (key : Nat) (hn : n.numKeys ≤ order - 1) :
    ∃ p, insertionPoint n key = .ok p ∧ p ≤ n.numKeys ∧ (∀ i, i < p → n.keys.slot i < key) ∧
      (p < n.numKeys → key ≤ n.keys.slot p) := by
  obtain ⟨k, hk, -, hle, hfalse, htrue⟩ := scanUp_spec (fun i => do
      let k ← n.keys.read i
      .ok (!decide (k < key))) (fun i => !decide (n.keys.slot i < key))
    (Nat.zero_le n.numKeys) fun i _ hi => by rw [Cells.read_ok (by omega), ok_bind]
  refine ⟨k, hk, hle, fun i hi => ?_, fun h => ?_⟩
  · simpa using hfalse i (Nat.zero_le i) hi
  · simpa using htrue h

end Searches

section Leaf

variable {n : BtNode} {i p key : Nat} {item : Addr}

theorem moveUp_ok (hi : i + 1 < order - 1) :
    moveUp (i + 1) n = .ok { n with
      keys := ⟨Function.update n.keys.slot (i + 1) (n.keys.slot i)⟩
      pointers := ⟨Function.update n.pointers.slot (i + 1) (n.pointers.slot i)⟩ } := by
  have hi' : i + 1 < order := by omega
  rw [moveUp, Nat.add_sub_cancel, Cells.read_ok (by omega), ok_bind, Cells.write_ok hi, ok_bind,
    Cells.read_ok (by omega), ok_bind, Cells.write_ok hi', ok_bind]

def Moved {α : Type*} (f g : Nat → α) (n i : Nat) : Prop :=
  ∀ j, j ≤ n → g j = if i < j then f (j - 1) else f j

theorem Moved.refl {α : Type*} {f : Nat → α} {n : Nat} : Moved f f n n :=
  fun _ hj => (if_neg (Nat.not_lt.mpr hj)).symm

theorem Moved.step {α : Type*} {f g : Nat → α} {n : Nat} (h : Moved f g n (i + 1)) (hi : i < n) :
    Moved f (Function.update g (i + 1) (g i)) n i := by
  intro j hj
  rcases eq_or_ne j (i + 1) with rfl | hne
  · rw [Function.update_self, h i (by omega), if_neg (by omega), if_pos (by omega)]
    rfl
  · rw [Function.update_of_ne hne, h j hj]
    exact if_congr (by omega) rfl rfl

theorem Moved.insertAt {α : Type*} {f g : Nat → α} {n : Nat} {v : α} (h : Moved f g n p)
    (hi : i ≤ n) : Function.update g p v i = insertAt f p v i := by
  rcases eq_or_ne i p with rfl | hne
  · rw [insertAt_self, Function.update_self]
  · rw [Function.update_of_ne hne, h i hi, Separators.insertAt]
    rcases Nat.lt_or_gt_of_ne hne with hlt | hgt
    · rw [if_neg (by omega), if_pos hlt]
    · rw [if_pos hgt, if_neg (by omega), if_neg hne]

theorem placeInLeaf_spec (key : Nat) (item : Addr) (hn : n.numKeys < order - 1) (hp : p ≤ n.numKeys) :
    ∃ keys pointers, placeInLeaf n p key item =
        .ok { n with keys, pointers, numKeys := n.numKeys + 1 } ∧
      (∀ i, i ≤ n.numKeys → keys.slot i = insertAt n.keys.slot p key i) ∧
      ∀ i, i ≤ n.numKeys → pointers.slot i = insertAt n.pointers.slot p (some item) i := by
  obtain ⟨t, ht, keys, pointers, rfl, hkeys, hpointers⟩ := forDown_spec (s := n) moveUp
    (fun i t => ∃ keys pointers, t = { n with keys, pointers } ∧
      Moved n.keys.slot keys.slot n.numKeys i ∧ Moved n.pointers.slot pointers.slot n.numKeys i)
    hp ⟨n.keys, n.pointers, rfl, Moved.refl, Moved.refl⟩ (by
      rintro i t hlo hhi ⟨keys, pointers, rfl, hkeys, hpointers⟩
      exact ⟨_, moveUp_ok (by omega), _, _, rfl, hkeys.step hhi, hpointers.step hhi⟩)
  have hroom : n.numKeys + 1 < order := by omega
  refine ⟨⟨Function.update keys.slot p key⟩, ⟨Function.update pointers.slot p (some item)⟩, ?_,
    fun i hi => hkeys.insertAt hi, fun i hi => hpointers.insertAt hi⟩
  rw [placeInLeaf, ht, ok_bind, Cells.write_ok (by omega), ok_bind, Cells.write_ok (by omega),
    ok_bind, if_pos hroom]

end Leaf

section Temp

variable {α : Type} {m k count pos i : Nat} {src : Cells m α} {v : α}

theorem spreadRound_ok {r : Nat × Cells k α} (hi : i < m)
    (hj : (if r.1 = pos then r.1 + 1 else r.1) < k) :
    spreadRound src pos i r =
      .ok ((if r.1 = pos then r.1 + 1 else r.1) + 1,
        ⟨Function.update r.2.slot (if r.1 = pos then r.1 + 1 else r.1) (src.slot i)⟩) := by
  rw [spreadRound, Cells.read_ok hi, ok_bind, Cells.write_ok hj, ok_bind]

theorem spread_spec (src : Cells m α) (v : α) (temp : Cells k α) (hcount : count ≤ m)
    (hk : count < k) (hpos : pos ≤ count) :
    ∃ c, spread src count pos v temp = .ok c ∧
      ∀ i, i ≤ count → c.slot i = insertAt src.slot pos v i := by
  -- `j` is one ahead of `i` once it has passed the position
  obtain ⟨⟨j, c⟩, hr, hj, hc⟩ := forUp_spec (s := (0, temp)) (spreadRound src pos)
    (fun i r => r.1 = (if i ≤ pos then i else i + 1) ∧
      ∀ j, j < r.1 → j ≠ pos → r.2.slot j = insertAt src.slot pos v j)
    (Nat.zero_le count) ⟨by simp, fun j hj => absurd hj (Nat.not_lt_zero j)⟩ (by
      rintro i ⟨j, c⟩ - hi ⟨rfl, hc⟩
      have hstep : (if (if i ≤ pos then i else i + 1) = pos then
          (if i ≤ pos then i else i + 1) + 1 else if i ≤ pos then i else i + 1) =
          if i < pos then i else i + 1 := by
        split <;> split <;> split <;> omega
      refine ⟨_, spreadRound_ok (by omega) ?_, ?_, ?_⟩
      · dsimp only
        rw [hstep]
        split <;> omega
      · dsimp only
        rw [hstep]
        split <;> split <;> omega
      · dsimp only
        rw [hstep]
        intro j hj hne
        rcases eq_or_ne j (if i < pos then i else i + 1) with rfl | hne'
        · rw [Function.update_self]
          split
          · exact (insertAt_lt (by omega)).symm
          · rw [insertAt_gt (by omega), Nat.add_sub_cancel]
        · rw [Function.update_of_ne hne']
          refine hc j ?_ hne
          dsimp only
          split at hj <;> split at hne' <;> split <;> omega)
  dsimp only at hj hc
  refine ⟨⟨Function.update c.slot pos v⟩, ?_, fun i hi => ?_⟩
  · rw [spread, hr, ok_bind, Cells.write_ok (by omega)]
  · show Function.update c.slot pos v i = _
    rcases eq_or_ne i pos with rfl | hne
    · rw [Function.update_self, insertAt_self]
    · rw [Function.update_of_ne hne]
      refine hc i ?_ hne
      rw [hj]
      split <;> omega

variable {n : BtNode}

theorem take_spec (n : BtNode) (checked : BtNode → Nat) (tempKeys : Cells order Nat)
    (tempPointers : Cells k (Option Addr)) (start count : Nat) (hzero : n.numKeys = 0)
    (hcount : count < order) (hstart : start + count ≤ order) (hk : order ≤ k)
    (hchecked : ∀ keys pointers j, j < order →
      checked { n with keys, pointers, numKeys := j } < order) :
    ∃ keys pointers, take checked tempKeys tempPointers start count n =
        .ok { n with keys, pointers, numKeys := count } ∧
      (∀ j, j < count → keys.slot j = tempKeys.slot (start + j)) ∧
      ∀ j, j < count → pointers.slot j = tempPointers.slot (start + j) := by
  obtain ⟨t, ht, keys, pointers, rfl, hkeys, hpointers⟩ := forUp_spec (s := n)
    (takeRound checked tempKeys tempPointers start)
    (fun i t => ∃ keys pointers, t = { n with keys, pointers, numKeys := i } ∧
      (∀ j, j < i → keys.slot j = tempKeys.slot (start + j)) ∧
      ∀ j, j < i → pointers.slot j = tempPointers.slot (start + j))
    (Nat.zero_le count) ⟨n.keys, n.pointers, by rw [← hzero], fun j hj => absurd hj (by omega),
      fun j hj => absurd hj (by omega)⟩ (by
      rintro i t - hi ⟨keys, pointers, rfl, hkeys, hpointers⟩
      have hi' : i < order - 1 := by omega
      refine ⟨{ n with
        keys := ⟨Function.update keys.slot i (tempKeys.slot (start + i))⟩
        pointers := ⟨Function.update pointers.slot i (tempPointers.slot (start + i))⟩
        numKeys := i + 1 }, ?_, _, _, rfl, fun j hj => ?_, fun j hj => ?_⟩
      · rw [takeRound, Cells.read_ok (by omega), ok_bind, Cells.write_ok (by omega), ok_bind,
          Cells.read_ok (by omega), ok_bind, Cells.write_ok hi', ok_bind]
        exact if_pos (hchecked _ _ (i + 1) (by omega))
      · show Function.update keys.slot i _ j = _
        rcases eq_or_ne j i with rfl | hne
        · exact Function.update_self ..
        · rw [Function.update_of_ne hne, hkeys j (by omega)]
      · show Function.update pointers.slot i _ j = _
        rcases eq_or_ne j i with rfl | hne
        · exact Function.update_self ..
        · rw [Function.update_of_ne hne, hpointers j (by omega)])
  exact ⟨keys, pointers, ht, hkeys, hpointers⟩

theorem clearRest_spec (hn : n.numKeys ≤ order - 1) :
    ∃ pointers, clearRest n = .ok { n with pointers } ∧
      ∀ j, j < n.numKeys → pointers.slot j = n.pointers.slot j := by
  obtain ⟨t, ht, pointers, rfl, hpointers⟩ := forUp_spec (s := n) clearSlot
    (fun _ t => ∃ pointers, t = { n with pointers } ∧
      ∀ j, j < n.numKeys → pointers.slot j = n.pointers.slot j)
    hn ⟨n.pointers, rfl, fun _ _ => rfl⟩ (by
      rintro i t hlo hhi ⟨pointers, rfl, hpointers⟩
      refine ⟨{ n with pointers := ⟨Function.update pointers.slot i none⟩ }, ?_, _, rfl,
        fun j hj => ?_⟩
      · rw [clearSlot, Cells.write_ok (by omega), ok_bind]
      · show Function.update pointers.slot i none j = _
        rw [Function.update_of_ne (by omega), hpointers j hj])
  exact ⟨pointers, ht, hpointers⟩

end Temp

section Parent

variable {past : Past} {s : Btree} {a right : Addr} {p : BtNode} {i idx j key fuel : Nat}

theorem readKey_ok (h : i < order - 1) : readKey past s a p i = .ok (p.keys.slot i) := by
  cases past with
  | none => exact Cells.read_ok h
  | some value => rw [readKey, if_pos h, Cells.read_ok h]

theorem insertIdx_step (h : i < order - 1) (hlt : p.keys.slot i < key) :
    insertIdx past s a p key (fuel + 1) i = insertIdx past s a p key fuel (i + 1) := by
  rw [insertIdx, readKey_ok h, ok_bind, if_pos hlt]

theorem insertIdx_skip (hn : p.numKeys ≤ order - 1) (hj : j ≤ p.numKeys)
    (hbelow : ∀ i, i < j → p.keys.slot i < key) :
    insertIdx past s a p key p.numKeys 0 = insertIdx past s a p key (p.numKeys - j) j := by
  induction j with
  | zero => rfl
  | succ j ih =>
      rw [ih (by omega) fun i hi => hbelow i (by omega),
        show p.numKeys - j = p.numKeys - (j + 1) + 1 by omega]
      exact insertIdx_step (by omega) (hbelow j (Nat.lt_succ_self j))

theorem insertIdx_ok (hn : p.numKeys ≤ order - 1) (hj : j ≤ p.numKeys)
    (hbelow : ∀ i, i < j → p.keys.slot i < key) (habove : j < p.numKeys → key ≤ p.keys.slot j)
    (hpast : j < order - 1 ∨ past ≠ none) :
    insertIdx past s a p key p.numKeys 0 = .ok j := by
  rw [insertIdx_skip hn hj hbelow]
  rcases Nat.eq_or_lt_of_le hj with rfl | hlt
  · rw [Nat.sub_self, insertIdx]
    rcases hpast with hlt | hpast
    · rw [readKey_ok hlt, ok_bind]
    · cases past with
      | none => exact absurd rfl hpast
      | some value =>
          rw [readKey]
          split
          · rw [Cells.read_ok (by assumption), ok_bind]
          · rfl
  · rw [show p.numKeys - j = p.numKeys - (j + 1) + 1 by omega, insertIdx, readKey_ok (by omega),
      ok_bind, if_neg (Nat.not_lt.mpr (habove hlt))]

theorem insertIdx_fault (hn : p.numKeys = order - 1)
    (hbelow : ∀ i, i < p.numKeys → p.keys.slot i < key) :
    insertIdx none s a p key p.numKeys 0 = .error .outOfRange := by
  rw [insertIdx_skip (Nat.le_of_eq hn) (Nat.le_refl _) hbelow, Nat.sub_self, insertIdx, readKey,
    Cells.read_fault (Nat.le_of_eq hn.symm), error_bind]

theorem shiftParent_step {n : BtNode} (hidx : idx ≤ i) (hi : i + 1 < order - 1) :
    shiftParent idx (fuel + 1) i n =
      shiftParent idx fuel ((i + 2 ^ 32 - 1) % 2 ^ 32) { n with
        keys := ⟨Function.update n.keys.slot (i + 1) (n.keys.slot i)⟩
        pointers := ⟨Function.update n.pointers.slot (i + 2) (n.pointers.slot (i + 1))⟩ } := by
  have horder : order = 16 := rfl
  rw [shiftParent, if_pos hidx, Nat.mod_eq_of_lt (by omega), Nat.mod_eq_of_lt (by omega),
    Cells.read_ok (by omega), ok_bind, Cells.write_ok hi, ok_bind, Cells.read_ok (by omega),
    ok_bind, Cells.write_ok (by omega), ok_bind]

theorem shiftParent_ok {n : BtNode} {m d : Nat} (fuel : Nat) {keys : Cells (order - 1) Nat}
    {pointers : Cells order (Option Addr)} (hidx : 1 ≤ idx) (hm : idx + d ≤ m) (hroom : m < order - 1)
    (hfuel : d < fuel) (hkeys : Moved n.keys.slot keys.slot m (idx + d))
    (hpointers : Moved n.pointers.slot pointers.slot (m + 1) (idx + d + 1)) :
    ∃ keys' pointers', shiftParent idx fuel (idx + d - 1) { n with keys, pointers } =
        .ok { n with keys := keys', pointers := pointers' } ∧
      Moved n.keys.slot keys'.slot m idx ∧ Moved n.pointers.slot pointers'.slot (m + 1) (idx + 1) := by
  induction d generalizing fuel keys pointers with
  | zero =>
      obtain ⟨fuel, rfl⟩ := Nat.exists_eq_succ_of_ne_zero (Nat.ne_of_gt hfuel)
      exact ⟨keys, pointers, if_neg (by omega), hkeys, hpointers⟩
  | succ d ih =>
      obtain ⟨fuel, rfl⟩ := Nat.exists_eq_succ_of_ne_zero (n := fuel) (by omega)
      have horder : order = 16 := rfl
      rw [shiftParent_step (by omega) (by omega),
        show (idx + (d + 1) - 1 + 2 ^ 32 - 1) % 2 ^ 32 = idx + d - 1 by omega]
      refine ih fuel (by omega) (by omega) ?_ ?_
      · rw [show idx + (d + 1) - 1 = idx + d by omega]
        exact Moved.step (i := idx + d) hkeys (by omega)
      · rw [show idx + (d + 1) - 1 = idx + d by omega]
        exact Moved.step (i := idx + d + 1) hpointers (by omega)

/-- The counter of the loop passes zero and the read after it is out of range. -/
theorem shiftParent_fault {n : BtNode} (hi : i + 1 < order - 1) (hfuel : i + 1 < fuel) :
    shiftParent 0 fuel i n = .error .outOfRange := by
  have horder : order = 16 := rfl
  induction i generalizing fuel n with
  | zero =>
      obtain ⟨fuel, rfl⟩ := Nat.exists_eq_add_of_lt hfuel
      rw [show 0 + 1 + fuel + 1 = fuel + 1 + 1 by omega, shiftParent_step (Nat.le_refl 0) hi,
        shiftParent, if_pos (Nat.zero_le _), Cells.read_fault (by omega), error_bind]
  | succ i ih =>
      obtain ⟨fuel, rfl⟩ := Nat.exists_eq_add_of_lt hfuel
      rw [shiftParent_step (Nat.zero_le _) hi,
        show (i + 1 + 2 ^ 32 - 1) % 2 ^ 32 = i by omega]
      exact ih (by omega) (by omega)

theorem placeInParent_ok (key : Nat) (right : Addr) (hn : p.numKeys < order - 1) (hidx : 1 ≤ idx) (hle : idx ≤ p.numKeys) :
    ∃ keys pointers, placeInParent p idx key right =
        .ok { p with keys, pointers, numKeys := p.numKeys + 1 } ∧
      (∀ i, i ≤ p.numKeys → keys.slot i = insertAt p.keys.slot idx key i) ∧
      ∀ i, i ≤ p.numKeys + 1 →
        pointers.slot i = insertAt p.pointers.slot (idx + 1) (some right) i := by
  have horder : order = 16 := rfl
  obtain ⟨keys, pointers, h, hkeys, hpointers⟩ := shiftParent_ok (n := p) (m := p.numKeys)
    (d := p.numKeys - idx) (p.numKeys + 2) hidx (by omega) hn (by omega)
    (by rw [Nat.add_sub_cancel' hle]; exact Moved.refl)
    (by rw [Nat.add_sub_cancel' hle]; exact Moved.refl)
  refine ⟨⟨Function.update keys.slot idx key⟩,
    ⟨Function.update pointers.slot (idx + 1) (some right)⟩, ?_, fun i hi => hkeys.insertAt hi,
    fun i hi => hpointers.insertAt hi⟩
  rw [placeInParent, show (p.numKeys + 2 ^ 32 - 1) % 2 ^ 32 = idx + (p.numKeys - idx) - 1 by omega, h,
    ok_bind, Cells.write_ok (by omega), ok_bind, Cells.write_ok (by omega), ok_bind]

theorem placeInParent_fault (hn : p.numKeys < order - 1) (hpos : 1 ≤ p.numKeys) :
    placeInParent p 0 key right = .error .outOfRange := by
  have horder : order = 16 := rfl
  rw [placeInParent, show (p.numKeys + 2 ^ 32 - 1) % 2 ^ 32 = p.numKeys - 1 by omega,
    shiftParent_fault (by omega) (by omega), error_bind]

end Parent

end HashComp.IndexBtree
