import HashComp.LevelHashing.Coverage

namespace HashComp.LevelHashing

open HashComp.Runs
open HashComp.Threads
open HashComp.Slots

section Insertions

variable {K V : Type*} (H : Hashing K)

/-- The table after some insertions. -/
def Table.insertAll (t : Table K V) (items : List (K × V)) : Table K V :=
  items.foldl (fun t e => (t.inserted H e.1 e.2).1) t

variable {H} [DecidableEq K] [Inhabited K] [Inhabited V] {t t' : Table K V} {op : Op K V}
  {reply : Reply V} {tid n : Nat}

/-- A call takes no lock beyond the end of `level_locks`, as long as the table has not
been resized. -/
theorem covered_of_reached (hn : 2 ≤ n) (h : Reached H tid (levelInit n) t)
    (hsize : t.levelSize = n) (u : Nat) (op : Op K V) : Covered H u t (.called op) := by
  have hidle := idle_of_reached hn h
  have hlocks := lockCount_levelInit hidle hsize (locks_of_reached hn h).1
  have hallows : (program H).Allows u (CallFits H u) t ([] ++ [op]) := hidle.allows hlocks nofun
  exact fun m => (hallows.1 m).locks

theorem returns_of_result (hn : 2 ≤ n) (h : Reached H tid (levelInit n) t)
    (hsize : t.levelSize = n) (hresult : t.result H op = some (t', reply)) :
    Returns H tid t op t' reply := by
  have hidle := idle_of_reached hn h
  exact returns_result hidle.unlocked hidle.sound.half_pos (covered_of_reached hn h hsize tid op)
    hresult

theorem reached_insertAll (hn : 2 ≤ n) (h : Reached H tid (levelInit n) t)
    (hsize : t.levelSize = n) (items : List (K × V)) :
    Reached H tid (levelInit n) (t.insertAll H items) ∧ (t.insertAll H items).levelSize = n := by
  induction items generalizing t with
  | nil => exact ⟨h, hsize⟩
  | cons e items ih =>
      have hresult : t.result H (.insert e.1 e.2) = some (t.inserted H e.1 e.2) := rfl
      have hcall := returns_of_result hn h hsize hresult
      exact ih (.call h hcall) ((kept_inserted e.1 e.2).levelSize.trans hsize)

/-- The two lowest bits of a key are its hash values. -/
def bits : Hashing Nat where
  fHash := fun key => BitVec.ofNat 64 (key % 2)
  sHash := fun key => BitVec.ofNat 64 (key / 2 % 2)

def loaded (n : Nat) (items : List (Nat × Nat)) : Table Nat Nat :=
  (levelInit n).insertAll bits items

theorem reached_loaded (hn : 2 ≤ n) (items : List (Nat × Nat)) :
    Reached bits tid (levelInit n) (loaded n items) ∧ (loaded n items).levelSize = n :=
  reached_insertAll hn .start rfl items

def revived : Table Nat Nat :=
  loaded 2 ((2, 2) :: (List.range 15).map fun i => (4 * i, i))

theorem reached_revived : Reached bits 0 (levelInit 2) revived ∧ revived.levelSize = 2 :=
  reached_loaded (by decide) _

end Insertions

section Resizes

variable {K V : Type*} [Inhabited K] [Inhabited V]

/-- `level_resize` comes to its end in every table whose bottom level has no more
than eight items for any two buckets of the new top level, and in every table of
the smallest size. -/
theorem resize_completes (H : Hashing K) (t : Table K V)
    (hroom : t.levelSize = 2 ∨
      ∀ f s, t.bottomItems.countP (Contends H (2 ^ (t.levelSize + 1)) f s) ≤ 8) :
    ∃ t', t.resize H = some t' := by
  by_contra hnot
  have hnone : t.resize H = none := by
    cases hr : t.resize H with
    | none => rfl
    | some t' => exact absurd ⟨t', hr⟩ hnot
  obtain ⟨f, s, hcrowd⟩ := resize_eq_none hnone
  rcases hroom with hsize | hroom
  · have hcard : t.bottomItems.card ≤ (places (2 ^ (t.levelSize - 1))).card := card_items_le
    have hle := Multiset.countP_le_card (Contends H (2 ^ (t.levelSize + 1)) f s) t.bottomItems
    rw [places, Finset.card_product, Finset.card_range, Finset.card_range, hsize] at hcard
    simp only [assocNum] at hcard
    omega
  · exact absurd (hroom f s) (Nat.not_le.mpr hcrowd)

/-- Sixteen keys with the buckets 0 and 4 of the top level, and eight with the buckets
1 and 4: the third item of the bucket 2 of the bottom level finds no free slot. -/
theorem resize_exits :
    ∃ t : Table Nat Nat, Reached bits 0 (levelInit 3) t ∧ t.resize bits = none := by
  refine ⟨_, (reached_loaded (by decide) ((List.range 16).map (fun i => (4 * i, i)) ++
    (List.range 8).map fun i => (4 * i + 1, i))).1, ?_⟩
  rw [← Option.isNone_iff_eq_none]
  decide +kernel

/-- Sixteen keys with the same buckets, of which eight have slots of the bottom
level. -/
theorem resize_completes_loaded :
    ∃ t', (loaded 3 ((List.range 16).map fun i => (4 * i, i))).resize bits = some t' :=
  resize_completes bits _ (Or.inr fun f s =>
    (Multiset.countP_le_card _ _).trans (by decide +kernel))

end Resizes

end HashComp.LevelHashing
