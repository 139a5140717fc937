import Mathlib.Data.List.Pairwise
import Mathlib.Data.List.Perm.Basic
import Mathlib.Data.Set.BooleanAlgebra
import Mathlib.Order.CompletePartialOrder
import Mathlib.Order.Interval.Set.Basic

namespace HashComp.Transfers

structure Transfer where
  source : Nat
  dest : Nat
  length : Nat
deriving Repr, DecidableEq

variable {δ : Type*}

def Transfer.target (t : Transfer) : Set Nat :=
  Set.Ico t.dest (t.dest + t.length)

/-- One transfer: `value x` is what a cell becomes that receives the source's cell `x`. -/
def perform (value : Nat → δ → δ) (t : Transfer) (cells : Nat → δ) (a : Nat) : δ :=
  if t.dest ≤ a ∧ a < t.dest + t.length then value (t.source + (a - t.dest)) (cells a)
  else cells a

def performAll (value : Nat → δ → δ) (ts : List Transfer) (cells : Nat → δ) : Nat → δ :=
  ts.foldl (fun cells t => perform value t cells) cells

variable {value : Nat → δ → δ} {ts : List Transfer} {t : Transfer} {a : Nat} {cells : Nat → δ}

theorem perform_of_notMem (h : a ∉ t.target) : perform value t cells a = cells a :=
  if_neg h

theorem perform_of_mem (h : a ∈ t.target) :
    perform value t cells a = value (t.source + (a - t.dest)) (cells a) :=
  if_pos h

theorem performAll_of_notMem (h : ∀ t ∈ ts, a ∉ t.target) :
    performAll value ts cells a = cells a := by
  induction ts generalizing cells with
  | nil => rfl
  | cons t ts ih =>
      have hrest : performAll value ts (perform value t cells) a = perform value t cells a :=
        ih fun t' ht' => h t' (List.mem_cons_of_mem t ht')
      have hfirst : perform value t cells a = cells a := perform_of_notMem (h t List.mem_cons_self)
      exact hrest.trans hfirst

/-- A cell in the target of one transfer only receives that transfer's source cell. -/
theorem performAll_of_mem (hdisjoint : ts.Pairwise fun t t' => Disjoint t.target t'.target)
    (ht : t ∈ ts) (ha : a ∈ t.target) :
    performAll value ts cells a = value (t.source + (a - t.dest)) (cells a) := by
  induction ts generalizing cells with
  | nil => cases ht
  | cons t' ts ih =>
      obtain ⟨hfirst, hrest⟩ := List.pairwise_cons.mp hdisjoint
      show performAll value ts (perform value t' cells) a = _
      rcases List.mem_cons.mp ht with rfl | ht
      · rw [performAll_of_notMem, perform_of_mem ha]
        intro t' ht'
        exact Set.disjoint_left.mp (hfirst t' ht') ha
      · rw [ih hrest ht, perform_of_notMem]
        exact Set.disjoint_right.mp (hfirst t ht) ha

/-- Every cell below `size` is the target of one transfer, and no other cell is. -/
structure Partition (ts : List Transfer) (size : Nat) : Prop where
  disjoint : ts.Pairwise fun t t' => Disjoint t.target t'.target
  covers : ∀ a, (∃ t ∈ ts, a ∈ t.target) ↔ a < size

theorem Partition.performAll_eq {ts' : List Transfer} {size : Nat} (h : Partition ts size)
    (value : Nat → δ → δ) (cells : Nat → δ) (hperm : ts'.Perm ts) (ha : a < size) :
    ∃ t ∈ ts, a ∈ t.target ∧
      performAll value ts' cells a = value (t.source + (a - t.dest)) (cells a) := by
  obtain ⟨t, ht, hat⟩ := (h.covers a).mpr ha
  refine ⟨t, ht, hat, performAll_of_mem ?_ (hperm.mem_iff.mpr ht) hat⟩
  exact (hperm.pairwise_iff fun hd => hd.symm).mpr h.disjoint

theorem partition_blocks (n length : Nat) (source : Nat → Nat) :
    Partition ((List.range n).map fun i => ⟨source i, i * length, length⟩) (n * length) := by
  constructor
  · rw [List.pairwise_map]
    refine List.pairwise_lt_range.imp fun {i j} hij => ?_
    have hle : (i + 1) * length ≤ j * length := Nat.mul_le_mul_right length hij
    rw [Nat.add_one_mul] at hle
    rw [Set.disjoint_left]
    rintro a ⟨-, hlt⟩ ⟨hge, -⟩
    exact absurd (lt_of_lt_of_le hlt hle) (not_lt.mpr hge)
  · intro a
    constructor
    · rintro ⟨t, ht, -, hlt⟩
      obtain ⟨i, hi, rfl⟩ := List.mem_map.mp ht
      have hle : (i + 1) * length ≤ n * length :=
        Nat.mul_le_mul_right length (List.mem_range.mp hi)
      rw [Nat.add_one_mul] at hle
      exact lt_of_lt_of_le hlt hle
    · intro ha
      have hlength : 0 < length := Nat.pos_of_mul_pos_left (Nat.zero_lt_of_lt ha)
      have hi : a / length < n := (Nat.div_lt_iff_lt_mul hlength).mpr ha
      refine ⟨_, List.mem_map_of_mem (List.mem_range.mpr hi), Nat.div_mul_le_self a length, ?_⟩
      exact Nat.lt_div_mul_add hlength

end HashComp.Transfers
