import HashComp.Index.Tags

namespace HashComp.Index

open HashComp.Faster
open HashComp.Runs

variable {K : Type} {L : Layout K} {x y z : System K} {t u b i n k a : Nat}
  {e : HashBucketEntry}

section Chunks

/-- The chunks of a table have all of its buckets, and no others. -/
structure Fits (tableSize growNumChunks : Nat) : Prop where
  inside : ∀ chunk < max (tableSize / kGcHashTableChunkSize) 1, ∀ idx,
    idx < upperBound tableSize growNumChunks chunk → bucketOf chunk idx < tableSize
  covers : ∀ b < tableSize, ∃ chunk < max (tableSize / kGcHashTableChunkSize) 1, ∃ idx,
    idx < upperBound tableSize growNumChunks chunk ∧ bucketOf chunk idx = b

theorem fits_of_small {tableSize growNumChunks : Nat} (hsize : tableSize < kGcHashTableChunkSize)
    (hgrow : growNumChunks ≤ 1) : Fits tableSize growNumChunks := by
  have hchunks : max (tableSize / kGcHashTableChunkSize) 1 = 1 := by
    rw [Nat.div_eq_of_lt hsize]
    rfl
  have hbound : upperBound tableSize growNumChunks 0 = tableSize := by
    have hlast : ¬ 0 + 1 < growNumChunks := by omega
    rw [upperBound, if_neg hlast]
    omega
  constructor
  · intro chunk hchunk idx hidx
    have hzero : chunk = 0 := by omega
    subst hzero
    rw [hbound] at hidx
    rw [bucketOf]
    omega
  · intro b hb
    refine ⟨0, by omega, b, ?_, ?_⟩
    · rwa [hbound]
    · rw [bucketOf]
      omega

theorem fits_of_large {growNumChunks m : Nat} (hm : 0 < m) :
    Fits (kGcHashTableChunkSize * m) growNumChunks := by
  have hpos : 0 < kGcHashTableChunkSize := by decide
  have hchunks : max (kGcHashTableChunkSize * m / kGcHashTableChunkSize) 1 = m := by
    rw [Nat.mul_div_cancel_left m hpos]
    omega
  have hsize : kGrowHashTableChunkSize = kGcHashTableChunkSize := rfl
  constructor
  · intro chunk hchunk idx hidx
    rw [hchunks] at hchunk
    have hle : (chunk + 1) * kGcHashTableChunkSize ≤ m * kGcHashTableChunkSize :=
      Nat.mul_le_mul_right _ hchunk
    rw [upperBound] at hidx
    rw [bucketOf, Nat.mul_comm kGcHashTableChunkSize m]
    rw [Nat.mul_comm kGcHashTableChunkSize m] at hidx
    rw [Nat.add_mul] at hle
    split at hidx <;> omega
  · intro b hb
    rw [hchunks]
    refine ⟨b / kGcHashTableChunkSize, Nat.div_lt_of_lt_mul hb, b % kGcHashTableChunkSize, ?_, ?_⟩
    · have hlt := Nat.mod_lt b hpos
      have hdiv := Nat.div_add_mod b kGcHashTableChunkSize
      rw [Nat.mul_comm kGcHashTableChunkSize (b / kGcHashTableChunkSize)] at hdiv
      rw [upperBound]
      split
      · omega
      · omega
    · rw [bucketOf, Nat.mul_comm]
      exact Nat.div_add_mod ..

end Chunks

section Frame

/-- In `CleanHashTableBuckets`, or stopped by it. -/
def Pc.Sweeps : Pc K → Prop
  | .starting _ | .visiting _ _ _ _ | .cleaning _ _ _ _ _ | .collecting _ _ _ _ _ _
  | .faulted => True
  | _ => False

structure Framed (x : System K) (t : Nat) (y : System K) : Prop where
  others : ∀ u, u ≠ t → y.pc u = x.pc u
  tailAddress : y.tailAddress = x.tailAddress
  beginAddress : y.beginAddress = x.beginAddress
  growNumChunks : y.growNumChunks = x.growNumChunks
  gcNumChunks : y.gcNumChunks = x.gcNumChunks
  published : ∀ key slot expected newAddress, y.pc t ≠ .exchanging key slot expected newAddress
  calm : ¬ (x.pc t).Sweeps → ¬ (y.pc t).Sweeps ∧ y.accessed = x.accessed ∧
    y.processed = x.processed

theorem framed_goto {pc : Pc K} (htail : y.tailAddress = x.tailAddress)
    (hbegin : y.beginAddress = x.beginAddress) (hgrow : y.growNumChunks = x.growNumChunks)
    (hgc : y.gcNumChunks = x.gcNumChunks) (hpc : y.pc = x.pc)
    (hpublished : ∀ key slot expected newAddress, pc ≠ .exchanging key slot expected newAddress)
    (hcalm : ¬ (x.pc t).Sweeps → ¬ pc.Sweeps ∧ y.accessed = x.accessed ∧
      y.processed = x.processed) : Framed x t (y.goto t pc) where
  others := by
    intro u hu
    rw [← hpc]
    exact Function.update_of_ne hu ..
  tailAddress := htail
  beginAddress := hbegin
  growNumChunks := hgrow
  gcNumChunks := hgc
  published := by
    rw [goto_pc_self]
    exact hpublished
  calm := by
    rw [goto_pc_self]
    exact hcalm

theorem goto_setSlot {pc : Pc K} {new : Option HashBucketEntry} :
    (x.goto t pc).setSlot b i new = (x.setSlot b i new).goto t pc :=
  rfl

theorem framed_of_step (hstep : x.step L t = some y) : Framed x t y := by
  unfold System.step at hstep
  cases hpc : x.pc t <;> simp only [hpc, goto_setSlot] at hstep
  case idle | found | faulted => cases hstep
  all_goals
    repeat' split at hstep
    all_goals
      cases hstep
      refine framed_goto rfl rfl rfl rfl rfl (by simp) ?_
      simp [hpc, Pc.Sweeps, System.setSlot, System.extend]

end Frame

section Addresses

def Old (x : System K) (address : Nat) : Prop :=
  address < x.tailAddress ∧
    ∀ t key slot expected, x.pc t ≠ .exchanging key slot expected address

/-- The addresses in the entries are old, and threads have different new ones. -/
structure Fresh (x : System K) : Prop where
  entries : ∀ p e, content x p = some e → e.address ≠ kInvalidAddress → Old x e.address
  pending : ∀ t key slot expected address, x.pc t = .exchanging key slot expected address →
    address < x.tailAddress
  distinct : ∀ t u key key' slot slot' expected expected' address,
    x.pc t = .exchanging key slot expected address →
    x.pc u = .exchanging key' slot' expected' address → t = u

theorem fresh_start (growNumChunks : Nat) : Fresh (System.start (K := K) growNumChunks) where
  entries := by
    intro p e he
    simp only [content, System.start, List.getElem?_replicate] at he
    split at he <;> cases he
  pending := by
    rintro t key slot expected address ⟨⟩
  distinct := by
    rintro t u key key' slot slot' expected expected' address ⟨⟩

/-- A move lets the threads as they are that it is not about, and another thread
gets to an exchange by an allocation only. -/
theorem exchanging_of_next [DecidableEq K] {m : Move K} (hnext : x.next L m = some y) {key : K}
    {slot address : Nat} {expected : HashBucketEntry}
    (hy : y.pc t = .exchanging key slot expected address) :
    x.pc t = .exchanging key slot expected address ∧ m ≠ .run t ∨
      m = .allocate t address ∧ x.tailAddress ≤ address ∧ address < y.tailAddress := by
  have hgoto : ∀ {s : System K} {v : Nat} {pc : Pc K}, (s.goto v pc).pc t =
      .exchanging key slot expected address → v ≠ t ∧ s.pc t = .exchanging key slot expected address
        ∨ v = t ∧ pc = .exchanging key slot expected address := by
    intro s v pc h
    by_cases hv : v = t
    · subst v
      exact Or.inr ⟨rfl, goto_pc_self.symm.trans h⟩
    · exact Or.inl ⟨hv, (Function.update_of_ne (Ne.symm hv) ..).symm.trans h⟩
  cases m with
  | call v key' =>
      simp only [System.next] at hnext
      split at hnext <;> cases hnext
      rcases hgoto hy with ⟨-, h⟩ | ⟨-, h⟩
      · exact Or.inl ⟨h, (by rintro ⟨⟩)⟩
      · cases h
  | run v =>
      have hframe := framed_of_step hnext
      by_cases hv : v = t
      · subst v
        exact absurd hy (hframe.published key slot expected address)
      · rw [hframe.others t (Ne.symm hv)] at hy
        exact Or.inl ⟨hy, fun h => hv (Move.run.inj h)⟩
  | finish v =>
      simp only [System.next] at hnext
      split at hnext <;> cases hnext
      rcases hgoto hy with ⟨-, h⟩ | ⟨-, h⟩
      · exact Or.inl ⟨h, (by rintro ⟨⟩)⟩
      · cases h
  | allocate v address' =>
      simp only [System.next] at hnext
      split at hnext
      · split at hnext <;> cases hnext
        rename_i hle
        rcases hgoto hy with ⟨-, h⟩ | ⟨rfl, h⟩
        · exact Or.inl ⟨h, (by rintro ⟨⟩)⟩
        · cases h
          exact Or.inr ⟨rfl, hle, Nat.lt_add_of_pos_right (by decide)⟩
      · cases hnext
  | cleanHashTableBuckets v =>
      simp only [System.next] at hnext
      split at hnext
      · split at hnext <;> cases hnext
        · rcases hgoto hy with ⟨-, h⟩ | ⟨-, h⟩
          · exact Or.inl ⟨h, (by rintro ⟨⟩)⟩
          · cases h
        · exact Or.inl ⟨hy, (by rintro ⟨⟩)⟩
      · cases hnext
  | shiftBeginAddress v address' =>
      simp only [System.next] at hnext
      split at hnext <;> cases hnext
      exact Or.inl ⟨hy, (by rintro ⟨⟩)⟩

theorem tailAddress_le_of_next [DecidableEq K] {m : Move K} (hnext : x.next L m = some y) :
    x.tailAddress ≤ y.tailAddress := by
  cases m with
  | run v => exact Nat.le_of_eq (framed_of_step hnext).tailAddress.symm
  | allocate v address =>
      simp only [System.next] at hnext
      split at hnext
      · split at hnext <;> cases hnext
        rename_i hle
        exact Nat.le_trans hle (Nat.le_add_right ..)
      · cases hnext
  | cleanHashTableBuckets v =>
      simp only [System.next] at hnext
      split at hnext
      · split at hnext <;> cases hnext <;> exact Nat.le_refl _
      · cases hnext
  | call v key | finish v | shiftBeginAddress v address =>
      simp only [System.next] at hnext
      split at hnext <;> cases hnext
      exact Nat.le_refl _

theorem Old.next [DecidableEq K] {m : Move K} (h : Old x a) (hnext : x.next L m = some y) :
    Old y a := by
  refine ⟨Nat.lt_of_lt_of_le h.1 (tailAddress_le_of_next hnext), fun t key slot expected hy => ?_⟩
  rcases exchanging_of_next hnext hy with ⟨hx, -⟩ | ⟨-, hge, -⟩
  · exact h.2 t key slot expected hx
  · exact absurd h.1 (Nat.not_lt.mpr hge)

/-- An entry in the table was there before, or is tentative, or new, or has an
address that nobody else has. -/
theorem content_of_next [DecidableEq K] {m : Move K} {p : Nat × Nat}
    (hnext : x.next L m = some y) (he : content y p = some e) :
    content x p = some e ∨ e.address = kInvalidAddress ∨
      ∃ t key slot expected, m = .run t ∧ x.pc t = .exchanging key slot expected e.address := by
  rcases wrote_of_next hnext with hsame | ⟨t, w, rfl, hwrite, -, hy⟩
  · exact Or.inl (hsame ▸ he)
  by_cases hp : p = w.place
  · right
    rw [hy, hp, Function.update_self] at he
    cases hpc : x.pc t <;> rw [hpc] at hwrite <;>
      simp only [Pc.write, Option.some.injEq, reduceCtorEq] at hwrite <;> subst hwrite <;> cases he
    · exact Or.inl rfl
    · exact Or.inl rfl
    · exact Or.inr ⟨t, _, _, _, rfl, hpc⟩
  · left
    rw [hy, Function.update_of_ne hp] at he
    exact he

theorem Fresh.next [DecidableEq K] {m : Move K} (h : Fresh x) (hnext : x.next L m = some y) :
    Fresh y where
  entries := by
    intro p e he hvalid
    rcases content_of_next hnext he with hx | hinvalid | ⟨t, key, slot, expected, rfl, hpc⟩
    · exact (h.entries p e hx hvalid).next hnext
    · exact absurd hinvalid hvalid
    · have hlt := h.pending t key slot expected e.address hpc
      refine ⟨Nat.lt_of_lt_of_le hlt (tailAddress_le_of_next hnext), ?_⟩
      intro u key' slot' expected' hy
      rcases exchanging_of_next hnext hy with ⟨hu, hne⟩ | ⟨-, hge, -⟩
      · exact hne (congrArg Move.run (h.distinct t u _ _ _ _ _ _ _ hpc hu))
      · exact absurd hlt (Nat.not_lt.mpr hge)
  pending := by
    intro t key slot expected address hy
    rcases exchanging_of_next hnext hy with ⟨hx, -⟩ | ⟨-, -, hlt⟩
    · exact Nat.lt_of_lt_of_le (h.pending t key slot expected address hx)
        (tailAddress_le_of_next hnext)
    · exact hlt
  distinct := by
    intro t u key key' slot slot' expected expected' address ht hu
    rcases exchanging_of_next hnext ht with ⟨ht, -⟩ | ⟨ht, hge, -⟩ <;>
      rcases exchanging_of_next hnext hu with ⟨hu, -⟩ | ⟨hu, hge', -⟩
    · exact h.distinct t u _ _ _ _ _ _ _ ht hu
    · exact absurd (h.pending t _ _ _ _ ht) (Nat.not_lt.mpr hge')
    · exact absurd (h.pending u _ _ _ _ hu) (Nat.not_lt.mpr hge)
    · rw [ht] at hu
      exact (Move.allocate.inj hu).1

end Addresses

section Growth

def System.growIndex (x : System K) (tableSize : Nat) (buckets : Nat → Bucket) : System K :=
  { x with
    buckets := buckets
    growNumChunks := max (tableSize / kGrowHashTableChunkSize) 1 }

/-- The table after `n` calls of `GrowIndex`. -/
def grown (getHash : K → BitVec 64) (k n : Nat) : Layout K where
  getHash := getHash
  tableSize := 2 ^ k * 2 ^ n

/-- What a store gets to that starts with `2 ^ k` buckets and with this value in
the `num_chunks` that nobody has initialised. -/
inductive Arises [DecidableEq K] (getHash : K → BitVec 64) (k growNumChunks : Nat) :
    Nat → System K → Prop
  | start : Arises getHash k growNumChunks 0 (System.start growNumChunks)
  | next {n : Nat} {x y : System K} {m : Move K} (h : Arises getHash k growNumChunks n x)
      (hnext : x.next (grown getHash k n) m = some y) : Arises getHash k growNumChunks n y
  | growIndex {n : Nat} {x : System K} (h : Arises getHash k growNumChunks n x)
      (buckets : Nat → Bucket) (hidle : ∀ t, x.pc t = .idle)
      (hentries : ∀ b i e, InSlot (buckets b) i e → e.address < x.tailAddress) :
      Arises getHash k growNumChunks (n + 1)
        (x.growIndex (grown getHash k n).tableSize buckets)

variable [DecidableEq K] {getHash : K → BitVec 64} {growNumChunks : Nat}

theorem Arises.fresh (h : Arises getHash k growNumChunks n x) : Fresh x := by
  induction h with
  | start => exact fresh_start growNumChunks
  | next _ hnext ih => exact ih.next hnext
  | @growIndex n x _ buckets hidle hentries _ =>
      have hnot : ∀ t key slot expected address,
          x.pc t ≠ .exchanging key slot expected address := by
        intro t key slot expected address hpc
        rw [hidle] at hpc
        cases hpc
      constructor
      · rintro ⟨b, i⟩ e he -
        exact ⟨hentries b i e (content_eq_some_iff.mp he), fun t _ _ _ => hnot t _ _ _ _⟩
      · intro t key slot expected address hpc
        exact absurd hpc (hnot t key slot expected address)
      · intro t u key key' slot slot' expected expected' address hpc
        exact absurd hpc (hnot t key slot expected address)

theorem growNumChunks_of_next {m : Move K} (hnext : x.next L m = some y) :
    y.growNumChunks = x.growNumChunks := by
  cases m with
  | run v => exact (framed_of_step hnext).growNumChunks
  | allocate v address =>
      simp only [System.next] at hnext
      split at hnext
      · split at hnext <;> cases hnext
        rfl
      · cases hnext
  | cleanHashTableBuckets v =>
      simp only [System.next] at hnext
      split at hnext
      · split at hnext <;> cases hnext <;> rfl
      · cases hnext
  | call v key | finish v | shiftBeginAddress v address =>
      simp only [System.next] at hnext
      split at hnext <;> cases hnext
      rfl

theorem Arises.growNumChunks_eq (h : Arises getHash k growNumChunks n x) :
    n = 0 ∧ x.growNumChunks = growNumChunks ∨
      ∃ n', n = n' + 1 ∧ x.growNumChunks = max (2 ^ k * 2 ^ n' / kGrowHashTableChunkSize) 1 := by
  induction h with
  | start => exact Or.inl ⟨rfl, rfl⟩
  | next _ hnext ih =>
      rw [growNumChunks_of_next hnext]
      exact ih
  | growIndex _ _ _ _ _ => exact Or.inr ⟨_, rfl, rfl⟩

theorem Arises.fits (h : Arises getHash k growNumChunks n x)
    (hcond : 0 < n ∨ kGcHashTableChunkSize ≤ 2 ^ k ∨ growNumChunks ≤ 1) :
    Fits (grown getHash k n).tableSize x.growNumChunks := by
  have hsize : (grown getHash k n).tableSize = 2 ^ (k + n) := (Nat.pow_add ..).symm
  rw [hsize]
  by_cases hlarge : kGcHashTableChunkSize ≤ 2 ^ (k + n)
  · have hle : 14 ≤ k + n := (Nat.pow_le_pow_iff_right Nat.one_lt_two).mp hlarge
    have hmul : 2 ^ (k + n) = kGcHashTableChunkSize * 2 ^ (k + n - 14) := by
      rw [show kGcHashTableChunkSize = 2 ^ 14 from rfl, ← Nat.pow_add, Nat.add_sub_cancel' hle]
    rw [hmul]
    exact fits_of_large (Nat.pow_pos (by decide))
  · apply fits_of_small (Nat.not_le.mp hlarge)
    rcases h.growNumChunks_eq with ⟨rfl, heq⟩ | ⟨n', rfl, heq⟩
    · rw [heq]
      rcases hcond with hn | hk | hle
      · exact absurd hn (Nat.lt_irrefl 0)
      · exact absurd hk hlarge
      · exact hle
    · have hlt : 2 ^ k * 2 ^ n' < kGrowHashTableChunkSize := by
        rw [← Nat.pow_add]
        have hmono : 2 ^ (k + n') ≤ 2 ^ (k + (n' + 1)) :=
          Nat.pow_le_pow_right (by decide) (by omega)
        exact Nat.lt_of_le_of_lt hmono (Nat.not_le.mp hlarge)
      rw [heq, Nat.div_eq_of_lt hlt]
      exact Nat.le_refl 1

end Growth

section Sweep

/-- The slot does not have the entry any more that it had in `y`, if that led
below `begin_address`. -/
def Clean (y x : System K) (p : Nat × Nat) : Prop :=
  ∀ e, content y p = some e → Truncated y.beginAddress e → content x p ≠ some e

def Swept (y x : System K) (chunk idx : Nat) : Prop :=
  bucketOf chunk idx ∈ x.accessed ∧ ∀ i, Clean y x (bucketOf chunk idx, i)

def Visits (L : Layout K) (y x : System K) (chunk bound first idx : Nat) : Prop :=
  chunk < y.gcNumChunks ∧ bound = upperBound L.tableSize y.growNumChunks chunk ∧
    first = y.beginAddress ∧ ∀ j < idx, Swept y x chunk j

def Cleans (L : Layout K) (y x : System K) (chunk bound first idx i : Nat) : Prop :=
  Visits L y x chunk bound first idx ∧ bucketOf chunk idx ∈ x.accessed ∧
    ∀ j < i, Clean y x (bucketOf chunk idx, j)

def Pc.Covers (L : Layout K) (y x : System K) : Pc K → Prop
  | .starting chunk => chunk < y.gcNumChunks
  | .visiting chunk bound first idx => Visits L y x chunk bound first idx
  | .cleaning chunk bound first idx i => Cleans L y x chunk bound first idx i
  | .collecting chunk bound first idx i expected =>
      Cleans L y x chunk bound first idx i ∧ Truncated y.beginAddress expected ∧
        ∀ e, content y (bucketOf chunk idx, i) = some e → Truncated y.beginAddress e →
          content x (bucketOf chunk idx, i) = some e → e = expected
  | .faulted => False
  | _ => True

structure Sweep (L : Layout K) (y x : System K) : Prop where
  beginAddress : x.beginAddress = y.beginAddress
  growNumChunks : x.growNumChunks = y.growNumChunks
  gcNumChunks : x.gcNumChunks = y.gcNumChunks
  old : ∀ p e, content y p = some e → Truncated y.beginAddress e → Old x e.address
  inside : ∀ b ∈ x.accessed, b < L.tableSize
  processed : ∀ chunk ∈ x.processed, ∀ idx < upperBound L.tableSize y.growNumChunks chunk,
    Swept y x chunk idx
  threads : ∀ t, (x.pc t).Covers L y x

structure Later (y x z : System K) : Prop where
  accessed : ∀ b ∈ x.accessed, b ∈ z.accessed
  clean : ∀ p e, content y p = some e → Truncated y.beginAddress e → content z p = some e →
    content x p = some e

variable {p : Nat × Nat} {chunk bound first idx : Nat}

theorem Clean.later (h : Clean y x p) (hl : Later y x z) : Clean y z p :=
  fun e hy htruncated hz => h e hy htruncated (hl.clean p e hy htruncated hz)

theorem Swept.later (h : Swept y x chunk idx) (hl : Later y x z) : Swept y z chunk idx :=
  ⟨hl.accessed _ h.1, fun i => (h.2 i).later hl⟩

theorem Visits.later (h : Visits L y x chunk bound first idx) (hl : Later y x z) :
    Visits L y z chunk bound first idx := by
  obtain ⟨hchunk, hbound, hfirst, hswept⟩ := h
  exact ⟨hchunk, hbound, hfirst, fun j hj => (hswept j hj).later hl⟩

theorem Cleans.later (h : Cleans L y x chunk bound first idx i) (hl : Later y x z) :
    Cleans L y z chunk bound first idx i := by
  obtain ⟨hvisits, haccessed, hclean⟩ := h
  exact ⟨hvisits.later hl, hl.accessed _ haccessed, fun j hj => (hclean j hj).later hl⟩

theorem Pc.Covers.later {pc : Pc K} (h : pc.Covers L y x) (hl : Later y x z) :
    pc.Covers L y z := by
  cases pc
  case visiting => exact Visits.later h hl
  case cleaning => exact Cleans.later h hl
  case collecting =>
    obtain ⟨hcleans, htruncated, hexpected⟩ := h
    refine ⟨hcleans.later hl, htruncated, fun e hy hte hz => ?_⟩
    exact hexpected e hy hte (hl.clean _ e hy hte hz)
  all_goals exact h

theorem Cleans.slot (h : Cleans L y x chunk bound first idx i)
    (hclean : Clean y x (bucketOf chunk idx, i)) : Cleans L y x chunk bound first idx (i + 1) := by
  refine ⟨h.1, h.2.1, fun j hj => ?_⟩
  rcases Nat.lt_succ_iff_lt_or_eq.mp hj with hlt | rfl
  · exact h.2.2 j hlt
  · exact hclean

theorem Cleans.bucket (h : Cleans L y x chunk bound first idx i)
    (hend : (x.buckets (bucketOf chunk idx))[i]? = none) :
    Visits L y x chunk bound first (idx + 1) := by
  obtain ⟨⟨hchunk, hbound, hfirst, hswept⟩, haccessed, hclean⟩ := h
  refine ⟨hchunk, hbound, hfirst, fun j hj => ?_⟩
  rcases Nat.lt_succ_iff_lt_or_eq.mp hj with hlt | rfl
  · exact hswept j hlt
  · refine ⟨haccessed, fun j' e hy htruncated hx => ?_⟩
    by_cases hj' : j' < i
    · exact hclean j' hj' e hy htruncated hx
    · have hlength := lt_length_of_content hx
      have hle := List.getElem?_eq_none_iff.mp hend
      omega

theorem covers_of_calm {pc : Pc K} (h : ¬ pc.Sweeps) : pc.Covers L y x := by
  cases pc
  case starting | visiting | cleaning | collecting | faulted => exact absurd trivial h
  all_goals trivial

section Steps

variable [DecidableEq K] {m : Move K}

theorem Sweep.later (h : Sweep L y x) (hnext : x.next L m = some z)
    (haccessed : ∀ b ∈ x.accessed, b ∈ z.accessed) : Later y x z where
  accessed := haccessed
  clean := by
    intro p e hy htruncated hz
    rcases content_of_next hnext hz with hx | hinvalid | ⟨t, key, slot, expected, -, hpc⟩
    · exact hx
    · exact absurd hinvalid htruncated.1
    · exact absurd hpc ((h.old p e hy htruncated).2 t key slot expected)

theorem Sweep.move (h : Sweep L y x) (hnext : x.next L m = some z)
    (hothers : ∀ u, u ≠ t → z.pc u = x.pc u) (hbegin : z.beginAddress = x.beginAddress)
    (hgc : z.gcNumChunks = x.gcNumChunks)
    (haccessed : ∀ b ∈ x.accessed, b ∈ z.accessed)
    (hinside : ∀ b ∈ z.accessed, b ∈ x.accessed ∨ b < L.tableSize)
    (hprocessed : ∀ chunk ∈ z.processed, chunk ∈ x.processed ∨
      ∀ idx < upperBound L.tableSize y.growNumChunks chunk, Swept y x chunk idx)
    (hcovers : (z.pc t).Covers L y z) : Sweep L y z where
  beginAddress := hbegin.trans h.beginAddress
  growNumChunks := (growNumChunks_of_next hnext).trans h.growNumChunks
  gcNumChunks := hgc.trans h.gcNumChunks
  old := fun p e hy htruncated => (h.old p e hy htruncated).next hnext
  inside := fun b hb => (hinside b hb).elim (h.inside b) id
  processed := by
    intro chunk hchunk idx hidx
    rcases hprocessed chunk hchunk with hx | hswept
    · exact (h.processed chunk hx idx hidx).later (h.later hnext haccessed)
    · exact (hswept idx hidx).later (h.later hnext haccessed)
  threads := by
    intro u
    by_cases hu : u = t
    · subst u
      exact hcovers
    · rw [hothers u hu]
      exact (h.threads u).later (h.later hnext haccessed)

theorem Sweep.run (h : Sweep L y x) (hchunks : y.gcNumChunks =
      max (L.tableSize / kGcHashTableChunkSize) 1) (hfits : Fits L.tableSize y.growNumChunks)
    (hstep : x.step L t = some z) : Sweep L y z := by
  have hframe := framed_of_step hstep
  have hnext : x.next L (.run t) = some z := hstep
  have ht := h.threads t
  -- a step at which `accessed` and `processed` stay as they are
  have hplain : z.accessed = x.accessed → z.processed = x.processed → (z.pc t).Covers L y z →
      Sweep L y z := by
    intro haccessed hprocessed hcovers
    refine h.move hnext hframe.others hframe.beginAddress hframe.gcNumChunks ?_ ?_ ?_ hcovers
    · rw [haccessed]
      exact fun _ => id
    · rw [haccessed]
      exact fun _ => Or.inl
    · rw [hprocessed]
      exact fun _ => Or.inl
  by_cases hsweeps : (x.pc t).Sweeps
  swap
  · obtain ⟨hcalm, haccessed, hprocessed⟩ := hframe.calm hsweeps
    exact hplain haccessed hprocessed (covers_of_calm hcalm)
  unfold System.step at hstep
  cases hpc : x.pc t <;> simp only [hpc, goto_setSlot] at hstep ht <;> rw [hpc] at hsweeps
  case starting chunk =>
    cases hstep
    refine hplain rfl rfl ?_
    rw [goto_pc_self]
    refine ⟨ht, ?_, h.beginAddress, fun j hj => absurd hj (Nat.not_lt_zero j)⟩
    rw [h.growNumChunks]
  case visiting chunk bound first idx =>
    have hvisits : Visits L y x chunk bound first idx := ht
    obtain ⟨hchunk, hbound, -, hswept⟩ := hvisits
    split at hstep
    · rename_i hidx
      have hsize : bucketOf chunk idx < L.tableSize :=
        hfits.inside chunk (hchunks ▸ hchunk) idx (hbound ▸ hidx)
      rw [if_pos hsize] at hstep
      cases hstep
      have haccessed : ∀ b ∈ x.accessed, b ∈ bucketOf chunk idx :: x.accessed :=
        fun b hb => List.mem_cons_of_mem _ hb
      refine h.move hnext hframe.others rfl rfl haccessed ?_ (fun _ => Or.inl) ?_
      · intro b hb
        rcases List.mem_cons.mp hb with rfl | hb
        · exact Or.inr hsize
        · exact Or.inl hb
      · rw [goto_pc_self]
        refine ⟨Visits.later ht (h.later hnext haccessed), List.mem_cons_self .., fun j hj => ?_⟩
        exact absurd hj (Nat.not_lt_zero j)
    · rename_i hidx
      cases hstep
      refine h.move hnext hframe.others rfl rfl (fun _ => id) (fun _ => Or.inl) ?_ ?_
      · intro c hc
        rcases List.mem_cons.mp hc with rfl | hc
        · exact Or.inr fun j hj => hswept j (by omega)
        · exact Or.inl hc
      · rw [goto_pc_self]
        trivial
  case cleaning chunk bound first idx i =>
    have hcleans : Cleans L y x chunk bound first idx i := ht
    have hfirst : first = y.beginAddress := hcleans.1.2.2.1
    split at hstep
    · rename_i hend
      cases hstep
      refine hplain rfl rfl ?_
      rw [goto_pc_self]
      exact (hcleans.bucket hend).later (h.later hnext fun _ => id)
    · rename_i hfree
      cases hstep
      refine hplain rfl rfl ?_
      rw [goto_pc_self]
      refine (hcleans.slot fun e _ _ hx => ?_).later (h.later hnext fun _ => id)
      rw [content_eq_some_iff, InSlot, hfree] at hx
      cases hx
    · rename_i entry hentry
      have hread : ∀ e, content x (bucketOf chunk idx, i) = some e → e = entry := by
        intro e hx
        rw [content_eq_some_iff, InSlot, hentry] at hx
        cases hx
        rfl
      split at hstep <;> cases hstep
      · rename_i htruncated
        refine hplain rfl rfl ?_
        rw [goto_pc_self]
        refine ⟨hcleans.later (h.later hnext fun _ => id), hfirst ▸ htruncated, ?_⟩
        exact fun e _ _ hx => hread e hx
      · rename_i hnot
        refine hplain rfl rfl ?_
        rw [goto_pc_self]
        refine (hcleans.slot fun e _ htruncated hx => ?_).later (h.later hnext fun _ => id)
        rw [hread e hx, ← hfirst] at htruncated
        exact hnot htruncated
  case collecting chunk bound first idx i expected =>
    obtain ⟨hcleans, htruncated, hexpected⟩ := ht
    have hl : Later y x z := h.later hnext fun b hb => by
      split at hstep <;> cases hstep <;> exact hb
    -- whether the exchange has succeeded or not, the entry is not there
    have hclean : Clean y z (bucketOf chunk idx, i) := by
      intro e hy hte hz
      have hx := hl.clean _ e hy hte hz
      have heq := hexpected e hy hte hx
      subst heq
      have hslot : (x.buckets (bucketOf chunk idx))[i]? = some (some e) :=
        content_eq_some_iff.mp hx
      rw [if_pos hslot] at hstep
      cases hstep
      rw [content_goto, content_setSlot (lt_length_of_content hx), Function.update_self] at hz
      cases hz
    have hcleans' := (hcleans.later hl).slot hclean
    split at hstep <;> cases hstep
    all_goals
      refine hplain rfl rfl ?_
      rw [goto_pc_self]
      exact hcleans'
  case faulted => exact ht.elim
  all_goals exact hsweeps.elim

/-- A move of the collection that began in `y`. -/
def Within (_ : System K) (m : Move K) : Prop :=
  ∀ t a, m ≠ .shiftBeginAddress t a

theorem Sweep.next (h : Sweep L y x) (hchunks : y.gcNumChunks =
      max (L.tableSize / kGcHashTableChunkSize) 1) (hfits : Fits L.tableSize y.growNumChunks)
    (hwithin : Within x m) (hnext : x.next L m = some z) : Sweep L y z := by
  have hothers : ∀ {s : System K} {t : Nat} {pc : Pc K}, s.pc = x.pc →
      ∀ u, u ≠ t → (s.goto t pc).pc u = x.pc u := by
    intro s t pc hs u hu
    rw [← hs]
    exact Function.update_of_ne hu ..
  have hmem : ∀ {s : List Nat}, ∀ b ∈ s, b ∈ s := fun b hb => hb
  have hkeep := hnext
  cases m with
  | run t => exact h.run hchunks hfits hnext
  | shiftBeginAddress t a => exact absurd rfl (hwithin t a)
  | call t key =>
      simp only [System.next] at hnext
      split at hnext <;> cases hnext
      refine h.move hkeep (hothers rfl) rfl rfl hmem (fun _ => Or.inl) (fun _ => Or.inl) ?_
      rw [goto_pc_self]
      trivial
  | finish t =>
      simp only [System.next] at hnext
      split at hnext <;> cases hnext
      refine h.move hkeep (hothers rfl) rfl rfl hmem (fun _ => Or.inl) (fun _ => Or.inl) ?_
      rw [goto_pc_self]
      trivial
  | allocate t address =>
      simp only [System.next] at hnext
      split at hnext
      · split at hnext <;> cases hnext
        refine h.move hkeep (hothers rfl) rfl rfl hmem (fun _ => Or.inl) (fun _ => Or.inl) ?_
        rw [goto_pc_self]
        trivial
      · cases hnext
  | cleanHashTableBuckets t =>
      simp only [System.next] at hnext
      split at hnext
      · rename_i hidle
        split at hnext <;> cases hnext
        · rename_i hlt
          refine h.move hkeep (hothers rfl) rfl rfl hmem (fun _ => Or.inl) (fun _ => Or.inl) ?_
          rw [goto_pc_self]
          exact h.gcNumChunks ▸ hlt
        · refine h.move hkeep (t := t) (fun _ _ => rfl) rfl rfl hmem (fun _ => Or.inl)
            (fun _ => Or.inl) ?_
          exact covers_of_calm (hidle ▸ id)
      · cases hnext

theorem sweep_of_shift (hfresh : Fresh x) (hquiet : ∀ u, ¬ (x.pc u).Sweeps)
    (hshift : x.next L (.shiftBeginAddress t a) = some y) :
    Sweep L y y ∧ y.gcNumChunks = max (L.tableSize / kGcHashTableChunkSize) 1 := by
  have hfresh' : Fresh y := hfresh.next hshift
  simp only [System.next] at hshift
  split at hshift <;> cases hshift
  refine ⟨⟨rfl, rfl, rfl, ?_, ?_, ?_, fun u => covers_of_calm (hquiet u)⟩, rfl⟩
  · exact fun p e hy htruncated => hfresh'.entries p e hy htruncated.1
  · rintro b ⟨⟩
  · rintro chunk ⟨⟩

end Steps

end Sweep

section Exactness

/-- What the garbage collection has done since it began in `y`. -/
structure Exact (L : Layout K) (y x : System K) : Prop where
  inside : ∀ b ∈ x.accessed, b < L.tableSize
  complete : (∀ chunk < x.gcNumChunks, chunk ∈ x.processed) →
    ∀ b < L.tableSize, b ∈ x.accessed ∧ ∀ i, Clean y x (b, i)
  others : ∀ t z p, (x.pc t).Sweeps → x.step L t = some z → content z p = content x p ∨
    ∃ e, content x p = some e ∧ Truncated y.beginAddress e ∧ content z p = none

theorem Sweep.exact (h : Sweep L y x) (hchunks : y.gcNumChunks =
      max (L.tableSize / kGcHashTableChunkSize) 1)
    (hfits : Fits L.tableSize y.growNumChunks) : Exact L y x where
  inside := h.inside
  complete := by
    intro hall b hb
    obtain ⟨chunk, hchunk, idx, hidx, rfl⟩ := hfits.covers b hb
    rw [h.gcNumChunks, hchunks] at hall
    exact h.processed chunk (hall chunk hchunk) idx hidx
  others := by
    intro t z p hsweeps hstep
    rcases wrote_of_step hstep with hsame | ⟨w, hwrite, hexpected, hz⟩
    · exact Or.inl (congrFun hsame p)
    · have ht := h.threads t
      cases hpc : x.pc t <;> rw [hpc] at hwrite hsweeps ht <;>
        simp only [Pc.write, Option.some.injEq, reduceCtorEq] at hwrite <;> subst hwrite
      case collecting chunk bound first idx i expected =>
        by_cases hp : p = (bucketOf chunk idx, i)
        · subst hp
          right
          refine ⟨expected, hexpected _ rfl, ht.2.1, ?_⟩
          rw [hz, Function.update_self]
        · left
          rw [hz, Function.update_of_ne hp]
      all_goals exact hsweeps.elim

variable [DecidableEq K] {getHash : K → BitVec 64} {growNumChunks : Nat}

theorem step_within (h : x.step L t = some y) : Reaches (System.next L) Within x y :=
  (Reaches.refl x).tail (a := .run t) nofun h

theorem cleans_slot {chunk bound first idx : Nat}
    (hpc : x.pc t = .cleaning chunk bound first idx i)
    (hi : i < (x.buckets (bucketOf chunk idx)).length) :
    ∃ y, Reaches (System.next L) Within x y ∧ y.pc t = .cleaning chunk bound first idx (i + 1) ∧
      (y.buckets (bucketOf chunk idx)).length = (x.buckets (bucketOf chunk idx)).length := by
  cases hentry : (x.buckets (bucketOf chunk idx))[i] with
  | none =>
      refine ⟨x.goto t (.cleaning chunk bound first idx (i + 1)), step_within (t := t) ?_,
        goto_pc_self, rfl⟩
      simp [System.step, hpc, hi, hentry]
  | some e =>
      by_cases htruncated : Truncated first e
      · have hfirst : x.step L t = some (x.goto t (.collecting chunk bound first idx i e)) := by
          simp [System.step, hpc, hi, hentry, htruncated]
        have hsecond : (x.goto t (.collecting chunk bound first idx i e)).step L t =
            some (((x.goto t (.collecting chunk bound first idx i e)).goto t
              (.cleaning chunk bound first idx (i + 1))).setSlot (bucketOf chunk idx) i none) := by
          have hslot : (x.buckets (bucketOf chunk idx))[i]? = some (some e) := by
            rw [List.getElem?_eq_getElem hi, hentry]
          rw [System.step, goto_pc_self]
          exact if_pos hslot
        refine ⟨_, (step_within hfirst).trans (step_within hsecond), goto_pc_self, ?_⟩
        simp [System.setSlot, System.goto]
      · refine ⟨x.goto t (.cleaning chunk bound first idx (i + 1)), step_within (t := t) ?_,
          goto_pc_self, rfl⟩
        simp [System.step, hpc, hi, hentry, htruncated]

theorem cleans_bucket {chunk bound first idx : Nat} (i : Nat)
    (hpc : x.pc t = .cleaning chunk bound first idx i) :
    ∃ y, Reaches (System.next L) Within x y ∧ y.pc t = .visiting chunk bound first (idx + 1) := by
  induction hr : (x.buckets (bucketOf chunk idx)).length - i generalizing x i with
  | zero =>
      have hend : (x.buckets (bucketOf chunk idx))[i]? = none :=
        List.getElem?_eq_none (by omega)
      refine ⟨x.goto t (.visiting chunk bound first (idx + 1)), step_within (t := t) ?_,
        goto_pc_self⟩
      simp [System.step, hpc, hend]
  | succ r ih =>
      obtain ⟨y, hreach, hy, hlength⟩ := cleans_slot (L := L) hpc (by omega)
      obtain ⟨z, hreach', hz⟩ := ih (i + 1) hy (by omega)
      exact ⟨z, hreach.trans hreach', hz⟩

theorem visits_beyond {bound first : Nat} (hbound : L.tableSize < bound) (idx : Nat)
    (hidx : idx ≤ L.tableSize) (hpc : x.pc t = .visiting 0 bound first idx) :
    ∃ y, Reaches (System.next L) Within x y ∧ L.tableSize ∈ y.accessed := by
  have hbucket : bucketOf 0 idx = idx := by
    rw [bucketOf, Nat.zero_mul, Nat.zero_add]
  have hlt : idx < bound := by omega
  induction hr : L.tableSize - idx generalizing x idx with
  | zero =>
      have heq : idx = L.tableSize := by omega
      have hout : ¬ bucketOf 0 idx < L.tableSize := by omega
      refine ⟨({ x with accessed := bucketOf 0 idx :: x.accessed }).goto t .faulted,
        step_within (t := t) ?_, ?_⟩
      · simp [System.step, hpc, hlt, hout]
      · rw [hbucket, heq]
        exact List.mem_cons_self ..
  | succ r ih =>
      have hstep : x.step L t = some (({ x with accessed := bucketOf 0 idx :: x.accessed }).goto t
          (.cleaning 0 bound first idx 0)) := by
        have hinside : idx < L.tableSize := by omega
        simp [System.step, hpc, hlt, hbucket, hinside]
      have hcleaning : (({ x with accessed := bucketOf 0 idx :: x.accessed }).goto t
          (.cleaning 0 bound first idx 0)).pc t = .cleaning 0 bound first idx 0 := goto_pc_self
      obtain ⟨y, hreach, hy⟩ := cleans_bucket (L := L) 0 hcleaning
      obtain ⟨z, hreach', hz⟩ :=
        ih (idx + 1) (by omega) hy (by simp [bucketOf]) (by omega) (by omega)
      exact ⟨z, ((step_within hstep).trans hreach).trans hreach', hz⟩

theorem collection_exact_iff (hx : Arises getHash k growNumChunks n x)
    (hquiet : ∀ u, ¬ (x.pc u).Sweeps)
    (hshift : x.next (grown getHash k n) (.shiftBeginAddress t a) = some y) :
    (∀ z, Reaches (System.next (grown getHash k n)) Within y z → Exact (grown getHash k n) y z) ↔
      0 < n ∨ kGcHashTableChunkSize ≤ 2 ^ k ∨ growNumChunks ≤ 1 := by
  obtain ⟨hsweep, hchunks⟩ := sweep_of_shift hx.fresh hquiet hshift
  have hy : Arises getHash k growNumChunks n y := hx.next hshift
  constructor
  · intro hall
    by_contra hcond
    simp only [not_or, Nat.not_lt, Nat.le_zero, Nat.not_le] at hcond
    obtain ⟨rfl, hsmall, hgrow⟩ := hcond
    have hsize : (grown getHash k 0).tableSize = 2 ^ k := Nat.mul_one _
    have hone : y.gcNumChunks = 1 := by
      rw [hchunks, hsize, Nat.div_eq_of_lt hsmall]
      rfl
    have hidle : y.pc t = .idle ∧ y.nextChunk = 0 := by
      simp only [System.next] at hshift
      split at hshift <;> cases hshift
      rename_i hidle
      exact ⟨hidle, rfl⟩
    have hnum : y.growNumChunks = growNumChunks := by
      rcases hy.growNumChunks_eq with ⟨-, heq⟩ | ⟨n', hn', -⟩
      · exact heq
      · cases hn'
    -- a thread takes the only chunk
    have hcall : y.next (grown getHash k 0) (.cleanHashTableBuckets t) =
        some ({ y with nextChunk := 1 }.goto t (.starting 0)) := by
      simp [System.next, hidle, hone]
    have hstart : ({ y with nextChunk := 1 }.goto t (.starting 0)).step (grown getHash k 0) t =
        some (({ y with nextChunk := 1 }.goto t (.starting 0)).goto t
          (.visiting 0 kGrowHashTableChunkSize y.beginAddress 0)) := by
      have hbound : upperBound (grown getHash k 0).tableSize y.growNumChunks 0 =
          kGrowHashTableChunkSize := by
        rw [upperBound, if_pos (by omega)]
      rw [System.step, goto_pc_self]
      simp only [Option.some.injEq]
      rw [← hbound]
      rfl
    have hvisiting : (({ y with nextChunk := 1 }.goto t (.starting 0)).goto t
        (.visiting 0 kGrowHashTableChunkSize y.beginAddress 0)).pc t =
          .visiting 0 kGrowHashTableChunkSize y.beginAddress 0 := goto_pc_self
    obtain ⟨z, hreach, hz⟩ := visits_beyond (L := grown getHash k 0) (hsize ▸ hsmall) 0
      (Nat.zero_le _) hvisiting
    have hwithin : Within y (.cleanHashTableBuckets t) := (by rintro _ _ ⟨⟩)
    have hreach' := (((Reaches.refl y).tail hwithin hcall).trans (step_within hstart)).trans hreach
    exact absurd ((hall z hreach').inside _ hz) (Nat.lt_irrefl _)
  · intro hcond z hreach
    have hfits := hy.fits hcond
    have hz := hreach.invariant (I := Sweep (grown getHash k n) y) hsweep
      fun _ _ _ h hwithin hnext => h.next hchunks hfits hwithin hnext
    exact hz.exact hchunks hfits

theorem quiet_next (hm : ∀ t, m ≠ .cleanHashTableBuckets t) (hquiet : ∀ u, ¬ (x.pc u).Sweeps)
    (hnext : x.next L m = some y) (u : Nat) : ¬ (y.pc u).Sweeps := by
  have hgoto (s : System K) (hs : s.pc = x.pc) (t : Nat) (pc : Pc K) (hpc : ¬ pc.Sweeps) :
      ¬ ((s.goto t pc).pc u).Sweeps := by
    by_cases hu : u = t
    · subst u
      rwa [goto_pc_self]
    · have hother : (s.goto t pc).pc u = s.pc u := Function.update_of_ne hu ..
      rw [hother, hs]
      exact hquiet u
  cases m with
  | run t =>
      have hframed := framed_of_step hnext
      by_cases hu : u = t
      · subst u
        exact (hframed.calm (hquiet _)).1
      · rw [hframed.others u hu]
        exact hquiet u
  | cleanHashTableBuckets t => exact absurd rfl (hm t)
  | allocate t address =>
      simp only [System.next] at hnext
      split at hnext
      · split at hnext <;> cases hnext
        exact hgoto _ rfl t _ id
      · cases hnext
  | call t key | finish t =>
      simp only [System.next] at hnext
      split at hnext <;> cases hnext
      exact hgoto _ rfl t _ id
  | shiftBeginAddress t address =>
      simp only [System.next] at hnext
      split at hnext <;> cases hnext
      exact hquiet u

def tagHash (key : Nat) : BitVec 64 :=
  BitVec.ofNat 64 key <<< 48

/-- `Upsert` finds no entry for the key, claims a slot and installs the address. -/
def install (key address : Nat) : List (Move Nat) :=
  .call 0 key :: List.replicate 19 (.run 0) ++ [.allocate 0 address, .run 0]

/-- One bucket, and a `num_chunks` that happens to be 0.  Of two entries the collection takes
out the one below the new begin address. -/
theorem collection_exact_twoEntries : ∃ x y z : System Nat,
    runActions (System.next (grown tagHash 0 0)) (System.start 0)
      (install 1 64 ++ install 2 128) = some x ∧
    x.next (grown tagHash 0 0) (.shiftBeginAddress 0 100) = some y ∧
    runActions (System.next (grown tagHash 0 0)) y
      (.cleanHashTableBuckets 0 :: List.replicate 12 (.run 0)) = some z ∧
    (y.buckets 0).take 2 = [some ⟨64, 1, false⟩, some ⟨128, 2, false⟩] ∧
    (z.buckets 0).take 2 = [none, some ⟨128, 2, false⟩] ∧
    ∀ z, Reaches (System.next (grown tagHash 0 0)) Within y z → Exact (grown tagHash 0 0) y z := by
  have hview : (runActions (System.next (grown tagHash 0 0)) (System.start 0)
      (install 1 64 ++ install 2 128)).bind (fun x =>
        (x.next (grown tagHash 0 0) (.shiftBeginAddress 0 100)).bind fun y =>
          (runActions (System.next (grown tagHash 0 0)) y
            (.cleanHashTableBuckets 0 :: List.replicate 12 (.run 0))).map fun z =>
              ((y.buckets 0).take 2, (z.buckets 0).take 2)) =
      some ([some ⟨64, 1, false⟩, some ⟨128, 2, false⟩], [none, some ⟨128, 2, false⟩]) := by
    decide +kernel
  obtain ⟨x, hx, hview⟩ := Option.bind_eq_some_iff.mp hview
  obtain ⟨y, hshift, hview⟩ := Option.bind_eq_some_iff.mp hview
  obtain ⟨z, hz, hview⟩ := Option.map_eq_some_iff.mp hview
  simp only [Prod.mk.injEq] at hview
  have hadmits : Admits (System.next (grown tagHash 0 0))
      (fun _ m => ∀ t, m ≠ .cleanHashTableBuckets t) (System.start 0)
      (install 1 64 ++ install 2 128) := by
    refine admits_of_forall fun m hm _ t ht => ?_
    subst ht
    simp [install] at hm
  obtain ⟨harises, hquiet⟩ := (reaches_of_runActions hadmits hx).invariant
    (I := fun x => Arises tagHash 0 0 0 x ∧ ∀ u, ¬ (x.pc u).Sweeps) ⟨.start, fun _ => id⟩
    fun _ _ _ h hm hnext => ⟨h.1.next hnext, quiet_next hm h.2 hnext⟩
  exact ⟨x, y, z, hx, hshift, hz, hview.1, hview.2,
    (collection_exact_iff harises hquiet hshift).mpr (by decide)⟩

/-- One bucket, and a `num_chunks` that happens to be 2. -/
theorem collection_reads_beyond : ∃ y z : System Nat,
    (System.start 2).next (grown (fun _ => 0) 0 0) (.shiftBeginAddress 0 100) = some y ∧
      Reaches (System.next (grown (fun _ => 0) 0 0)) Within y z ∧
      ¬ Exact (grown (fun _ => 0) 0 0) y z := by
  have hshift : (System.start 2).next (grown (fun _ : Nat => 0) 0 0) (.shiftBeginAddress 0 100) =
      some { System.start 2 with beginAddress := 100, gcNumChunks := 1 } := rfl
  have hview : (runActions (System.next (grown (fun _ : Nat => 0) 0 0))
      { System.start 2 with beginAddress := 100, gcNumChunks := 1 }
      (.cleanHashTableBuckets 0 :: List.replicate 11 (.run 0))).map (fun z => z.accessed) =
        some [1, 0] := by
    decide +kernel
  obtain ⟨z, hz, haccessed⟩ := Option.map_eq_some_iff.mp hview
  have hadmits : Admits (System.next (grown (fun _ : Nat => 0) 0 0)) Within
      { System.start 2 with beginAddress := 100, gcNumChunks := 1 }
      (.cleanHashTableBuckets 0 :: List.replicate 11 (.run 0)) := by
    refine admits_of_forall fun m hm s t a h => ?_
    subst h
    simp at hm
  refine ⟨_, z, hshift, reaches_of_runActions hadmits hz, fun hexact => ?_⟩
  have hlt := hexact.inside 1 (by rw [haccessed]; decide)
  exact absurd hlt (by decide)

end Exactness

end HashComp.Index
