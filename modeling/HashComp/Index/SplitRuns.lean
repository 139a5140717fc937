import HashComp.Index.Splitting
import Mathlib.Algebra.BigOperators.Intervals

namespace HashComp.Splitting

open HashComp.Disk (Misses Newest Searches Sound Stored)
open HashComp.Faster
open HashComp.Index (bucketOf kGcHashTableChunkSize kGrowHashTableChunkSize)
open HashComp.RecordChain
open HashComp.Runs

variable {K : Type} {L : Layout K} {s : Store K} {side a b c i j n t u chunk idx fuel : Nat}
  {bucket : Bucket} {e e' : HashBucketEntry} {es es' es₀ es₁ : List HashBucketEntry}
  {p : Option HashBucketEntry} {key : K} {x y : System}

section Invariant

structure Untouched (L : Layout K) (x : System) (b : Nat) : Prop where
  fresh : b ∉ x.split
  left : x.buckets b = List.replicate kNumEntries none
  right : x.buckets (L.tableSize + b) = List.replicate kNumEntries none

structure Begun (L : Layout K) (s : Store K) (x : System) (b i n₀ n₁ : Nat) : Prop where
  fresh : b ∉ x.split
  left : ∃ es, Filled (x.buckets b) n₀ es ∧ Parts L s 0 (entriesOf ((s.buckets b).take i)) es
  right : ∃ es, Filled (x.buckets (L.tableSize + b)) n₁ es ∧
    Parts L s 1 (entriesOf ((s.buckets b).take i)) es

structure Whole (L : Layout K) (s : Store K) (x : System) (b : Nat) : Prop where
  inside : b < L.tableSize
  left : Half L s 0 (entriesOf (s.buckets b)) (x.buckets b)
  right : Half L s 1 (entriesOf (s.buckets b)) (x.buckets (L.tableSize + b))

structure Works (L : Layout K) (x : System) (chunk bound idx : Nat) : Prop where
  inside : chunk < numChunks L
  claimed : chunk < x.nextChunk
  size : bound = upperBound L chunk
  pending : chunk ∉ x.processed
  done : ∀ j < bound, j < idx → bucketOf chunk j ∈ x.split

def Pc.Knows (L : Layout K) (s : Store K) (x : System) : Pc → Prop
  | .claiming => True
  | .finished => numChunks L ≤ x.nextChunk
  | .visiting chunk bound idx =>
      Works L x chunk bound idx ∧ ∀ j < bound, idx ≤ j → Untouched L x (bucketOf chunk j)
  | .splitting chunk bound idx i n₀ n₁ =>
      Works L x chunk bound idx ∧ idx < bound ∧ Begun L s x (bucketOf chunk idx) i n₀ n₁ ∧
        ∀ j < bound, idx < j → Untouched L x (bucketOf chunk j)
  | .faulted => False

/-- The chunk that a thread works on. -/
def Pc.held : Pc → Option Nat
  | .visiting chunk _ _ | .splitting chunk _ _ _ _ _ => some chunk
  | _ => none

structure Inv (L : Layout K) (s : Store K) (x : System) : Prop where
  threads : ∀ t, (x.pc t).Knows L s x
  alone : ∀ t u chunk, (x.pc t).held = some chunk → (x.pc u).held = some chunk → t = u
  waiting : ∀ chunk < numChunks L, x.nextChunk ≤ chunk → ∀ j < upperBound L chunk,
    Untouched L x (bucketOf chunk j)
  claimed : ∀ chunk < numChunks L, chunk < x.nextChunk →
    chunk ∈ x.processed ∨ ∃ t, (x.pc t).held = some chunk
  processed : ∀ chunk ∈ x.processed, chunk < numChunks L ∧ chunk < x.nextChunk ∧
    ∀ j < upperBound L chunk, bucketOf chunk j ∈ x.split
  distinct : x.processed.Nodup
  count : x.numPendingChunks + x.processed.length = numChunks L
  freed : x.oldFreed = true ↔ x.numPendingChunks = 0
  whole : ∀ b ∈ x.split, Whole L s x b
  once : x.split.Nodup
  beyond : ∀ b, L.tableSize * 2 ≤ b → x.buckets b = List.replicate kNumEntries none

theorem inv_start : Inv L s (System.start L) where
  threads := fun _ => trivial
  alone := nofun
  waiting := fun _ _ _ _ _ => ⟨List.not_mem_nil, rfl, rfl⟩
  claimed := fun _ _ hlt => absurd hlt (Nat.not_lt_zero _)
  processed := nofun
  distinct := List.nodup_nil
  count := rfl
  freed := ⟨nofun, fun hzero => by
    have hpos : 1 ≤ numChunks L := Nat.le_max_right _ _
    change numChunks L = 0 at hzero
    omega⟩
  whole := nofun
  once := List.nodup_nil
  beyond := fun _ _ => rfl

/-- As long as a chunk is not processed, some are pending and the table is not freed. -/
theorem Inv.pending (h : Inv L s x) (hchunk : chunk < numChunks L) (hnot : chunk ∉ x.processed) :
    0 < x.numPendingChunks ∧ ¬ x.oldFreed = true := by
  have hnodup : (chunk :: x.processed).Nodup := List.nodup_cons.mpr ⟨hnot, h.distinct⟩
  have hsub : chunk :: x.processed ⊆ List.range (numChunks L) := by
    intro c hc
    rcases List.mem_cons.mp hc with rfl | hc
    · exact List.mem_range.mpr hchunk
    · exact List.mem_range.mpr (h.processed c hc).1
  have hlen := (hnodup.subperm hsub).length_le
  rw [List.length_cons, List.length_range] at hlen
  have hcount := h.count
  have hpos : 0 < x.numPendingChunks := by omega
  refine ⟨hpos, fun hfreed => ?_⟩
  have hzero := h.freed.mp hfreed
  omega

theorem Pc.Knows.works {pc : Pc} (h : pc.Knows L s x) (hc : pc.held = some chunk) :
    ∃ bound idx, Works L x chunk bound idx := by
  cases pc with
  | claiming | finished | faulted => cases hc
  | visiting _ bound idx | splitting _ bound idx =>
      cases hc
      exact ⟨bound, idx, h.1⟩

structure SameAt (L : Layout K) (x y : System) (b : Nat) : Prop where
  split : b ∈ y.split ↔ b ∈ x.split
  left : y.buckets b = x.buckets b
  right : y.buckets (L.tableSize + b) = x.buckets (L.tableSize + b)

theorem Untouched.same (h : Untouched L x b) (hsame : SameAt L x y b) : Untouched L y b :=
  ⟨fun hmem => h.fresh (hsame.split.mp hmem), hsame.left.trans h.left, hsame.right.trans h.right⟩

theorem Begun.same {n₀ n₁ : Nat} (h : Begun L s x b i n₀ n₁) (hsame : SameAt L x y b) :
    Begun L s y b i n₀ n₁ where
  fresh := fun hmem => h.fresh (hsame.split.mp hmem)
  left := by
    rw [hsame.left]
    exact h.left
  right := by
    rw [hsame.right]
    exact h.right

theorem Whole.same (h : Whole L s x b) (hsame : SameAt L x y b) : Whole L s y b where
  inside := h.inside
  left := by
    rw [hsame.left]
    exact h.left
  right := by
    rw [hsame.right]
    exact h.right

theorem Pc.Knows.same {pc : Pc} (h : pc.Knows L s x)
    (hsame : ∀ chunk < numChunks L, pc.held = some chunk →
      chunk ∉ y.processed ∧ ∀ j < upperBound L chunk, SameAt L x y (bucketOf chunk j))
    (hnext : x.nextChunk ≤ y.nextChunk) : pc.Knows L s y := by
  have hworks : ∀ {chunk bound idx}, Works L x chunk bound idx → pc.held = some chunk →
      Works L y chunk bound idx := by
    intro chunk bound idx hw hheld
    obtain ⟨hpending, hall⟩ := hsame chunk hw.inside hheld
    exact ⟨hw.inside, Nat.lt_of_lt_of_le hw.claimed hnext, hw.size, hpending,
      fun j hj hlt => (hall j (hw.size ▸ hj)).split.mpr (hw.done j hj hlt)⟩
  cases pc with
  | claiming => trivial
  | finished => exact Nat.le_trans h hnext
  | faulted => exact h
  | visiting chunk bound idx =>
      obtain ⟨-, hall⟩ := hsame chunk h.1.inside rfl
      refine ⟨hworks h.1 rfl, fun j hj hle => ?_⟩
      exact (h.2 j hj hle).same (hall j (h.1.size ▸ hj))
  | splitting chunk bound idx i n₀ n₁ =>
      obtain ⟨hw, hlt, hbegun, hrest⟩ := h
      obtain ⟨-, hall⟩ := hsame chunk hw.inside rfl
      refine ⟨hworks hw rfl, hlt, hbegun.same (hall idx (hw.size ▸ hlt)), fun j hj hle => ?_⟩
      exact (hrest j hj hle).same (hall j (hw.size ▸ hj))

structure Touches (L : Layout K) (x : System) (t b : Nat) (pc : Pc) (y : System) : Prop where
  pc : y.pc = Function.update x.pc t pc
  split : ∀ c ≠ b, (c ∈ y.split ↔ c ∈ x.split)
  buckets : ∀ c, c ≠ b → c ≠ L.tableSize + b → y.buckets c = x.buckets c
  nextChunk : y.nextChunk = x.nextChunk
  processed : y.processed = x.processed
  numPendingChunks : y.numPendingChunks = x.numPendingChunks
  oldFreed : y.oldFreed = x.oldFreed

theorem Touches.same {pc : Pc} (h : Touches L x t b pc y) (hb : b < L.tableSize)
    (hc : c < L.tableSize) (hne : c ≠ b) : SameAt L x y c :=
  ⟨h.split c hne, h.buckets c hne (by omega), h.buckets _ (by omega) (by omega)⟩

theorem Touches.sameIn {pc : Pc} (h : Touches L x t (bucketOf chunk idx) pc y)
    (hchunk : chunk < numChunks L) (hidx : idx < upperBound L chunk) {c : Nat}
    (hc : c < numChunks L) (hj : j < upperBound L c) (hne : c ≠ chunk ∨ j ≠ idx) :
    SameAt L x y (bucketOf c j) := by
  refine h.same (bucketOf_lt hidx) (bucketOf_lt hj) fun heq => ?_
  obtain ⟨hcc, hjj⟩ := bucketOf_inj hc hchunk hj hidx heq
  rcases hne with hne | hne
  · exact hne hcc
  · exact hne hjj

theorem Inv.touch {pc : Pc} (h : Inv L s x) (hold : (x.pc t).held = some chunk)
    (hnew : pc.held = some chunk) (hidx : idx < upperBound L chunk)
    (htouch : Touches L x t (bucketOf chunk idx) pc y) (hknows : pc.Knows L s y)
    (hfresh : bucketOf chunk idx ∉ x.split)
    (hwhole : bucketOf chunk idx ∈ y.split → Whole L s y (bucketOf chunk idx))
    (honce : y.split.Nodup) : Inv L s y := by
  obtain ⟨_, _, hworks⟩ := (h.threads t).works hold
  have hheld : ∀ u, (y.pc u).held = (x.pc u).held := by
    intro u
    rw [htouch.pc]
    by_cases hut : u = t
    · subst u
      rw [Function.update_self, hold, hnew]
    · rw [Function.update_of_ne hut]
  have hothers : ∀ c < numChunks L, c ≠ chunk → ∀ j < upperBound L c,
      SameAt L x y (bucketOf c j) :=
    fun c hc hne j hj => htouch.sameIn hworks.inside hidx hc hj (Or.inl hne)
  have hgrows : ∀ b ∈ x.split, b ∈ y.split := by
    intro b hb
    refine (htouch.split b ?_).mpr hb
    rintro rfl
    exact hfresh hb
  constructor
  case threads =>
    intro u
    by_cases hut : u = t
    · subst u
      rw [htouch.pc, Function.update_self]
      exact hknows
    · rw [htouch.pc, Function.update_of_ne hut]
      refine (h.threads u).same (fun c hc hcu => ?_) (Nat.le_of_eq htouch.nextChunk.symm)
      obtain ⟨_, _, hworks'⟩ := (h.threads u).works hcu
      refine ⟨htouch.processed ▸ hworks'.pending, hothers c hc ?_⟩
      rintro rfl
      exact hut (h.alone u t c hcu hold)
  case alone =>
    intro u v c hu hv
    rw [hheld] at hu hv
    exact h.alone u v c hu hv
  case waiting =>
    intro c hc hle j hj
    rw [htouch.nextChunk] at hle
    refine (h.waiting c hc hle j hj).same (hothers c hc ?_ j hj)
    rintro rfl
    exact absurd hworks.claimed (Nat.not_lt.mpr hle)
  case claimed =>
    intro c hc hlt
    rw [htouch.processed]
    simp only [hheld]
    exact h.claimed c hc (htouch.nextChunk ▸ hlt)
  case processed =>
    intro c hc
    obtain ⟨hin, hlt, hall⟩ := h.processed c (htouch.processed ▸ hc)
    exact ⟨hin, by rwa [htouch.nextChunk], fun j hj => hgrows _ (hall j hj)⟩
  case distinct =>
    rw [htouch.processed]
    exact h.distinct
  case count =>
    rw [htouch.processed, htouch.numPendingChunks]
    exact h.count
  case freed =>
    rw [htouch.oldFreed, htouch.numPendingChunks]
    exact h.freed
  case whole =>
    intro b hb
    by_cases hbb : b = bucketOf chunk idx
    · subst b
      exact hwhole hb
    · have hold := h.whole b ((htouch.split b hbb).mp hb)
      exact hold.same (htouch.same (bucketOf_lt hidx) hold.inside hbb)
  case once => exact honce
  case beyond =>
    intro b hb
    have hlt := bucketOf_lt hidx
    rw [htouch.buckets b (by omega) (by omega)]
    exact h.beyond b hb

/-- The buckets stay as they are while a thread claims a chunk or is through with one. -/
theorem knows_update {pc : Pc} (h : Inv L s x) (hpc : y.pc = Function.update x.pc t pc)
    (hbuckets : y.buckets = x.buckets) (hsplit : y.split = x.split)
    (hnext : x.nextChunk ≤ y.nextChunk) (hknows : pc.Knows L s y)
    (hprocessed : ∀ u ≠ t, ∀ chunk, (x.pc u).held = some chunk → chunk ∉ y.processed) :
    ∀ u, (y.pc u).Knows L s y := by
  intro u
  by_cases hut : u = t
  · subst u
    rw [hpc, Function.update_self]
    exact hknows
  · rw [hpc, Function.update_of_ne hut]
    refine (h.threads u).same (fun c _ hcu => ⟨hprocessed u hut c hcu, fun j _ => ?_⟩) hnext
    exact ⟨by rw [hsplit], by rw [hbuckets], by rw [hbuckets]⟩

theorem Inv.claim (h : Inv L s x) (hpc : x.pc t = .claiming) (hlt : x.nextChunk < numChunks L) :
    Inv L s ({ x with nextChunk := x.nextChunk + 1 }.goto t
      (.visiting x.nextChunk (upperBound L x.nextChunk) 0)) := by
  have hnot : x.nextChunk ∉ x.processed := fun hmem =>
    Nat.lt_irrefl _ (h.processed _ hmem).2.1
  have hfree : ∀ u, (x.pc u).held ≠ some x.nextChunk := by
    intro u hu
    obtain ⟨_, _, hworks⟩ := (h.threads u).works hu
    exact Nat.lt_irrefl _ hworks.claimed
  have hother : ∀ u ≠ t, (Function.update x.pc t
      (.visiting x.nextChunk (upperBound L x.nextChunk) 0) u).held = (x.pc u).held := by
    intro u hut
    rw [Function.update_of_ne hut]
  constructor
  case threads =>
    refine knows_update h rfl rfl rfl (Nat.le_succ _) ?_ fun u hut c hc => ?_
    · exact ⟨⟨hlt, Nat.lt_succ_self _, rfl, hnot, nofun⟩,
        fun j hj _ => (h.waiting _ hlt (Nat.le_refl _) j hj).same ⟨Iff.rfl, rfl, rfl⟩⟩
    · obtain ⟨_, _, hworks⟩ := (h.threads u).works hc
      exact hworks.pending
  case alone =>
    intro u v c hu hv
    change (Function.update x.pc t _ u).held = some c at hu
    change (Function.update x.pc t _ v).held = some c at hv
    by_cases hut : u = t
    · by_cases hvt : v = t
      · rw [hut, hvt]
      · subst u
        rw [Function.update_self] at hu
        cases hu
        rw [hother v hvt] at hv
        exact absurd hv (hfree v)
    · by_cases hvt : v = t
      · subst v
        rw [Function.update_self] at hv
        cases hv
        rw [hother u hut] at hu
        exact absurd hu (hfree u)
      · rw [hother u hut] at hu
        rw [hother v hvt] at hv
        exact h.alone u v c hu hv
  case waiting =>
    intro c hc hle j hj
    obtain ⟨hfresh, hleft, hright⟩ := h.waiting c hc (Nat.le_of_succ_le hle) j hj
    exact ⟨hfresh, hleft, hright⟩
  case claimed =>
    intro c hc hle
    rcases Nat.lt_or_eq_of_le (Nat.le_of_lt_succ hle) with hold | rfl
    · rcases h.claimed c hc hold with hmem | ⟨u, hu⟩
      · exact Or.inl hmem
      · refine Or.inr ⟨u, ?_⟩
        have hut : u ≠ t := by
          rintro rfl
          rw [hpc] at hu
          cases hu
        exact (hother u hut).trans hu
    · refine Or.inr ⟨t, ?_⟩
      change (Function.update x.pc t _ t).held = _
      rw [Function.update_self]
      rfl
  case processed =>
    intro c hc
    obtain ⟨hin, hclaimed, hall⟩ := h.processed c hc
    exact ⟨hin, Nat.lt_succ_of_lt hclaimed, hall⟩
  case distinct => exact h.distinct
  case count => exact h.count
  case freed => exact h.freed
  case whole =>
    intro b hb
    exact (h.whole b hb).same ⟨Iff.rfl, rfl, rfl⟩
  case once => exact h.once
  case beyond => exact h.beyond

theorem Inv.drop {pc : Pc} (h : Inv L s x) (hpc : y.pc = Function.update x.pc t pc)
    (hempty : pc.held = none) (hknows : pc.Knows L s y) (hbuckets : y.buckets = x.buckets)
    (hsplit : y.split = x.split) (hnext : x.nextChunk ≤ y.nextChunk)
    (hall : x.nextChunk < y.nextChunk → numChunks L ≤ x.nextChunk)
    (hprocessed : ∀ c, c ∈ y.processed ↔ c ∈ x.processed ∨ (x.pc t).held = some c)
    (hdone : ∀ c, (x.pc t).held = some c → ∀ j < upperBound L c, bucketOf c j ∈ x.split)
    (hdistinct : y.processed.Nodup)
    (hcount : y.numPendingChunks + y.processed.length = numChunks L)
    (hfreed : y.oldFreed = true ↔ y.numPendingChunks = 0) : Inv L s y := by
  have hheld : ∀ {u c}, (y.pc u).held = some c → u ≠ t ∧ (x.pc u).held = some c := by
    intro u c hu
    rw [hpc] at hu
    by_cases hut : u = t
    · subst u
      rw [Function.update_self, hempty] at hu
      cases hu
    · rw [Function.update_of_ne hut] at hu
      exact ⟨hut, hu⟩
  have hsame : ∀ b, SameAt L x y b := fun b => ⟨by rw [hsplit], by rw [hbuckets], by rw [hbuckets]⟩
  constructor
  case threads =>
    refine knows_update h hpc hbuckets hsplit hnext hknows fun u hut c hc hmem => ?_
    rcases (hprocessed c).mp hmem with hold | hown
    · obtain ⟨_, _, hworks⟩ := (h.threads u).works hc
      exact hworks.pending hold
    · exact hut (h.alone u t c hc hown)
  case alone =>
    intro u v c hu hv
    exact h.alone u v c (hheld hu).2 (hheld hv).2
  case waiting =>
    intro c hc hle j hj
    exact (h.waiting c hc (Nat.le_trans hnext hle) j hj).same (hsame _)
  case claimed =>
    intro c hc hlt
    have hold : c < x.nextChunk := by
      by_contra hge
      have := hall (by omega)
      omega
    rcases h.claimed c hc hold with hmem | ⟨u, hu⟩
    · exact Or.inl ((hprocessed c).mpr (Or.inl hmem))
    · by_cases hut : u = t
      · subst u
        exact Or.inl ((hprocessed c).mpr (Or.inr hu))
      · refine Or.inr ⟨u, ?_⟩
        rw [hpc, Function.update_of_ne hut]
        exact hu
  case processed =>
    intro c hc
    rw [hsplit]
    rcases (hprocessed c).mp hc with hmem | hown
    · obtain ⟨hin, hclaimed, hsplits⟩ := h.processed c hmem
      exact ⟨hin, Nat.lt_of_lt_of_le hclaimed hnext, hsplits⟩
    · obtain ⟨_, _, hworks⟩ := (h.threads t).works hown
      exact ⟨hworks.inside, Nat.lt_of_lt_of_le hworks.claimed hnext, hdone c hown⟩
  case distinct => exact hdistinct
  case count => exact hcount
  case freed => exact hfreed
  case whole =>
    intro b hb
    rw [hsplit] at hb
    exact (h.whole b hb).same (hsame b)
  case once =>
    rw [hsplit]
    exact h.once
  case beyond =>
    rw [hbuckets]
    exact h.beyond

end Invariant

section Steps

theorem entriesOf_take_succ (bucket : Bucket) (i : Nat) :
    entriesOf (bucket.take (i + 1)) =
      entriesOf (bucket.take i) ++ entriesOf bucket[i]?.toList := by
  rw [entriesOf, List.take_add_one, List.reduceOption_append]
  rfl

theorem Inv.claiming (h : Inv L s x) (hpc : x.pc t = .claiming) (hnext : x.next L s t = some y) :
    Inv L s y := by
  simp only [System.next, hpc] at hnext
  by_cases hlt : x.nextChunk < numChunks L
  · have hnot : x.nextChunk ∉ x.processed := fun hmem =>
      Nat.lt_irrefl _ (h.processed _ hmem).2.1
    rw [if_pos hlt, if_neg (h.pending hlt hnot).2] at hnext
    cases hnext
    exact h.claim hpc hlt
  · rw [if_neg hlt] at hnext
    cases hnext
    have hnone : (x.pc t).held = none := by
      rw [hpc]
      rfl
    refine h.drop rfl rfl (Nat.le_succ_of_le (Nat.not_lt.mp hlt)) rfl rfl (Nat.le_succ _)
      (fun _ => Nat.not_lt.mp hlt) (fun c => ?_) (fun c hc => ?_) h.distinct h.count h.freed
    · rw [hnone]
      exact ⟨Or.inl, fun hmem => hmem.elim id nofun⟩
    · rw [hnone] at hc
      cases hc

theorem Inv.visiting {bound : Nat} (h : Inv L s x) (hpc : x.pc t = .visiting chunk bound idx)
    (hnext : x.next L s t = some y) : Inv L s y := by
  have hknows := h.threads t
  rw [hpc] at hknows
  obtain ⟨hworks, hrest⟩ := hknows
  have hheld : (x.pc t).held = some chunk := by
    rw [hpc]
    rfl
  obtain ⟨hpos, hfreed⟩ := h.pending hworks.inside hworks.pending
  simp only [System.next, hpc] at hnext
  by_cases hlt : idx < bound
  · have hidx := hworks.size ▸ hlt
    rw [if_pos hlt, if_pos ⟨bucketOf_lt hidx, Bool.eq_false_iff.mpr hfreed⟩] at hnext
    cases hnext
    obtain ⟨hfresh, hleft, hright⟩ := hrest idx hlt (Nat.le_refl _)
    refine h.touch hheld rfl hidx ⟨rfl, fun _ _ => Iff.rfl, fun _ _ _ => rfl, rfl, rfl, rfl, rfl⟩ ?_
      hfresh (fun hmem => (hfresh hmem).elim) h.once
    refine ⟨⟨hworks.inside, hworks.claimed, hworks.size, hworks.pending, hworks.done⟩, hlt,
      ⟨hfresh, ⟨[], ?_, .nil⟩, ⟨[], ?_, .nil⟩⟩, fun j hj hle => ?_⟩
    · change Filled (x.buckets _) 0 []
      rw [hleft]
      exact filled_start
    · change Filled (x.buckets _) 0 []
      rw [hright]
      exact filled_start
    · exact (hrest j hj (Nat.le_of_lt hle)).same ⟨Iff.rfl, rfl, rfl⟩
  · rw [if_neg hlt] at hnext
    have hmem : ∀ c, c ∈ chunk :: x.processed ↔ c ∈ x.processed ∨ (x.pc t).held = some c := by
      intro c
      rw [hheld, List.mem_cons, Option.some_inj, eq_comm, or_comm]
    have hdone : ∀ c, (x.pc t).held = some c → ∀ j < upperBound L c, bucketOf c j ∈ x.split := by
      intro c hc j hj
      rw [hheld] at hc
      cases hc
      have hj' : j < bound := by rwa [hworks.size]
      exact hworks.done j hj' (by omega)
    have hcount : x.numPendingChunks - 1 + (chunk :: x.processed).length = numChunks L := by
      have := h.count
      rw [List.length_cons]
      omega
    have hnodup : (chunk :: x.processed).Nodup := List.nodup_cons.mpr ⟨hworks.pending, h.distinct⟩
    have hsub : chunk :: x.processed ⊆ List.range x.nextChunk := by
      intro c hc
      rcases List.mem_cons.mp hc with rfl | hc
      · exact List.mem_range.mpr hworks.claimed
      · exact List.mem_range.mpr (h.processed c hc).2.1
    have hlen := (hnodup.subperm hsub).length_le
    rw [List.length_range] at hlen
    by_cases hlast : x.numPendingChunks = 1
    · rw [if_pos hlast] at hnext
      cases hnext
      have hall : numChunks L ≤ x.nextChunk := by omega
      have hzero : x.numPendingChunks - 1 = 0 := by omega
      exact h.drop rfl rfl hall rfl rfl (Nat.le_refl _) (fun hlt => absurd hlt (Nat.lt_irrefl _))
        hmem hdone hnodup hcount ⟨fun _ => hzero, fun _ => rfl⟩
    · rw [if_neg hlast] at hnext
      cases hnext
      refine h.drop rfl rfl trivial rfl rfl (Nat.le_refl _) (fun hlt => absurd hlt (Nat.lt_irrefl _))
        hmem hdone hnodup hcount ⟨fun htrue => absurd htrue hfreed, fun hzero => ?_⟩
      change x.numPendingChunks - 1 = 0 at hzero
      omega

theorem Inv.splitting {bound n₀ n₁ : Nat} (hs : Sound s) (h : Inv L s x)
    (hpc : x.pc t = .splitting chunk bound idx i n₀ n₁) (hnext : x.next L s t = some y) :
    Inv L s y := by
  have hknows := h.threads t
  rw [hpc] at hknows
  obtain ⟨hworks, hlt, ⟨hfresh, ⟨es₀, hfill₀, hparts₀⟩, ⟨es₁, hfill₁, hparts₁⟩⟩, hrest⟩ := hknows
  have hheld : (x.pc t).held = some chunk := by
    rw [hpc]
    rfl
  have hidx := hworks.size ▸ hlt
  have hinside := bucketOf_lt hidx
  obtain ⟨hpos, hfreed⟩ := h.pending hworks.inside hworks.pending
  simp only [System.next, hpc] at hnext
  rw [if_neg hfreed] at hnext
  have htake := entriesOf_take_succ (s.buckets (bucketOf chunk idx)) i
  cases hslot : (s.buckets (bucketOf chunk idx))[i]? with
  | none =>
      -- the last slot has been looked at, so that both halves are whole
      rw [hslot] at hnext
      cases hnext
      rw [List.take_of_length_le (List.getElem?_eq_none_iff.mp hslot)] at hparts₀ hparts₁
      have htouch : Touches L x t (bucketOf chunk idx) (.visiting chunk bound (idx + 1))
          ({ x with split := bucketOf chunk idx :: x.split }.goto t
            (.visiting chunk bound (idx + 1))) :=
        ⟨rfl, fun c hne => List.mem_cons.trans (or_iff_right hne), fun _ _ _ => rfl, rfl, rfl, rfl,
          rfl⟩
      refine h.touch hheld rfl hidx htouch ⟨⟨hworks.inside, hworks.claimed, hworks.size,
        hworks.pending, fun j hj hle => ?_⟩, fun j hj hle => ?_⟩ hfresh
        (fun _ => ⟨hinside, ⟨n₀, es₀, hfill₀, hparts₀⟩, ⟨n₁, es₁, hfill₁, hparts₁⟩⟩)
        (List.nodup_cons.mpr ⟨hfresh, h.once⟩)
      · rcases Nat.lt_or_eq_of_le (Nat.le_of_lt_succ hle) with hold | rfl
        · exact List.mem_cons_of_mem _ (hworks.done j hj hold)
        · exact List.mem_cons_self
      · exact (hrest j hj hle).same
          (htouch.sameIn hworks.inside hidx hworks.inside (hworks.size ▸ hj) (Or.inr (by omega)))
  | some slot =>
      rw [hslot] at hnext htake
      cases slot with
      | none =>
          have htake : entriesOf ((s.buckets (bucketOf chunk idx)).take (i + 1)) =
              entriesOf ((s.buckets (bucketOf chunk idx)).take i) :=
            htake.trans (List.append_nil _)
          cases hnext
          refine h.touch hheld rfl hidx ⟨rfl, fun _ _ => Iff.rfl, fun _ _ _ => rfl, rfl, rfl, rfl, rfl⟩
            ⟨⟨hworks.inside, hworks.claimed, hworks.size, hworks.pending, hworks.done⟩, hlt,
              ⟨hfresh, ⟨es₀, hfill₀, ?_⟩, ⟨es₁, hfill₁, ?_⟩⟩, fun j hj hle => ?_⟩
            hfresh (fun hmem => (hfresh hmem).elim) h.once
          · rw [htake]
            exact hparts₀
          · rw [htake]
            exact hparts₁
          · exact (hrest j hj hle).same ⟨Iff.rfl, rfl, rfl⟩
      | some e =>
          have htake : entriesOf ((s.buckets (bucketOf chunk idx)).take (i + 1)) =
              entriesOf ((s.buckets (bucketOf chunk idx)).take i) ++ [e] := htake
          obtain ⟨h', p₀, p₁, hsplit, hfill₀', hfill₁', hp₀, hp₁⟩ :=
            splitEntry_spec (L := L) (h := ⟨x.buckets (bucketOf chunk idx), n₀,
              x.buckets (L.tableSize + bucketOf chunk idx), n₁⟩) hs
              (hs.entries _ _ _ hslot) ((hs.settled _).final _ _ hslot) hfill₀ hfill₁
          simp only [hsplit] at hnext
          cases hnext
          have htouch : Touches L x t (bucketOf chunk idx)
              (.splitting chunk bound idx (i + 1) h'.newEntryIdx0 h'.newEntryIdx1)
              ({ x with
                buckets := Function.update (Function.update x.buckets (bucketOf chunk idx) h'.bucket0)
                  (L.tableSize + bucketOf chunk idx) h'.bucket1 }.goto t
                (.splitting chunk bound idx (i + 1) h'.newEntryIdx0 h'.newEntryIdx1)) := by
            refine ⟨rfl, fun _ _ => Iff.rfl, fun c hleft hright => ?_, rfl, rfl, rfl, rfl⟩
            change Function.update (Function.update x.buckets _ _) _ _ c = x.buckets c
            rw [Function.update_of_ne hright, Function.update_of_ne hleft]
          refine h.touch hheld rfl hidx htouch ⟨⟨hworks.inside, hworks.claimed, hworks.size,
            hworks.pending, hworks.done⟩, hlt, ⟨hfresh, ⟨es₀ ++ p₀.toList, ?_, ?_⟩,
              ⟨es₁ ++ p₁.toList, ?_, ?_⟩⟩, fun j hj hle => ?_⟩
            hfresh (fun hmem => (hfresh hmem).elim) h.once
          · change Filled (Function.update (Function.update x.buckets _ _) _ _ _) _ _
            rw [Function.update_of_ne (by omega), Function.update_self]
            exact hfill₀'
          · rw [htake]
            exact hparts₀.snoc hp₀
          · change Filled (Function.update (Function.update x.buckets _ _) _ _ _) _ _
            rw [Function.update_self]
            exact hfill₁'
          · rw [htake]
            exact hparts₁.snoc hp₁
          · exact (hrest j hj hle).same (htouch.sameIn hworks.inside hidx hworks.inside
              (hworks.size ▸ hj) (Or.inr (by omega)))

theorem Inv.next (hs : Sound s) (h : Inv L s x) (hnext : x.next L s t = some y) : Inv L s y := by
  cases hpc : x.pc t with
  | claiming => exact h.claiming hpc hnext
  | visiting chunk bound idx => exact h.visiting hpc hnext
  | splitting chunk bound idx i n₀ n₁ => exact h.splitting hs hpc hnext
  | finished | faulted =>
      rw [System.next, hpc] at hnext
      cases hnext

end Steps

section Growth

/-- The runs of `SplitHashTableBuckets` by any number of threads. -/
def Splits (L : Layout K) (s : Store K) : System → Prop :=
  Reaches (System.next L s) (fun _ _ => True) (System.start L)

theorem inv_of_splits (hs : Sound s) (h : Splits L s x) : Inv L s x :=
  h.invariant inv_start fun _ _ _ hx _ hnext => hx.next hs hnext

/-- A thread has left the loop, and no other is inside a chunk. -/
structure Completed (x : System) : Prop where
  idle : ∀ t, x.pc t = .claiming ∨ x.pc t = .finished
  some : ∃ t, x.pc t = .finished

theorem Inv.all_processed (h : Inv L s x) (hx : Completed x) (hchunk : chunk < numChunks L) :
    chunk ∈ x.processed := by
  obtain ⟨t, ht⟩ := hx.some
  have hall : numChunks L ≤ x.nextChunk := by
    have hknows := h.threads t
    rw [ht] at hknows
    exact hknows
  rcases h.claimed chunk hchunk (Nat.lt_of_lt_of_le hchunk hall) with hmem | ⟨u, hu⟩
  · exact hmem
  · rcases hx.idle u with hpc | hpc
    · rw [hpc] at hu
      cases hu
    · rw [hpc] at hu
      cases hu

theorem Inv.all_split (h : Inv L s x) (hx : Completed x) (hb : b < L.tableSize) : b ∈ x.split := by
  obtain ⟨chunk, hchunk, j, hj, rfl⟩ := exists_bucketOf hb
  exact (h.processed chunk (h.all_processed hx hchunk)).2.2 j hj

theorem Inv.all_freed (h : Inv L s x) (hx : Completed x) : x.oldFreed = true := by
  have hsub : List.range (numChunks L) ⊆ x.processed := fun c hc =>
    h.all_processed hx (List.mem_range.mp hc)
  have hlen := (List.nodup_range.subperm hsub).length_le
  rw [List.length_range] at hlen
  have hcount := h.count
  exact h.freed.mpr (by omega)

theorem Inv.divided (h : Inv L s x) (hx : Completed x) : Divided L s x.buckets where
  halves := by
    intro b hb side hside
    obtain ⟨-, hleft, hright⟩ := h.whole b (h.all_split hx hb)
    rcases Nat.lt_or_eq_of_le (Nat.le_of_lt_succ hside) with hzero | rfl
    · have hzero' : side = 0 := by omega
      subst hzero'
      rw [Nat.zero_mul, Nat.zero_add]
      exact hleft
    · rw [Nat.one_mul]
      exact hright
  beyond := by
    intro b hb
    rw [h.beyond b hb]
    exact half_blank

/-- No thread ever addresses a bucket beyond the end of a table, reads the old table when it is
freed, or misses a record. -/
theorem split_safe (hs : Sound s) (h : Splits L s x) (t : Nat) : x.pc t ≠ .faulted := by
  intro hpc
  have hknows := (inv_of_splits hs h).threads t
  rw [hpc] at hknows
  exact hknows

/-- When the threads are done, every old bucket has been split once, and the new table leads to
the records of each key that the old one has led to. -/
theorem split_keeps_lookups [DecidableEq K] (hs : Sound s) (hsize : L.tableSize = 2 ^ n)
    (h : Splits L s x) (hx : Completed x) :
    x.split.Perm (List.range L.tableSize) ∧ x.oldFreed = true ∧
      Sound (withTable s x.buckets) ∧
      (∀ key l, Lookup (grown L) (withTable s x.buckets) key l ↔ Lookup L s key l) ∧
      ∀ ctx : Context, ctx.phase ≠ .prepare → ∀ key,
        internalRead (grown L) (withTable s x.buckets) ctx key = internalRead L s ctx key := by
  have hinv := inv_of_splits hs h
  have hdivided := hinv.divided hx
  refine ⟨?_, hinv.all_freed hx, hdivided.sound hs, fun key l => hdivided.lookup_iff hs hsize key l,
    fun ctx hphase key => hdivided.internalRead_eq hs hsize hphase key⟩
  refine (List.perm_ext_iff_of_nodup hinv.once List.nodup_range).mpr fun b => ?_
  rw [List.mem_range]
  exact ⟨fun hb => (hinv.whole b hb).inside, fun hb => hinv.all_split hx hb⟩

end Growth

section Termination

def bucketsLeft (s : Store K) (chunk bound idx : Nat) : Nat :=
  ∑ j ∈ Finset.Ico idx bound, ((s.buckets (bucketOf chunk j)).length + 2)

/-- What a thread has left to do before it claims another chunk. -/
def Pc.work (s : Store K) : Pc → Nat
  | .claiming => 1
  | .visiting chunk bound idx => bucketsLeft s chunk bound idx + 2
  | .splitting chunk bound idx i _ _ =>
      bucketsLeft s chunk bound (idx + 1) + ((s.buckets (bucketOf chunk idx)).length - i) + 3
  | .finished | .faulted => 0

/-- What `numThreads` threads have left to do. -/
def System.work (L : Layout K) (s : Store K) (numThreads : Nat) (x : System) : Nat :=
  ∑ chunk ∈ Finset.Ico x.nextChunk (numChunks L),
      (bucketsLeft s chunk (upperBound L chunk) 0 + 2) +
    ∑ t ∈ Finset.range numThreads, (x.pc t).work s

theorem sum_work_update {numThreads : Nat} (pcs : Nat → Pc) (ht : t < numThreads) (pc : Pc) :
    ∑ u ∈ Finset.range numThreads, (Function.update pcs t pc u).work s + (pcs t).work s =
      ∑ u ∈ Finset.range numThreads, (pcs u).work s + pc.work s := by
  have hmem := Finset.mem_range.mpr ht
  have hrest : ∑ u ∈ (Finset.range numThreads).erase t, (Function.update pcs t pc u).work s =
      ∑ u ∈ (Finset.range numThreads).erase t, (pcs u).work s := by
    refine Finset.sum_congr rfl fun u hu => ?_
    rw [Function.update_of_ne (Finset.ne_of_mem_erase hu)]
  rw [← Finset.add_sum_erase _ _ hmem, ← Finset.add_sum_erase _ (fun u => (pcs u).work s) hmem, hrest,
    Function.update_self]
  omega

theorem bucketsLeft_step {bound : Nat} (chunk : Nat) (hlt : idx < bound) :
    bucketsLeft s chunk bound idx =
      (s.buckets (bucketOf chunk idx)).length + 2 + bucketsLeft s chunk bound (idx + 1) :=
  Finset.sum_eq_sum_Ico_succ_bot hlt _

/-- A step that takes a thread from one place to another, and claims nothing. -/
theorem work_lt_of_goto {numThreads : Nat} {pc : Pc} (ht : t < numThreads)
    (hpc : y.pc = Function.update x.pc t pc) (hnext : y.nextChunk = x.nextChunk)
    (hlt : pc.work s < (x.pc t).work s) : y.work L s numThreads < x.work L s numThreads := by
  have hsum := sum_work_update (s := s) x.pc ht pc
  rw [System.work, System.work, hpc, hnext]
  omega

theorem work_lt_of_next {numThreads : Nat} (ht : t < numThreads) (hnext : x.next L s t = some y) :
    y.work L s numThreads < x.work L s numThreads := by
  unfold System.next at hnext
  cases hpc : x.pc t with
  | finished | faulted =>
      rw [hpc] at hnext
      cases hnext
  | claiming =>
      simp only [hpc] at hnext
      have hsum := fun pc => sum_work_update (s := s) x.pc ht pc
      rw [hpc] at hsum
      by_cases hlt : x.nextChunk < numChunks L
      · have hchunks := Finset.sum_eq_sum_Ico_succ_bot hlt
          fun chunk => bucketsLeft s chunk (upperBound L chunk) 0 + 2
        rw [if_pos hlt] at hnext
        split at hnext
        · have hfault := hsum .faulted
          cases hnext
          simp only [System.work, System.goto, Pc.work] at hfault ⊢
          omega
        · have hvisit := hsum (.visiting x.nextChunk (upperBound L x.nextChunk) 0)
          cases hnext
          simp only [System.work, System.goto, Pc.work] at hvisit ⊢
          omega
      · have hfinish := hsum .finished
        have hnone : numChunks L ≤ x.nextChunk := Nat.not_lt.mp hlt
        rw [if_neg hlt] at hnext
        cases hnext
        simp only [System.work, System.goto, Pc.work] at hfinish ⊢
        rw [Finset.Ico_eq_empty_of_le hnone, Finset.Ico_eq_empty_of_le (Nat.le_succ_of_le hnone)]
        omega
  | visiting chunk bound idx =>
      have hwork : ∀ {pc : Pc} {z : System}, z.pc = Function.update x.pc t pc → z.nextChunk = x.nextChunk →
          pc.work s < bucketsLeft s chunk bound idx + 2 →
          z.work L s numThreads < x.work L s numThreads :=
        fun hz hn hlt => work_lt_of_goto ht hz hn (by rwa [hpc])
      simp only [hpc] at hnext
      split at hnext
      · rename_i hlt
        have hleft := bucketsLeft_step (s := s) chunk hlt
        split at hnext
        · cases hnext
          refine hwork rfl rfl ?_
          simp only [Pc.work]
          omega
        · cases hnext
          exact hwork rfl rfl (Nat.succ_pos _)
      · split at hnext
        · cases hnext
          exact hwork rfl rfl (Nat.succ_pos _)
        · cases hnext
          exact hwork rfl rfl (Nat.succ_lt_succ (Nat.succ_pos _))
  | splitting chunk bound idx i n₀ n₁ =>
      have hwork : ∀ {pc : Pc} {z : System}, z.pc = Function.update x.pc t pc → z.nextChunk = x.nextChunk →
          pc.work s < bucketsLeft s chunk bound (idx + 1) +
            ((s.buckets (bucketOf chunk idx)).length - i) + 3 →
          z.work L s numThreads < x.work L s numThreads :=
        fun hz hn hlt => work_lt_of_goto ht hz hn (by rwa [hpc])
      simp only [hpc] at hnext
      split at hnext
      · cases hnext
        exact hwork rfl rfl (Nat.succ_pos _)
      · cases hslot : (s.buckets (bucketOf chunk idx))[i]? with
        | none =>
            rw [hslot] at hnext
            cases hnext
            refine hwork rfl rfl ?_
            simp only [Pc.work]
            omega
        | some slot =>
            have hlt : i < (s.buckets (bucketOf chunk idx)).length :=
              (List.getElem?_eq_some_iff.mp hslot).1
            have hless : ∀ m₀ m₁, (Pc.splitting chunk bound idx (i + 1) m₀ m₁).work s <
                bucketsLeft s chunk bound (idx + 1) +
                  ((s.buckets (bucketOf chunk idx)).length - i) + 3 := by
              intro m₀ m₁
              simp only [Pc.work]
              omega
            rw [hslot] at hnext
            cases slot with
            | none =>
                cases hnext
                exact hwork rfl rfl (hless _ _)
            | some e =>
                simp only at hnext
                split at hnext
                · cases hnext
                  exact hwork rfl rfl (Nat.succ_pos _)
                · cases hnext
                  exact hwork rfl rfl (hless _ _)

theorem next_eq_none (hnext : x.next L s t = none) : x.pc t = .finished ∨ x.pc t = .faulted := by
  unfold System.next at hnext
  cases hpc : x.pc t with
  | finished => exact Or.inl rfl
  | faulted => exact Or.inr rfl
  | claiming | visiting _ _ _ =>
      simp only [hpc] at hnext
      split at hnext
      · split at hnext <;> cases hnext
      · first
          | cases hnext
          | split at hnext <;> cases hnext
  | splitting chunk bound idx i n₀ n₁ =>
      simp only [hpc] at hnext
      split at hnext
      · cases hnext
      · split at hnext
        · cases hnext
        · cases hnext
        · split at hnext <;> cases hnext

/-- In any order the threads take only so many steps, and every thread can take its next step
until it is done. -/
theorem split_terminates {numThreads : Nat} (hs : Sound s) (h : Splits L s x) {ts : List Nat}
    (hts : ∀ t ∈ ts, t < numThreads) (hrun : runActions (System.next L s) x ts = some y) :
    ts.length ≤ x.work L s numThreads ∧ ∀ t, y.next L s t = none → y.pc t = .finished := by
  have hreach : Splits L s y :=
    Reaches.trans h (reaches_of_runActions (admits_of_forall fun _ _ _ => trivial) hrun)
  refine ⟨?_, fun t hnone => (next_eq_none hnone).resolve_right (split_safe hs hreach t)⟩
  clear h hreach hs
  induction ts generalizing x with
  | nil => exact Nat.zero_le _
  | cons t ts ih =>
      rw [runActions] at hrun
      cases hnext : x.next L s t with
      | none =>
          rw [hnext] at hrun
          cases hrun
      | some z =>
          rw [hnext] at hrun
          have hrest := ih (fun u hu => hts u (List.mem_cons_of_mem _ hu)) hrun
          have hlt := work_lt_of_next (hts t List.mem_cons_self) hnext
          rw [List.length_cons]
          omega

end Termination

section Witnesses

theorem pc_of_next (hnext : x.next L s t = some y) (hne : u ≠ t) : y.pc u = x.pc u := by
  have hgoto : ∀ {z : System} {pc : Pc}, z.pc = x.pc → (z.goto t pc).pc u = x.pc u := by
    intro z pc hz
    change Function.update z.pc t pc u = x.pc u
    rw [Function.update_of_ne hne, hz]
  unfold System.next at hnext
  cases hpc : x.pc t with
  | finished | faulted =>
      rw [hpc] at hnext
      cases hnext
  | claiming | visiting _ _ _ =>
      simp only [hpc] at hnext
      split at hnext
      · split at hnext
        all_goals
          cases hnext
          exact hgoto rfl
      · first
          | cases hnext
            exact hgoto rfl
          | split at hnext
            all_goals
              cases hnext
              exact hgoto rfl
  | splitting chunk bound idx i n₀ n₁ =>
      simp only [hpc] at hnext
      split at hnext
      · cases hnext
        exact hgoto rfl
      · split at hnext
        · cases hnext
          exact hgoto rfl
        · cases hnext
          exact hgoto rfl
        · split at hnext
          all_goals
            cases hnext
            exact hgoto rfl

theorem pc_of_run {ts : List Nat} (hrun : runActions (System.next L s) x ts = some y)
    (hu : u ∉ ts) : y.pc u = x.pc u := by
  induction ts generalizing x with
  | nil =>
      cases hrun
      rfl
  | cons t ts ih =>
      rw [runActions] at hrun
      cases hnext : x.next L s t with
      | none =>
          rw [hnext] at hrun
          cases hrun
      | some z =>
          rw [hnext] at hrun
          rw [ih hrun fun hmem => hu (List.mem_cons_of_mem _ hmem), pc_of_next hnext]
          rintro rfl
          exact hu List.mem_cons_self

def oneBucket : Layout Nat where
  getHash := BitVec.ofNat 64
  tableSize := 1

def twoUpserts : List (Disk.Move Nat) :=
  .call 0 (.upsert 0 7) :: List.replicate 7 (.run 0) ++
    .call 0 (.upsert 1 8) :: List.replicate 7 (.run 0)

def twoSides : Store Nat :=
  match runActions (Disk.System.next oneBucket 1) Disk.System.start twoUpserts with
  | some x => x.store
  | none => Store.new

theorem sound_twoSides : Sound twoSides := by
  have hadmits : Admits (Disk.System.next oneBucket 1) Disk.ZeroSafe Disk.System.start
      twoUpserts := by
    decide +kernel
  unfold twoSides
  split
  · rename_i x hrun
    exact (Disk.inv_of_reaches (reaches_of_runActions hadmits hrun)).sound
  · exact Disk.sound_new

theorem split_terminates_twoSides : ∃ y,
    runActions (System.next oneBucket twoSides) (System.start oneBucket) (List.replicate 11 0) =
      some y ∧
    11 ≤ (System.start oneBucket).work oneBucket twoSides 1 ∧
    ∀ t, y.next oneBucket twoSides t = none → y.pc t = .finished := by
  have hrun : (runActions (System.next oneBucket twoSides) (System.start oneBucket)
      (List.replicate 11 0)).isSome = true := by
    decide +kernel
  obtain ⟨y, hy⟩ := Option.isSome_iff_exists.mp hrun
  obtain ⟨hlen, hdone⟩ := split_terminates sound_twoSides
    (Reaches.refl (System.start oneBucket))
    (fun t ht => List.eq_of_mem_replicate ht ▸ Nat.one_pos) hy
  exact ⟨y, hy, hlen, hdone⟩

theorem split_keeps_lookups_twoSides : ∃ x, Splits oneBucket twoSides x ∧ Completed x ∧
    internalRead (grown oneBucket) (withTable twoSides x.buckets) ⟨.rest, 1⟩ 0 =
      some (.success, some 7) := by
  have hrun : (runActions (System.next oneBucket twoSides) (System.start oneBucket)
      (List.replicate 11 0)).map (fun y => y.pc 0) = some .finished := by
    decide +kernel
  obtain ⟨x, hx, hdone⟩ := Option.map_eq_some_iff.mp hrun
  have hsplits : Splits oneBucket twoSides x :=
    reaches_of_runActions (admits_of_forall fun _ _ _ => trivial) hx
  have hcompleted : Completed x := by
    refine ⟨fun t => ?_, 0, hdone⟩
    by_cases ht : t = 0
    · subst t
      exact Or.inr hdone
    · exact Or.inl (pc_of_run hx fun hmem => ht (List.eq_of_mem_replicate hmem))
  refine ⟨x, hsplits, hcompleted, ?_⟩
  rw [(split_keeps_lookups (n := 0) sound_twoSides rfl hsplits hcompleted).2.2.2.2 ⟨.rest, 1⟩ (by decide) 0]
  decide +kernel

end Witnesses

end HashComp.Splitting
