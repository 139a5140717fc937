import HashComp.Disk.Transition
import HashComp.Index.Model
import Mathlib.Data.List.ReduceOption

/-!
`SplitHashTableBuckets`, by which threads move the entries of the hash index into a table of
twice the size.  They share the chunks of the old table among them.  A chain of records then
belongs to two buckets: one of them gets the old entry, and the other one an entry that leads
to the first record of its side, or to what is on disk.  While they do so no thread is inside an
operation, so that the old table and the log stay as they are.
-/

namespace HashComp.Splitting

open HashComp.Disk (Misses Newest Searches Sound Stored)
open HashComp.Faster
open HashComp.Index (bucketOf kGcHashTableChunkSize kGrowHashTableChunkSize)
open HashComp.RecordChain
open HashComp.Runs

section Model

variable {K : Type} (L : Layout K) (s : Store K)

def grown : Layout K :=
  { L with tableSize := L.tableSize * 2 }

def OnSide (side : Nat) (key : K) : Prop :=
  (grown L).idx key < L.tableSize ↔ side = 0

instance (side : Nat) (key : K) : Decidable (OnSide L side key) :=
  inferInstanceAs (Decidable (_ ↔ _))

/-- `AddHashEntry`.  The index counts the slots of all buckets of the chain. -/
def addHashEntry (bucket : Bucket) (nextIdx : Nat) (entry : HashBucketEntry) : Bucket × Nat :=
  if nextIdx = bucket.length then
    ((bucket ++ List.replicate kNumEntries none).set nextIdx (some entry), nextIdx + 1)
  else (bucket.set nextIdx (some entry), nextIdx + 1)

def traceBackForOtherChainStart (minAddress side : Nat) : Nat → Nat → Option Nat
  | 0, _ => none
  | fuel + 1, fromAddress =>
      if minAddress ≤ fromAddress then
        match s.log fromAddress with
        | none => none
        | some record =>
            if ¬ OnSide L side record.key then some fromAddress
            else traceBackForOtherChainStart minAddress side fuel record.previousAddress
      else some fromAddress

structure Halves where
  bucket0 : Bucket
  newEntryIdx0 : Nat
  bucket1 : Bucket
  newEntryIdx1 : Nat

def Halves.add0 (h : Halves) (entry : HashBucketEntry) : Halves :=
  let (bucket, nextIdx) := addHashEntry h.bucket0 h.newEntryIdx0 entry
  { h with bucket0 := bucket, newEntryIdx0 := nextIdx }

def Halves.add1 (h : Halves) (entry : HashBucketEntry) : Halves :=
  let (bucket, nextIdx) := addHashEntry h.bucket1 h.newEntryIdx1 entry
  { h with bucket1 := bucket, newEntryIdx1 := nextIdx }

def splitEntry (h : Halves) (oldEntry : HashBucketEntry) : Option Halves :=
  if oldEntry.address < s.headAddress then some ((h.add0 oldEntry).add1 oldEntry)
  else
    match s.log oldEntry.address with
    | none => none
    | some record =>
        if (grown L).idx record.key < L.tableSize then
          (traceBackForOtherChainStart L s s.headAddress 0 (record.previousAddress + 1)
              record.previousAddress).map fun otherAddress =>
            if s.beginAddress ≤ otherAddress then
              (h.add0 oldEntry).add1 ⟨otherAddress, oldEntry.tag, false⟩
            else h.add0 oldEntry
        else
          (traceBackForOtherChainStart L s s.headAddress 1 (record.previousAddress + 1)
              record.previousAddress).map fun otherAddress =>
            if s.beginAddress ≤ otherAddress then
              (h.add1 oldEntry).add0 ⟨otherAddress, oldEntry.tag, false⟩
            else h.add1 oldEntry

def numChunks : Nat :=
  max (L.tableSize / kGrowHashTableChunkSize) 1

def upperBound (chunk : Nat) : Nat :=
  if chunk + 1 < numChunks L then kGrowHashTableChunkSize
  else L.tableSize - chunk * kGrowHashTableChunkSize

/-- What a thread does next: it claims a chunk, goes over the buckets of the chunk, and over the
entries of a bucket.  It is `faulted` when it has addressed a bucket beyond the end of the table
or read the table when it was freed. -/
inductive Pc where
  | claiming
  | visiting (chunk bound idx : Nat)
  | splitting (chunk bound idx oldEntryIdx newEntryIdx0 newEntryIdx1 : Nat)
  | finished
  | faulted
  deriving DecidableEq

/-- The new table, the `GrowState` and the threads.  `split` and `processed` are the old buckets
and the chunks that have been split, and are read by no step. -/
structure System where
  buckets : Nat → Bucket
  nextChunk : Nat
  numPendingChunks : Nat
  oldFreed : Bool
  pc : Nat → Pc
  split : List Nat
  processed : List Nat

def System.start : System where
  buckets := fun _ => List.replicate kNumEntries none
  nextChunk := 0
  numPendingChunks := numChunks L
  oldFreed := false
  pc := fun _ => .claiming
  split := []
  processed := []

def System.goto (x : System) (t : Nat) (pc : Pc) : System :=
  { x with pc := Function.update x.pc t pc }

/-- The next step of a thread in `SplitHashTableBuckets`. -/
def System.next (x : System) (t : Nat) : Option System :=
  match x.pc t with
  | .claiming =>
      let y := { x with nextChunk := x.nextChunk + 1 }
      if x.nextChunk < numChunks L then
        if x.oldFreed then some (y.goto t .faulted)
        else some (y.goto t (.visiting x.nextChunk (upperBound L x.nextChunk) 0))
      else some (y.goto t .finished)
  | .visiting chunk bound idx =>
      if idx < bound then
        if bucketOf chunk idx < L.tableSize ∧ x.oldFreed = false then
          some (x.goto t (.splitting chunk bound idx 0 0 0))
        else some (x.goto t .faulted)
      else
        let y := { x with
          numPendingChunks := x.numPendingChunks - 1
          processed := chunk :: x.processed }
        if x.numPendingChunks = 1 then some ({ y with oldFreed := true }.goto t .finished)
        else some (y.goto t .claiming)
  | .splitting chunk bound idx i n₀ n₁ =>
      let b := bucketOf chunk idx
      if x.oldFreed then some (x.goto t .faulted)
      else
        match (s.buckets b)[i]? with
        | none => some ({ x with split := b :: x.split }.goto t (.visiting chunk bound (idx + 1)))
        | some none => some (x.goto t (.splitting chunk bound idx (i + 1) n₀ n₁))
        | some (some oldEntry) =>
            match splitEntry L s ⟨x.buckets b, n₀, x.buckets (L.tableSize + b), n₁⟩ oldEntry with
            | none => some (x.goto t .faulted)
            | some h =>
                let buckets := Function.update x.buckets b h.bucket0
                some ({ x with
                  buckets := Function.update buckets (L.tableSize + b) h.bucket1 }.goto t
                  (.splitting chunk bound idx (i + 1) h.newEntryIdx0 h.newEntryIdx1))
  | .finished | .faulted => none

end Model

variable {K : Type} {L : Layout K} {s : Store K} {side a b c i j n t u chunk idx fuel : Nat}
  {bucket : Bucket} {e e' : HashBucketEntry} {es es' es₀ es₁ : List HashBucketEntry}
  {p : Option HashBucketEntry} {key : K} {x y : System}

section Chunks

theorem bucketOf_lt (hidx : idx < upperBound L chunk) :
    bucketOf chunk idx < L.tableSize := by
  rw [upperBound] at hidx
  split at hidx
  all_goals
    simp only [numChunks, bucketOf, kGrowHashTableChunkSize, kGcHashTableChunkSize] at *
    omega

theorem bucketOf_inj {chunk' idx' : Nat} (hchunk : chunk < numChunks L)
    (hchunk' : chunk' < numChunks L) (hidx : idx < upperBound L chunk)
    (hidx' : idx' < upperBound L chunk') (heq : bucketOf chunk idx = bucketOf chunk' idx') :
    chunk = chunk' ∧ idx = idx' := by
  rw [upperBound] at hidx hidx'
  split at hidx
  all_goals
    split at hidx'
    all_goals
      simp only [numChunks, bucketOf, kGrowHashTableChunkSize, kGcHashTableChunkSize] at *
      omega

theorem exists_bucketOf (hb : b < L.tableSize) :
    ∃ chunk < numChunks L, ∃ idx < upperBound L chunk, bucketOf chunk idx = b := by
  refine ⟨min (b / kGrowHashTableChunkSize) (numChunks L - 1), ?_,
    b - min (b / kGrowHashTableChunkSize) (numChunks L - 1) * kGrowHashTableChunkSize, ?_, ?_⟩
  · simp only [numChunks, kGrowHashTableChunkSize]
    omega
  · rw [upperBound]
    split
    all_goals
      simp only [numChunks, kGrowHashTableChunkSize] at *
      omega
  · simp only [numChunks, bucketOf, kGrowHashTableChunkSize, kGcHashTableChunkSize]
    omega

end Chunks

section Buckets

def Filled (bucket : Bucket) (nextIdx : Nat) (es : List HashBucketEntry) : Prop :=
  nextIdx = es.length ∧ ∃ k, bucket = es.map some ++ List.replicate k none

theorem filled_start : Filled (List.replicate kNumEntries none) 0 [] :=
  ⟨rfl, kNumEntries, rfl⟩

theorem Filled.add (h : Filled bucket n es) (e : HashBucketEntry) :
    Filled (addHashEntry bucket n e).1 (addHashEntry bucket n e).2 (es ++ [e]) := by
  have hset : ∀ k, (es.map some ++ List.replicate (k + 1) none).set es.length (some e) =
      (es ++ [e]).map some ++ List.replicate k none := by
    intro k
    rw [List.set_append_right _ _ (by rw [List.length_map]), List.length_map, Nat.sub_self,
      List.replicate_succ, List.set_cons_zero, List.map_append, List.append_assoc]
    rfl
  obtain ⟨rfl, k, rfl⟩ := h
  rw [addHashEntry, List.length_append, List.length_map, List.length_replicate]
  cases k with
  | zero =>
      rw [Nat.add_zero, if_pos rfl, List.replicate_zero, List.append_nil]
      exact ⟨by rw [List.length_append]; rfl, 6, hset 6⟩
  | succ k =>
      rw [if_neg (by omega)]
      exact ⟨by rw [List.length_append]; rfl, k, hset k⟩

theorem Filled.inSlot_iff (h : Filled bucket n es) : InSlot bucket i e ↔ es[i]? = some e := by
  obtain ⟨-, k, rfl⟩ := h
  rw [InSlot, List.getElem?_append, List.length_map]
  split
  · rw [List.getElem?_map]
    simp
  · rename_i hge
    rw [List.getElem?_eq_none (Nat.not_lt.mp hge), List.getElem?_replicate]
    split <;> simp

end Buckets

section Sides

theorem onSide_one_iff : OnSide L 1 key ↔ ¬ OnSide L 0 key := by
  simp [OnSide]

def Skips (L : Layout K) (s : Store K) (side : Nat) : Nat → Nat → Prop :=
  Passes Record.previousAddress s.log fun c r => s.headAddress ≤ c ∧ ¬ OnSide L side r.key

theorem Skips.searches (h : Skips L s side a b) (hkey : OnSide L side key) :
    Searches s key s.headAddress a b := by
  refine h.mono ?_
  rintro c r ⟨hle, hr⟩
  refine ⟨hle, ?_⟩
  rintro rfl
  exact hr hkey

theorem traceBackForOtherChainStart_spec (side other : Nat) (hs : Sound s)
    (hother : ∀ k, OnSide L side k ↔ ¬ OnSide L other k) (ha : Stored s a) (hfuel : a < fuel) :
    ∃ b, traceBackForOtherChainStart L s s.headAddress side fuel a = some b ∧
      Skips L s other a b ∧ Stored s b := by
  induction fuel generalizing a with
  | zero => omega
  | succ fuel ih =>
      unfold traceBackForOtherChainStart
      by_cases hle : s.headAddress ≤ a
      · obtain ⟨r, hr⟩ := ha (Nat.le_trans hs.head hle)
        simp only [if_pos hle, hr]
        by_cases hside : OnSide L side r.key
        · obtain ⟨hlt, hstored⟩ := hs.links a r hr
          obtain ⟨b, htrace, hskips, hb⟩ := ih hstored (by omega)
          refine ⟨b, ?_, .step hr ⟨hle, (hother _).mp hside⟩ hlt hskips, hb⟩
          rw [if_neg (not_not.mpr hside), htrace]
        · exact ⟨a, if_pos hside, .refl a, ha⟩
      · exact ⟨a, if_neg hle, .refl a, ha⟩

/-- What one side of the new table gets for an entry: one that leads to all of its records, or
none where it has no records. -/
inductive Part (L : Layout K) (s : Store K) (side : Nat) (e : HashBucketEntry) :
    Option HashBucketEntry → Prop where
  | entry {a : Nat} (hskips : Skips L s side e.address a) (ha : Stored s a) :
      Part L s side e (some { e with address := a })
  | nothing {a : Nat} (hskips : Skips L s side e.address a) (hlt : a < s.beginAddress) :
      Part L s side e none

theorem part_whole (he : Stored s e.address) : Part L s side e (some e) :=
  .entry (.refl _) he

theorem part_other {r : Record K} (hfinal : e.tentative = false) (hhead : s.headAddress ≤ e.address)
    (hr : s.log e.address = some r) (hside : ¬ OnSide L side r.key)
    (hlt : r.previousAddress < e.address) (hskips : Skips L s side r.previousAddress b)
    (hb : Stored s b) :
    Part L s side e (if s.beginAddress ≤ b then some ⟨b, e.tag, false⟩ else none) := by
  have hall : Skips L s side e.address b := .step hr ⟨hhead, hside⟩ hlt hskips
  split
  · rw [← hfinal]
    exact .entry hall hb
  · rename_i hbegin
    exact .nothing hall (Nat.not_le.mp hbegin)

theorem splitEntry_spec {h : Halves} (hs : Sound s) (he : Stored s e.address)
    (hfinal : e.tentative = false) (h₀ : Filled h.bucket0 h.newEntryIdx0 es₀)
    (h₁ : Filled h.bucket1 h.newEntryIdx1 es₁) :
    ∃ h' p₀ p₁, splitEntry L s h e = some h' ∧
      Filled h'.bucket0 h'.newEntryIdx0 (es₀ ++ p₀.toList) ∧
      Filled h'.bucket1 h'.newEntryIdx1 (es₁ ++ p₁.toList) ∧
      Part L s 0 e p₀ ∧ Part L s 1 e p₁ := by
  unfold splitEntry
  by_cases hdisk : e.address < s.headAddress
  · exact ⟨_, some e, some e, if_pos hdisk, h₀.add e, h₁.add e, part_whole he, part_whole he⟩
  · have hhead := Nat.not_lt.mp hdisk
    obtain ⟨r, hr⟩ := he (Nat.le_trans hs.head hhead)
    obtain ⟨hlt, hstored⟩ := hs.links _ r hr
    simp only [if_neg hdisk, hr]
    by_cases hside : (grown L).idx r.key < L.tableSize
    · obtain ⟨b, htrace, hskips, hb⟩ := traceBackForOtherChainStart_spec (L := L) 0 1 hs
        (fun k => by rw [onSide_one_iff, not_not]) hstored (Nat.lt_add_one _)
      have hone : ¬ OnSide L 1 r.key := by simp [OnSide, hside]
      refine ⟨if s.beginAddress ≤ b then (h.add0 e).add1 ⟨b, e.tag, false⟩ else h.add0 e, some e,
        if s.beginAddress ≤ b then some ⟨b, e.tag, false⟩ else none, ?_, ?_, ?_, part_whole he,
        part_other hfinal hhead hr hone hlt hskips hb⟩
      · rw [if_pos hside, htrace, Option.map_some]
      · split
        · exact h₀.add e
        · exact h₀.add e
      · split
        · exact h₁.add _
        · rwa [Option.toList_none, List.append_nil]
    · obtain ⟨b, htrace, hskips, hb⟩ := traceBackForOtherChainStart_spec (L := L) 1 0 hs
        (fun k => onSide_one_iff) hstored (Nat.lt_add_one _)
      have hzero : ¬ OnSide L 0 r.key := by simp [OnSide, hside]
      refine ⟨if s.beginAddress ≤ b then (h.add1 e).add0 ⟨b, e.tag, false⟩ else h.add1 e,
        if s.beginAddress ≤ b then some ⟨b, e.tag, false⟩ else none, some e, ?_, ?_, ?_,
        part_other hfinal hhead hr hzero hlt hskips hb, part_whole he⟩
      · rw [if_neg hside, htrace, Option.map_some]
      · split
        · exact h₀.add _
        · rwa [Option.toList_none, List.append_nil]
      · split
        · exact h₁.add e
        · exact h₁.add e

end Sides

section Parts

theorem Part.tag (h : Part L s side e (some e')) : e'.tag = e.tag := by
  cases h
  rfl

theorem Part.tentative (h : Part L s side e (some e')) : e'.tentative = e.tentative := by
  cases h
  rfl

theorem Part.stored (h : Part L s side e (some e')) : Stored s e'.address := by
  cases h
  assumption

theorem Part.skips (h : Part L s side e (some e')) : Skips L s side e.address e'.address := by
  cases h
  assumption

inductive Parts (L : Layout K) (s : Store K) (side : Nat) :
    List HashBucketEntry → List HashBucketEntry → Prop where
  | nil : Parts L s side [] []
  | snoc {es es' : List HashBucketEntry} {e : HashBucketEntry} {p : Option HashBucketEntry}
      (h : Parts L s side es es') (hp : Part L s side e p) :
      Parts L s side (es ++ [e]) (es' ++ p.toList)

theorem Parts.origin (h : Parts L s side es es') (he : e' ∈ es') :
    ∃ e ∈ es, Part L s side e (some e') := by
  induction h with
  | nil => cases he
  | snoc h hp ih =>
      rcases List.mem_append.mp he with hold | hnew
      · obtain ⟨e, hmem, hpart⟩ := ih hold
        exact ⟨e, List.mem_append_left _ hmem, hpart⟩
      · have hp' := Option.mem_toList.mp hnew
        subst hp'
        exact ⟨_, List.mem_append_right _ (List.mem_singleton_self _), hp⟩

theorem Parts.part (h : Parts L s side es es') (he : e ∈ es) :
    ∃ p, Part L s side e p ∧ ∀ e', p = some e' → e' ∈ es' := by
  induction h with
  | nil => cases he
  | @snoc es es' _ p h hp ih =>
      rcases List.mem_append.mp he with hold | hnew
      · obtain ⟨p, hpart, hmem⟩ := ih hold
        exact ⟨p, hpart, fun e' he' => List.mem_append_left _ (hmem e' he')⟩
      · rw [List.mem_singleton.mp hnew]
        refine ⟨p, hp, ?_⟩
        rintro e' rfl
        exact List.mem_append_right _ (List.mem_singleton_self _)

theorem Parts.tags (h : Parts L s side es es') :
    (es'.map HashBucketEntry.tag).Sublist (es.map HashBucketEntry.tag) := by
  induction h with
  | nil => exact List.Sublist.refl _
  | @snoc es es' e p h hp ih =>
      rw [List.map_append, List.map_append]
      refine ih.append ?_
      cases p with
      | none => exact List.nil_sublist _
      | some e' =>
          rw [Option.toList_some, List.map_singleton, List.map_singleton, hp.tag]

def entriesOf (bucket : Bucket) : List HashBucketEntry :=
  bucket.reduceOption

theorem mem_entriesOf_iff : e ∈ entriesOf bucket ↔ ∃ i, InSlot bucket i e := by
  rw [entriesOf, List.reduceOption, List.mem_filterMap]
  constructor
  · rintro ⟨x, hx, rfl⟩
    exact List.mem_iff_getElem?.mp hx
  · rintro ⟨i, hi⟩
    exact ⟨some e, List.mem_of_getElem? hi, rfl⟩

theorem nodup_tags (h : Settled bucket) : ((entriesOf bucket).map HashBucketEntry.tag).Nodup := by
  have hunique := h.unique
  clear h
  induction bucket with
  | nil => exact List.nodup_nil
  | cons x bucket ih =>
      have hrest := ih fun i j e e' he he' htag =>
        Nat.succ.inj (hunique _ _ e e' (he.cons x) (he'.cons x) htag)
      cases x with
      | none => exact hrest
      | some e =>
          refine List.nodup_cons.mpr ⟨fun hmem => ?_, hrest⟩
          obtain ⟨e', he', htag⟩ := List.mem_map.mp hmem
          obtain ⟨i, hi⟩ := mem_entriesOf_iff.mp he'
          cases hunique 0 (i + 1) e e' rfl (hi.cons _) htag.symm

end Parts

section Tables

def Half (L : Layout K) (s : Store K) (side : Nat) (es : List HashBucketEntry) (bucket : Bucket) :
    Prop :=
  ∃ n es', Filled bucket n es' ∧ Parts L s side es es'

theorem half_blank : Half L s side [] (List.replicate kNumEntries none) :=
  ⟨0, [], filled_start, .nil⟩

theorem Half.origin (h : Half L s side es bucket) (he : InSlot bucket i e') :
    ∃ e ∈ es, Part L s side e (some e') := by
  obtain ⟨n, es', hfilled, hparts⟩ := h
  exact hparts.origin (List.mem_of_getElem? (hfilled.inSlot_iff.mp he))

theorem Half.part (h : Half L s side es bucket) (he : e ∈ es) :
    ∃ p, Part L s side e p ∧ ∀ e', p = some e' → ∃ i, InSlot bucket i e' := by
  obtain ⟨n, es', hfilled, hparts⟩ := h
  obtain ⟨p, hpart, hmem⟩ := hparts.part he
  refine ⟨p, hpart, fun e' he' => ?_⟩
  obtain ⟨i, hi⟩ := List.mem_iff_getElem?.mp (hmem e' he')
  exact ⟨i, hfilled.inSlot_iff.mpr hi⟩

theorem Half.settled (h : Half L s side es bucket) (hfinal : ∀ e ∈ es, e.tentative = false)
    (hnodup : (es.map HashBucketEntry.tag).Nodup) : Settled bucket where
  final := by
    intro i e' he'
    obtain ⟨e, hmem, hpart⟩ := h.origin he'
    rw [hpart.tentative, hfinal e hmem]
  unique := by
    intro i j e e' he he' htag
    obtain ⟨n, es', hfilled, hparts⟩ := h
    have hi := congrArg (Option.map HashBucketEntry.tag) (hfilled.inSlot_iff.mp he)
    have hj := congrArg (Option.map HashBucketEntry.tag) (hfilled.inSlot_iff.mp he')
    rw [← List.getElem?_map, Option.map_some] at hi hj
    have hlt : i < (es'.map HashBucketEntry.tag).length := (List.getElem?_eq_some_iff.mp hi).1
    exact (List.getElem?_inj hlt (hnodup.sublist hparts.tags)).mp (by rw [hi, hj, htag])

structure Divided (L : Layout K) (s : Store K) (buckets : Nat → Bucket) : Prop where
  halves : ∀ b < L.tableSize, ∀ side < 2,
    Half L s side (entriesOf (s.buckets b)) (buckets (side * L.tableSize + b))
  beyond : ∀ b, L.tableSize * 2 ≤ b → Half L s 0 [] (buckets b)

def withTable (s : Store K) (buckets : Nat → Bucket) : Store K :=
  { s with buckets := buckets }

variable {buckets : Nat → Bucket}

theorem Divided.half (h : Divided L s buckets) (hs : Sound s) (b : Nat) :
    ∃ side es, Half L s side es (buckets b) ∧ (∀ e ∈ es, e.tentative = false) ∧
      (es.map HashBucketEntry.tag).Nodup := by
  have hfinal : ∀ b, ∀ e ∈ entriesOf (s.buckets b), e.tentative = false := by
    intro b e he
    obtain ⟨i, hi⟩ := mem_entriesOf_iff.mp he
    exact (hs.settled b).final i e hi
  by_cases hb : b < L.tableSize * 2
  · by_cases hzero : b < L.tableSize
    · have h0 := h.halves b hzero 0 (by omega)
      rw [Nat.zero_mul, Nat.zero_add] at h0
      exact ⟨0, _, h0, hfinal b, nodup_tags (hs.settled b)⟩
    · have h1 := h.halves (b - L.tableSize) (by omega) 1 (by omega)
      rw [show 1 * L.tableSize + (b - L.tableSize) = b by omega] at h1
      exact ⟨1, _, h1, hfinal _, nodup_tags (hs.settled _)⟩
  · exact ⟨0, [], h.beyond b (by omega), nofun, List.nodup_nil⟩

theorem Divided.sound (h : Divided L s buckets) (hs : Sound s) : Sound (withTable s buckets) where
  begin := hs.begin
  head := hs.head
  safe := hs.safe
  readOnly := hs.readOnly
  tail := hs.tail
  free := hs.free
  low := hs.low
  settled := by
    intro b
    obtain ⟨side, es, hhalf, hfinal, hnodup⟩ := h.half hs b
    exact hhalf.settled hfinal hnodup
  links := hs.links
  entries := by
    intro b i e' he'
    obtain ⟨side, es, hhalf, -, -⟩ := h.half hs b
    obtain ⟨e, -, hpart⟩ := hhalf.origin he'
    exact hpart.stored

theorem idx_grown (hsize : L.tableSize = 2 ^ n) (key : K) :
    ∃ side < 2, OnSide L side key ∧ (grown L).idx key = side * L.tableSize + L.idx key ∧
      L.idx key < L.tableSize := by
  have hpos : 0 < 2 ^ n := Nat.two_pow_pos n
  have hold : L.idx key = ((L.getHash key).setWidth 48).toNat % 2 ^ n := by
    rw [Layout.idx, hsize, Nat.and_two_pow_sub_one_eq_mod]
  have hnew : (grown L).idx key = ((L.getHash key).setWidth 48).toNat % 2 ^ (n + 1) := by
    rw [Layout.idx, grown, hsize, ← Nat.pow_succ, Nat.and_two_pow_sub_one_eq_mod]
  rw [Nat.mod_pow_succ, ← hold, Nat.mul_comm] at hnew
  have hlt : L.idx key < L.tableSize := by
    rw [hold, hsize]
    exact Nat.mod_lt _ hpos
  rw [← hsize] at hnew hpos
  refine ⟨_, Nat.mod_lt _ (Nat.two_pos), ?_, by rw [hnew, Nat.add_comm], hlt⟩
  rw [OnSide, hnew]
  rcases Nat.mod_two_eq_zero_or_one (((L.getHash key).setWidth 48).toNat / L.tableSize) with h | h
  · rw [h]
    omega
  · rw [h]
    omega

end Tables

section Lookups

inductive Records (s : Store K) (key : K) : Nat → List Nat → Prop where
  | nil {a b : Nat} (h : Misses s key a b) (hb : b < s.beginAddress) : Records s key a []
  | cons {a b : Nat} {r : Record K} {l : List Nat} (h : Misses s key a b)
      (hb : s.beginAddress ≤ b) (hr : s.log b = some r) (hkey : r.key = key)
      (hrest : Records s key r.previousAddress l) : Records s key a (b :: l)

/-- The records of the key that are found from its entry on. -/
inductive Lookup (L : Layout K) (s : Store K) (key : K) : List Nat → Prop where
  | entry {i : Nat} {e : HashBucketEntry} {l : List Nat}
      (he : InSlot (s.buckets (L.idx key)) i e) (htag : e.tag = L.tag key)
      (h : Records s key e.address l) : Lookup L s key l
  | untagged (h : Untagged (L.tag key) (s.buckets (L.idx key))) : Lookup L s key []

variable {buckets : Nat → Bucket} {l : List Nat}

theorem Records.before (h : Records s key b l) (hm : Misses s key a b) : Records s key a l := by
  cases h with
  | nil h hb => exact .nil (hm.trans h) hb
  | cons h hb hr hkey hrest => exact .cons (hm.trans h) hb hr hkey hrest

theorem Records.after (hs : Sound s) (h : Records s key a l) (hm : Misses s key a b) :
    Records s key b l := by
  have hlow : ∀ {c d}, Misses s key c d → c < s.beginAddress → c = d := by
    intro c d hcd hc
    by_contra hne
    obtain ⟨r, hr, -⟩ := hcd.head hne
    exact absurd (hs.low c r hr) (Nat.not_le.mpr hc)
  cases h with
  | @nil _ c h hc =>
      rcases Nat.le_total b c with hle | hle
      · obtain ⟨-, hcb⟩ := hm.split h hle
        exact .nil (.refl b) (hlow hcb hc ▸ hc)
      · exact .nil (h.split hm hle).2 hc
  | @cons _ c r l h hc hr hkey hrest =>
      rcases Nat.lt_or_ge b c with hlt | hle
      · obtain ⟨-, hcb⟩ := hm.split h (Nat.le_of_lt hlt)
        obtain ⟨r', hr', hne, -⟩ := hcb.head (Nat.ne_of_gt hlt)
        rw [hr] at hr'
        cases hr'
        exact absurd hkey hne
      · exact .cons (h.split hm hle).2 hc hr hkey hrest

theorem Records.eq_nil (hs : Sound s) (h : Records s key a l) (hm : Misses s key a b)
    (hb : b < s.beginAddress) : l = [] := by
  cases h.after hs hm with
  | nil => rfl
  | cons hpasses hc hr hkey hrest =>
      have hle := Passes.le hpasses
      omega

theorem records_withTable : Records (withTable s buckets) key a l ↔ Records s key a l := by
  constructor
  all_goals
    intro h
    induction h with
    | nil h hb => exact .nil h hb
    | cons h hb hr hkey _ ih => exact .cons h hb hr hkey ih

theorem exists_of_not_untagged {tag : BitVec 14} (h : ¬ Untagged tag bucket) :
    ∃ i e, InSlot bucket i e ∧ e.tag = tag := by
  unfold Untagged at h
  push Not at h
  exact h

inductive Goes (L : Layout K) (s : Store K) (key : K) (old new : Bucket) : Prop where
  | both {i j : Nat} {e e' : HashBucketEntry} (he : InSlot old i e) (htag : e.tag = L.tag key)
      (he' : InSlot new j e') (htag' : e'.tag = L.tag key)
      (hstored : Stored s e'.address)
      (h : Searches s key s.headAddress e.address e'.address) : Goes L s key old new
  | gone {i a : Nat} {e : HashBucketEntry} (he : InSlot old i e) (htag : e.tag = L.tag key)
      (hno : Untagged (L.tag key) new) (h : Searches s key s.headAddress e.address a)
      (hlt : a < s.beginAddress) : Goes L s key old new
  | neither (hold : Untagged (L.tag key) old) (hnew : Untagged (L.tag key) new) :
      Goes L s key old new

theorem Divided.goes (h : Divided L s buckets) (hsize : L.tableSize = 2 ^ n) (key : K) :
    Goes L s key (s.buckets (L.idx key)) (buckets ((grown L).idx key)) := by
  obtain ⟨side, hside, hkey, hidx, hlt⟩ := idx_grown hsize key
  have hhalf := h.halves _ hlt side hside
  rw [← hidx] at hhalf
  by_cases hnew : Untagged (L.tag key) (buckets ((grown L).idx key))
  · by_cases hold : Untagged (L.tag key) (s.buckets (L.idx key))
    · exact .neither hold hnew
    · obtain ⟨i, e, he, htag⟩ := exists_of_not_untagged hold
      obtain ⟨p, hpart, hmem⟩ := hhalf.part (mem_entriesOf_iff.mpr ⟨i, he⟩)
      cases hpart with
      | entry hskips ha =>
          obtain ⟨j, hj⟩ := hmem _ rfl
          exact (hnew j _ hj htag).elim
      | nothing hskips hlow => exact .gone he htag hnew (hskips.searches hkey) hlow
  · obtain ⟨j, e', he', htag'⟩ := exists_of_not_untagged hnew
    obtain ⟨e, hmem, hpart⟩ := hhalf.origin he'
    obtain ⟨i, he⟩ := mem_entriesOf_iff.mp hmem
    exact .both he (hpart.tag.symm.trans htag') he' htag' hpart.stored
      (hpart.skips.searches hkey)

theorem Divided.lookup_iff (h : Divided L s buckets) (hs : Sound s) (hsize : L.tableSize = 2 ^ n)
    (key : K) (l : List Nat) :
    Lookup (grown L) (withTable s buckets) key l ↔ Lookup L s key l := by
  have hset := (hs.settled (L.idx key)).unique
  have hset' := ((h.sound hs).settled ((grown L).idx key)).unique
  cases h.goes hsize key with
  | both he htag he' htag' hstored hsearch =>
      constructor
      · intro hnew
        cases hnew with
        | entry hj htagj hrecords =>
            have hji := hset' _ _ _ _ hj he' (htagj.trans htag'.symm)
            subst hji
            have heq := hj.unique he'
            subst heq
            exact .entry he htag ((records_withTable.mp hrecords).before hsearch.misses)
        | untagged hno => exact absurd htag' (hno _ _ he')
      · intro hold
        cases hold with
        | entry hi htagi hrecords =>
            have hij := hset _ _ _ _ hi he (htagi.trans htag.symm)
            subst hij
            have heq := hi.unique he
            subst heq
            exact .entry he' htag' (records_withTable.mpr (hrecords.after hs hsearch.misses))
        | untagged hno => exact absurd htag (hno _ _ he)
  | gone he htag hno hsearch hlow =>
      constructor
      · intro hnew
        cases hnew with
        | entry hj htagj => exact absurd htagj (hno _ _ hj)
        | untagged _ => exact .entry he htag (.nil hsearch.misses hlow)
      · intro hold
        cases hold with
        | entry hi htagi hrecords =>
            have hij := hset _ _ _ _ hi he (htagi.trans htag.symm)
            subst hij
            have heq := hi.unique he
            subst heq
            rw [hrecords.eq_nil hs hsearch.misses hlow]
            exact .untagged hno
        | untagged hno' => exact absurd htag (hno' _ _ he)
  | neither hold hnew =>
      constructor
      · intro h
        cases h with
        | entry hj htagj => exact absurd htagj (hnew _ _ hj)
        | untagged _ => exact .untagged hold
      · intro h
        cases h with
        | entry hi htagi => exact absurd htagi (hold _ _ hi)
        | untagged _ => exact .untagged hnew

end Lookups

section Reads

variable [DecidableEq K] {buckets : Nat → Bucket}

def Ends (s : Store K) (key : K) (a found : Nat) : Prop :=
  Searches s key s.headAddress a found ∧
    (found < s.headAddress ∨ ∃ r, s.log found = some r ∧ r.key = key)

omit [DecidableEq K] in
theorem Ends.unique {found found' : Nat} (h : Ends s key a found) (h' : Ends s key a found') :
    found = found' := by
  have hstop : ∀ {c}, (c < s.headAddress ∨ ∃ r, s.log c = some r ∧ r.key = key) →
      ∀ r, s.log c = some r → ¬ (s.headAddress ≤ c ∧ r.key ≠ key) := by
    rintro c (hlt | ⟨r', hr', hkey⟩) r hr ⟨hle, hne⟩
    · omega
    · rw [hr] at hr'
      cases hr'
      exact hne hkey
  exact h.1.ends_unique h'.1 (hstop h.2) (hstop h'.2)

theorem findRecord_ends (hs : Sound s) (key : K) (ha : Stored s a) :
    ∃ found latest, findRecord s key a = some (found, latest) ∧ Ends s key a found := by
  unfold findRecord
  by_cases hle : s.headAddress ≤ a
  · obtain ⟨r, hr⟩ := ha (Nat.le_trans hs.head hle)
    simp only [if_pos hle, hr]
    by_cases hkey : key = r.key
    · exact ⟨a, r.checkpointVersion, if_pos hkey, .refl a, Or.inr ⟨r, hr, hkey.symm⟩⟩
    · obtain ⟨hlt, hstored⟩ := hs.links a r hr
      obtain ⟨found, htrace, hsearch, -, hfound⟩ : ∃ found,
          traceBackForKeyMatch s key s.headAddress (a + 1) r.previousAddress = some found ∧ _ :=
        Disk.traceBackForKeyMatch_spec hs.links hs.head hstored (by omega)
      refine ⟨found, r.checkpointVersion, ?_, .step hr ⟨hle, Ne.symm hkey⟩ hlt hsearch, ?_⟩
      · rw [if_neg hkey, htrace, Option.map_some]
      · exact hfound.imp_right And.right
  · exact ⟨a, 0, if_neg hle, .refl a, Or.inl (Nat.not_le.mp hle)⟩

omit [DecidableEq K] in
theorem findEntry_of_inSlot {tag : BitVec 14} (h : Settled bucket) (he : InSlot bucket i e)
    (htag : e.tag = tag) : findEntry tag bucket = some e := by
  rcases findEntry_spec tag h.final with ⟨j, e', he', htag', hfind⟩ | ⟨hno, -⟩
  · have hji := h.unique _ _ _ _ he' he (htag'.trans htag.symm)
    subst hji
    rwa [he.unique he']
  · exact absurd htag (hno _ _ he)

omit [DecidableEq K] in
theorem findEntry_of_untagged {tag : BitVec 14} (h : Settled bucket) (hno : Untagged tag bucket) :
    findEntry tag bucket = none := by
  rcases findEntry_spec tag h.final with ⟨j, e', he', htag', -⟩ | ⟨-, hfind⟩
  · exact absurd htag' (hno _ _ he')
  · exact hfind

theorem Divided.internalRead_eq {ctx : Context} (h : Divided L s buckets) (hs : Sound s)
    (hsize : L.tableSize = 2 ^ n) (hphase : ctx.phase ≠ .prepare) (key : K) :
    internalRead (grown L) (withTable s buckets) ctx key = internalRead L s ctx key := by
  have hshift : ∀ latest, ¬ (ctx.phase = .prepare ∧ latest > ctx.version) :=
    fun latest hp => hphase hp.1
  have hset := hs.settled (L.idx key)
  have hset' := (h.sound hs).settled ((grown L).idx key)
  unfold internalRead
  cases h.goes hsize key with
  | both he htag he' htag' hstored hsearch =>
      obtain ⟨found, latest, hrec, hends⟩ := findRecord_ends hs key (hs.entries _ _ _ he)
      obtain ⟨found', latest', hrec', hends'⟩ := findRecord_ends (h.sound hs) key hstored
      have hsame : found = found' :=
        hends.unique ⟨Passes.trans hsearch hends'.1, hends'.2⟩
      have hfind' : findEntry ((grown L).tag key)
          ((withTable s buckets).buckets ((grown L).idx key)) = some _ :=
        findEntry_of_inSlot hset' he' htag'
      simp only [findEntry_of_inSlot hset he htag, hfind', hrec, hrec', if_neg (hshift _), hsame]
      rfl
  | gone he htag hno hsearch hlow =>
      obtain ⟨found, latest, hrec, hends⟩ := findRecord_ends hs key (hs.entries _ _ _ he)
      have hlast := hends.unique ⟨hsearch, Or.inl (Nat.lt_of_lt_of_le hlow hs.head)⟩
      have hsafe : ¬ s.safeReadOnlyAddress ≤ found := by
        have := hs.head
        have := hs.safe
        omega
      have hhead : ¬ s.headAddress ≤ found := by
        have := hs.head
        omega
      have hbegin : ¬ s.beginAddress ≤ found := by omega
      have hfind' : findEntry ((grown L).tag key)
          ((withTable s buckets).buckets ((grown L).idx key)) = none :=
        findEntry_of_untagged hset' hno
      simp only [findEntry_of_inSlot hset he htag, hfind', hrec, if_neg (hshift _), if_neg hsafe,
        if_neg hhead, if_neg hbegin]
  | neither hold hnew =>
      have hfind' : findEntry ((grown L).tag key)
          ((withTable s buckets).buckets ((grown L).idx key)) = none :=
        findEntry_of_untagged hset' hnew
      simp only [findEntry_of_untagged hset hold, hfind']

end Reads

end HashComp.Splitting
