import HashComp.BzTree.LeafMachine
import Mathlib.Data.Finset.Card
import Mathlib.Data.Finset.Range

namespace HashComp.BzTree

open HashComp.ByteMemory

def verdict (key : Key) (n : BaseNode) (i : Nat) : Uniqueness :=
  checkMetadata n key.bytes (n.recordMetadata i)

def InsertPc.rechecking : InsertPc → Bool
  | .scan .. | .whileCheck .. | .forCheck .. => true
  | _ => false

section Run

variable (parameters : ParameterSet) (key : Key) (payload : Word)

def recheckStep (n : BaseNode) (pc : InsertPc) : InsertPc :=
  if pc.rechecking then
    match (insertStep parameters n key payload pc).2 with
    | .goto next => next
    | _ => pc
  else pc

/-- `RecheckUnique` among the steps of other threads: `nodes t` is the leaf that its step
`t` meets. -/
def recheckRun (nodes : Nat → BaseNode) (start : InsertPc) : Nat → InsertPc
  | 0 => start
  | t + 1 => recheckStep parameters key payload (nodes t) (recheckRun nodes start t)

/-- The run of the loop for the slots in `check_idx`. -/
def waitRun (r : Reserved) (checkIdx : List Nat) (nodes : Nat → BaseNode) : Nat → InsertPc :=
  recheckRun parameters key payload nodes (.whileCheck r checkIdx (checkIdx.length % 2 ^ 32))

end Run

/-- The slots that a first scan from `sorted_count` on may find in progress. -/
structure FirstScan (sortedCount linearEnd : Nat) (checkIdx : List Nat) : Prop where
  ascending : checkIdx.Pairwise (· < ·)
  bounds : ∀ i ∈ checkIdx, sortedCount ≤ i ∧ i < linearEnd

/-- What other threads do to the slots: those in `check_idx` stop being in progress at some
time, the others have stopped before, and none of them begins again. -/
structure Schedule (nodes : Nat → BaseNode) (linearEnd : Nat) (checkIdx : List Nat) : Prop where
  stays : ∀ i < linearEnd, ∀ t t', t ≤ t' → (nodes t).recordMetadata i ≠ .inserting →
    (nodes t').recordMetadata i ≠ .inserting
  stops : ∀ i ∈ checkIdx, ∃ t, (nodes t).recordMetadata i ≠ .inserting
  others : ∀ i < linearEnd, i ∉ checkIdx → (nodes 0).recordMetadata i ≠ .inserting

/-- The loop ends, `need_check` is not decremented below zero, and the key is unique only
after every slot of `check_idx` has been read and did not have it. -/
structure SoundRecheck (key : Key) (r : Reserved) (checkIdx : List Nat)
    (nodes : Nat → BaseNode) (run : Nat → InsertPc) : Prop where
  ends : ∃ t, run t = .readStatus r ∨ run t = .clear r
  neverWraps : ∀ t needCheck i, run t = .forCheck r checkIdx needCheck i →
    i < checkIdx.length → verdict key (nodes t) i = .isUnique → needCheck ≠ 0
  sound : ∀ t, run t = .readStatus r → ∀ j ∈ checkIdx, ∃ t' < t, ∃ needCheck,
    run t' = .forCheck r checkIdx needCheck j ∧ j < checkIdx.length ∧
      verdict key (nodes t') j = .isUnique

section Verdict

variable {key : Key} {n : BaseNode} {i : Nat}

theorem verdict_of_inserting (h : n.recordMetadata i = .inserting) :
    verdict key n i = .reCheck := by
  rw [verdict, h]
  rfl

theorem inserting_of_verdict (h : verdict key n i = .reCheck) :
    n.recordMetadata i = .inserting := by
  rw [verdict, checkMetadata] at h
  split at h
  · next hinserting => exact of_decide_eq_true hinserting
  · split at h
    · cases h
    · split at h <;> cases h

theorem verdict_of_invisible {offset keyLength totalLength : Nat}
    (h : n.recordMetadata i = .record false offset keyLength totalLength) :
    verdict key n i = .isUnique := by
  rw [verdict, h]
  rfl

end Verdict

section Steps

variable {parameters : ParameterSet} {key : Key} {payload : Word} {n : BaseNode} {r : Reserved}
  {checkIdx : List Nat} {needCheck i : Nat}

theorem recheckStep_while_zero :
    recheckStep parameters key payload n (.whileCheck r checkIdx 0) = .readStatus r := rfl

theorem recheckStep_while (h : needCheck ≠ 0) :
    recheckStep parameters key payload n (.whileCheck r checkIdx needCheck) =
      .forCheck r checkIdx needCheck 0 := by
  simp only [recheckStep, InsertPc.rechecking, if_true, insertStep, insertStepWith, if_neg h]

theorem recheckStep_for_end (h : checkIdx.length ≤ i) :
    recheckStep parameters key payload n (.forCheck r checkIdx needCheck i) =
      .whileCheck r checkIdx needCheck := by
  simp only [recheckStep, InsertPc.rechecking, if_true, insertStep, insertStepWith, if_neg (Nat.not_lt.mpr h)]

theorem recheckStep_for_reCheck (hi : i < checkIdx.length)
    (h : verdict key n i = .reCheck) :
    recheckStep parameters key payload n (.forCheck r checkIdx needCheck i) =
      .forCheck r checkIdx needCheck (i + 1) := by
  rw [verdict] at h
  simp only [recheckStep, InsertPc.rechecking, if_true, insertStep, insertStepWith, if_pos hi, h]

theorem recheckStep_for_unique (hi : i < checkIdx.length) (hneed : needCheck ≠ 0)
    (hsmall : needCheck < 2 ^ 32) (h : verdict key n i = .isUnique) :
    recheckStep parameters key payload n (.forCheck r checkIdx needCheck i) =
      .forCheck r checkIdx (needCheck - 1) (i + 1) := by
  have hmod : (needCheck + 2 ^ 32 - 1) % 2 ^ 32 = needCheck - 1 := by omega
  rw [verdict] at h
  simp only [recheckStep, InsertPc.rechecking, if_true, insertStep, insertStepWith, if_pos hi, h, hmod]

theorem recheckStep_for_duplicate (hi : i < checkIdx.length)
    (h : verdict key n i = .duplicate) :
    recheckStep parameters key payload n (.forCheck r checkIdx needCheck i) = .clear r := by
  rw [verdict] at h
  simp only [recheckStep, InsertPc.rechecking, if_true, insertStep, insertStepWith, if_pos hi, h]

theorem recheckStep_scan_end {linearEnd : Nat} (h : linearEnd ≤ i) :
    recheckStep parameters key payload n (.scan r i linearEnd checkIdx) =
      .whileCheck r checkIdx (checkIdx.length % 2 ^ 32) := by
  simp only [recheckStep, InsertPc.rechecking, if_true, insertStep, insertStepWith, if_neg (Nat.not_lt.mpr h)]

theorem recheckStep_scan {linearEnd : Nat} (h : i < linearEnd) :
    recheckStep parameters key payload n (.scan r i linearEnd checkIdx) =
      match verdict key n i with
      | .duplicate => .clear r
      | .reCheck => .scan r (i + 1) linearEnd (checkIdx ++ [i])
      | .isUnique => .scan r (i + 1) linearEnd checkIdx := by
  simp only [recheckStep, InsertPc.rechecking, if_true, insertStep, insertStepWith, if_pos h, verdict]
  cases checkMetadata n key.bytes (n.recordMetadata i) <;> rfl

end Steps

section Passes

variable {parameters : ParameterSet} {key : Key} {payload : Word} {r : Reserved}
  {nodes : Nat → BaseNode} {start : InsertPc} {checkIdx : List Nat}
  {needCheck sortedCount linearEnd i t : Nat}

theorem recheckRun_succ (t : Nat) : recheckRun parameters key payload nodes start (t + 1) =
    recheckStep parameters key payload (nodes t)
      (recheckRun parameters key payload nodes start t) := rfl

/-- The first scan finds the key, or it goes on to the loop with slots that `FirstScan`
describes. -/
theorem scan_ends (hi : sortedCount ≤ i) (hascending : checkIdx.Pairwise (· < ·))
    (hbounds : ∀ j ∈ checkIdx, sortedCount ≤ j ∧ j < i ∧ j < linearEnd)
    (hrun : recheckRun parameters key payload nodes start t = .scan r i linearEnd checkIdx) :
    ∃ t', recheckRun parameters key payload nodes start t' = .clear r ∨
      ∃ found, recheckRun parameters key payload nodes start t' =
        .whileCheck r found (found.length % 2 ^ 32) ∧ FirstScan sortedCount linearEnd found := by
  induction hleft : linearEnd - i using Nat.strong_induction_on generalizing i t checkIdx with
  | _ left ih =>
      have hnext : recheckRun parameters key payload nodes start (t + 1) =
          recheckStep parameters key payload (nodes t) (.scan r i linearEnd checkIdx) := by
        rw [recheckRun_succ, hrun]
      rcases Nat.lt_or_ge i linearEnd with hlt | hge
      · rw [recheckStep_scan hlt] at hnext
        cases hverdict : verdict key (nodes t) i with
        | duplicate =>
            rw [hverdict] at hnext
            exact ⟨t + 1, .inl hnext⟩
        | reCheck =>
            rw [hverdict] at hnext
            refine ih (linearEnd - (i + 1)) (by omega) (Nat.le_succ_of_le hi) ?_ ?_ hnext rfl
            · rw [List.pairwise_append]
              refine ⟨hascending, List.pairwise_singleton _ i, fun j hj j' hj' => ?_⟩
              rw [List.mem_singleton.mp hj']
              exact (hbounds j hj).2.1
            · intro j hj
              rcases List.mem_append.mp hj with hj | hj
              · obtain ⟨hlow, hhigh, hend⟩ := hbounds j hj
                exact ⟨hlow, Nat.lt_succ_of_lt hhigh, hend⟩
              · rw [List.mem_singleton.mp hj]
                exact ⟨hi, Nat.lt_succ_self i, hlt⟩
        | isUnique =>
            rw [hverdict] at hnext
            refine ih (linearEnd - (i + 1)) (by omega) (Nat.le_succ_of_le hi) hascending
              (fun j hj => ?_) hnext rfl
            obtain ⟨hlow, hhigh, hend⟩ := hbounds j hj
            exact ⟨hlow, Nat.lt_succ_of_lt hhigh, hend⟩
      · rw [recheckStep_scan_end hge] at hnext
        exact ⟨t + 1, .inr ⟨checkIdx, hnext, hascending,
          fun j hj => ⟨(hbounds j hj).1, (hbounds j hj).2.2⟩⟩⟩

theorem pass_of_first (hlength : 1 < checkIdx.length) (hneed : needCheck ≠ 0)
    (hsmall : needCheck < 2 ^ 32)
    (hfirst : ∀ s < t + checkIdx.length + 2, verdict key (nodes s) 0 = .isUnique)
    (hrest : ∀ s < t + checkIdx.length + 2, ∀ j < checkIdx.length, j ≠ 0 →
      verdict key (nodes s) j = .reCheck)
    (hrun : recheckRun parameters key payload nodes start t = .whileCheck r checkIdx needCheck) :
    recheckRun parameters key payload nodes start (t + checkIdx.length + 2) =
      .whileCheck r checkIdx (needCheck - 1) := by
  have hbegin : recheckRun parameters key payload nodes start (t + 1) =
      .forCheck r checkIdx needCheck 0 := by
    rw [recheckRun_succ, hrun, recheckStep_while hneed]
  have hone : recheckRun parameters key payload nodes start (t + 1 + 1) =
      .forCheck r checkIdx (needCheck - 1) 1 := by
    rw [recheckRun_succ, hbegin,
      recheckStep_for_unique (by omega) hneed hsmall (hfirst (t + 1) (by omega))]
  have hinside : ∀ j, j + 1 ≤ checkIdx.length →
      recheckRun parameters key payload nodes start (t + 1 + (j + 1)) =
        .forCheck r checkIdx (needCheck - 1) (j + 1) := by
    intro j
    induction j with
    | zero => exact fun _ => hone
    | succ j ih =>
        intro hj
        rw [← Nat.add_assoc, recheckRun_succ, ih (by omega), recheckStep_for_reCheck (by omega)]
        exact hrest _ (by omega) _ (by omega) (by omega)
  obtain ⟨k, hk⟩ : ∃ k, checkIdx.length = k + 1 := ⟨checkIdx.length - 1, by omega⟩
  have hlast := hinside k (by omega)
  have hend : t + checkIdx.length + 2 = t + 1 + (k + 1) + 1 := by omega
  rw [hend, recheckRun_succ, hlast, recheckStep_for_end (by omega)]

theorem passes_of_first (hlength : 1 < checkIdx.length) {count p : Nat} (hcount : count < 2 ^ 32)
    (hfirst : ∀ s < count * (checkIdx.length + 2), verdict key (nodes s) 0 = .isUnique)
    (hrest : ∀ s < count * (checkIdx.length + 2), ∀ j < checkIdx.length, j ≠ 0 →
      verdict key (nodes s) j = .reCheck)
    (hstart : start = .whileCheck r checkIdx count) (hp : p ≤ count) :
    recheckRun parameters key payload nodes start (p * (checkIdx.length + 2)) =
      .whileCheck r checkIdx (count - p) := by
  induction p with
  | zero =>
      rw [Nat.zero_mul]
      exact hstart
  | succ p ih =>
      have hle : (p + 1) * (checkIdx.length + 2) ≤ count * (checkIdx.length + 2) :=
        Nat.mul_le_mul_right _ hp
      have hnext : (p + 1) * (checkIdx.length + 2) =
          p * (checkIdx.length + 2) + checkIdx.length + 2 := by
        rw [Nat.succ_mul, Nat.add_assoc]
      rw [hnext] at hle ⊢
      have hpass := pass_of_first hlength (by omega) (by omega)
        (fun s hs => hfirst s (lt_of_lt_of_le hs hle))
        (fun s hs => hrest s (lt_of_lt_of_le hs hle)) (ih (by omega))
      rw [hpass, Nat.sub_sub]

theorem duplicate_of_clear (hstart : ∀ r, start ≠ .clear r)
    (hrun : recheckRun parameters key payload nodes start t = .clear r) :
    ∃ t' i, verdict key (nodes t') i = .duplicate := by
  induction t with
  | zero => exact absurd hrun (hstart r)
  | succ t ih =>
      rw [recheckRun_succ] at hrun
      cases hpc : recheckRun parameters key payload nodes start t with
      | scan r' i linearEnd checkIdx =>
          rw [hpc] at hrun
          rcases Nat.lt_or_ge i linearEnd with hlt | hge
          · rw [recheckStep_scan hlt] at hrun
            cases hverdict : verdict key (nodes t) i with
            | duplicate => exact ⟨t, i, hverdict⟩
            | reCheck | isUnique =>
                rw [hverdict] at hrun
                cases hrun
          · rw [recheckStep_scan_end hge] at hrun
            cases hrun
      | whileCheck r' checkIdx needCheck =>
          rw [hpc] at hrun
          rcases eq_or_ne needCheck 0 with rfl | hne
          · cases hrun
          · rw [recheckStep_while hne] at hrun
            cases hrun
      | forCheck r' checkIdx needCheck i =>
          rw [hpc] at hrun
          rcases Nat.lt_or_ge i checkIdx.length with hlt | hge
          · cases hverdict : verdict key (nodes t) i with
            | duplicate => exact ⟨t, i, hverdict⟩
            | reCheck =>
                rw [recheckStep_for_reCheck hlt hverdict] at hrun
                cases hrun
            | isUnique =>
                simp only [verdict] at hverdict
                simp only [recheckStep, InsertPc.rechecking, if_true, insertStep, insertStepWith, if_pos hlt,
                  hverdict] at hrun
                cases hrun
          · rw [recheckStep_for_end hge] at hrun
            cases hrun
      | clear r' => exact ih (by rw [hpc] at hrun; exact hpc.trans hrun)
      | _ =>
          rw [hpc] at hrun
          cases hrun

end Passes

section Verdicts

variable {parameters : ParameterSet} {key : Key} {payload : Word} {r : Reserved}
  {nodes : Nat → BaseNode} {checkIdx : List Nat} {sortedCount linearEnd : Nat}

/-- A leaf in which the given slots are in progress and all other ones hold records of
insertions that have failed. -/
def failedBut (n : BaseNode) (inProgress : Nat → Bool) : BaseNode :=
  { n with
    recordMetadata := fun i => if inProgress i then .inserting else .record false 0 0 0 }

theorem inserting_failedBut_iff {n : BaseNode} {inProgress : Nat → Bool} {i : Nat} :
    (failedBut n inProgress).recordMetadata i = .inserting ↔ inProgress i = true := by
  change (if inProgress i then RecordMetadata.inserting else .record false 0 0 0) = .inserting ↔ _
  split
  · next h => exact ⟨fun _ => h, fun _ => rfl⟩
  · next h => exact ⟨nofun, fun h' => absurd h' h⟩

theorem verdict_failedBut {n : BaseNode} {inProgress : Nat → Bool} {i : Nat} :
    verdict key (failedBut n inProgress) i = if inProgress i then .reCheck else .isUnique := by
  split
  · next h => exact verdict_of_inserting (inserting_failedBut_iff.mpr h)
  · next h => exact verdict_of_invisible (if_neg h)

theorem lt_length_of_sound
    (h : ∀ nodes, Schedule nodes linearEnd checkIdx →
      SoundRecheck key r checkIdx nodes (waitRun parameters key payload r checkIdx nodes)) :
    ∀ j ∈ checkIdx, j < checkIdx.length := by
  intro j hj
  let nodes : Nat → BaseNode := fun _ => failedBut (.new true 0) fun _ => false
  have hfinished : ∀ t i, (nodes t).recordMetadata i ≠ .inserting :=
    fun _ _ h => Bool.false_ne_true (inserting_failedBut_iff.mp h)
  have hsound := h nodes ⟨fun i _ _ t' _ _ => hfinished t' i, fun i _ => ⟨0, hfinished 0 i⟩,
    fun i _ _ => hfinished 0 i⟩
  obtain ⟨t, hend | hend⟩ := hsound.ends
  · obtain ⟨-, -, -, -, hlt, -⟩ := hsound.sound t hend j hj
    exact hlt
  · have hstart : ∀ r', InsertPc.whileCheck r checkIdx (checkIdx.length % 2 ^ 32) ≠ .clear r' :=
      fun _ => nofun
    obtain ⟨t', i, hduplicate⟩ := duplicate_of_clear hstart hend
    rw [verdict_failedBut] at hduplicate
    cases hduplicate

/-- Two slots or more are one too many: slot 0 stops at once, and the others as late as
the loop has counted it for each of them. -/
theorem length_le_one_of_sound (hscan : FirstScan sortedCount linearEnd checkIdx)
    (h : ∀ nodes, Schedule nodes linearEnd checkIdx →
      SoundRecheck key r checkIdx nodes (waitRun parameters key payload r checkIdx nodes)) :
    checkIdx.length ≤ 1 := by
  by_contra hlong
  have hlong : 1 < checkIdx.length := Nat.not_le.mp hlong
  have hmem : ∀ i < checkIdx.length, i ∈ checkIdx := by
    have hnodup : checkIdx.Nodup := hscan.ascending.imp Nat.ne_of_lt
    have hsub : checkIdx.toFinset ⊆ Finset.range checkIdx.length := fun i hi =>
      Finset.mem_range.mpr (lt_length_of_sound h i (List.mem_toFinset.mp hi))
    have heq := Finset.eq_of_subset_of_card_le hsub
      (by rw [Finset.card_range, List.toFinset_card_of_nodup hnodup])
    intro i hi
    rw [← List.mem_toFinset, heq]
    exact Finset.mem_range.mpr hi
  let count := checkIdx.length % 2 ^ 32
  let late := count * (checkIdx.length + 2)
  let nodes : Nat → BaseNode := fun t => failedBut (.new true 0) fun i =>
    decide (i ≠ 0 ∧ i < checkIdx.length ∧ t < late)
  have hverdict : ∀ t i, verdict key (nodes t) i =
      if i ≠ 0 ∧ i < checkIdx.length ∧ t < late then .reCheck else .isUnique := by
    intro t i
    rw [verdict_failedBut]
    simp only [decide_eq_true_eq]
  have hinserting : ∀ t i, (nodes t).recordMetadata i ≠ .inserting ↔
      ¬(i ≠ 0 ∧ i < checkIdx.length ∧ t < late) := fun t i => by
    rw [Ne, inserting_failedBut_iff, decide_eq_true_eq]
  have hschedule : Schedule nodes linearEnd checkIdx := by
    refine ⟨fun i _ t t' hle hfinished => ?_, fun i _ => ⟨late, ?_⟩, fun i _ hnot => ?_⟩
    · rw [hinserting] at hfinished ⊢
      exact fun hnot => hfinished ⟨hnot.1, hnot.2.1, by omega⟩
    · rw [hinserting]
      exact fun hnot => lt_irrefl _ hnot.2.2
    · rw [hinserting]
      exact fun hnot' => hnot (hmem i hnot'.2.1)
  have hlast : waitRun parameters key payload r checkIdx nodes late = .whileCheck r checkIdx 0 := by
    have hfirst : ∀ s < late, verdict key (nodes s) 0 = .isUnique := by
      intro s _
      rw [hverdict, if_neg fun h => h.1 rfl]
    have hrest : ∀ s < late, ∀ j < checkIdx.length, j ≠ 0 →
        verdict key (nodes s) j = .reCheck := by
      intro s hs j hj hne
      rw [hverdict, if_pos ⟨hne, hj, hs⟩]
    rw [waitRun, passes_of_first hlong (Nat.mod_lt _ (by decide)) hfirst hrest rfl (Nat.le_refl _),
      Nat.sub_self]
  have hexit : waitRun parameters key payload r checkIdx nodes (late + 1) = .readStatus r := by
    rw [waitRun, recheckRun_succ]
    rw [waitRun] at hlast
    rw [hlast, recheckStep_while_zero]
  obtain ⟨t, ht, needCheck, hread, -, hunique⟩ :=
    (h nodes hschedule).sound (late + 1) hexit 1 (hmem 1 hlong)
  rw [hverdict] at hunique
  rcases Nat.lt_or_ge t late with hlt | hge
  · rw [if_pos ⟨Nat.one_ne_zero, hlong, hlt⟩] at hunique
    cases hunique
  · have heq : t = late := by omega
    rw [heq, hlast] at hread
    cases hread

theorem waitRun_zero (t : Nat) :
    let run := waitRun parameters key payload r [0] nodes
    (run t = .whileCheck r [0] 1 ∨ run t = .forCheck r [0] 1 0 ∨ run t = .forCheck r [0] 1 1) ∨
      (∃ t' < t, run t' = .forCheck r [0] 1 0 ∧ verdict key (nodes t') 0 = .isUnique) ∧
        (run t = .forCheck r [0] 0 1 ∨ run t = .whileCheck r [0] 0 ∨ run t = .readStatus r) ∨
      run t = .clear r := by
  intro run
  induction t with
  | zero => exact .inl (.inl rfl)
  | succ t ih =>
      have hnext : run (t + 1) = recheckStep parameters key payload (nodes t) (run t) := rfl
      rcases ih with (hrun | hrun | hrun) | ⟨⟨t', ht', hread⟩, hrun | hrun | hrun⟩ | hrun
      · rw [hrun, recheckStep_while Nat.one_ne_zero] at hnext
        exact .inl (.inr (.inl hnext))
      · cases hverdict : verdict key (nodes t) 0 with
        | reCheck =>
            rw [hrun, recheckStep_for_reCheck Nat.zero_lt_one hverdict] at hnext
            exact .inl (.inr (.inr hnext))
        | isUnique =>
            rw [hrun, recheckStep_for_unique Nat.zero_lt_one Nat.one_ne_zero (by decide)
              hverdict] at hnext
            exact .inr (.inl ⟨⟨t, Nat.lt_succ_self t, hrun, hverdict⟩, .inl hnext⟩)
        | duplicate =>
            rw [hrun, recheckStep_for_duplicate Nat.zero_lt_one hverdict] at hnext
            exact .inr (.inr hnext)
      · rw [hrun, recheckStep_for_end (Nat.le_refl 1)] at hnext
        exact .inl (.inl hnext)
      · rw [hrun, recheckStep_for_end (Nat.le_refl 1)] at hnext
        exact .inr (.inl ⟨⟨t', Nat.lt_succ_of_lt ht', hread⟩, .inr (.inl hnext)⟩)
      · rw [hrun, recheckStep_while_zero] at hnext
        exact .inr (.inl ⟨⟨t', Nat.lt_succ_of_lt ht', hread⟩, .inr (.inr hnext)⟩)
      · rw [hrun] at hnext
        exact .inr (.inl ⟨⟨t', Nat.lt_succ_of_lt ht', hread⟩, .inr (.inr hnext)⟩)
      · rw [hrun] at hnext
        exact .inr (.inr hnext)

theorem waitRun_zero_ends {t : Nat}
    (hstopped : ∀ t' ≥ t, (nodes t').recordMetadata 0 ≠ .inserting) :
    ∃ t', waitRun parameters key payload r [0] nodes t' = .readStatus r ∨
      waitRun parameters key payload r [0] nodes t' = .clear r := by
  let run := waitRun parameters key payload r [0] nodes
  have hnext : ∀ t, run (t + 1) = recheckStep parameters key payload (nodes t) (run t) :=
    fun _ => rfl
  have hwhile : ∀ t, run t = .whileCheck r [0] 0 → run (t + 1) = .readStatus r := by
    intro t hrun
    rw [hnext, hrun, recheckStep_while_zero]
  have hlast : ∀ t, run t = .forCheck r [0] 0 1 → run (t + 1 + 1) = .readStatus r := by
    intro t hrun
    refine hwhile (t + 1) ?_
    rw [hnext, hrun, recheckStep_for_end (Nat.le_refl 1)]
  have hread : ∀ t' ≥ t, run t' = .forCheck r [0] 1 0 →
      ∃ t', run t' = .readStatus r ∨ run t' = .clear r := by
    intro t' ht' hrun
    have hstep := hnext t'
    cases hverdict : verdict key (nodes t') 0 with
    | reCheck => exact absurd (inserting_of_verdict hverdict) (hstopped t' ht')
    | isUnique =>
        rw [hrun, recheckStep_for_unique Nat.zero_lt_one Nat.one_ne_zero (by decide)
          hverdict] at hstep
        exact ⟨_, .inl (hlast _ hstep)⟩
    | duplicate =>
        rw [hrun, recheckStep_for_duplicate Nat.zero_lt_one hverdict] at hstep
        exact ⟨_, .inr hstep⟩
  have hbegin : ∀ t' ≥ t, run t' = .whileCheck r [0] 1 →
      ∃ t', run t' = .readStatus r ∨ run t' = .clear r := by
    intro t' ht' hrun
    refine hread (t' + 1) (Nat.le_succ_of_le ht') ?_
    rw [hnext, hrun, recheckStep_while Nat.one_ne_zero]
  rcases @waitRun_zero parameters key payload r nodes t with
    (hrun | hrun | hrun) | ⟨-, hrun | hrun | hrun⟩ | hrun
  · exact hbegin t (le_refl t) hrun
  · exact hread t (le_refl t) hrun
  · refine hbegin (t + 1) (Nat.le_succ t) ?_
    rw [hnext]
    exact (congrArg _ hrun).trans (recheckStep_for_end (Nat.le_refl 1))
  · exact ⟨_, .inl (hlast t hrun)⟩
  · exact ⟨_, .inl (hwhile t hrun)⟩
  · exact ⟨t, .inl hrun⟩
  · exact ⟨t, .inr hrun⟩

theorem sound_zero (hscan : FirstScan sortedCount linearEnd [0])
    (hschedule : Schedule nodes linearEnd [0]) :
    SoundRecheck key r [0] nodes (waitRun parameters key payload r [0] nodes) := by
  have hmem : 0 ∈ [0] := List.mem_singleton_self 0
  refine ⟨?_, fun t needCheck i hrun hi hunique => ?_, fun t hrun j hj => ?_⟩
  · obtain ⟨t, hstops⟩ := hschedule.stops 0 hmem
    exact waitRun_zero_ends fun t' ht' =>
      hschedule.stays 0 (hscan.bounds 0 hmem).2 t t' ht' hstops
  · rcases waitRun_zero t with (hplace | hplace | hplace) | ⟨-, hplace | hplace | hplace⟩ | hplace
    all_goals
      rw [hrun] at hplace
      cases hplace
    · exact Nat.one_ne_zero
    · exact absurd hi (Nat.lt_irrefl 1)
    · exact absurd hi (Nat.lt_irrefl 1)
  · rw [List.mem_singleton.mp hj]
    rcases waitRun_zero t with (hplace | hplace | hplace) | ⟨hread, -⟩ | hplace
    · rw [hrun] at hplace
      cases hplace
    · rw [hrun] at hplace
      cases hplace
    · rw [hrun] at hplace
      cases hplace
    · obtain ⟨t', ht', hread, hunique⟩ := hread
      exact ⟨t', ht', 1, hread, Nat.zero_lt_one, hunique⟩
    · rw [hrun] at hplace
      cases hplace

theorem sound_nil : SoundRecheck key r [] nodes (waitRun parameters key payload r [] nodes) where
  ends := ⟨1, .inl rfl⟩
  neverWraps := fun _ _ _ _ hi => absurd hi (Nat.not_lt_zero _)
  sound := nofun

/-- The loop is sound in every schedule just for no slot and for slot 0 alone. -/
theorem soundRecheck_iff (hscan : FirstScan sortedCount linearEnd checkIdx) :
    (∀ nodes, Schedule nodes linearEnd checkIdx →
      SoundRecheck key r checkIdx nodes (waitRun parameters key payload r checkIdx nodes)) ↔
      checkIdx = [] ∨ checkIdx = [0] := by
  constructor
  · intro h
    have hlt := lt_length_of_sound h
    have hlength := length_le_one_of_sound hscan h
    rcases checkIdx with _ | ⟨i, _ | ⟨j, rest⟩⟩
    · exact .inl rfl
    · have hi := hlt i List.mem_cons_self
      rw [List.length_singleton, Nat.lt_one_iff] at hi
      exact .inr (by rw [hi])
    · simp at hlength
  · rintro (rfl | rfl) nodes hschedule
    · exact sound_nil
    · exact sound_zero hscan hschedule

end Verdicts

theorem soundRecheck_slot_zero :
    FirstScan 0 1 [0] ∧
      ((∀ nodes, Schedule nodes 1 [0] →
        SoundRecheck ⟨[1], by decide⟩ ⟨1, 0, 0, true⟩ [0] nodes
          (waitRun .default ⟨[1], by decide⟩ 0 ⟨1, 0, 0, true⟩ [0] nodes)) ↔
        [0] = ([] : List Nat) ∨ [0] = [0]) := by
  have hscan : FirstScan 0 1 [0] := ⟨by decide, by decide⟩
  exact ⟨hscan, soundRecheck_iff hscan⟩

/-- Of two slots the first has stopped when the loop begins.  Two passes count it twice, and
the key is unique while slot 1 is in progress.  If slot 1 stops in the second pass, the
counter wraps. -/
theorem recheck_counts_twice :
    let r : Reserved := ⟨2, 0, 0, true⟩
    let nodes : Nat → Nat → BaseNode := fun stop t =>
      failedBut (.new true 0) fun i => decide (i = 1 ∧ t < stop)
    let run := fun stop => waitRun .default ⟨[1], by decide⟩ 0 r [0, 1] (nodes stop)
    FirstScan 0 2 [0, 1] ∧ (∀ stop, Schedule (nodes stop) 2 [0, 1]) ∧
      run 9 9 = .readStatus r ∧ (∀ t < 9, (nodes 9 t).recordMetadata 1 = .inserting) ∧
      run 4 7 = .forCheck r [0, 1] (2 ^ 32 - 1) 2 ∧
      ¬∀ nodes, Schedule nodes 2 [0, 1] → SoundRecheck ⟨[1], by decide⟩ r [0, 1] nodes
        (waitRun .default ⟨[1], by decide⟩ 0 r [0, 1] nodes) := by
  intro r nodes run
  have hinserting : ∀ stop t i, (nodes stop t).recordMetadata i ≠ .inserting ↔
      ¬(i = 1 ∧ t < stop) := fun stop t i => by
    rw [Ne, inserting_failedBut_iff, decide_eq_true_eq]
  have hschedule : ∀ stop, Schedule (nodes stop) 2 [0, 1] := by
    intro stop
    refine ⟨fun i _ t t' hle h => ?_, fun i _ => ⟨stop, ?_⟩, fun i hi hnot => ?_⟩
    · rw [hinserting] at h ⊢
      exact fun h' => h ⟨h'.1, lt_of_le_of_lt hle h'.2⟩
    · rw [hinserting]
      exact fun h => lt_irrefl _ h.2
    · rw [hinserting]
      rintro ⟨rfl, -⟩
      exact hnot (List.mem_cons_of_mem 0 (List.mem_singleton_self 1))
  have hexit : run 9 9 = .readStatus r := rfl
  have hbusy : ∀ t < 9, (nodes 9 t).recordMetadata 1 = .inserting := fun t ht =>
    inserting_failedBut_iff.mpr (decide_eq_true ⟨rfl, ht⟩)
  refine ⟨⟨by decide, by decide⟩, hschedule, hexit, hbusy, rfl, fun h => ?_⟩
  obtain ⟨t, ht, -, -, -, hunique⟩ := (h (nodes 9) (hschedule 9)).sound 9 hexit 1 (by decide)
  rw [verdict_of_inserting (hbusy t ht)] at hunique
  cases hunique

end HashComp.BzTree
