import HashComp.Recovery.Model

namespace HashComp.Recovery

open HashComp.Phases
open HashComp.Records

variable {o : Outcomes} {x y : Store} {v version : BitVec 32} {status : Option Status}
  {step : Step} {l : List Step} {guids : List Guid} {tokens : List (Guid × Nat)}

def Store.versions (x : Store) : List (BitVec 13) := x.log.map RecordInfo.checkpointVersion

section Records

theorem checkpointVersion_recoverRecord (header : RecordInfo) :
    (recoverRecord version header).checkpointVersion = header.checkpointVersion := by
  rw [recoverRecord]
  split
  · rfl
  · split <;> rfl

theorem versions_map_recoverRecord (log : List RecordInfo) :
    (log.map (recoverRecord version)).map RecordInfo.checkpointVersion =
      log.map RecordInfo.checkpointVersion := by
  rw [List.map_map]
  exact List.map_congr_left fun header _ => checkpointVersion_recoverRecord header

def KeepsVersions (step : Step) : Prop := ∀ x, (step x).2.versions = x.versions

theorem keepsVersions_runSteps (h : ∀ step ∈ l, KeepsVersions step) :
    KeepsVersions (runSteps l) := by
  intro x
  induction l generalizing x with
  | nil => rfl
  | cons step l ih =>
      have hstep := h step List.mem_cons_self x
      have hrest := ih (fun step hs => h step (List.mem_cons_of_mem _ hs)) (step x).2
      rw [runSteps]
      split
      · rename_i y hy
        rw [hy] at hstep hrest
        exact hrest.trans hstep
      · rename_i status y hy
        rw [hy] at hstep
        exact hstep

theorem keepsVersions_steps : ∀ step ∈ steps o, KeepsVersions step := by
  simp only [steps, List.forall_mem_cons, List.not_mem_nil, IsEmpty.forall_iff, implies_true,
    and_true]
  refine ⟨?_, ?_, ?_, ?_, ?_, ?_, ?_, ?_, ?_⟩ <;> intro x
  · rw [readIndexMetadata]
    split <;> rfl
  · rw [readCprMetadata]
    split <;> rfl
  · rw [compareVersions]
    split <;> rfl
  · rfl
  · simp only [readCprContexts]
    split
    · rfl
    · split <;> rfl
  · rfl
  · rfl
  · rw [recoverHybridLog]
    split
    · exact versions_map_recoverRecord x.log
    · simp only [Store.versions, List.map_append, versions_map_recoverRecord]
      rw [← List.map_append, List.take_append_drop]
  · rfl

theorem versions_recover : (recover o x).store.versions = x.versions := by
  rw [recover]
  split
  · have hkeeps := keepsVersions_runSteps (keepsVersions_steps (o := o))
      { x with state := ⟨.recover, .rest, x.state.version⟩ }
    split
    · rename_i y hy
      rw [hy] at hkeeps
      exact hkeeps
    · rename_i status y hy
      rw [hy] at hkeeps
      exact hkeeps
  · rfl

end Records

section Success

def insertedTokens (o : Outcomes) (guids : List Guid) (tokens : List (Guid × Nat)) :
    List (Guid × Nat) :=
  (readContexts o guids tokens).2

/-- All the steps succeed, and the checkpoint has version `v`. -/
structure Succeeds (o : Outcomes) (x : Store) (v : BitVec 32) : Prop where
  index : ∃ m, o.indexMetadata = .done m ∧ m.version = v
  log : ∃ m, o.logMetadata = .done m ∧ m.version = v ∧
    (readContexts o m.guids x.checkpoint.continueTokens).1 = none ∧
    (insertedTokens o m.guids x.checkpoint.continueTokens).length = m.numThreads.toNat
  fuzzyIndex : o.fuzzyIndex = none
  fuzzyIndexComplete : o.fuzzyIndexComplete = none
  hybridLog : o.hybridLog = none
  restore : o.restore = none

@[simp] theorem runSteps_nil : runSteps [] x = (none, x) := rfl

theorem runSteps_cons_fst_iff : (runSteps (step :: l) x).1 = none ↔
    (step x).1 = none ∧ (runSteps l (step x).2).1 = none := by
  rw [runSteps]
  rcases step x with ⟨- | status, y⟩ <;> simp

theorem runSteps_read_iff {i : IndexMetadata} {m : LogMetadata}
    (hi : o.indexMetadata = .done i) (hm : o.logMetadata = .done m) :
    (runSteps (steps o) x).1 = none ↔ Succeeds o x m.version := by
  have hindex : readIndexMetadata o x = (none, { x with checkpoint.indexMetadata := i }) := by
    rw [readIndexMetadata, hi]
  have hlog (y : Store) : readCprMetadata o y =
      (none, { y with checkpoint.logMetadata := m }) := by
    rw [readCprMetadata, hm]
  have hreplay (y : Store) : (recoverHybridLog o y).1 = none ↔ o.hybridLog = none := by
    rw [recoverHybridLog]
    cases o.hybridLog <;> simp
  have hcontexts (y : Store) : (readCprContexts o y).1 = none ↔
      (readContexts o y.checkpoint.logMetadata.guids y.checkpoint.continueTokens).1 = none ∧
        (insertedTokens o y.checkpoint.logMetadata.guids y.checkpoint.continueTokens).length =
          y.checkpoint.logMetadata.numThreads.toNat := by
    simp only [readCprContexts, insertedTokens]
    rcases readContexts o y.checkpoint.logMetadata.guids y.checkpoint.continueTokens with
      ⟨- | status, tokens⟩
    · dsimp only
      split <;> simp_all
    · simp
  have hversions (y : Store) : (compareVersions y).1 = none ↔
      y.checkpoint.indexMetadata.version = y.checkpoint.logMetadata.version := by
    rw [compareVersions]
    split <;> simp_all
  have hsame (y : Store) : (compareVersions y).2 = y := by
    rw [compareVersions]
    split <;> rfl
  simp only [steps, runSteps_cons_fst_iff, hindex, hlog, hversions, hsame, hcontexts, hreplay,
    storeVersion, recoverFuzzyIndex, recoverFuzzyIndexComplete, restoreHybridLog, runSteps_nil,
    true_and, and_true]
  constructor
  · rintro ⟨hsame, ⟨hread, hcount⟩, hfuzzy, hcomplete, hhybrid, hrestore⟩
    exact ⟨⟨i, hi, hsame⟩, ⟨m, hm, rfl, hread, hcount⟩, hfuzzy, hcomplete, hhybrid, hrestore⟩
  · intro h
    obtain ⟨i', hi', hiv⟩ := h.index
    obtain ⟨m', hm', -, hread, hcount⟩ := h.log
    rw [hi] at hi'
    rw [hm] at hm'
    cases hi'
    cases hm'
    exact ⟨hiv, ⟨hread, hcount⟩, h.fuzzyIndex, h.fuzzyIndexComplete, h.hybridLog, h.restore⟩

theorem runSteps_iff :
    (runSteps (steps o) x).1 = none ↔ ∃ v, Succeeds o x v := by
  constructor
  · intro h
    have hindex : (readIndexMetadata o x).1 = none := (runSteps_cons_fst_iff.mp h).1
    have hlog := (runSteps_cons_fst_iff.mp (runSteps_cons_fst_iff.mp h).2).1
    obtain ⟨i, hi⟩ : ∃ i, o.indexMetadata = .done i := by
      rw [readIndexMetadata] at hindex
      split at hindex
      case h_4 i hi => exact ⟨i, hi⟩
      all_goals cases hindex
    obtain ⟨m, hm⟩ : ∃ m, o.logMetadata = .done m := by
      rw [readCprMetadata] at hlog
      split at hlog
      case h_4 m hm => exact ⟨m, hm⟩
      all_goals cases hlog
    exact ⟨m.version, (runSteps_read_iff hi hm).mp h⟩
  · rintro ⟨v, hv⟩
    obtain ⟨i, hi, -⟩ := hv.index
    obtain ⟨m, hm, rfl, -⟩ := hv.log
    exact (runSteps_read_iff hi hm).mpr hv

end Success

section Result

/-- `Recover` leaves the version that its result calls for, and no later record. -/
structure LeavesConsistent (o : Outcomes) (x : Store) : Prop where
  success : (recover o x).status = none → ∀ m, o.logMetadata = .done m →
    (recover o x).store.state = ⟨.none, .rest, m.version + 1⟩
  failure : (recover o x).status ≠ none →
    (recover o x).store.state = ⟨.none, .rest, x.state.version⟩
  records : ∀ header ∈ (recover o x).store.log,
    header.checkpointVersion.toNat ≤ (recover o x).store.state.version.toNat

theorem state_recover (hstate : x.state = ⟨.none, .rest, v⟩) :
    (recover o x).store.state = ⟨.none, .rest, 0⟩ := by
  have hwrap : BitVec.allOnes 32 + 1 = 0 := by decide
  rw [recover, if_pos (by rw [hstate])]
  split <;> exact congrArg (SystemState.mk .none .rest) hwrap

theorem status_recover_iff (hstate : x.state = ⟨.none, .rest, v⟩) :
    (recover o x).status = none ↔ ∃ v, Succeeds o x v := by
  have hsteps := runSteps_iff (o := o) (x := { x with state := ⟨.recover, .rest, x.state.version⟩ })
  have hsucceeds : (∃ v, Succeeds o { x with state := ⟨.recover, .rest, x.state.version⟩ } v) ↔
      ∃ v, Succeeds o x v :=
    exists_congr fun v => ⟨fun h => ⟨h.1, h.2, h.3, h.4, h.5, h.6⟩,
      fun h => ⟨h.1, h.2, h.3, h.4, h.5, h.6⟩⟩
  rw [hsucceeds] at hsteps
  rw [recover, if_pos (by rw [hstate]), ← hsteps]
  split
  · rename_i y hy
    simp [hy]
  · rename_i status y hy
    simp [hy]

theorem forall_log_iff : (∀ header ∈ (recover o x).store.log, header.checkpointVersion = 0) ↔
    ∀ header ∈ x.log, header.checkpointVersion = 0 := by
  have hversions := versions_recover (o := o) (x := x)
  have hall (log : List RecordInfo) : (∀ header ∈ log, header.checkpointVersion = 0) ↔
      ∀ version ∈ log.map RecordInfo.checkpointVersion, version = 0 := by
    rw [List.forall_mem_map]
  rw [hall, hall]
  rw [Store.versions, Store.versions] at hversions
  rw [hversions]

theorem leavesConsistent_iff (hstate : x.state = ⟨.none, .rest, v⟩) :
    LeavesConsistent o x ↔
      (∀ w, Succeeds o x w → w = BitVec.allOnes 32) ∧
      ((∀ w, ¬ Succeeds o x w) → v = 0) ∧
      ∀ header ∈ x.log, header.checkpointVersion = 0 := by
  have hleft := state_recover (o := o) hstate
  have hstatus := status_recover_iff (o := o) hstate
  have hzero (header : RecordInfo) :
      header.checkpointVersion.toNat ≤ (0 : BitVec 32).toNat ↔ header.checkpointVersion = 0 := by
    change _ ≤ 0 ↔ _
    rw [Nat.le_zero, ← BitVec.toNat_inj]
    rfl
  have hnext (w : BitVec 32) : (⟨.none, .rest, 0⟩ : SystemState) = ⟨.none, .rest, w + 1⟩ ↔
      w = BitVec.allOnes 32 := by
    rw [SystemState.mk.injEq]
    constructor
    · rintro ⟨-, -, h⟩
      rw [← BitVec.add_sub_cancel w 1, ← h]
      decide
    · rintro rfl
      exact ⟨rfl, rfl, by decide⟩
  constructor
  · intro h
    refine ⟨fun w hw => ?_, fun hnone => ?_, ?_⟩
    · obtain ⟨m, hm, rfl, -⟩ := hw.log
      have hsuccess := h.success (hstatus.mpr ⟨_, hw⟩) m hm
      rwa [hleft, hnext] at hsuccess
    · have hfailure := h.failure fun heq => (hstatus.mp heq).elim hnone
      rw [hleft, hstate] at hfailure
      exact (SystemState.mk.inj hfailure).2.2.symm
    · refine (forall_log_iff (o := o)).mp fun header hheader => (hzero header).mp ?_
      have hrecord := h.records header hheader
      rwa [hleft] at hrecord
  · rintro ⟨hsuccess, hfailure, hrecords⟩
    refine ⟨fun hnone m hm => ?_, fun hsome => ?_, fun header hheader => ?_⟩
    · obtain ⟨w, hw⟩ := hstatus.mp hnone
      obtain ⟨m', hm', hversion, -⟩ := hw.log
      rw [hm] at hm'
      cases hm'
      rw [hleft, hnext, hversion]
      exact hsuccess w hw
    · rw [hleft, hstate, hfailure fun w hw => hsome (hstatus.mpr ⟨w, hw⟩)]
    · rw [hleft]
      exact (hzero header).mpr (forall_log_iff.mpr hrecords header hheader)

def sound (version : BitVec 32) : Outcomes where
  indexMetadata := .done ⟨version⟩
  logMetadata := .done ⟨version, 0, []⟩
  context := fun _ => .missing
  fuzzyIndex := none
  fuzzyIndexComplete := none
  hybridLog := none
  restore := none

/-- A store of version 1 with a log of these records. -/
def opened (log : List RecordInfo) : Store where
  state := ⟨.none, .rest, 1⟩
  checkpoint := ⟨.reset, .reset, []⟩
  log := log

/-- The versions have come to their end with this checkpoint. -/
theorem leavesConsistent_sound : LeavesConsistent (sound (BitVec.allOnes 32)) (opened []) := by
  have hsucceeds : Succeeds (sound (BitVec.allOnes 32)) (opened []) (BitVec.allOnes 32) :=
    ⟨⟨_, rfl, rfl⟩, ⟨_, rfl, rfl, rfl, rfl⟩, rfl, rfl, rfl, rfl⟩
  refine (leavesConsistent_iff rfl).mpr ⟨fun w hw => ?_, fun hnone => ?_, ?_⟩
  · obtain ⟨m, hm, rfl, -⟩ := hw.log
    cases hm
    rfl
  · exact absurd hsucceeds (hnone _)
  · exact fun header hheader => absurd hheader List.not_mem_nil

/-- Recovering a checkpoint of version 1 leaves version 0 and not 2. -/
theorem recover_leaves_zero :
    ¬ ∀ o x v, x.state = ⟨.none, .rest, v⟩ → LeavesConsistent o x := by
  intro hall
  have hsuccess := (hall (sound 1) (opened [RecordInfo.created 1 0]) 1 rfl).success rfl _ rfl
  exact absurd hsuccess (by decide)

end Result

end HashComp.Recovery
