import HashComp.Phases.SystemState
import HashComp.Records.RecordInfo

/-!
`Recover`: its steps, any of which may fail, and the state that it leaves.
-/

namespace HashComp.Recovery

open HashComp.Phases
open HashComp.Records

inductive Status where
  | pending
  | notFound
  | outOfMemory
  | ioError
  | corruption
  | aborted
  deriving DecidableEq

abbrev Guid := BitVec 128

structure IndexMetadata where
  version : BitVec 32

structure LogMetadata where
  version : BitVec 32
  numThreads : BitVec 32
  guids : List Guid

structure CheckpointState where
  indexMetadata : IndexMetadata
  logMetadata : LogMetadata
  continueTokens : List (Guid × Nat)

/-- The store, by what `Recover` reads and writes of it.  `log` has the headers of the
records of the recovered log. -/
structure Store where
  state : SystemState
  checkpoint : CheckpointState
  log : List RecordInfo

/-- What comes of reading a file: it cannot be opened, or reading or closing it fails,
when the memory read into may have been written already, or all goes well. -/
inductive FileRead (α : Type) where
  | missing
  | failed (read : Option α)
  | done (content : α)

/-- What the steps of `Recover` meet.  For the steps that have a status only, `none` is
`Ok`; the replay of the log may fail after some of its records. -/
structure Outcomes where
  indexMetadata : FileRead IndexMetadata
  logMetadata : FileRead LogMetadata
  context : Guid → FileRead (Guid × Nat)
  fuzzyIndex : Option Status
  fuzzyIndexComplete : Option Status
  hybridLog : Option (Status × Nat)
  restore : Option Status

def LogMetadata.reset : LogMetadata where
  version := BitVec.allOnes 32
  numThreads := 0
  guids := []

def IndexMetadata.reset : IndexMetadata where
  version := 0

def CheckpointState.recoverDone (c : CheckpointState) : CheckpointState :=
  { c with indexMetadata := .reset, logMetadata := .reset }

def recoverRecord (version : BitVec 32) (header : RecordInfo) : RecordInfo :=
  if header.invalid then header
  else if header.checkpointVersion.toNat ≤ version.toNat then header
  else { header with invalid := true }

abbrev Step := Store → Option Status × Store

def runSteps : List Step → Step
  | [], x => (none, x)
  | step :: steps, x =>
      match step x with
      | (none, y) => runSteps steps y
      | (some status, y) => (some status, y)

section Steps

variable (o : Outcomes)

def readIndexMetadata : Step := fun x =>
  match o.indexMetadata with
  | .missing => (some .ioError, x)
  | .failed none => (some .ioError, x)
  | .failed (some m) => (some .ioError, { x with checkpoint.indexMetadata := m })
  | .done m => (none, { x with checkpoint.indexMetadata := m })

def readCprMetadata : Step := fun x =>
  match o.logMetadata with
  | .missing => (some .ioError, x)
  | .failed none => (some .ioError, x)
  | .failed (some m) => (some .ioError, { x with checkpoint.logMetadata := m })
  | .done m => (none, { x with checkpoint.logMetadata := m })

def compareVersions : Step := fun x =>
  if x.checkpoint.indexMetadata.version ≠ x.checkpoint.logMetadata.version then
    (some .corruption, x)
  else (none, x)

def storeVersion : Step := fun x =>
  (none, { x with state := ⟨.recover, .rest, x.checkpoint.logMetadata.version + 1⟩ })

def insertToken (tokens : List (Guid × Nat)) (token : Guid × Nat) : List (Guid × Nat) :=
  if token.1 ∈ tokens.map Prod.fst then tokens else tokens ++ [token]

def readContexts : List Guid → List (Guid × Nat) → Option Status × List (Guid × Nat)
  | [], tokens => (none, tokens)
  | guid :: guids, tokens =>
      if guid = 0 then readContexts guids tokens
      else
        match o.context guid with
        | .done token => readContexts guids (insertToken tokens token)
        | _ => (some .ioError, tokens)

def readCprContexts : Step := fun x =>
  let (status, tokens) :=
    readContexts o x.checkpoint.logMetadata.guids x.checkpoint.continueTokens
  let x := { x with checkpoint.continueTokens := tokens }
  match status with
  | some status => (some status, x)
  | none =>
      if tokens.length ≠ x.checkpoint.logMetadata.numThreads.toNat then (some .corruption, x)
      else (none, x)

def recoverFuzzyIndex : Step := fun x => (o.fuzzyIndex, x)

def recoverFuzzyIndexComplete : Step := fun x => (o.fuzzyIndexComplete, x)

def recoverHybridLog : Step := fun x =>
  let version := x.checkpoint.logMetadata.version
  match o.hybridLog with
  | none => (none, { x with log := x.log.map (recoverRecord version) })
  | some (status, n) =>
      (some status,
        { x with log := (x.log.take n).map (recoverRecord version) ++ x.log.drop n })

def restoreHybridLog : Step := fun x => (o.restore, x)

def steps : List Step :=
  [readIndexMetadata o, readCprMetadata o, compareVersions, storeVersion, readCprContexts o,
    recoverFuzzyIndex o, recoverFuzzyIndexComplete o, recoverHybridLog o, restoreHybridLog o]

end Steps

/-- What `Recover` returns, and the store that it leaves. -/
structure Recovered where
  status : Option Status
  version : BitVec 32
  sessionIds : List Guid
  store : Store

def Store.recoverDone (x : Store) : Store :=
  let checkpoint := x.checkpoint.recoverDone
  { x with
    checkpoint := checkpoint
    state := ⟨.none, .rest, checkpoint.logMetadata.version + 1⟩ }

def recover (o : Outcomes) (x : Store) : Recovered :=
  if x.state = ⟨.none, .rest, x.state.version⟩ then
    match runSteps (steps o) { x with state := ⟨.recover, .rest, x.state.version⟩ } with
    | (none, y) =>
        ⟨none, y.checkpoint.logMetadata.version, y.checkpoint.continueTokens.map Prod.fst,
          y.recoverDone⟩
    | (some status, y) => ⟨some status, 0, [], y.recoverDone⟩
  else ⟨some .aborted, 0, [], x⟩

end HashComp.Recovery
