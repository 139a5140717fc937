import HashComp.Library.Ownership
import HashComp.Library.Runs
import HashComp.Locks.Model
import Mathlib.Data.List.Perm.Basic

namespace HashComp.Locks

open HashComp.Faster (Phase CheckpointLock)
open HashComp.Ownership
open HashComp.Phases (SystemState)
open HashComp.Requests (Operation OperationStatus)
open HashComp.Runs

variable {full : Bool} {n t b c i old new : Nat} {x y : System} {thread th : Thread}
  {q q' : Request} {requests : List Request} {job : Job} {stage : Stage}
  {locks locks' : Nat → CheckpointLock} {move : Move} {v : BitVec 32}

section Requests

def Request.Locked (q : Request) : Prop :=
  q.undone < q.taken

instance (q : Request) : Decidable q.Locked :=
  inferInstanceAs (Decidable (_ < _))

/-- At most one lock is held for the request, and one is held just when it has been
in a queue in `PREPARE`. -/
structure Request.Once (q : Request) : Prop where
  undone_le : q.undone ≤ q.taken
  taken_le : q.taken ≤ q.undone + 1
  locked_iff : q.Locked ↔ q.prepared = true

theorem new_once (operation : Operation) (bucket : Nat) (version : BitVec 32) (onDisk : Bool) :
    (Request.new operation bucket version onDisk).Once :=
  ⟨Nat.le_refl 0, Nat.zero_le 1, fun h => absurd h (Nat.lt_irrefl 0), nofun⟩

theorem new_not_locked (operation : Operation) (bucket : Nat) (version : BitVec 32)
    (onDisk : Bool) : ¬ (Request.new operation bucket version onDisk).Locked :=
  Nat.lt_irrefl 0

/-- What the request holds of a lock. -/
def Request.held (q : Request) (b : Nat) : Nat :=
  if q.bucket = b then q.taken - q.undone else 0

def heldBy (requests : List Request) (b : Nat) : Nat :=
  (requests.map fun q => q.held b).sum

def Stage.guardOld : Stage → Nat
  | .inside old _ => old
  | _ => 0

def Stage.guardNew : Stage → Nat
  | .inside _ new => new
  | _ => 0

/-- The statuses with the unmarking are those of locked requests. -/
def Stage.Fits (q : Request) : Stage → Prop
  | .returned .success | .returned .notFound => ¬ q.Locked
  | .returned .successUnmark | .returned .notFoundUnmark => q.Locked
  | _ => True

def Job.heldOld (job : Job) (b : Nat) : Nat :=
  job.request.held b + if job.request.bucket = b then job.stage.guardOld else 0

def Job.heldNew (job : Job) (b : Nat) : Nat :=
  if job.request.bucket = b then job.stage.guardNew else 0

def Thread.heldOld (thread : Thread) (b : Nat) : Nat :=
  heldBy thread.current b + heldBy thread.previous b +
    thread.job.elim 0 fun job => job.heldOld b

def Thread.heldNew (thread : Thread) (b : Nat) : Nat :=
  thread.job.elim 0 fun job => job.heldNew b

theorem heldBy_append (l l' : List Request) (b : Nat) :
    heldBy (l ++ l') b = heldBy l b + heldBy l' b := by
  rw [heldBy, List.map_append, List.sum_append]
  rfl

theorem heldBy_cons (q : Request) (l : List Request) (b : Nat) :
    heldBy (q :: l) b = q.held b + heldBy l b :=
  rfl

theorem heldBy_eraseIdx (h : requests[i]? = some q) (b : Nat) :
    heldBy (requests.eraseIdx i) b + q.held b = heldBy requests b := by
  obtain ⟨hlt, rfl⟩ := List.getElem?_eq_some_iff.mp h
  have hperm := (List.getElem_cons_eraseIdx_perm hlt).map fun q : Request => q.held b
  have hsum := hperm.sum_eq
  rw [List.map_cons, List.sum_cons] at hsum
  unfold heldBy
  omega

theorem heldBy_eq_zero (h : ∀ q ∈ requests, ¬ q.Locked) (b : Nat) : heldBy requests b = 0 := by
  induction requests with
  | nil => rfl
  | cons q requests ih =>
      have hq := h q List.mem_cons_self
      rw [heldBy_cons, ih fun q' hq' => h q' (List.mem_cons_of_mem _ hq'), Request.held]
      unfold Request.Locked at hq
      split <;> omega

theorem held_eq_zero (h : ¬ q.Locked) (b : Nat) : q.held b = 0 := by
  unfold Request.Locked at h
  unfold Request.held
  split <;> omega

theorem Request.Once.take (h : q.Once) (hfree : ¬ q.Locked) (onDisk : Bool) :
    Request.Once { q with onDisk := onDisk, prepared := true, taken := q.taken + 1 } := by
  unfold Request.Locked at hfree
  have := h.undone_le
  refine ⟨?_, ?_, fun _ => rfl, fun _ => ?_⟩
  · change q.undone ≤ q.taken + 1
    omega
  · change q.taken + 1 ≤ q.undone + 1
    omega
  · change q.undone < q.taken + 1
    omega

theorem queued_take (h : q.Once) (hfree : ¬ q.Locked) (hphase : thread.phase = .prepare)
    (onDisk : Bool) : (thread.queued { q with taken := q.taken + 1 } onDisk).Once := by
  rw [Thread.queued, decide_eq_true hphase, Bool.or_true]
  exact h.take hfree onDisk

theorem queued_once (h : q.Once) (hphase : thread.phase ≠ .prepare) (onDisk : Bool) :
    (thread.queued q onDisk).Once := by
  rw [Thread.queued, decide_eq_false hphase, Bool.or_false]
  exact ⟨h.undone_le, h.taken_le, h.locked_iff⟩

theorem held_take (h : q.undone ≤ q.taken) (b : Nat) :
    Request.held { q with taken := q.taken + 1 } b = q.held b + if q.bucket = b then 1 else 0 := by
  by_cases hb : q.bucket = b
  · simp only [Request.held, if_pos hb]
    omega
  · simp only [Request.held, if_neg hb]

end Requests

section Locks

theorem tryLockOld_spec (h : tryLockOld locks b = some locks') (c : Nat) :
    (locks' c).oldLockCount = (locks c).oldLockCount + (if b = c then 1 else 0) ∧
      (locks' c).newLockCount = (locks c).newLockCount := by
  unfold tryLockOld at h
  split at h
  · next hnew =>
      cases h
      by_cases hc : b = c
      · subst c
        rw [Function.update_self, if_pos rfl]
        exact ⟨rfl, hnew.symm⟩
      · rw [Function.update_of_ne (Ne.symm hc), if_neg hc]
        exact ⟨rfl, rfl⟩
  · cases h

theorem tryLockNew_spec (h : tryLockNew locks b = some locks') (c : Nat) :
    (locks' c).oldLockCount = (locks c).oldLockCount ∧
      (locks' c).newLockCount = (locks c).newLockCount + if b = c then 1 else 0 := by
  unfold tryLockNew at h
  split at h
  · next hold =>
      cases h
      by_cases hc : b = c
      · subst c
        rw [Function.update_self, if_pos rfl]
        exact ⟨hold.symm, rfl⟩
      · rw [Function.update_of_ne (Ne.symm hc), if_neg hc]
        exact ⟨rfl, rfl⟩
  · cases h

theorem unlock_spec (locks : Nat → CheckpointLock) (b old new c : Nat) :
    (unlock locks b old new c).oldLockCount =
        (locks c).oldLockCount - (if b = c then old else 0) ∧
      (unlock locks b old new c).newLockCount =
        (locks c).newLockCount - if b = c then new else 0 := by
  unfold unlock
  by_cases hc : b = c
  · subst c
    rw [Function.update_self, if_pos rfl, if_pos rfl]
    exact ⟨rfl, rfl⟩
  · rw [Function.update_of_ne (Ne.symm hc), if_neg hc, if_neg hc]
    exact ⟨rfl, rfl⟩

theorem heldBy_prepared (requests : List Request) (b : Nat) :
    heldBy (requests.map Request.prepare) b = heldBy requests b := by
  rw [heldBy, List.map_map]
  rfl

/-- `MarkAllPendingRequests` takes one lock for each request, where no thread holds the
new version of one. -/
theorem markAllPendingRequests_spec (locks : Nat → CheckpointLock)
    (h : ∀ q ∈ requests, q.Once ∧ ¬ q.Locked)
    (hfree : ∀ q ∈ requests, (locks q.bucket).newLockCount = 0) :
    (∀ c, ((markAllPendingRequests locks requests).1 c).oldLockCount + heldBy requests c =
        (locks c).oldLockCount + heldBy (markAllPendingRequests locks requests).2 c ∧
      ((markAllPendingRequests locks requests).1 c).newLockCount = (locks c).newLockCount) ∧
    ∀ q ∈ (markAllPendingRequests locks requests).2, q.prepare.Once := by
  induction requests generalizing locks with
  | nil => exact ⟨fun _ => ⟨rfl, rfl⟩, fun _ hq => absurd hq List.not_mem_nil⟩
  | cons q requests ih =>
      obtain ⟨honce, hunlocked⟩ := h q List.mem_cons_self
      rw [markAllPendingRequests]
      cases hlock : tryLockOld locks q.bucket with
      | none =>
          rw [tryLockOld, if_pos (hfree q List.mem_cons_self)] at hlock
          cases hlock
      | some marked =>
          have hspec := tryLockOld_spec hlock
          obtain ⟨hcount, hmarked⟩ := ih marked (fun q' hq' => h q' (List.mem_cons_of_mem _ hq'))
            fun q' hq' => (hspec q'.bucket).2.trans (hfree q' (List.mem_cons_of_mem _ hq'))
          refine ⟨fun c => ⟨?_, (hcount c).2.trans (hspec c).2⟩,
            List.forall_mem_cons.mpr ⟨honce.take hunlocked q.onDisk, hmarked⟩⟩
          have := (hcount c).1
          have := (hspec c).1
          simp only [heldBy_cons, held_take honce.undone_le]
          omega

end Locks

section Invariant

def Late : Phase → Prop
  | .inProgress | .waitPending | .waitFlush | .persistenceCallback => True
  | _ => False

structure Job.Sound (job : Job) : Prop where
  once : job.request.Once
  fits : job.stage.Fits job.request

instance (phase : Phase) : Decidable (Late phase) :=
  match phase with
  | .inProgress | .waitPending | .waitFlush | .persistenceCallback => .isTrue trivial
  | .prepIndexChkpt | .indexChkpt | .prepare | .rest | .gcIoPending | .gcInProgress | .growPrepare
  | .growInProgress | .invalid => .isFalse id

structure Thread.Sound (thread : Thread) (v : BitVec 32) : Prop where
  current : ∀ q ∈ thread.current, q.Once ∧ (q.Locked → thread.phase = .prepare)
  previous : ∀ q ∈ thread.previous, q.Once ∧ (thread.waited = true → ¬ q.Locked)
  job : ∀ job, thread.job = some job → job.Sound
  -- a request that was taken in `PREPARE` is of the previous context by then
  continued : Late thread.phase → ∀ job, thread.job = some job → job.path = .continued →
    job.request.prepared = true → job.previous = true
  versions : if Late thread.phase then
      thread.version = v + 1 ∧ thread.previousVersion = v
    else thread.version = v
  early : ¬ Late thread.phase → thread.previous = [] ∧ thread.waited = false ∧
    ∀ job, thread.job = some job → job.previous = false

theorem no_job {P : Job → Prop} : ∀ job, (none : Option Job) = some job → P job :=
  fun _ h => (Option.not_mem_none _ h).elim

/-- Every lock that has been taken for a completed request has been undone once,
and all counts are zero when the locks are freed. -/
structure Balanced (x : System) : Prop where
  completed : ∀ q ∈ x.completed, q.taken = q.undone
  freed : x.freed = true → ∀ b, x.locks b = ⟨0, 0⟩

structure Inv (n : Nat) (v : BitVec 32) (x : System) : Prop where
  old : ∀ b, Counts n (fun t => (x.threads t).heldOld b) (x.locks b).oldLockCount
  new : ∀ b, Counts n (fun t => (x.threads t).heldNew b) (x.locks b).newLockCount
  threads : ∀ t, (x.threads t).Sound v
  balanced : Balanced x

theorem Inv.step (h : Inv n v x) (ht : t < n) (hthreads : y.threads = Function.update x.threads t th)
    (hsound : th.Sound v)
    (hold : ∀ b, (y.locks b).oldLockCount + (x.threads t).heldOld b =
      (x.locks b).oldLockCount + th.heldOld b)
    (hnew : ∀ b, (y.locks b).newLockCount + (x.threads t).heldNew b =
      (x.locks b).newLockCount + th.heldNew b)
    (hrun : y.freed = false) (hcompleted : ∀ q ∈ y.completed, q.taken = q.undone) : Inv n v y := by
  have hself : y.threads t = th := by
    rw [hthreads, Function.update_self]
  have hothers : ∀ u, u ≠ t → y.threads u = x.threads u := by
    intro u hu
    rw [hthreads, Function.update_of_ne hu]
  refine ⟨fun b => ?_, fun b => ?_, fun u => ?_, hcompleted, fun hfreed => ?_⟩
  · refine (h.old b).update ht (fun u hu => ?_) ?_
    · rw [hothers u hu]
    · rw [hself]
      exact hold b
  · refine (h.new b).update ht (fun u hu => ?_) ?_
    · rw [hothers u hu]
    · rw [hself]
      exact hnew b
  · by_cases hu : u = t
    · subst u
      rw [hself]
      exact hsound
    · rw [hothers u hu]
      exact h.threads u
  · rw [hrun] at hfreed
    cases hfreed

theorem Inv.keep (h : Inv n v x) (hrun : x.freed = false) (ht : t < n) (hsound : th.Sound v)
    (hold : ∀ b, th.heldOld b = (x.threads t).heldOld b)
    (hnew : ∀ b, th.heldNew b = (x.threads t).heldNew b) : Inv n v (x.setThread t th) := by
  refine h.step ht rfl hsound (fun b => ?_) (fun b => ?_) hrun h.balanced.completed
  · rw [hold b]
    rfl
  · rw [hnew b]
    rfl

theorem Thread.Sound.setJob (h : thread.Sound v) {job : Option Job}
    (hjob : ∀ j, job = some j → j.Sound ∧ (¬ Late thread.phase → j.previous = false) ∧
      (Late thread.phase → j.path = .continued → j.request.prepared = true →
        j.previous = true)) :
    Thread.Sound { thread with job := job } v where
  current := h.current
  previous := h.previous
  job := fun j hj => (hjob j hj).1
  continued := fun hlate j hj => (hjob j hj).2.2 hlate
  versions := h.versions
  early := fun hearly =>
    ⟨(h.early hearly).1, (h.early hearly).2.1, fun j hj => (hjob j hj).2.1 hearly⟩

theorem inv_start (v : BitVec 32) (pending : Nat → List (Operation × Nat × Bool)) :
    Inv n v (System.start v pending) := by
  have hfree : ∀ t, ∀ q ∈ ((System.start v pending).threads t).current,
      q.Once ∧ ¬ q.Locked := by
    intro t q hq
    obtain ⟨⟨operation, bucket, onDisk⟩, -, rfl⟩ := List.mem_map.mp hq
    exact ⟨new_once .., new_not_locked _ _ _ _⟩
  refine ⟨fun b => counts_zero fun t _ => ?_, fun b => counts_zero fun t _ => rfl, fun t => ?_,
    ⟨nofun, nofun⟩⟩
  · exact heldBy_eq_zero (fun q hq => (hfree t q hq).2) b
  · exact ⟨fun q hq => ⟨(hfree t q hq).1, fun hlocked => absurd hlocked (hfree t q hq).2⟩,
      fun _ hq => (List.not_mem_nil hq).elim, no_job, fun _ => no_job, rfl,
      fun _ => ⟨rfl, rfl, no_job⟩⟩

end Invariant

section Steps

/-- In which phases and versions a request completes: a `Read` or an `Rmw` that is
continued after its read, past `PREPARE` if it has been in a queue in `PREPARE`, and
else for the current context; an `Rmw` from `retry_requests`, in a version other
than its own just if it has been in a queue in `PREPARE`; any other, never having
been in a queue in `PREPARE`. -/
def Thread.InTime (thread : Thread) (job : Job) : Prop :=
  if job.path = .continued ∧ (job.request.operation = .read ∨ job.request.operation = .rmw) then
    if job.request.prepared then Late thread.phase else job.previous = false
  else if job.path = .retried ∧ job.request.operation = .rmw then
    (job.request.prepared = true ↔ job.request.version ≠ thread.version)
  else job.request.prepared = false

/-- A request is sent back only past `PREPARE`, and to the previous context, whose
requests the thread still waits for. -/
def Thread.SendsBack (thread : Thread) (job : Job) : Prop :=
  job.stage ≠ .returned .recordOnDisk ∧
    (job.stage = .returned .retryLater →
      thread.phase ≠ .prepare ∧ job.previous = true ∧ thread.waited = false)

def Thread.EntersPrepare (full : Bool) (thread : Thread) : Prop :=
  (SystemState.getNextState ⟨action full, thread.phase, thread.version⟩).map SystemState.phase =
    some .prepare

/-- Requests complete in time and are sent back in time; a thread enters `PREPARE`
while no bucket of its pending requests has a lock of the new version; and the locks
are freed when every thread has finished all phases and is inside no request that
has been in a queue in `PREPARE`, and under no guard. -/
def Orderly (full : Bool) (n : Nat) (x : System) : Move → Prop
  | .returns t status =>
      ∀ job ∈ (x.threads t).job, status = .success ∨ status = .notFound →
        (x.threads t).InTime job
  | .handle t =>
      ∀ job ∈ (x.threads t).job, job.request.prepared = true → (x.threads t).SendsBack job
  | .refresh t =>
      (x.threads t).EntersPrepare full →
        ∀ q ∈ (x.threads t).current, (x.locks q.bucket).newLockCount = 0
  | .free =>
      ∀ t < n, (x.threads t).phase = .persistenceCallback ∧ (x.threads t).waited = true ∧
        ∀ job ∈ (x.threads t).job, job.request.prepared = false ∧ job.stage.guardOld = 0 ∧
          job.stage.guardNew = 0
  | _ => True

instance (thread : Thread) (job : Job) : Decidable (thread.InTime job) :=
  inferInstanceAs (Decidable (if job.path = .continued ∧
      (job.request.operation = .read ∨ job.request.operation = .rmw) then
    if job.request.prepared then Late thread.phase else job.previous = false
  else if job.path = .retried ∧ job.request.operation = .rmw then
    (job.request.prepared = true ↔ job.request.version ≠ thread.version)
  else job.request.prepared = false))

instance (full : Bool) (n : Nat) (x : System) (move : Move) :
    Decidable (Orderly full n x move) := by
  cases move with
  | returns t status =>
      exact inferInstanceAs (Decidable (∀ job ∈ (x.threads t).job,
        status = .success ∨ status = .notFound → (x.threads t).InTime job))
  | handle t =>
      exact inferInstanceAs (Decidable (∀ job ∈ (x.threads t).job,
        job.request.prepared = true → job.stage ≠ .returned .recordOnDisk ∧
        (job.stage = .returned .retryLater → (x.threads t).phase ≠ .prepare ∧
          job.previous = true ∧ (x.threads t).waited = false)))
  | refresh t =>
      exact inferInstanceAs (Decidable ((SystemState.getNextState
        ⟨action full, (x.threads t).phase, (x.threads t).version⟩).map SystemState.phase =
          some .prepare →
        ∀ q ∈ (x.threads t).current, (x.locks q.bucket).newLockCount = 0))
  | free =>
      exact inferInstanceAs (Decidable (∀ t < n, (x.threads t).phase = .persistenceCallback ∧
        (x.threads t).waited = true ∧ ∀ job ∈ (x.threads t).job, job.request.prepared = false ∧
          job.stage.guardOld = 0 ∧ job.stage.guardNew = 0))
  | call | take | lockOld | lockNew | retryNow | finishWaitPending =>
      exact .isTrue trivial

/-- The comparisons find the requests that are locked. -/
theorem unmarks_iff (h : thread.Sound v) (hv : v + 1 ≠ 0) (hjob : thread.job = some job)
    (hintime : thread.InTime job) :
    job.request.prepared = true ↔ thread.unmarks job = true := by
  have hversions := h.versions
  have hcontinued : ∀ hpath : job.path = .continued,
      (if job.request.prepared then Late thread.phase else job.previous = false) →
      (job.request.prepared = true ↔ thread.version ≠ thread.ownerVersion job) ∧
        (job.request.prepared = true ↔ thread.version > thread.ownerVersion job) := by
    intro hpath htime
    by_cases hprepared : job.request.prepared = true
    · rw [if_pos hprepared] at htime
      rw [if_pos htime] at hversions
      rw [Thread.ownerVersion, if_pos (h.continued htime job hjob hpath hprepared), hversions.1,
        hversions.2]
      constructor
      · simp only [hprepared, true_iff]
        bv_omega
      · simp only [hprepared, true_iff]
        bv_omega
    · rw [if_neg hprepared] at htime
      rw [Thread.ownerVersion, htime, if_neg Bool.false_ne_true]
      constructor
      · simp only [hprepared, ne_eq, not_true_eq_false, Bool.false_eq_true]
      · simp only [hprepared, gt_iff_lt, BitVec.lt_irrefl, Bool.false_eq_true]
  simp only [Thread.InTime] at hintime
  simp only [Thread.unmarks]
  split
  · next hpath hop =>
      rw [if_pos ⟨hpath, Or.inl hop⟩] at hintime
      rw [decide_eq_true_eq]
      exact (hcontinued hpath hintime).2
  · next hpath hop =>
      rw [if_pos ⟨hpath, Or.inr hop⟩] at hintime
      rw [decide_eq_true_eq]
      exact (hcontinued hpath hintime).1
  · next hpath hop =>
      rw [if_neg (by simp [hpath]), if_pos ⟨hpath, hop⟩] at hintime
      rw [decide_eq_true_eq]
      exact hintime
  · next hread hrmw hretried =>
      rw [if_neg (fun h => h.2.elim (hread h.1) (hrmw h.1)), if_neg fun h => hretried h.1 h.2]
        at hintime
      rw [hintime]

theorem goAsync_held (thread : Thread) (job : Job) (status : Faster.OperationStatus) (b : Nat) :
    (thread.goAsync job status).held b = job.request.held b ∧
      (thread.goAsync job status).bucket = job.request.bucket ∧
      ((thread.goAsync job status).Locked ↔ job.request.Locked) ∧
      (job.request.Once → (thread.goAsync job status).Once) ∧
      (thread.goAsync job status).prepared = job.request.prepared := by
  have hsame : ∀ version, Request.held { job.request with version := version } b =
      job.request.held b := fun _ => rfl
  unfold Thread.goAsync
  split
  · split
    · exact ⟨rfl, rfl, Iff.rfl, id, rfl⟩
    · exact ⟨rfl, rfl, Iff.rfl, fun h => ⟨h.undone_le, h.taken_le, h.locked_iff⟩, rfl⟩
  · split
    · exact ⟨rfl, rfl, Iff.rfl, id, rfl⟩
    · exact ⟨rfl, rfl, Iff.rfl, fun h => ⟨h.undone_le, h.taken_le, h.locked_iff⟩, rfl⟩
  · split
    · exact ⟨rfl, rfl, Iff.rfl, id, rfl⟩
    · exact ⟨rfl, rfl, Iff.rfl, fun h => ⟨h.undone_le, h.taken_le, h.locked_iff⟩, rfl⟩
  · exact ⟨rfl, rfl, Iff.rfl, id, rfl⟩

theorem heldOld_begin {previous : Bool} {path : Path} :
    Job.heldOld ⟨q, previous, path, .inside 0 0⟩ b = q.held b := by
  simp only [Job.heldOld, Stage.guardOld, ite_self, Nat.add_zero]

theorem heldNew_begin {previous : Bool} {path : Path} :
    Job.heldNew ⟨q, previous, path, .inside 0 0⟩ b = 0 := by
  simp only [Job.heldNew, Stage.guardNew, ite_self]

theorem Inv.call {operation : Operation} {bucket : Nat} {version : BitVec 32} (h : Inv n v x)
    (hrun : x.freed = false) (ht : t < n) (hjob : (x.threads t).job = none) :
    Inv n v (x.setThread t { x.threads t with
      job := some ⟨.new operation bucket version false, false, .called, .inside 0 0⟩ }) := by
  refine h.keep hrun ht ((h.threads t).setJob ?_) (fun b => ?_) fun b => ?_
  · rintro j ⟨⟩
    exact ⟨⟨new_once .., trivial⟩, fun _ => rfl, fun _ => nofun⟩
  · simp only [Thread.heldOld, hjob, Option.elim, heldOld_begin,
      held_eq_zero (new_not_locked _ _ _ _)]
  · simp only [Thread.heldNew, hjob, Option.elim, heldNew_begin]

theorem Inv.take {previous onDisk : Bool} (h : Inv n v x) (hrun : x.freed = false) (ht : t < n)
    (hjob : (x.threads t).job = none)
    (htake : (x.threads t).take previous onDisk i = some th) : Inv n v (x.setThread t th) := by
  have hthread := h.threads t
  simp only [Thread.take] at htake
  split at htake
  · cases htake
  · next q hq =>
      split at htake
      · cases htake
        cases previous with
        | true =>
            simp only [if_true] at hq ⊢
            have hmem := List.mem_of_getElem? hq
            have hsum := heldBy_eraseIdx hq
            refine h.keep hrun ht ⟨hthread.current, fun q' hq' => ?_, ?_, fun _ => ?_,
              hthread.versions, fun hearly => ?_⟩ (fun b => ?_) fun b => ?_
            · exact hthread.previous q' (List.mem_of_mem_eraseIdx hq')
            · rintro j ⟨⟩
              exact ⟨(hthread.previous q hmem).1, trivial⟩
            · rintro j ⟨⟩ - -
              rfl
            · rw [(hthread.early hearly).1] at hmem
              cases hmem
            · have := hsum b
              simp only [Thread.heldOld, hjob, Option.elim, heldOld_begin]
              omega
            · simp only [Thread.heldNew, hjob, Option.elim, heldNew_begin]
        | false =>
            simp only [Bool.false_eq_true, if_false] at hq ⊢
            have hmem := List.mem_of_getElem? hq
            have hsum := heldBy_eraseIdx hq
            refine h.keep hrun ht ⟨fun q' hq' => ?_, hthread.previous, ?_, fun hlate => ?_,
              hthread.versions, fun hearly => ?_⟩ (fun b => ?_) fun b => ?_
            · exact hthread.current q' (List.mem_of_mem_eraseIdx hq')
            · rintro j ⟨⟩
              exact ⟨(hthread.current q hmem).1, trivial⟩
            · rintro j ⟨⟩ - hprepared
              have hq := hthread.current q hmem
              have hphase : (x.threads t).phase = .prepare := hq.2 (hq.1.locked_iff.mpr hprepared)
              have hlate' : Late (x.threads t).phase := hlate
              rw [hphase] at hlate'
              exact hlate'.elim
            · refine ⟨(hthread.early hearly).1, (hthread.early hearly).2.1, ?_⟩
              rintro j ⟨⟩
              rfl
            · have := hsum b
              simp only [Thread.heldOld, hjob, Option.elim, heldOld_begin]
              omega
            · simp only [Thread.heldNew, hjob, Option.elim, heldNew_begin]
      · cases htake

theorem Thread.Sound.replaceJob {job' : Job} (h : thread.Sound v) (hjob : thread.job = some job)
    (hsound : job'.Sound) (hprevious : job'.previous = job.previous)
    (hpath : job'.path = .continued → job.path = .continued)
    (hprepared : job'.request.prepared = job.request.prepared) :
    Thread.Sound { thread with job := some job' } v := by
  refine h.setJob ?_
  rintro j ⟨⟩
  exact ⟨hsound, fun hearly => hprevious.trans ((h.early hearly).2.2 job hjob),
    fun hlate hp hq => hprevious.trans (h.continued hlate job hjob (hpath hp) (hprepared ▸ hq))⟩

theorem Inv.lockOld {previous : Bool} {path : Path} (h : Inv n v x) (hrun : x.freed = false)
    (ht : t < n) (hjob : (x.threads t).job = some ⟨q, previous, path, .inside old new⟩)
    (hlock : tryLockOld x.locks q.bucket = some locks) :
    Inv n v ({ x with locks := locks }.setThread t { x.threads t with
      job := some ⟨q, previous, path, .inside (old + 1) new⟩ }) := by
  have hthread := h.threads t
  have honce := (hthread.job _ hjob).once
  have hspec := tryLockOld_spec hlock
  refine h.step ht rfl (hthread.replaceJob hjob ⟨honce, trivial⟩ rfl id rfl) (fun b => ?_)
    (fun b => ?_) hrun h.balanced.completed
  · simp only [System.setThread, Thread.heldOld, hjob, Option.elim, Job.heldOld, Stage.guardOld,
      (hspec b).1]
    by_cases hb : q.bucket = b
    · simp only [if_pos hb]
      omega
    · simp only [if_neg hb]
      omega
  · have := (hspec b).2
    simp only [System.setThread, Thread.heldNew, hjob, Option.elim, Job.heldNew, Stage.guardNew]
    omega

theorem Inv.lockNew {previous : Bool} {path : Path} (h : Inv n v x) (hrun : x.freed = false)
    (ht : t < n) (hjob : (x.threads t).job = some ⟨q, previous, path, .inside old new⟩)
    (hlock : tryLockNew x.locks q.bucket = some locks) :
    Inv n v ({ x with locks := locks }.setThread t { x.threads t with
      job := some ⟨q, previous, path, .inside old (new + 1)⟩ }) := by
  have hthread := h.threads t
  have honce := (hthread.job _ hjob).once
  have hspec := tryLockNew_spec hlock
  refine h.step ht rfl (hthread.replaceJob hjob ⟨honce, trivial⟩ rfl id rfl) (fun b => ?_)
    (fun b => ?_) hrun h.balanced.completed
  · have := (hspec b).1
    simp only [System.setThread, Thread.heldOld, hjob, Option.elim, Job.heldOld, Stage.guardOld]
    omega
  · simp only [System.setThread, Thread.heldNew, hjob, Option.elim, Job.heldNew, Stage.guardNew,
      (hspec b).2]
    by_cases hb : q.bucket = b
    · simp only [if_pos hb]
      omega
    · simp only [if_neg hb]

theorem Inv.guard_le (h : Inv n v x) (ht : t < n) (hjob : (x.threads t).job = some job) (b : Nat) :
    job.heldOld b ≤ (x.locks b).oldLockCount ∧ job.heldNew b ≤ (x.locks b).newLockCount := by
  have hold := (h.old b).le ht
  have hnew := (h.new b).le ht
  simp only [Thread.heldOld, Thread.heldNew, hjob, Option.elim] at hold hnew
  omega

theorem Inv.returns {previous : Bool} {path : Path} {status : Faster.OperationStatus}
    (h : Inv n v x) (hv : v + 1 ≠ 0) (hrun : x.freed = false) (ht : t < n)
    (hjob : (x.threads t).job = some ⟨q, previous, path, .inside old new⟩)
    (hok : Orderly full n x (.returns t status)) :
    Inv n v ({ x with locks := unlock x.locks q.bucket old new }.setThread t { x.threads t with
      job := some ⟨(x.threads t).goAsync ⟨q, previous, path, .inside old new⟩ status, previous,
        path, .returned ((x.threads t).status ⟨q, previous, path, .inside old new⟩ status)⟩ }) := by
  have hthread := h.threads t
  have honce := (hthread.job _ hjob).once
  have hunmarks : status = .success ∨ status = .notFound →
      (q.Locked ↔ (x.threads t).unmarks ⟨q, previous, path, .inside old new⟩ = true) :=
    fun hdone => honce.locked_iff.trans (unmarks_iff hthread hv hjob (hok _ hjob hdone))
  have hasync := goAsync_held (x.threads t) ⟨q, previous, path, .inside old new⟩ status
  have hguard := h.guard_le ht hjob
  refine h.step ht rfl (hthread.replaceJob hjob ⟨(hasync 0).2.2.2.1 honce, ?_⟩ rfl id
    (hasync 0).2.2.2.2) (fun b => ?_) (fun b => ?_) hrun h.balanced.completed
  · have hlocked := (hasync 0).2.2.1
    cases status with
    | success =>
        have hiff := hunmarks (Or.inl rfl)
        simp only [Thread.status]
        split
        · next hmarks => exact hlocked.mpr (hiff.mpr hmarks)
        · next hmarks => exact fun hl => hmarks (hiff.mp (hlocked.mp hl))
    | notFound =>
        have hiff := hunmarks (Or.inr rfl)
        simp only [Thread.status]
        split
        · next hmarks => exact hlocked.mpr (hiff.mpr hmarks)
        · next hmarks => exact fun hl => hmarks (hiff.mp (hlocked.mp hl))
    | retryNow | retryLater | recordOnDisk | cprShiftDetected => trivial
  · have hle := (hguard b).1
    simp only [Job.heldOld, Stage.guardOld] at hle
    simp only [System.setThread, Thread.heldOld, hjob, Option.elim, Job.heldOld, Stage.guardOld,
      (hasync b).1, ite_self, (unlock_spec x.locks q.bucket old new b).1]
    by_cases hb : q.bucket = b
    · simp only [if_pos hb] at hle ⊢
      omega
    · simp only [if_neg hb]
      omega
  · have hle := (hguard b).2
    simp only [Job.heldNew, Stage.guardNew] at hle
    simp only [System.setThread, Thread.heldNew, hjob, Option.elim, Job.heldNew, Stage.guardNew,
      ite_self, (unlock_spec x.locks q.bucket old new b).2]
    by_cases hb : q.bucket = b
    · simp only [if_pos hb] at hle ⊢
      omega
    · simp only [if_neg hb]
      omega

theorem heldBy_snoc (l : List Request) (q : Request) (b : Nat) :
    heldBy (l ++ [q]) b = heldBy l b + q.held b := by
  rw [heldBy_append, heldBy_cons]
  rfl

theorem Thread.Sound.issue (h : thread.Sound v) (honce : (thread.queued q true).Once)
    (hlocked : q.Locked → thread.phase = .prepare) : (thread.issue q).Sound v where
  current := by
    intro q' hq'
    rcases List.mem_append.mp hq' with hq' | hq'
    · exact h.current q' hq'
    · cases List.mem_singleton.mp hq'
      exact ⟨honce, hlocked⟩
  previous := h.previous
  job := no_job
  continued := fun _ => no_job
  versions := h.versions
  early := fun hearly => ⟨(h.early hearly).1, (h.early hearly).2.1, no_job⟩

theorem Thread.Sound.retryLater {previous : Bool} (h : thread.Sound v)
    (honce : (thread.queued q false).Once)
    (hcurrent : previous = false → q.Locked → thread.phase = .prepare)
    (hprevious : previous = true → Late thread.phase ∧ (q.Locked → thread.waited = false)) :
    (thread.retryLater previous q).Sound v := by
  cases previous with
  | true =>
      obtain ⟨hlate, hwaited⟩ := hprevious rfl
      refine ⟨h.current, fun q' hq' => ?_, no_job, fun _ => no_job, h.versions,
        fun hearly => absurd hlate hearly⟩
      rcases List.mem_append.mp hq' with hq' | hq'
      · exact h.previous q' hq'
      · cases List.mem_singleton.mp hq'
        refine ⟨honce, fun hdone hl => ?_⟩
        have htrue : thread.waited = true := hdone
        rw [hwaited hl] at htrue
        cases htrue
  | false =>
      refine ⟨fun q' hq' => ?_, h.previous, no_job, fun _ => no_job, h.versions, fun hearly =>
        ⟨(h.early hearly).1, (h.early hearly).2.1, no_job⟩⟩
      rcases List.mem_append.mp hq' with hq' | hq'
      · exact h.current q' hq'
      · cases List.mem_singleton.mp hq'
        exact ⟨honce, hcurrent rfl⟩

theorem heldOld_issue (q : Request) (b : Nat) :
    (thread.issue q).heldOld b = heldBy thread.current b + heldBy thread.previous b + q.held b := by
  simp only [Thread.issue, Thread.heldOld, Option.elim, heldBy_snoc]
  change _ + q.held b + _ + 0 = _
  omega

theorem heldOld_retryLater (previous : Bool) (q : Request) (b : Nat) :
    (thread.retryLater previous q).heldOld b =
      heldBy thread.current b + heldBy thread.previous b + q.held b := by
  cases previous with
  | true =>
      simp only [Thread.retryLater, if_true, Thread.heldOld, Option.elim, heldBy_snoc]
      change _ + (_ + q.held b) + 0 = _
      omega
  | false =>
      simp only [Thread.retryLater, Bool.false_eq_true, if_false, Thread.heldOld, Option.elim,
        heldBy_snoc]
      change _ + q.held b + _ + 0 = _
      omega

theorem heldNew_retryLater (previous : Bool) (q : Request) (b : Nat) :
    (thread.retryLater previous q).heldNew b = 0 := by
  cases previous <;> rfl

theorem heldOld_returned {previous : Bool} {path : Path} {status : OperationStatus}
    (hjob : thread.job = some ⟨q, previous, path, .returned status⟩) (b : Nat) :
    thread.heldOld b = heldBy thread.current b + heldBy thread.previous b + q.held b ∧
      thread.heldNew b = 0 := by
  simp only [Thread.heldOld, Thread.heldNew, hjob, Option.elim, Job.heldOld, Job.heldNew,
    Stage.guardOld, Stage.guardNew, ite_self, Nat.add_zero, and_self]

theorem Inv.complete {previous : Bool} {path : Path} {status : OperationStatus}
    {locks : Nat → CheckpointLock} (h : Inv n v x) (hrun : x.freed = false) (ht : t < n)
    (hjob : (x.threads t).job = some ⟨q, previous, path, .returned status⟩)
    (hdone : q'.taken = q'.undone)
    (hold : ∀ b, (locks b).oldLockCount + q.held b = (x.locks b).oldLockCount)
    (hnew : ∀ b, (locks b).newLockCount = (x.locks b).newLockCount) :
    Inv n v ({ x with locks := locks }.complete t (x.threads t) q') := by
  refine h.step ht rfl ((h.threads t).setJob no_job) (fun b => ?_) (fun b => ?_) hrun ?_
  · have := hold b
    have := (heldOld_returned hjob b).1
    simp only [System.complete, System.setThread, Thread.heldOld, Option.elim] at *
    omega
  · have := hnew b
    have := (heldOld_returned hjob b).2
    simp only [System.complete, System.setThread, Thread.heldNew, Option.elim] at *
    omega
  · exact List.forall_mem_cons.mpr ⟨hdone, h.balanced.completed⟩

theorem Inv.enqueue {previous : Bool} {path : Path} {status : OperationStatus}
    {locks : Nat → CheckpointLock} (h : Inv n v x) (q' : Request) (hrun : x.freed = false)
    (ht : t < n) (hjob : (x.threads t).job = some ⟨q, previous, path, .returned status⟩)
    (hsound : th.Sound v)
    (hth : ∀ b, th.heldOld b = heldBy (x.threads t).current b + heldBy (x.threads t).previous b +
      q'.held b ∧ th.heldNew b = 0)
    (hold : ∀ b, (locks b).oldLockCount + q.held b = (x.locks b).oldLockCount + q'.held b)
    (hnew : ∀ b, (locks b).newLockCount = (x.locks b).newLockCount) :
    Inv n v ({ x with locks := locks }.setThread t th) := by
  refine h.step ht rfl hsound (fun b => ?_) (fun b => ?_) hrun h.balanced.completed
  · have := hold b
    have := (heldOld_returned hjob b).1
    have := (hth b).1
    simp only [System.setThread] at *
    omega
  · have := hnew b
    have := (heldOld_returned hjob b).2
    have := (hth b).2
    simp only [System.setThread] at *
    omega

theorem Inv.rerun {previous : Bool} {path : Path} {status : OperationStatus}
    (h : Inv n v x) (path' : Path) (hpath : path' = .continued → path = .continued)
    (hrun : x.freed = false) (ht : t < n)
    (hjob : (x.threads t).job = some ⟨q, previous, path, .returned status⟩)
    (hstage : stage = .inside 0 0 ∨ stage = .pivoting) :
    Inv n v (x.setThread t { x.threads t with job := some ⟨q, previous, path', stage⟩ }) := by
  have hthread := h.threads t
  have honce := (hthread.job _ hjob).once
  have hheld := heldOld_returned hjob
  have hguard : stage.guardOld = 0 ∧ stage.guardNew = 0 ∧ stage.Fits q := by
    rcases hstage with rfl | rfl
    · exact ⟨rfl, rfl, trivial⟩
    · exact ⟨rfl, rfl, trivial⟩
  refine h.keep hrun ht (hthread.replaceJob hjob ⟨honce, hguard.2.2⟩ rfl hpath rfl)
    (fun b => ?_) fun b => ?_
  · rw [(hheld b).1]
    simp only [Thread.heldOld, Option.elim, Job.heldOld, hguard.1, ite_self, Nat.add_zero]
  · rw [(hheld b).2]
    simp only [Thread.heldNew, Option.elim, Job.heldNew, hguard.2.1, ite_self]

theorem Inv.handle {previous : Bool} {path : Path} {status : OperationStatus} (h : Inv n v x)
    (hrun : x.freed = false) (ht : t < n)
    (hjob : (x.threads t).job = some ⟨q, previous, path, .returned status⟩)
    (hok : Orderly full n x (.handle t)) :
    Inv n v (x.handleOperationStatus t ⟨q, previous, path, .returned status⟩ status) := by
  have hthread := h.threads t
  have honce : q.Once := (hthread.job _ hjob).once
  have hfits : Stage.Fits q (.returned status) := (hthread.job _ hjob).fits
  have hcond : q.Locked → (x.threads t).SendsBack ⟨q, previous, path, .returned status⟩ :=
    fun hl => hok _ hjob (honce.locked_iff.mp hl)
  have hpivot := h.rerun path id hrun ht hjob (Or.inr rfl)
  have hearly : previous = true → Late (x.threads t).phase := by
    rintro rfl
    by_contra hlate
    have hfalse := (hthread.early hlate).2.2 _ hjob
    cases hfalse
  have hle := honce.undone_le
  have hle' := honce.taken_le
  -- the request without a lock of its own
  have hfree : ¬ q.Locked → q.taken = q.undone := by
    unfold Request.Locked
    omega
  cases status with
  | success | notFound =>
      refine h.complete hrun ht hjob (hfree hfits) (fun b => ?_) fun b => rfl
      rw [held_eq_zero hfits]
      rfl
  | successUnmark | notFoundUnmark =>
      have hlocked : q.undone < q.taken := hfits
      have hcount := fun b => (h.guard_le ht hjob b).1
      simp only [Job.heldOld, Stage.guardOld, ite_self, Nat.add_zero, Request.held] at hcount
      refine h.complete hrun ht hjob (by change q.taken = q.undone + 1; omega) (fun b => ?_)
        fun b => ?_
      · have := hcount b
        rw [(unlock_spec x.locks q.bucket 1 0 b).1, Request.held]
        by_cases hb : q.bucket = b
        · simp only [if_pos hb] at this ⊢
          omega
        · simp only [if_neg hb]
          omega
      · rw [(unlock_spec x.locks q.bucket 1 0 b).2, ite_self]
        rfl
  | retryNow => exact h.rerun .again nofun hrun ht hjob (Or.inl rfl)
  | cprShiftDetected => exact hpivot
  | retryLater =>
      simp only [System.handleOperationStatus]
      by_cases hphase : (x.threads t).phase = .prepare
      · rw [if_pos hphase]
        have hunlocked : ¬ q.Locked := fun hl => ((hcond hl).2 rfl).1 hphase
        have hcurrent : previous = false := by
          cases previous with
          | false => rfl
          | true =>
              have hlate := hearly rfl
              rw [hphase] at hlate
              exact hlate.elim
        split
        · exact hpivot
        · next locks hlock =>
            have hspec := tryLockOld_spec hlock
            refine h.enqueue { q with taken := q.taken + 1 } hrun ht hjob
              (hthread.retryLater (queued_take honce hunlocked hphase false) (fun _ _ => hphase) ?_)
              (fun b => ⟨heldOld_retryLater .., heldNew_retryLater ..⟩) (fun b => ?_)
              fun b => (hspec b).2
            · intro htrue
              rw [hcurrent] at htrue
              cases htrue
            · rw [(hspec b).1, held_take hle]
              omega
      · rw [if_neg hphase]
        refine h.enqueue q hrun ht hjob
          (hthread.retryLater (queued_once honce hphase false) ?_ ?_)
          (fun b => ⟨heldOld_retryLater .., heldNew_retryLater ..⟩) (fun b => rfl) fun b => rfl
        · intro hcurrent hl
          have htrue := ((hcond hl).2 rfl).2.1
          rw [hcurrent] at htrue
          cases htrue
        · exact fun htrue => ⟨hearly htrue, fun hl => ((hcond hl).2 rfl).2.2⟩
  | recordOnDisk =>
      have hunlocked : ¬ q.Locked := fun hl => (hcond hl).1 rfl
      simp only [System.handleOperationStatus]
      by_cases hphase : (x.threads t).phase = .prepare
      · rw [if_pos hphase]
        split
        · exact hpivot
        · next locks hlock =>
            have hspec := tryLockOld_spec hlock
            refine h.enqueue { q with taken := q.taken + 1 } hrun ht hjob
              (hthread.issue (queued_take honce hunlocked hphase true) fun _ => hphase)
              (fun b => ⟨heldOld_issue .., rfl⟩) (fun b => ?_) fun b => (hspec b).2
            rw [(hspec b).1, held_take hle]
            omega
      · rw [if_neg hphase]
        exact h.enqueue q hrun ht hjob
          (hthread.issue (queued_once honce hphase true) fun hl => absurd hl hunlocked)
          (fun b => ⟨heldOld_issue .., rfl⟩) (fun b => rfl) fun b => rfl

theorem Inv.retryNow {previous : Bool} {path : Path} {version : BitVec 32} (h : Inv n v x)
    (hrun : x.freed = false) (ht : t < n)
    (hjob : (x.threads t).job = some ⟨q, previous, path, .pivoting⟩) :
    Inv n v (x.setThread t { x.threads t with
      job := some ⟨{ q with version := version }, false, .again, .inside 0 0⟩ }) := by
  have hthread := h.threads t
  have honce := (hthread.job _ hjob).once
  refine h.keep hrun ht (hthread.setJob ?_) (fun b => ?_) fun b => ?_
  · rintro j ⟨⟩
    exact ⟨⟨⟨honce.undone_le, honce.taken_le, honce.locked_iff⟩, trivial⟩, fun _ => rfl,
      fun _ => nofun⟩
  · simp only [Thread.heldOld, hjob, Option.elim, Job.heldOld, Stage.guardOld, ite_self,
      Nat.add_zero]
    rfl
  · simp only [Thread.heldNew, hjob, Option.elim, Job.heldNew, Stage.guardNew, ite_self]

theorem next_phase {p : Phase} {version : BitVec 32} {current : SystemState}
    (h : SystemState.getNextState ⟨action full, p, version⟩ = some current)
    (hlast : p ≠ .persistenceCallback) :
    (Late p → Late current.phase) ∧ (p = .prepare ↔ current.phase = .inProgress) ∧
      (current.phase = .prepare → ¬ Late p) ∧
      (current.phase = .inProgress → current.version = version + 1) ∧
      (current.phase ≠ .inProgress → Late current.phase → Late p) := by
  cases full <;> cases p <;> simp [action, SystemState.getNextState] at h hlast
  all_goals
    subst h
    simp [Late]

theorem Inv.refresh (h : Inv n v x) (hrun : x.freed = false) (ht : t < n)
    (hok : Orderly full n x (.refresh t)) (hstep : x.refresh full t = some y) : Inv n v y := by
  have hthread := h.threads t
  simp only [System.refresh] at hstep
  split at hstep
  · cases hstep
  · next hlast =>
      split at hstep
      · cases hstep
      · next current hnext =>
          obtain ⟨hlate, hswap, hprepare, hversion, hback⟩ := next_phase hnext hlast
          split at hstep
          · next hphase =>
              cases hstep
              have hearly := hthread.early (hprepare hphase)
              have hne : (x.threads t).phase ≠ .prepare := by
                intro heq
                rw [hswap.mp heq] at hphase
                cases hphase
              have henters : (x.threads t).EntersPrepare full := by
                rw [Thread.EntersPrepare, hnext]
                exact congrArg some hphase
              have hversions := hthread.versions
              rw [if_neg (hprepare hphase)] at hversions
              obtain ⟨hcount, honce⟩ := markAllPendingRequests_spec x.locks
                (fun q hq => ⟨(hthread.current q hq).1, fun hl => hne ((hthread.current q hq).2 hl)⟩)
                (hok henters)
              refine h.step ht rfl ⟨fun q hq => ?_, hthread.previous, hthread.job, False.elim,
                hversions, fun _ => hearly⟩ (fun b => ?_) (fun b => ?_) hrun h.balanced.completed
              · obtain ⟨q', hq', rfl⟩ := List.mem_map.mp hq
                exact ⟨honce q' hq', fun _ => rfl⟩
              · have := (hcount b).1
                simp only [System.setThread, Thread.heldOld, heldBy_prepared]
                omega
              · have := (hcount b).2
                simp only [System.setThread, Thread.heldNew]
                omega
          · next hphase =>
              cases hstep
              have hprepared := hswap.mpr hphase
              have hnot : ¬ Late (x.threads t).phase := by
                rw [hprepared]
                exact id
              have hversions := hthread.versions
              rw [if_neg hnot] at hversions
              obtain ⟨hprevious, hwaited, hjobs⟩ := hthread.early hnot
              refine h.keep hrun ht ⟨nofun, fun q hq => ⟨(hthread.current q hq).1, ?_⟩, ?_,
                fun _ => ?_, ⟨hversions ▸ hversion hphase, hversions⟩,
                fun hearly => absurd trivial hearly⟩ (fun b => ?_) fun b => ?_
              · rw [hwaited]
                exact nofun
              · intro j hj
                obtain ⟨j', hj', rfl⟩ := Option.map_eq_some_iff.mp hj
                exact ⟨(hthread.job j' hj').once, (hthread.job j' hj').fits⟩
              · intro j hj hpath _
                obtain ⟨j', hj', rfl⟩ := Option.map_eq_some_iff.mp hj
                have hcontinued : j'.path = .continued := hpath
                exact decide_eq_true (by rw [hcontinued]; exact Path.noConfusion)
              · simp only [Thread.heldOld, hprevious]
                cases (x.threads t).job with
                | none => exact congrArg (· + 0) (Nat.add_comm ..)
                | some j => exact congrArg (· + _) (Nat.add_comm ..)
              · simp only [Thread.heldNew]
                cases (x.threads t).job <;> rfl
          · next hnotPrepare hnotSwap =>
              cases hstep
              have hsame : Late current.phase ↔ Late (x.threads t).phase :=
                ⟨hback hnotSwap, hlate⟩
              refine h.keep hrun ht ⟨fun q hq => ⟨(hthread.current q hq).1, fun hl => ?_⟩,
                hthread.previous, hthread.job, fun hl => hthread.continued (hsame.mp hl), ?_,
                fun hearly => hthread.early fun hl => hearly (hlate hl)⟩ (fun b => rfl) fun b => rfl
              · exact absurd (hswap.mp ((hthread.current q hq).2 hl)) hnotSwap
              · have hversions := hthread.versions
                by_cases hl : Late (x.threads t).phase
                · rw [if_pos hl] at hversions
                  rwa [if_pos (hlate hl)]
                · rw [if_neg hl] at hversions
                  rwa [if_neg fun hl' => hl (hsame.mp hl')]

theorem Inv.finishWaitPending (h : Inv n v x) (hrun : x.freed = false) (ht : t < n)
    (hphase : (x.threads t).phase = .waitPending) (hprevious : (x.threads t).previous = []) :
    Inv n v (x.setThread t { x.threads t with waited := true }) := by
  have hthread := h.threads t
  refine h.keep hrun ht ⟨hthread.current, ?_, hthread.job, hthread.continued, hthread.versions,
    fun hearly => ?_⟩ (fun b => rfl) fun b => rfl
  · rw [hprevious]
    exact nofun
  · rw [hphase] at hearly
    exact absurd trivial hearly

theorem Inv.free (h : Inv n v x) (hok : Orderly full n x .free) :
    Inv n v { x with freed := true } := by
  refine ⟨h.old, h.new, h.threads, h.balanced.completed, fun _ b => ?_⟩
  have hold : (x.locks b).oldLockCount = 0 := by
    refine (h.old b).eq_zero fun t ht => ?_
    have hthread := h.threads t
    obtain ⟨hphase, hwaited, hjobs⟩ := hok t ht
    have hcurrent : heldBy (x.threads t).current b = 0 := by
      refine heldBy_eq_zero (fun q hq hl => ?_) b
      have heq := (hthread.current q hq).2 hl
      rw [hphase] at heq
      cases heq
    have hprevious : heldBy (x.threads t).previous b = 0 :=
      heldBy_eq_zero (fun q hq => (hthread.previous q hq).2 hwaited) b
    cases hjob : (x.threads t).job with
    | none => simp only [Thread.heldOld, hjob, Option.elim, hcurrent, hprevious]
    | some j =>
        obtain ⟨hunprepared, hguard, -⟩ := hjobs j hjob
        have hfree : ¬ j.request.Locked := by
          rw [(hthread.job j hjob).once.locked_iff, hunprepared]
          exact Bool.false_ne_true
        simp only [Thread.heldOld, hjob, Option.elim, hcurrent, hprevious, Job.heldOld,
          held_eq_zero hfree, hguard, ite_self]
  have hnew : (x.locks b).newLockCount = 0 := by
    refine (h.new b).eq_zero fun t ht => ?_
    obtain ⟨-, -, hjobs⟩ := hok t ht
    cases hjob : (x.threads t).job with
    | none => simp only [Thread.heldNew, hjob, Option.elim]
    | some j =>
        simp only [Thread.heldNew, hjob, Option.elim, Job.heldNew, (hjobs j hjob).2.2, ite_self]
  cases hlock : x.locks b with
  | mk o w =>
      rw [hlock] at hold hnew
      cases hold
      cases hnew
      rfl

theorem Inv.next (h : Inv n v x) (hv : v + 1 ≠ 0) (hok : Orderly full n x move)
    (hstep : x.next full n move = some y) : Inv n v y := by
  unfold System.next at hstep
  split at hstep
  · cases hstep
  · next hfreed =>
      have hrun : x.freed = false := Bool.eq_false_iff.mpr hfreed
      cases move with
      | call t operation bucket =>
          simp only at hstep
          split at hstep
          · next hcond =>
              cases hstep
              exact h.call hrun hcond.1 hcond.2
          · cases hstep
      | take t previous onDisk i =>
          simp only at hstep
          split at hstep
          · next hcond =>
              obtain ⟨th, htake, rfl⟩ := Option.map_eq_some_iff.mp hstep
              exact h.take hrun hcond.1 hcond.2 htake
          · cases hstep
      | lockOld t =>
          simp only at hstep
          split at hstep
          · next hjob =>
              split at hstep
              · next hcond =>
                  obtain ⟨locks, hlock, rfl⟩ := Option.map_eq_some_iff.mp hstep
                  exact h.lockOld hrun hcond.1 hjob hlock
              · cases hstep
          · cases hstep
      | lockNew t =>
          simp only at hstep
          split at hstep
          · next hjob =>
              split at hstep
              · next hcond =>
                  obtain ⟨locks, hlock, rfl⟩ := Option.map_eq_some_iff.mp hstep
                  exact h.lockNew hrun hcond.1 hjob hlock
              · cases hstep
          · cases hstep
      | returns t status =>
          simp only at hstep
          split at hstep
          · next hjob =>
              split at hstep
              · next hcond =>
                  cases hstep
                  exact h.returns hv hrun hcond.1 hjob hok
              · cases hstep
          · cases hstep
      | handle t =>
          simp only at hstep
          split at hstep
          · next hjob =>
              split at hstep
              · next ht =>
                  cases hstep
                  exact h.handle hrun ht hjob hok
              · cases hstep
          · cases hstep
      | retryNow t =>
          simp only at hstep
          split at hstep
          · next hjob =>
              split at hstep
              · next ht =>
                  cases hstep
                  exact h.retryNow hrun ht hjob
              · cases hstep
          · cases hstep
      | refresh t =>
          simp only at hstep
          split at hstep
          · cases hstep
          · split at hstep
            · next ht => exact h.refresh hrun ht hok hstep
            · cases hstep
      | finishWaitPending t =>
          simp only at hstep
          split at hstep
          · next hcond =>
              cases hstep
              exact h.finishWaitPending hrun hcond.1 hcond.2.1 hcond.2.2
          · cases hstep
      | free =>
          cases hstep
          exact h.free hok

/-- In every run whose steps are orderly, each lock taken for a request is undone
once when the request has completed, and no lock is held when the locks are
freed. -/
theorem balanced_of_orderly {pending : Nat → List (Operation × Nat × Bool)} (hv : v + 1 ≠ 0)
    (h : Reaches (System.next full n) (Orderly full n) (System.start v pending) x) :
    Balanced x := by
  have hinv : Inv n v x :=
    h.invariant (inv_start v pending) fun _ _ _ hx hok hstep => hx.next hv hok hstep
  exact hinv.balanced

/-- A thread has a read on disk when the checkpoint begins, and an `Rmw` goes to disk
in phase `PREPARE`; both complete in phase `IN_PROGRESS`. -/
def orderlyRun : List Move :=
  [.refresh 0, .call 0 .rmw 1, .lockOld 0, .returns 0 .recordOnDisk, .handle 0, .refresh 0,
    .take 0 true true 0, .returns 0 .success, .handle 0, .take 0 true true 0,
    .returns 0 .success, .handle 0, .refresh 0, .finishWaitPending 0, .refresh 0, .refresh 0,
    .free]

theorem balanced_orderlyRun : ∃ x,
    Reaches (System.next false 1) (Orderly false 1) (System.start 1 fun _ => [(.read, 0, true)]) x ∧
    (x.freed = true ∧ x.completed.length = 2) ∧ Balanced x := by
  have hrun : (runActions (System.next false 1) (System.start 1 fun _ => [(.read, 0, true)])
      orderlyRun).map (fun x => (x.freed, x.completed.length)) = some (true, 2) := by
    decide +kernel
  have hadmits : Admits (System.next false 1) (Orderly false 1)
      (System.start 1 fun _ => [(.read, 0, true)]) orderlyRun := by
    decide +kernel
  obtain ⟨x, hx, hview⟩ := Option.map_eq_some_iff.mp hrun
  have hreach := reaches_of_runActions hadmits hx
  exact ⟨x, hreach, ⟨congrArg Prod.fst hview, congrArg Prod.snd hview⟩,
    balanced_of_orderly (by decide) hreach⟩

def earlyRun : List Move :=
  [.refresh 0, .take 0 false true 0, .returns 0 .success, .handle 0, .refresh 0, .refresh 0,
    .finishWaitPending 0, .refresh 0, .refresh 0, .free]

theorem lock_left_behind : ∃ x,
    Reaches (System.next false 1) (fun _ _ => True)
      (System.start 1 fun _ => [(.read, 0, true)]) x ∧
    x.freed = true ∧ x.locks 0 = ⟨1, 0⟩ ∧ ¬ Balanced x := by
  have hrun : (runActions (System.next false 1) (System.start 1 fun _ => [(.read, 0, true)])
      earlyRun).map (fun x => (x.freed, (x.locks 0).oldLockCount, (x.locks 0).newLockCount)) =
        some (true, 1, 0) := by
    decide +kernel
  obtain ⟨x, hx, hview⟩ := Option.map_eq_some_iff.mp hrun
  have hfreed : x.freed = true := congrArg Prod.fst hview
  have hold : (x.locks 0).oldLockCount = 1 := congrArg (fun v => v.2.1) hview
  have hnew : (x.locks 0).newLockCount = 0 := congrArg (fun v => v.2.2) hview
  refine ⟨x, reaches_of_runActions (admits_of_forall fun _ _ _ => trivial) hx, hfreed, ?_,
    fun hbalanced => ?_⟩
  · cases hlock : x.locks 0 with
    | mk o w =>
        rw [hlock] at hold hnew
        cases hold
        cases hnew
        rfl
  · rw [hbalanced.freed hfreed 0] at hold
    cases hold

end Steps

end HashComp.Locks
