import HashComp.Library.Runs
import HashComp.Requests.Stores

namespace HashComp.Requests

open HashComp.Faster hiding Holds
open HashComp.Runs
open HashComp.Disk (Sound Newest Holds EntryAt)

variable {K : Type} {L : Layout K} {s s' : Store K} {key : K} {ctx : Context}
  {x y : System K} {r : Request K} {v : BitVec 64} {status : OperationStatus}
  {operation : Operation}

/-- Entries that have gone, and entries that lead to no record, show no value. -/
theorem holds_of_slots (hbegin : s'.beginAddress = s.beginAddress) (hlog : s'.log = s.log)
    (hslots : ∀ i e, InSlot (s'.buckets (L.idx key)) i e →
      InSlot (s.buckets (L.idx key)) i e ∨ e.address < s.beginAddress)
    (h : Holds L s' key (some v)) : Holds L s key (some v) := by
  have hback : Grows s' s := .of_same hbegin.symm hlog.symm
  cases h with
  | @found i a e r he htag hn hr =>
      rw [hlog] at hr
      rcases hslots i e he with hold | hlt
      · exact .found hold htag (hback.newest hn) hr
      · cases hn with
        | found hm hb =>
            have := hm.le
            omega

/-- The phase switch of `InternalDelete` lets it pass, and the record that it has
found may be changed in place. -/
def DeletesInPlace [DecidableEq K] (L : Layout K) (s : Store K) (ctx : Context) (key : K) : Prop :=
  ∀ l, locate L s key = some l →
    acquire ctx.phase ctx.version l.latestRecordVersion (l.store.locks (L.idx key)) = .proceed ∧
      l.store.readOnlyAddress ≤ l.address

/-- Every operation that has run is that of the request, "Cannot happen!" has not
been reached, and a `Delete` has left no value for its key that was not there. -/
structure StaysItself (L : Layout K) (r : Request K) (x : System K) : Prop where
  own : ∀ e ∈ x.executed, e.operation = r.operation
  happens : x.stage ≠ .thrown
  deleted : r.operation = .delete → ∀ e ∈ x.executed, ∀ v,
    Holds L e.after r.key (some v) → Holds L e.before r.key (some v)

/-- The stages that the requests of an operation get to. -/
def Stage.Fits (operation : Operation) : Stage → Prop
  | .starting | .done _ => True
  | .retrying | .pivoting | .reading _ | .responded _ => operation ≠ .delete
  | .queued => operation = .upsert ∨ operation = .rmw
  | .thrown | .undefined => False

structure Typed (L : Layout K) (r : Request K) (x : System K) : Prop where
  stays : StaysItself L r x
  fits : x.stage.Fits r.operation
  sound : r.operation = .delete → x.stage = .starting → Sound x.store

theorem StaysItself.execute {stage : Stage} {e : Execution K} (h : StaysItself L r x)
    (hown : e.operation = r.operation) (hstage : y.stage = stage) (hfits : stage ≠ .thrown)
    (hexecuted : y.executed = e :: x.executed)
    (hdeleted : r.operation = .delete → ∀ v,
      Holds L e.after r.key (some v) → Holds L e.before r.key (some v)) :
    StaysItself L r y where
  own := by
    rw [hexecuted]
    exact List.forall_mem_cons.mpr ⟨hown, h.own⟩
  happens := by
    rw [hstage]
    exact hfits
  deleted := by
    rw [hexecuted]
    exact fun hdelete => List.forall_mem_cons.mpr ⟨hdeleted hdelete, h.deleted hdelete⟩

theorem Stage.Fits.ne_thrown {stage : Stage} (h : stage.Fits operation) : stage ≠ .thrown := by
  rintro rfl
  exact h

theorem fits_handleOperationStatus (hdelete : r.operation ≠ .delete)
    (hread : status = .retryLater → r.operation ≠ .read) :
    (x.handleOperationStatus L r status).stage.Fits r.operation := by
  have hqueued : status = .retryLater → r.operation = .upsert ∨ r.operation = .rmw := by
    intro hstatus
    have := hread hstatus
    cases hop : r.operation with
    | read => exact absurd hop this
    | delete => exact absurd hop hdelete
    | upsert => exact Or.inl rfl
    | rmw => exact Or.inr rfl
  cases status with
  | retryNow | cprShiftDetected => exact hdelete
  | success | notFound | successUnmark | notFoundUnmark => trivial
  | retryLater =>
      simp only [System.handleOperationStatus]
      split
      · split
        · exact hdelete
        · exact hqueued rfl
      · exact hqueued rfl
  | recordOnDisk =>
      simp only [System.handleOperationStatus]
      split
      · split
        · exact hdelete
        · exact hdelete
      · exact hdelete

theorem executed_handleOperationStatus :
    (x.handleOperationStatus L r status).executed = x.executed := by
  cases status with
  | retryNow | cprShiftDetected | success | notFound | successUnmark | notFoundUnmark => rfl
  | retryLater | recordOnDisk =>
      simp only [System.handleOperationStatus]
      split
      · split <;> rfl
      · rfl

theorem Typed.goto (h : Typed L r x) (hdelete : r.operation ≠ .delete)
    (hexecuted : y.executed = x.executed) (hfits : y.stage.Fits r.operation) : Typed L r y where
  stays := by
    refine ⟨?_, hfits.ne_thrown, ?_⟩
    · rw [hexecuted]
      exact h.stays.own
    · rw [hexecuted]
      exact h.stays.deleted
  fits := hfits
  sound := fun hd => absurd hd hdelete

variable [DecidableEq K]

theorem locate_at {l : Located K} (hs : Sound s) (h : locate L s key = some l) :
    EntryAt L s l.store key l.slot l.expected ∧ l.store.log = s.log := by
  obtain ⟨slot, expected, bucket, hfind, hat⟩ := Disk.findOrCreateEntry_step (L := L) hs key
  simp only [locate, hfind, Option.bind_eq_bind, Option.bind_some, Option.bind_eq_some_iff] at h
  obtain ⟨⟨address, version⟩, -, hl⟩ := h
  cases hl
  exact ⟨hat, rfl⟩

theorem internalDelete_inPlace {input : BitVec 64} {status : Faster.OperationStatus}
    (hs : Sound s) (hin : DeletesInPlace L s ctx key)
    (h : internalDelete L s ctx key input = some (status, s')) :
    status = .success ∧ ∀ v, Holds L s' key (some v) → Holds L s key (some v) := by
  rw [internalDelete, Option.bind_eq_bind, Option.bind_eq_some_iff] at h
  obtain ⟨l, hl, h⟩ := h
  obtain ⟨hacquire, hle⟩ := hin l hl
  obtain ⟨hat, hlog⟩ := locate_at hs hl
  have hkeep : ∀ v, Holds L l.store key (some v) → Holds L s key (some v) :=
    fun v => holds_of_slots hat.change.begin hlog fun i e he => hat.new _ i e he
  have hslot : (l.store.buckets (L.idx key))[l.slot]? = some (some l.expected) := hat.slot
  simp only [hacquire, if_pos hle, hslot] at h
  split at h
  · cases h
    refine ⟨rfl, fun v hv => hkeep v ?_⟩
    refine holds_of_slots ?_ ?_ (fun i e he => ?_) hv
    · rfl
    · rfl
    · rw [setBucket_same] at he
      rcases (inSlot_set_iff hat.slot.lt_length).mp he with ⟨-, heq⟩ | ⟨-, he⟩
      · cases heq
      · exact Or.inl he
  · cases h
    exact ⟨rfl, hkeep⟩

theorem internalRead_ne_retryLater {status : Faster.OperationStatus} {o : Option (BitVec 64)}
    (h : internalRead L s ctx key = some (status, o)) : status ≠ .retryLater := by
  rintro rfl
  unfold internalRead at h
  split at h
  · cases h
  · split at h
    · cases h
    · split at h
      · cases h
      · split at h
        · rw [Option.map_eq_some_iff] at h
          obtain ⟨record, hr, heq⟩ := h
          cases heq
        · split at h
          · rw [Option.map_eq_some_iff] at h
            obtain ⟨record, hr, heq⟩ := h
            cases heq
          · split at h <;> cases h

theorem execute_spec (h : x.execute L r operation ctx = some (status, y)) :
    ∃ s', r.perform L x.store ctx = some (status, s') ∧ y.stage = x.stage ∧
      y.executed = ⟨operation, x.store, s'⟩ :: x.executed := by
  rw [System.execute, Option.map_eq_some_iff] at h
  obtain ⟨⟨status', s'⟩, hperform, heq⟩ := h
  cases heq
  exact ⟨s', hperform, rfl, rfl⟩

theorem perform_ne_retryLater (hread : r.operation = .read)
    (h : r.perform L s ctx = some (status, s')) : status ≠ .retryLater := by
  simp only [Request.perform, hread, Option.map_eq_some_iff] at h
  obtain ⟨⟨status', o⟩, hinternal, heq⟩ := h
  have hne := internalRead_ne_retryLater hinternal
  cases heq
  cases status' with
  | retryLater => exact absurd rfl hne
  | success | notFound | retryNow | recordOnDisk | cprShiftDetected => nofun

theorem execute_retryLater (h : x.execute L r operation ctx = some (status, y)) :
    status = .retryLater → r.operation ≠ .read := by
  obtain ⟨s', hperform, -⟩ := execute_spec h
  exact fun hstatus hread => perform_ne_retryLater hread hperform hstatus

theorem Typed.execute {z : System K} (h : Typed L r x) (hdelete : r.operation ≠ .delete)
    (hexecute : x.execute L r r.operation ctx = some (status, y))
    (hexecuted : z.executed = y.executed) (hfits : z.stage.Fits r.operation) :
    Typed L r z := by
  obtain ⟨s', -, -, hexecuted'⟩ := execute_spec hexecute
  refine ⟨?_, hfits, fun hd => absurd hd hdelete⟩
  exact h.stays.execute rfl rfl hfits.ne_thrown (hexecuted.trans hexecuted')
    fun hd => absurd hd hdelete

theorem Typed.handle {z : System K} (h : Typed L r x) (hdelete : r.operation ≠ .delete)
    (hexecute : x.execute L r r.operation ctx = some (status, y))
    (hz : z.executed = y.executed) : Typed L r (z.handleOperationStatus L r status) :=
  h.execute hdelete hexecute (executed_handleOperationStatus.trans hz)
    (fits_handleOperationStatus hdelete (execute_retryLater hexecute))

theorem Typed.delete (h : Typed L r x) (hdelete : r.operation = .delete)
    (hstage : x.stage = .starting) (hin : DeletesInPlace L x.store x.thread r.key)
    (hstep : x.begin L r = some y) : Typed L r y := by
  rw [System.begin, Option.map_eq_some_iff] at hstep
  obtain ⟨⟨status, z⟩, hexecute, hstep⟩ := hstep
  obtain ⟨s', hperform, -, hexecuted⟩ := execute_spec hexecute
  simp only [Request.perform, hdelete, Option.map_eq_some_iff] at hperform
  obtain ⟨⟨status', s''⟩, hinternal, heq⟩ := hperform
  obtain ⟨rfl, hholds⟩ := internalDelete_inPlace (h.sound hdelete hstage) hin hinternal
  cases heq
  cases hstep
  refine ⟨?_, trivial, fun _ hstart => by cases hstart⟩
  exact h.stays.execute rfl rfl nofun hexecuted fun _ => hholds

theorem Typed.begin (h : Typed L r x) (hdelete : r.operation ≠ .delete)
    (hstep : x.begin L r = some y) : Typed L r y := by
  rw [System.begin, Option.map_eq_some_iff] at hstep
  obtain ⟨⟨status, z⟩, hexecute, hstep⟩ := hstep
  simp only at hstep
  split at hstep
  · cases hstep
    exact h.execute hdelete hexecute rfl trivial
  · cases hstep
    exact h.execute hdelete hexecute rfl trivial
  · cases hstep
    exact h.handle hdelete hexecute rfl

theorem retryNowOperation_type (hdelete : operation ≠ .delete) :
    retryNowOperation operation.type = some operation := by
  cases operation with
  | read | upsert | rmw => rfl
  | delete => exact absurd rfl hdelete

theorem Typed.retryNow (h : Typed L r x) (hdelete : r.operation ≠ .delete)
    (hstep : x.retryNow L r = some y) : Typed L r y := by
  simp only [System.retryNow, retryNowOperation_type hdelete, if_true,
    Option.map_eq_some_iff] at hstep
  obtain ⟨⟨status, z⟩, hexecute, hstep⟩ := hstep
  simp only at hstep
  split at hstep
  · cases hstep
    exact h.execute hdelete hexecute rfl trivial
  · cases hstep
    exact h.handle hdelete hexecute rfl

theorem Typed.completeRetry (h : Typed L r x)
    (hoperation : r.operation = .upsert ∨ r.operation = .rmw)
    (hstep : x.completeRetry L r = some y) : Typed L r y := by
  have hdelete : r.operation ≠ .delete := by
    rcases hoperation with hop | hop <;> simp [hop]
  have htype : retryRequestOperation r.operation.type = some r.operation := by
    rcases hoperation with hop | hop <;> rw [hop] <;> rfl
  simp only [System.completeRetry, htype, if_true] at hstep
  split at hstep
  · rw [Option.map_eq_some_iff] at hstep
    obtain ⟨⟨status, z⟩, hexecute, hstep⟩ := hstep
    simp only at hstep
    split at hstep
    · split at hstep
      · cases hstep
        exact h.execute hdelete hexecute rfl trivial
      · cases hstep
        exact h.execute hdelete hexecute executed_handleOperationStatus trivial
    · cases hstep
      exact h.handle hdelete hexecute rfl
  · rw [Option.map_eq_some_iff] at hstep
    obtain ⟨⟨status, z⟩, hexecute, hstep⟩ := hstep
    simp only at hstep
    split at hstep
    · cases hstep
      exact h.execute hdelete hexecute rfl trivial
    · cases hstep
      exact h.handle hdelete hexecute rfl

omit [DecidableEq K] in
theorem Typed.completeIo {a : Nat} {continued : OperationStatus} (h : Typed L r x)
    (hdelete : r.operation ≠ .delete) (hstep : x.completeIo L r a continued = some y) :
    Typed L r y := by
  simp only [System.completeIo] at hstep
  split at hstep
  · split at hstep
    · cases hstep
      exact h.goto hdelete rfl trivial
    · cases hstep
      exact h.goto hdelete rfl trivial
    · next status hstatus _ _ =>
        cases hstep
        refine h.goto hdelete executed_handleOperationStatus ?_
        refine fits_handleOperationStatus hdelete fun hretry => ?_
        rw [System.continueRead] at hretry
        split at hretry <;> split at hretry <;> cases hretry
  · split at hstep
    · cases hstep
      exact h.goto hdelete rfl trivial
    · cases hstep
      exact h.goto hdelete executed_handleOperationStatus trivial
    · cases hstep
      exact h.goto hdelete executed_handleOperationStatus hdelete
    · cases hstep
  · cases hstep

/-- A `Delete` runs where it is let pass and finds a record that may be changed in
place. -/
def RunsInPlace (L : Layout K) (r : Request K) (x : System K) : Move K → Prop
  | .run _ => r.operation = .delete → x.stage = .starting →
      DeletesInPlace L x.store x.thread r.key
  | _ => True

theorem Typed.next {move : Move K} (h : Typed L r x) (hok : RunsInPlace L r x move)
    (hstep : x.next L r move = some y) : Typed L r y := by
  have hfits := h.fits
  cases move with
  | run continued =>
      simp only [System.next] at hstep
      split at hstep
      · next hstage =>
          by_cases hdelete : r.operation = .delete
          · exact h.delete hdelete hstage (hok hdelete hstage) hstep
          · exact h.begin hdelete hstep
      · next hstage =>
          rw [hstage] at hfits
          exact h.retryNow hfits hstep
      · next hstage =>
          rw [hstage] at hfits
          cases hstep
          exact h.goto hfits rfl hfits
      · next hstage =>
          rw [hstage] at hfits
          exact h.completeRetry hfits hstep
      · next a hstage =>
          rw [hstage] at hfits
          rw [System.readDisk, Option.map_eq_some_iff] at hstep
          obtain ⟨rc, -, rfl⟩ := hstep
          split
          · exact h.goto hfits rfl hfits
          · split
            · exact h.goto hfits rfl hfits
            · exact h.goto hfits rfl hfits
      · next a hstage =>
          rw [hstage] at hfits
          exact h.completeIo hfits hstep
      all_goals cases hstep
  | other a =>
      rw [System.next, Option.map_eq_some_iff] at hstep
      obtain ⟨s, haccess, rfl⟩ := hstep
      exact ⟨⟨h.stays.own, h.stays.happens, h.stays.deleted⟩, hfits,
        fun hdelete hstage => (access_spec (h.sound hdelete hstage) haccess).1⟩
  | refresh ctx =>
      simp only [System.next] at hstep
      split at hstep
      · cases hstep
        exact ⟨⟨h.stays.own, h.stays.happens, h.stays.deleted⟩, hfits, h.sound⟩
      · cases hstep

omit [DecidableEq K] in
theorem typed_start (ctx : Context) : Typed L r (System.start ctx) where
  stays := ⟨nofun, nofun, nofun⟩
  fits := trivial
  sound := fun _ _ => Disk.sound_new

/-- In every run in which a `Delete` is let pass and runs in place, no request is
run as another one. -/
theorem staysItself_of_runsInPlace
    (h : Reaches (System.next L r) (RunsInPlace L r) (System.start ctx) x) :
    StaysItself L r x :=
  have htyped : Typed L r x :=
    h.invariant (typed_start ctx) fun _ _ _ hx hok hstep => hx.next hok hstep
  htyped.stays

theorem retried_as_upsert {continued : OperationStatus} (hdelete : r.operation = .delete)
    (hstage : x.stage = .retrying ∨ x.stage = .queued)
    (hstep : x.next L r (.run continued) = some y) :
    y.stage = .undefined ∧ ¬ StaysItself L r y := by
  have hstray : y = x.stray .upsert := by
    rcases hstage with hstage | hstage
    · simp [System.next, hstage, System.retryNow, hdelete, Operation.type,
        retryNowOperation] at hstep
      exact hstep.symm
    · simp [System.next, hstage, System.completeRetry, hdelete, Operation.type,
        retryRequestOperation] at hstep
      exact hstep.symm
  subst hstray
  refine ⟨rfl, fun hstays => ?_⟩
  have hown := hstays.own _ List.mem_cons_self
  rw [hdelete] at hown
  cases hown

/-- A thread in phase `PREPARE` deletes a key whose record is of its version. -/
theorem staysItself_deletedInPlace : ∃ x,
    Reaches (System.next oneEntry ⟨.delete, 2, 7⟩) (RunsInPlace oneEntry ⟨.delete, 2, 7⟩)
      (System.start ⟨.prepare, 1⟩) x ∧
    x.stage = .done .ok ∧ StaysItself oneEntry ⟨.delete, 2, 7⟩ x := by
  let moves : List (Move Nat) := [.other (.findOrCreateEntry 2),
    .other (.create ⟨2, 10, 1, kInvalidAddress, false⟩), .other (.exchange 0 0 64),
    .run .success]
  let inPlace : System Nat → Located Nat → Bool := fun x l =>
    acquire x.thread.phase x.thread.version l.latestRecordVersion (l.store.locks 0) = .proceed ∧
      l.store.readOnlyAddress ≤ l.address
  let checks : System Nat → Move Nat → Bool := fun x a =>
    match a with
    | .run _ => (locate oneEntry x.store 2).all (inPlace x)
    | _ => true
  have hrun : (runActions (System.next oneEntry ⟨.delete, 2, 7⟩) (System.start ⟨.prepare, 1⟩)
      moves).map System.stage = some (.done .ok) := by
    decide +kernel
  obtain ⟨x, hx, hstage⟩ := Option.map_eq_some_iff.mp hrun
  have hadmits : Admits (System.next oneEntry ⟨.delete, 2, 7⟩) (fun x a => checks x a = true)
      (System.start ⟨.prepare, 1⟩) moves := by
    decide +kernel
  have himp : ∀ x a, checks x a = true → RunsInPlace oneEntry ⟨.delete, 2, 7⟩ x a := by
    intro x a hok
    cases a with
    | run continued =>
        intro _ _ l hl
        have hall : (locate oneEntry x.store 2).all (inPlace x) = true := hok
        rw [hl] at hall
        exact of_decide_eq_true hall
    | other | refresh => trivial
  have hreach := (reaches_of_runActions hadmits hx).mono himp
  exact ⟨x, hreach, hstage, staysItself_of_runsInPlace hreach⟩

/-- A `Delete` of key 2 meets a record of the next version. -/
theorem deleted_as_upsert : ∃ x,
    Reaches (System.next oneEntry ⟨.delete, 2, 7⟩) (fun _ _ => True)
      (System.start ⟨.prepare, 1⟩) x ∧
    x.executed.map Execution.operation = [.upsert, .delete] ∧
    ¬ StaysItself oneEntry ⟨.delete, 2, 7⟩ x := by
  have hrun : (runActions (System.next oneEntry ⟨.delete, 2, 7⟩) (System.start ⟨.prepare, 1⟩)
      shiftMoves).map (fun x => x.executed.map Execution.operation) =
        some [.upsert, .delete] := by
    decide +kernel
  obtain ⟨x, hx, hexecuted⟩ := Option.map_eq_some_iff.mp hrun
  refine ⟨x, reaches_of_runActions (admits_of_forall fun _ _ _ => trivial) hx, hexecuted, ?_⟩
  intro hstays
  have hmem : Operation.upsert ∈ x.executed.map Execution.operation := by
    rw [hexecuted]
    exact List.mem_cons_self
  obtain ⟨e, he, hoperation⟩ := List.mem_map.mp hmem
  have hown := hstays.own e he
  rw [hoperation] at hown
  cases hown

end HashComp.Requests
