import HashComp.Library.Fairness
import HashComp.Reads.Accounts

namespace HashComp.Reads

open HashComp.Runs HashComp.Fairness

variable {K : Type} [DecidableEq K] {f : Format} {d : Device K} {numContexts : Nat}
  {x y : System K} {c b i q n address : Nat} {io : AsyncIOContext K} {flight : Read K}
  {record : DiskRecord K} {result submitted : Status} {outcome : Outcome K} {m : Move K}
  {request : Request K} {continued : Continued}

section Callback

def Format.thresholds (f : Format) (record : DiskRecord K) : List Nat :=
  [f.minDiskKeySize, f.minDiskValueSize record, f.diskSize record]

/-- A record that has not been read in full is read again; and else the read ends,
or goes on at the record before. -/
theorem callback_cases (h : asyncGetFromDiskCallback f d flight result = some outcome) :
    result ≠ .ok ∧ outcome = .nothing ∨
    result = .ok ∧ ∃ record, d.record flight.io.address = some record ∧
      ((∃ n ∈ f.thresholds record, flight.availableBytes < n ∧ outcome = .again flight.io n) ∨
        (d.beginAddress ≤ record.previousAddress ∧ outcome =
          .again { flight.io with address := record.previousAddress } f.minIoRequestSize) ∨
        ∃ address, outcome = .push { flight.io with address := address }) := by
  by_cases hok : result = .ok
  · refine Or.inr ⟨hok, ?_⟩
    cases hrecord : d.record flight.io.address with
    | none =>
        simp only [asyncGetFromDiskCallback, hok, hrecord, if_true] at h
        cases h
    | some record =>
        simp only [asyncGetFromDiskCallback, hok, hrecord, if_true] at h
        refine ⟨record, rfl, ?_⟩
        repeat' split at h
        all_goals cases h
        · exact Or.inl ⟨_, List.mem_cons_self, ‹_›, rfl⟩
        · exact Or.inl ⟨_, List.mem_cons_of_mem _ List.mem_cons_self, ‹_›, rfl⟩
        · exact Or.inl ⟨_, by simp [Format.thresholds], ‹_›, rfl⟩
        · exact Or.inr (Or.inr ⟨flight.io.address, rfl⟩)
        · exact Or.inr (Or.inl ⟨‹_›, rfl⟩)
        · exact Or.inr (Or.inr ⟨record.previousAddress, rfl⟩)
  · rw [asyncGetFromDiskCallback, if_neg hok] at h
    cases h
    exact Or.inl ⟨hok, rfl⟩

theorem callback_isSome (h : (d.record flight.io.address).isSome) :
    ∃ outcome, asyncGetFromDiskCallback f d flight .ok = some outcome := by
  obtain ⟨record, hrecord⟩ := Option.isSome_iff_exists.mp h
  unfold asyncGetFromDiskCallback
  rw [if_pos rfl, hrecord]
  simp only
  repeat' split
  all_goals exact ⟨_, rfl⟩

end Callback

section Steps

theorem Accounts.deliver (h : Accounts d numContexts .nothing x)
    (hy : x.deliver f d i result submitted = some y) : Accounts d numContexts .nothing y := by
  unfold System.deliver at hy
  split at hy
  · cases hy
  · rename_i flight hat
    obtain ⟨outcome, houtcome, rfl⟩ := Option.map_eq_some_iff.mp hy
    have htaken := h.takeRead hat result
    obtain ⟨hdisk, howner⟩ := h.onDisk flight (List.mem_of_getElem? hat)
    rcases callback_cases houtcome with ⟨hbad, rfl⟩ | ⟨hok, record, hrecord, hcases⟩
    · rw [if_neg hbad] at htaken
      exact htaken
    · rw [if_pos hok] at htaken
      rcases hcases with ⟨n, -, -, rfl⟩ | ⟨hbegin, rfl⟩ | ⟨address, rfl⟩
      · exact htaken.read n submitted hdisk howner
      · exact (htaken.next_address _).read _ submitted ((d.links _ _ hrecord).2 hbegin) howner
      · exact (htaken.next_address address).respond howner

theorem Accounts.next (h : Accounts d numContexts .nothing x)
    (hnext : x.next f d numContexts m = some y) : Accounts d numContexts .nothing y := by
  cases m with
  | goPending c type key address submitted =>
      simp only [System.next] at hnext
      split at hnext
      · rename_i hdisk
        cases hnext
        exact (h.newRequest c).issue hdisk.1 hdisk.2.2
      · cases hnext
  | deliver i result submitted => exact h.deliver hnext
  | completeIo c continued =>
      simp only [System.next] at hnext
      split at hnext
      · rename_i hc
        simp only [System.completeIo] at hnext
        split at hnext
        · cases hnext
        · rename_i io responses hat
          have htaken := h.takeResponse hc hat
            (y := { x with contexts := Function.update x.contexts c { x.contexts c with
              pendingIos := (x.contexts c).pendingIos.erase io.ioId
              ioResponses := responses } }) rfl rfl rfl rfl rfl rfl rfl
          split at hnext
          · cases hnext
            refine htaken.callBack ?_
            split
            · exact Or.inl rfl
            · exact Or.inr rfl
          · cases hnext
          · exact htaken.continueRmw hnext
      · cases hnext
  | completeRetry c continued =>
      simp only [System.next] at hnext
      split at hnext
      · rename_i hc
        simp only [System.completeRetry] at hnext
        split at hnext
        · cases hnext
        · rename_i request requests hat
          exact Accounts.continueRmw (h.takeRequest hc hat
            (y := { x with contexts := Function.update x.contexts c { x.contexts c with
              retryRequests := requests } }) rfl rfl rfl rfl rfl rfl rfl) hnext
      · cases hnext

omit [DecidableEq K] in
theorem accounts_start : Accounts d numContexts .nothing (System.start : System K) where
  onDisk := nofun
  owners := nofun
  idle := fun _ _ => rfl
  issued := fun _ _ => rfl
  pending := fun _ _ => rfl
  requests := fun _ _ => by
    have hqueued : ∀ c q, (System.start : System K).queued numContexts c q = 0 :=
      fun _ _ => Finset.sum_eq_zero fun _ _ => rfl
    rw [hqueued]
    rfl
  final := nofun

end Steps

section Measure

theorem le_availableBytes (f : Format) (address n : Nat) : n ≤ f.availableBytes address n := by
  have hpos := f.sectorSize_pos
  have hbegin := Nat.div_add_mod address f.sectorSize
  have hend := Nat.div_add_mod (address + n + (f.sectorSize - 1)) f.sectorSize
  have hlt := Nat.mod_lt (address + n + (f.sectorSize - 1)) hpos
  have hcomm : ∀ k, f.sectorSize * k = k * f.sectorSize := Nat.mul_comm _
  rw [hcomm] at hbegin hend
  simp only [Format.availableBytes]
  omega

def Format.missing (f : Format) (record : DiskRecord K) (availableBytes : Nat) : Nat :=
  (f.thresholds record).countP fun n => decide (availableBytes < n)

omit [DecidableEq K] in
theorem missing_le (f : Format) (record : DiskRecord K) (n : Nat) : f.missing record n ≤ 3 :=
  List.countP_le_length

omit [DecidableEq K] in
theorem missing_lt (hn : n ∈ f.thresholds record) (hlt : b < n) (hle : n ≤ c) :
    f.missing record c < f.missing record b := by
  simp only [Format.thresholds, List.mem_cons, List.not_mem_nil, or_false] at hn
  simp only [Format.missing, Format.thresholds, List.countP_cons, List.countP_nil,
    decide_eq_true_eq]
  rcases hn with rfl | rfl | rfl
  · rw [if_neg (Nat.not_lt.mpr hle), if_pos hlt]
    split <;> split <;> split <;> split <;> omega
  · rw [if_neg (Nat.not_lt.mpr hle), if_pos hlt]
    split <;> split <;> split <;> split <;> omega
  · rw [if_neg (Nat.not_lt.mpr hle), if_pos hlt]
    split <;> split <;> split <;> split <;> omega

def Read.cost (f : Format) (d : Device K) (flight : Read K) : Nat :=
  4 * (flight.io.address + 1) +
    (d.record flight.io.address).elim 0 fun record => f.missing record flight.availableBytes

def ExecutionContext.work (ctx : ExecutionContext K) : Nat :=
  ctx.ioResponses.length + ctx.retryRequests.length

def Read.workFor (f : Format) (d : Device K) (c : Nat) (flight : Read K) : Nat :=
  if flight.io.owner = c then flight.cost f d else 0

/-- A bound on the steps until nothing is left to be done for the context. -/
def System.work (f : Format) (d : Device K) (c : Nat) (x : System K) : Nat :=
  (x.inFlight.map (Read.workFor f d c)).sum + (x.contexts c).work

omit [DecidableEq K] in
theorem sum_map_eraseIdx {α : Type} {l : List α} {a : α} (g : α → Nat) (h : l[i]? = some a) :
    (l.map g).sum = ((l.eraseIdx i).map g).sum + g a := by
  obtain ⟨hlt, rfl⟩ := List.getElem?_eq_some_iff.mp h
  rw [← ((List.getElem_cons_eraseIdx_perm hlt).map g).sum_eq, List.map_cons, List.sum_cons,
    Nat.add_comm]

def Continued.Accepted : Continued → Prop
  | .recordOnDisk _ _ submitted => submitted = .ok
  | _ => True

/-- What the step reads from disk is submitted, and comes back, with status `Ok`. -/
def Move.Accepted : Move K → Prop
  | .goPending _ _ _ _ submitted => submitted = .ok
  | .deliver _ result submitted => result = .ok ∧ submitted = .ok
  | .completeIo _ continued | .completeRetry _ continued => continued.Accepted

def Continued.GoesInto (c : Nat) : Continued → Prop
  | .success => False
  | .recordOnDisk into _ _ | .retryLater into => into = c

/-- The step leaves a request pending in the context: a new one, or one that
`RECORD_ON_DISK` or `RETRY_LATER` sends back. -/
def Move.GoesInto (c : Nat) : Move K → Prop
  | .goPending b _ _ _ _ => b = c
  | .deliver _ _ _ => False
  | .completeIo _ continued | .completeRetry _ continued => continued.GoesInto c

/-- The disk delivers a read of the context, or its thread works a queue off. -/
def Move.Serves (x : System K) (c : Nat) : Move K → Prop
  | .goPending _ _ _ _ _ => False
  | .deliver i _ _ => ∃ flight, x.inFlight[i]? = some flight ∧ flight.io.owner = c
  | .completeIo b _ | .completeRetry b _ => b = c

omit [DecidableEq K] in
theorem work_read (x : System K) (io : AsyncIOContext K) (n c : Nat) :
    (x.read f io n .ok).work f d c = x.work f d c +
      if io.owner = c then Read.cost f d ⟨io, f.availableBytes io.address n⟩ else 0 := by
  simp only [System.work, System.read, if_true, List.map_append, List.sum_append, List.map_cons,
    List.map_nil, List.sum_cons, List.sum_nil, Read.workFor]
  omega

omit [DecidableEq K] in
theorem work_of_other {ctx : ExecutionContext K} (hbc : b ≠ c)
    (hcontexts : y.contexts = Function.update x.contexts b ctx) (hflight : y.inFlight = x.inFlight) :
    y.work f d c = x.work f d c := by
  rw [System.work, System.work, hflight, hcontexts, Function.update_of_ne hbc.symm]

omit [DecidableEq K] in
theorem work_continueRmw (haccepted : continued.Accepted) (hinto : ¬ continued.GoesInto c)
    (hy : x.continueRmw f d numContexts request continued = some y) :
    y.work f d c = x.work f d c := by
  cases continued with
  | success =>
      cases hy
      rfl
  | recordOnDisk into address submitted =>
      obtain rfl : submitted = .ok := haccepted
      have hne : into ≠ c := hinto
      simp only [System.continueRmw] at hy
      split at hy
      · cases hy
        rw [System.issue, work_read, if_neg hne, Nat.add_zero]
        exact work_of_other hne rfl rfl
      · cases hy
  | retryLater into =>
      simp only [System.continueRmw] at hy
      split at hy
      · cases hy
        exact work_of_other hinto rfl rfl
      · cases hy

omit [DecidableEq K] in
/-- A queue of the context `b` is one request shorter. -/
theorem work_take {ctx : ExecutionContext K} (b c : Nat) (hlt : ctx.work < (x.contexts b).work) :
    { x with contexts := Function.update x.contexts b ctx }.work f d c ≤ x.work f d c ∧
      (b = c → { x with contexts := Function.update x.contexts b ctx }.work f d c <
        x.work f d c) := by
  by_cases hbc : b = c
  · subst b
    simp only [System.work, Function.update_self]
    exact ⟨by omega, fun _ => by omega⟩
  · exact ⟨Nat.le_of_eq (work_of_other hbc rfl rfl), fun heq => absurd heq hbc⟩

theorem work_deliver (c : Nat) (hy : x.deliver f d i .ok .ok = some y) :
    y.work f d c ≤ x.work f d c ∧
      ((∃ flight, x.inFlight[i]? = some flight ∧ flight.io.owner = c) →
        y.work f d c < x.work f d c) := by
  unfold System.deliver at hy
  split at hy
  · cases hy
  · rename_i flight hat
    obtain ⟨outcome, houtcome, rfl⟩ := Option.map_eq_some_iff.mp hy
    obtain ⟨-, record, hrecord, hcases⟩ :=
      (callback_cases houtcome).resolve_left fun hbad => hbad.1 rfl
    have hwork := sum_map_eraseIdx (Read.workFor f d c) hat
    have hcost : flight.cost f d =
        4 * (flight.io.address + 1) + f.missing record flight.availableBytes := by
      rw [Read.cost, hrecord]
      rfl
    by_cases howner : flight.io.owner = c
    · suffices hlt : _ < x.work f d c from ⟨Nat.le_of_lt hlt, fun _ => hlt⟩
      rw [Read.workFor, if_pos howner, hcost] at hwork
      rcases hcases with ⟨n, hn, hlt, rfl⟩ | ⟨hbegin, rfl⟩ | ⟨address, rfl⟩
      · have hmissing := missing_lt hn hlt (le_availableBytes f flight.io.address n)
        simp only [work_read, if_pos howner, Read.cost, hrecord, Option.elim_some]
        simp only [System.work, hwork]
        omega
      · obtain ⟨hprev, hdisk⟩ := d.links _ _ hrecord
        obtain ⟨before, hbefore⟩ := Option.isSome_iff_exists.mp (hdisk hbegin)
        have hmissing := missing_le f before
          (f.availableBytes record.previousAddress f.minIoRequestSize)
        simp only [work_read, if_pos howner, Read.cost, hbefore, Option.elim_some]
        simp only [System.work, hwork]
        omega
      · simp only [System.work, System.respond, howner, Function.update_self,
          ExecutionContext.work, List.length_append, List.length_singleton, hwork]
        omega
    · have hnone : ¬ ∃ flight, x.inFlight[i]? = some flight ∧ flight.io.owner = c := by
        rintro ⟨flight', hat', howner'⟩
        rw [← Option.some.inj (hat.symm.trans hat')] at howner'
        exact howner howner'
      suffices heq : _ = x.work f d c from ⟨Nat.le_of_eq heq, fun h => absurd h hnone⟩
      rw [Read.workFor, if_neg howner, Nat.add_zero] at hwork
      rcases hcases with ⟨n, -, -, rfl⟩ | ⟨-, rfl⟩ | ⟨address, rfl⟩
      · simp only [work_read, if_neg howner, Nat.add_zero]
        simp only [System.work, hwork]
      · simp only [work_read, if_neg howner, Nat.add_zero]
        simp only [System.work, hwork]
      · simp only [System.work, System.respond, Function.update_of_ne (Ne.symm howner), hwork]

theorem work_next (haccepted : m.Accepted) (hinto : ¬ m.GoesInto c)
    (hnext : x.next f d numContexts m = some y) :
    y.work f d c ≤ x.work f d c ∧ (m.Serves x c → y.work f d c < x.work f d c) := by
  cases m with
  | goPending b type key address submitted =>
      obtain rfl : submitted = .ok := haccepted
      have hne : b ≠ c := hinto
      simp only [System.next] at hnext
      split at hnext
      · cases hnext
        rw [System.issue, work_read, if_neg hne, Nat.add_zero]
        exact ⟨Nat.le_of_eq (work_of_other hne rfl rfl), False.elim⟩
      · cases hnext
  | deliver i result submitted =>
      obtain ⟨rfl, rfl⟩ := haccepted
      exact work_deliver c hnext
  | completeIo b continued =>
      simp only [System.next] at hnext
      split at hnext
      · simp only [System.completeIo] at hnext
        split at hnext
        · cases hnext
        · rename_i io responses hat
          have hlt : ExecutionContext.work { x.contexts b with
              pendingIos := (x.contexts b).pendingIos.erase io.ioId
              ioResponses := responses } < (x.contexts b).work := by
            simp [ExecutionContext.work, hat]
          have htaken := work_take (f := f) (d := d) b c hlt
          split at hnext
          · cases hnext
            exact htaken
          · cases hnext
          · rwa [← work_continueRmw haccepted hinto hnext] at htaken
      · cases hnext
  | completeRetry b continued =>
      simp only [System.next] at hnext
      split at hnext
      · simp only [System.completeRetry] at hnext
        split at hnext
        · cases hnext
        · rename_i request requests hat
          have hlt : ExecutionContext.work { x.contexts b with retryRequests := requests } <
              (x.contexts b).work := by
            simp [ExecutionContext.work, hat]
          have htaken := work_take (f := f) (d := d) b c hlt
          rwa [← work_continueRmw haccepted hinto hnext] at htaken
      · cases hnext

end Measure

section Completes

/-- The disk and the thread of the context go on until the context is done. -/
def Served (c : Nat) (path : Path (System.next f d numContexts) fun _ m => m.Accepted) : Prop :=
  ∀ n, ¬ (path.state n).Done c →
    ∃ k, n ≤ k ∧ ∃ m, path.action k = some m ∧ m.Serves (path.state k) c

/-- A read that was issued is in flight, or its response has been pushed, once;
`pending_ios` has those that are in flight or on the queue; and a request is on
its way, or its callback has been called, once and with a final status.  Something
can be done for a context that is not done; and where it is and only finitely many
requests come in or are sent back, `CompletePending(true)` and `StopSession` leave
their loops. -/
structure Completes (f : Format) (d : Device K) (numContexts : Nat) (x : System K) : Prop where
  once : ∀ c i, i < x.ioId c →
    x.flying (AsyncIOContext.hasId c i) + x.pushed.countP (AsyncIOContext.hasId c i) = 1
  pending : ∀ c i, (x.contexts c).pendingIos.count i = x.flying (AsyncIOContext.hasId c i) +
    (x.contexts c).ioResponses.countP (AsyncIOContext.hasId c i)
  calledBack : ∀ c q, q < x.numRequests c →
    x.flying (AsyncIOContext.serves c q) + x.queued numContexts c q + x.calls c q = 1
  final : ∀ entry ∈ x.calledBack, entry.2 = .ok ∨ entry.2 = .notFound
  goes : ∀ c, ¬ x.Done c → ∃ m y, m.Accepted ∧ ¬ m.GoesInto c ∧ m.Serves x c ∧
    x.next f d numContexts m = some y
  ends : ∀ c, ∀ path : Path (System.next f d numContexts) fun _ m => m.Accepted,
    path.state 0 = x → Served c path →
    (∃ N, ∀ n m, N ≤ n → path.action n = some m → ¬ m.GoesInto c) →
    ∃ n, (path.state n).Done c
  finished : (∀ c, x.Done c) → ∀ c q, q < x.numRequests c → x.calls c q = 1

omit [DecidableEq K] in
theorem lost_eq_zero (h : ∀ entry ∈ x.results, entry.2 = .ok) (p : AsyncIOContext K → Bool) :
    x.lost p = 0 := by
  refine List.countP_eq_zero.mpr fun entry he => ?_
  simp [h entry he]

theorem exists_serving (h : Accounts d numContexts .nothing x)
    (hok : ∀ entry ∈ x.results, entry.2 = .ok) (hdone : ¬ x.Done c) :
    ∃ m y, m.Accepted ∧ ¬ m.GoesInto c ∧ m.Serves x c ∧ x.next f d numContexts m = some y := by
  have hc : c < numContexts := by
    by_contra hge
    exact hdone (by rw [System.Done, h.idle c (Nat.not_lt.mp hge)]; exact ⟨rfl, rfl⟩)
  cases hretry : (x.contexts c).retryRequests with
  | cons request requests =>
      refine ⟨.completeRetry c .success, ?_⟩
      simp only [System.next, if_pos hc, System.completeRetry, hretry]
      exact ⟨_, trivial, not_false, rfl, rfl⟩
  | nil =>
      cases hpending : (x.contexts c).pendingIos with
      | nil => exact absurd ⟨hpending, hretry⟩ hdone
      | cons i pending =>
          have hcount := h.pending c i
          rw [hpending, lost_eq_zero hok, List.count_cons_self] at hcount
          cases hresponses : (x.contexts c).ioResponses with
          | cons io responses =>
              refine ⟨.completeIo c .success, ?_⟩
              simp only [System.next, if_pos hc, System.completeIo, hresponses]
              cases io.request.type
              · exact ⟨_, trivial, not_false, rfl, rfl⟩
              · exact ⟨_, trivial, not_false, rfl, rfl⟩
          | nil =>
              rw [hresponses, List.countP_nil] at hcount
              have hflying : 0 < x.flying (AsyncIOContext.hasId c i) := by
                simp only [Hand.ios] at hcount
                omega
              obtain ⟨flight, hflight, hid⟩ := List.countP_pos_iff.mp hflying
              obtain ⟨j, hj, hat⟩ := List.mem_iff_getElem.mp hflight
              have hat' : x.inFlight[j]? = some flight := by rw [List.getElem?_eq_getElem hj, hat]
              obtain ⟨outcome, houtcome⟩ := callback_isSome (f := f) (h.onDisk flight hflight).1
              refine ⟨.deliver j .ok .ok, ?_⟩
              simp only [System.next, System.deliver, hat', houtcome]
              exact ⟨_, ⟨rfl, rfl⟩, not_false, ⟨flight, hat', (of_decide_eq_true hid).1⟩, rfl⟩

theorem done_of_served {path : Path (System.next f d numContexts) fun _ m => m.Accepted}
    (hserved : Served c path) {N : Nat}
    (hinto : ∀ n m, N ≤ n → path.action n = some m → ¬ m.GoesInto c) :
    ∃ n, (path.state n).Done c := by
  have hone : ∀ n, N ≤ n → (path.state (n + 1)).work f d c ≤ (path.state n).work f d c := by
    intro n hn
    cases haction : path.action n with
    | none => exact Nat.le_of_eq (congrArg _ (path.rests n haction))
    | some m =>
        obtain ⟨haccepted, hnext⟩ := path.acts n m haction
        exact (work_next haccepted (hinto n m hn haction) hnext).1
  have hle : ∀ n k, N ≤ n → n ≤ k → (path.state k).work f d c ≤ (path.state n).work f d c := by
    intro n k hn hk
    induction k, hk using Nat.le_induction with
    | base => exact Nat.le_refl _
    | succ k hk ih => exact Nat.le_trans (hone k (by omega)) ih
  suffices hall : ∀ n, N ≤ n → ∃ k, (path.state k).Done c from hall N (Nat.le_refl N)
  intro n hn
  -- by the work that is left: whatever serves the context takes some of it away
  induction hwork : (path.state n).work f d c using Nat.strongRecOn generalizing n with
  | ind w ih =>
      by_cases hdone : (path.state n).Done c
      · exact ⟨n, hdone⟩
      · obtain ⟨k, hk, m, haction, hserves⟩ := hserved n hdone
        obtain ⟨haccepted, hnext⟩ := path.acts k m haction
        have hlt := (work_next haccepted (hinto k m (by omega) haction) hnext).2 hserves
        have := hle n k hn hk
        exact ih _ (by omega) (k + 1) (by omega) rfl

omit [DecidableEq K] in
theorem called_of_done (h : Accounts d numContexts .nothing x)
    (hok : ∀ entry ∈ x.results, entry.2 = .ok) (hdone : ∀ c, x.Done c) (hq : q < x.numRequests c) :
    x.calls c q = 1 := by
  have hlost := fun p => lost_eq_zero hok p
  have hnone : ∀ b i, x.flying (AsyncIOContext.hasId b i) = 0 ∧
      (x.contexts b).ioResponses.countP (AsyncIOContext.hasId b i) = 0 := by
    intro b i
    have := h.pending b i
    rw [(hdone b).1, List.count_nil, hlost] at this
    omega
  have hflying : x.flying (AsyncIOContext.serves c q) = 0 := by
    refine List.countP_eq_zero.mpr fun flight hflight _ => ?_
    exact List.countP_eq_zero.mp (hnone flight.io.owner flight.io.ioId).1 flight hflight
      (decide_eq_true ⟨rfl, rfl⟩)
  have hqueued : x.queued numContexts c q = 0 := by
    refine Finset.sum_eq_zero fun b _ => ?_
    rw [ExecutionContext.queued, (hdone b).2, List.countP_nil, Nat.add_zero]
    refine List.countP_eq_zero.mpr fun io hio _ => ?_
    exact List.countP_eq_zero.mp (hnone b io.ioId).2 io hio (decide_eq_true ⟨h.owners b io hio, rfl⟩)
  have := h.requests c q
  rw [hlost, if_pos hq, hflying, hqueued] at this
  simp only [Hand.requests] at this
  omega

theorem completes_iff
    (hreach : Reaches (System.next f d numContexts) (fun _ _ => True) System.start x) :
    Completes f d numContexts x ↔ ∀ entry ∈ x.results, entry.2 = .ok := by
  have h : Accounts d numContexts .nothing x :=
    hreach.invariant accounts_start fun _ _ _ hs _ hnext => hs.next hnext
  constructor
  · intro hcompletes entry hentry
    by_contra hbad
    have hlost : 0 < x.lost (AsyncIOContext.hasId entry.1.owner entry.1.ioId) := by
      refine List.countP_pos_iff.mpr ⟨entry, hentry, ?_⟩
      simp [AsyncIOContext.hasId, hbad]
    have hissued := h.issued entry.1.owner entry.1.ioId
    have honce := hcompletes.once entry.1.owner entry.1.ioId
    simp only [Hand.ios] at hissued
    split at hissued
    · have := honce ‹_›
      omega
    · omega
  · intro hok
    have hlost := fun p => lost_eq_zero hok p
    refine ⟨fun c i hi => ?_, fun c i => ?_, fun c q hq => ?_, h.final,
      fun c => exists_serving h hok, fun c path _ hserved hends => ?_,
      fun hdone c q => called_of_done h hok hdone⟩
    · have := h.issued c i
      rw [hlost, if_pos hi] at this
      simp only [Hand.ios] at this
      omega
    · have := h.pending c i
      rw [hlost] at this
      simp only [Hand.ios] at this
      omega
    · have := h.requests c q
      rw [hlost, if_pos hq] at this
      simp only [Hand.requests] at this
      omega
    · obtain ⟨N, hinto⟩ := hends
      exact done_of_served hserved hinto

end Completes

section Run

/-- Keys and values of eight bytes and more. -/
def eightBytes : Format where
  sizeofKey := 8
  alignofKey := 8
  sizeofValue := 8
  alignofValue := 8
  sectorSize := 512
  sectorSize_pos := by decide

/-- A record of key 1 and, before it, one of key 0 with a value of 1000 bytes. -/
def twoRecords : Device Nat where
  beginAddress := 64
  record := fun address =>
    if address = 64 then some ⟨0, 8, 1000, 0⟩
    else if address = 1088 then some ⟨1, 8, 8, 64⟩
    else none
  links := by
    intro a r hr
    split at hr
    · cases hr
      subst a
      exact ⟨by decide, fun hle => absurd hle (by decide)⟩
    · split at hr
      · cases hr
        subst a
        exact ⟨by decide, fun _ => rfl⟩
      · cases hr

/-- A `Read` that needs both records, and the second of them twice. -/
def readBoth : List (Move Nat) :=
  [.goPending 0 .read 0 1088 .ok, .deliver 0 .ok .ok, .deliver 0 .ok .ok, .deliver 0 .ok .ok,
    .completeIo 0 .success]

theorem completes_twoRecords : ∃ x,
    runActions (System.next eightBytes twoRecords 1) System.start readBoth = some x ∧
    x.calledBack.map (fun entry => entry.2) = [.ok] ∧ Completes eightBytes twoRecords 1 x := by
  have hview : (runActions (System.next eightBytes twoRecords 1) System.start readBoth).map
      (fun x => (x.calledBack.map fun entry => entry.2,
        decide (∀ entry ∈ x.results, entry.2 = .ok))) = some ([.ok], true) := by
    decide +kernel
  obtain ⟨x, hx, hx'⟩ := Option.map_eq_some_iff.mp hview
  simp only [Prod.mk.injEq, decide_eq_true_eq] at hx'
  have hreach := reaches_of_runActions (admits_of_forall fun _ _ _ => trivial) hx
  exact ⟨x, hx, hx'.1, (completes_iff hreach).mpr hx'.2⟩

/-- The disk fails to read the first record. -/
theorem lost_after_error :
    ¬ ∀ x, Reaches (System.next eightBytes twoRecords 1) (fun _ _ => True) System.start x →
      Completes eightBytes twoRecords 1 x := by
  intro hall
  have hview : (runActions (System.next eightBytes twoRecords 1) System.start
      [.goPending 0 .read 0 1088 .ok, .deliver 0 .ioError .ok]).map (fun x => (x.ioId 0,
        x.flying (AsyncIOContext.hasId 0 0), x.pushed.countP (AsyncIOContext.hasId 0 0))) =
      some (1, 0, 0) := by
    decide +kernel
  obtain ⟨x, hx, hx'⟩ := Option.map_eq_some_iff.mp hview
  simp only [Prod.mk.injEq] at hx'
  obtain ⟨hioId, hflying, hpushed⟩ := hx'
  have hreach := reaches_of_runActions (admits_of_forall fun _ _ _ => trivial) hx
  have honce := (hall x hreach).once 0 0 (by omega)
  omega

end Run

end HashComp.Reads
