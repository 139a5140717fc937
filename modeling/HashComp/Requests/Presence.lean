import HashComp.Library.Runs
import HashComp.Requests.Stores

namespace HashComp.Requests

open HashComp.Faster hiding Holds
open HashComp.Runs
open HashComp.Disk (Sound Stored Misses Searches Newest Holds)
open HashComp.Reads (Status)

variable {K : Type} {L : Layout K} {s s' s₀ : Store K} {key : K} {ctx : Context}
  {a found i : Nat} {e : HashBucketEntry} {m : Option Nat} {x y : System K} {r : Request K}

def Present (L : Layout K) (s : Store K) (key : K) : Prop :=
  ∃ v, Holds L s key (some v)

def Absent (L : Layout K) (s : Store K) (key : K) : Prop :=
  Holds L s key none

def Answers (L : Layout K) (s₀ s : Store K) (key : K) (a : Nat) : Prop :=
  ∃ m, Newest s key a m ∧ (∀ b, m = some b → Present L s₀ key) ∧ (m = none → Absent L s₀ key)

def Finds (L : Layout K) (s : Store K) (key : K) : Prop :=
  ∃ i e found, InSlot (s.buckets (L.idx key)) i e ∧ e.tag = L.tag key ∧
    Searches s key s.headAddress e.address found ∧ s.beginAddress ≤ found ∧
    (found < s.headAddress ∨ ∃ r, s.log found = some r ∧ r.key = key)

/-- The thread is in phase `PREPARE`, and the last record of the chain is in memory
and of a later version. -/
def ShiftSeen (L : Layout K) (s : Store K) (ctx : Context) (key : K) : Prop :=
  ctx.phase = .prepare ∧ ∃ i e r, InSlot (s.buckets (L.idx key)) i e ∧ e.tag = L.tag key ∧
    s.headAddress ≤ e.address ∧ s.log e.address = some r ∧ ctx.version < r.checkpointVersion

section Searches

theorem newest_total (hs : Sound s) (key : K) (ha : Stored s a) : ∃ m, Newest s key a m := by
  induction a using Nat.strongRecOn with
  | ind a ih =>
      rcases Nat.lt_or_ge a s.beginAddress with hlt | hle
      · exact ⟨none, .absent (.refl a) hlt⟩
      · obtain ⟨r, hr⟩ := ha hle
        by_cases hkey : r.key = key
        · exact ⟨some a, .found (.refl a) hle hr hkey⟩
        · obtain ⟨hprev, hstored⟩ := hs.links a r hr
          obtain ⟨m, hm⟩ := ih r.previousAddress hprev hstored
          exact ⟨m, hm.before (.step hr hkey hprev (.refl _))⟩

theorem answers_of_entry (hs : Sound s) (he : InSlot (s.buckets (L.idx key)) i e)
    (htag : e.tag = L.tag key) (hmisses : Misses s key e.address a) (ha : Stored s a) :
    Answers L s s key a := by
  obtain ⟨m, hm⟩ := newest_total hs key ha
  refine ⟨m, hm, ?_, ?_⟩
  · rintro b rfl
    have hn := hm.before hmisses
    cases hn with
    | found h hb hr hkey => exact ⟨_, .found he htag (.found h hb hr hkey) hr⟩
  · rintro rfl
    exact .absent he htag (hm.before hmisses)

theorem Answers.grows (h : Answers L s₀ s key a) (hg : Grows s s') :
    Answers L s₀ s' key a := by
  obtain ⟨m, hm, hpresent, habsent⟩ := h
  exact ⟨m, hg.newest hm, hpresent, habsent⟩

theorem Answers.present {rc : Record K} (h : Answers L s₀ s key a) (hle : s.beginAddress ≤ a)
    (hr : s.log a = some rc) (hkey : rc.key = key) : Present L s₀ key := by
  obtain ⟨m, hm, hpresent, -⟩ := h
  exact hpresent a (hm.unique (.found (.refl a) hle hr hkey))

theorem Answers.absent (h : Answers L s₀ s key a) (hlt : a < s.beginAddress) :
    Absent L s₀ key := by
  obtain ⟨m, hm, -, habsent⟩ := h
  exact habsent (hm.unique (.absent (.refl a) hlt))

theorem Answers.next {rc : Record K} (h : Answers L s₀ s key a) (hs : Sound s)
    (hr : s.log a = some rc) (hkey : rc.key ≠ key) :
    Answers L s₀ s key rc.previousAddress := by
  obtain ⟨m, hm, hpresent, habsent⟩ := h
  obtain ⟨hprev, hstored⟩ := hs.links a rc hr
  obtain ⟨m', hm'⟩ := newest_total hs key hstored
  have heq := hm.unique (hm'.before (.step hr hkey hprev (.refl _)))
  subst heq
  exact ⟨m, hm', hpresent, habsent⟩

theorem search_stops {b c : Nat} (hb : Searches s key s.headAddress a b)
    (hc : Searches s key s.headAddress a c) (hlt : b < c)
    (hend : c < s.headAddress ∨ ∃ r, s.log c = some r ∧ r.key = key) : False := by
  obtain ⟨-, hrest⟩ := hb.split hc (Nat.le_of_lt hlt)
  obtain ⟨rc, hrc, ⟨hle, hne⟩, -⟩ := hrest.head (Nat.ne_of_gt hlt)
  rcases hend with hhead | ⟨r, hr, hkey⟩
  · omega
  · rw [hrc] at hr
    cases hr
    exact hne hkey

theorem finds_of_entry {rc : Record K} (he : InSlot (s.buckets (L.idx key)) i e)
    (htag : e.tag = L.tag key) (hle : s.beginAddress ≤ e.address)
    (hr : s.log e.address = some rc) (hkey : rc.key = key) : Finds L s key :=
  ⟨i, e, e.address, he, htag, .refl _, hle, Or.inr ⟨rc, hr, hkey⟩⟩

variable [DecidableEq K]

theorem findRecord_spec (key : K) (hs : Sound s) (ha : Stored s a) :
    ∃ found version, findRecord s key a = some (found, version) ∧
      Searches s key s.headAddress a found ∧ Stored s found ∧
      (found < s.headAddress ∨
        s.headAddress ≤ found ∧ ∃ r, s.log found = some r ∧ r.key = key) ∧
      ∀ n, n < version ↔
        s.headAddress ≤ a ∧ ∃ r, s.log a = some r ∧ n < r.checkpointVersion := by
  by_cases hle : s.headAddress ≤ a
  · obtain ⟨rc, hr⟩ := ha (Nat.le_trans hs.head hle)
    have hversion : ∀ n, n < rc.checkpointVersion ↔
        s.headAddress ≤ a ∧ ∃ r, s.log a = some r ∧ n < r.checkpointVersion := by
      intro n
      constructor
      · exact fun hlt => ⟨hle, rc, hr, hlt⟩
      · rintro ⟨-, r, hr', hlt⟩
        rw [hr] at hr'
        cases hr'
        exact hlt
    have hunfold : findRecord s key a = if key = rc.key then some (a, rc.checkpointVersion) else
        (traceBackForKeyMatch s key s.headAddress (a + 1) rc.previousAddress).map
          fun found => (found, rc.checkpointVersion) := by
      simp only [findRecord, if_pos hle, hr]
    rw [hunfold]
    by_cases hkey : key = rc.key
    · rw [if_pos hkey]
      exact ⟨a, _, rfl, .refl a, ha, Or.inr ⟨hle, rc, hr, hkey.symm⟩, hversion⟩
    · obtain ⟨hprev, hstored⟩ := hs.links a rc hr
      obtain ⟨found, htrace, hsearch, hfound⟩ := Disk.traceBackForKeyMatch_spec
        hs.links hs.head hstored (Nat.lt_succ_of_lt hprev)
      rw [if_neg hkey, htrace]
      exact ⟨found, _, rfl, .step hr ⟨hle, Ne.symm hkey⟩ hprev hsearch, hfound.1, hfound.2,
        hversion⟩
  · refine ⟨a, 0, by rw [findRecord, if_neg hle], .refl a, ha, Or.inl (Nat.not_le.mp hle),
      fun n => ?_⟩
    constructor
    · exact fun hlt => absurd hlt (Nat.not_lt_zero n)
    · exact fun h => absurd h.1 hle

inductive ReadsAs (L : Layout K) (s : Store K) (ctx : Context) (r : Request K) :
    Faster.OperationStatus → Prop where
  | success (h : Present L s r.key) (hfinds : Finds L s r.key) : ReadsAs L s ctx r .success
  | notFound (h : Absent L s r.key) (hno : ¬ Finds L s r.key)
      (hseen : ¬ ShiftSeen L s ctx r.key) : ReadsAs L s ctx r .notFound
  | cprShiftDetected (hseen : ShiftSeen L s ctx r.key) : ReadsAs L s ctx r .cprShiftDetected
  | recordOnDisk {a : Nat} (ha : r.address L s = some a) (hle : s.beginAddress ≤ a)
      (h : Answers L s s r.key a) (hfinds : Finds L s r.key) : ReadsAs L s ctx r .recordOnDisk

theorem internalRead_readsAs (hs : Sound s) (ctx : Context) (hread : r.operation = .read) :
    ∃ status v, internalRead L s ctx r.key = some (status, v) ∧ ReadsAs L s ctx r status := by
  have hsettled := hs.settled (L.idx r.key)
  rcases findEntry_spec (L.tag r.key) hsettled.final with ⟨i, e, he, htag, hfind⟩ | ⟨hno, hfind⟩
  · obtain ⟨found, version, hrecord, hsearch, hstored, hend, hversion⟩ :=
      findRecord_spec r.key hs (hs.entries _ i e he)
    have hentry : ∀ {j : Nat} {e' : HashBucketEntry},
        InSlot (s.buckets (L.idx r.key)) j e' → e'.tag = L.tag r.key → e' = e := by
      intro j e' he' htag'
      have hj := hsettled.unique _ _ _ _ he' he (htag'.trans htag.symm)
      subst hj
      exact he'.unique he
    have hanswers := answers_of_entry hs he htag hsearch.misses hstored
    simp only [internalRead, hfind, hrecord]
    by_cases hshift : ctx.phase = .prepare ∧ version > ctx.version
    · obtain ⟨hhead, rc, hr, hlt⟩ := (hversion _).mp hshift.2
      exact ⟨_, _, if_pos hshift, .cprShiftDetected ⟨hshift.1, i, e, rc, he, htag, hhead, hr, hlt⟩⟩
    · rw [if_neg hshift]
      have hseen : ¬ ShiftSeen L s ctx r.key := by
        rintro ⟨hphase, j, e', rc, he', htag', hhead, hr, hlt⟩
        cases hentry he' htag'
        exact hshift ⟨hphase, (hversion _).mpr ⟨hhead, rc, hr, hlt⟩⟩
      rcases hend with hlt | ⟨hle, rc, hr, hkey⟩
      · have hsafe : ¬ s.safeReadOnlyAddress ≤ found := by
          have := hs.safe
          omega
        rw [if_neg hsafe, if_neg (Nat.not_le.mpr hlt)]
        by_cases hbegin : s.beginAddress ≤ found
        · refine ⟨_, _, if_pos hbegin, .recordOnDisk ?_ hbegin hanswers ?_⟩
          · simp only [Request.address, hread, hfind, hrecord, Option.map_some]
          · exact ⟨i, e, found, he, htag, hsearch, hbegin, Or.inl hlt⟩
        · refine ⟨_, _, if_neg hbegin, .notFound ?_ ?_ hseen⟩
          · exact hanswers.absent (Nat.not_le.mp hbegin)
          · rintro ⟨j, e', found', he', htag', hsearch', hbegin', hend'⟩
            cases hentry he' htag'
            exact search_stops hsearch hsearch' (by omega) hend'
      · have hpresent := hanswers.present (Nat.le_trans hs.head hle) hr hkey
        rw [hr, if_pos hle, Option.map_some, ite_self]
        refine ⟨_, _, rfl, .success hpresent ?_⟩
        exact ⟨i, e, found, he, htag, hsearch, Nat.le_trans hs.head hle, Or.inr ⟨rc, hr, hkey⟩⟩
  · refine ⟨.notFound, none, by simp only [internalRead, hfind], .notFound (.untagged hno) ?_ ?_⟩
    · rintro ⟨j, e', found', he', htag', -⟩
      exact hno j e' he' htag'
    · rintro ⟨-, j, e', rc, he', htag', -⟩
      exact hno j e' he' htag'

end Searches

section Runs

/-- A final status tells whether the last execution of `InternalRead` has met the
key. -/
def Tells (L : Layout K) (last : Option (Execution K)) (key : K) (status : Status) : Prop :=
  ∃ e, last = some e ∧
    (status = .ok ∧ Present L e.before key ∨ status = .notFound ∧ Absent L e.before key)

/-- The final status of the request. -/
def Reports (L : Layout K) (r : Request K) (x : System K) : Prop :=
  ∀ status, x.stage = .done status → Tells L x.executed.head? r.key status

def Stage.Knows (L : Layout K) (s : Store K) (last : Option (Execution K)) (key : K) :
    Stage → Prop
  | .starting | .retrying | .pivoting => True
  | .reading a => ∃ e, last = some e ∧ Answers L e.before s key a
  | .responded a =>
      Tells L last key (if s.beginAddress ≤ a then .ok else .notFound)
  | .done status => Tells L last key status
  | .queued | .thrown | .undefined => False

structure Inv (L : Layout K) (r : Request K) (x : System K) : Prop where
  sound : Sound x.store
  knows : x.stage.Knows L x.store x.executed.head? r.key

theorem Stage.Knows.grows {stage : Stage} {last : Option (Execution K)}
    (h : stage.Knows L s last key) (hg : Grows s s') : stage.Knows L s' last key := by
  cases stage with
  | starting | retrying | pivoting => trivial
  | reading a =>
      obtain ⟨e, hlast, hanswers⟩ := h
      exact ⟨e, hlast, hanswers.grows hg⟩
  | responded a =>
      unfold Stage.Knows
      rw [hg.begin]
      exact h
  | done status => exact h
  | queued | thrown | undefined => exact h

theorem sound_setLock (hs : Sound s) (b : Nat) (lock : CheckpointLock) :
    Sound (setLock s b lock) :=
  ⟨hs.begin, hs.head, hs.safe, hs.readOnly, hs.tail, hs.free, hs.low, hs.settled, hs.links,
    hs.entries⟩

theorem tryLockOld_eq {b : Nat} (h : tryLockOld s b = some s') :
    ∃ lock, s' = setLock s b lock := by
  simp only [tryLockOld] at h
  split at h
  · cases h
    exact ⟨_, rfl⟩
  · cases h

theorem inv_start (ctx : Context) : Inv L r (System.start ctx) where
  sound := Disk.sound_new
  knows := trivial

theorem Inv.issue {e : Execution K} (hs : Sound y.store) (hlast : y.executed.head? = some e)
    (h : Answers L e.before y.store r.key y.pending.address) :
    Inv L r (y.handleOperationStatus L r .recordOnDisk) := by
  simp only [System.handleOperationStatus]
  split
  · split
    · exact ⟨hs, trivial⟩
    · next s hlock =>
        obtain ⟨lock, rfl⟩ := tryLockOld_eq hlock
        exact ⟨sound_setLock hs _ _, e, hlast, h.grows (.of_same rfl rfl)⟩
  · exact ⟨hs, e, hlast, h⟩

theorem Inv.completeIo {continued : OperationStatus} (h : Inv L r x)
    (hread : r.operation = .read) (hstage : x.stage = .responded a)
    (hstep : x.completeIo L r a continued = some y) : Inv L r y := by
  have hknows := h.knows
  rw [hstage] at hknows
  simp only [System.completeIo, hread, Operation.type, System.continueRead] at hstep
  simp only [Stage.Knows] at hknows
  by_cases hle : x.store.beginAddress ≤ a
  · rw [if_pos hle] at hknows hstep
    by_cases hversion : x.thread.version > x.owner.version
    · rw [if_pos hversion] at hstep
      cases hstep
      exact ⟨sound_setLock h.sound _ _, hknows⟩
    · rw [if_neg hversion] at hstep
      cases hstep
      exact ⟨h.sound, hknows⟩
  · rw [if_neg hle] at hknows hstep
    by_cases hversion : x.thread.version > x.owner.version
    · rw [if_pos hversion] at hstep
      cases hstep
      exact ⟨sound_setLock h.sound _ _, hknows⟩
    · rw [if_neg hversion] at hstep
      cases hstep
      exact ⟨h.sound, hknows⟩

variable [DecidableEq K]

theorem execute_readsAs {operation : Operation} {status' : OperationStatus}
    (hs : Sound x.store) (hread : r.operation = .read)
    (h : x.execute L r operation ctx = some (status', y)) :
    ∃ status, status' = .ofInternal status ∧ ReadsAs L x.store ctx r status ∧
      y = { x with
        pending := x.pending.goAsync ctx (r.address L x.store) status'
        executed := ⟨operation, x.store, x.store⟩ :: x.executed } := by
  obtain ⟨status, v, hinternal, hreads⟩ := internalRead_readsAs (L := L) hs ctx hread
  simp only [System.execute, Request.perform, hread, hinternal, Option.map_some] at h
  cases h
  exact ⟨status, rfl, hreads, rfl⟩

theorem Inv.begin (h : Inv L r x) (hread : r.operation = .read)
    (hstep : x.begin L r = some y) : Inv L r y := by
  rw [System.begin, Option.map_eq_some_iff] at hstep
  obtain ⟨⟨status', z⟩, hexecute, hstep⟩ := hstep
  obtain ⟨status, rfl, hreads, rfl⟩ := execute_readsAs h.sound hread hexecute
  rw [hread] at hstep
  cases hreads with
  | success hpresent =>
      cases hstep
      exact ⟨h.sound, _, rfl, Or.inl ⟨rfl, hpresent⟩⟩
  | notFound habsent =>
      cases hstep
      exact ⟨h.sound, _, rfl, Or.inr ⟨rfl, habsent⟩⟩
  | cprShiftDetected =>
      cases hstep
      exact ⟨h.sound, trivial⟩
  | recordOnDisk ha _ hanswers =>
      cases hstep
      refine Inv.issue h.sound rfl ?_
      rw [ha]
      exact hanswers

theorem Inv.retryNow (h : Inv L r x) (hread : r.operation = .read)
    (hok : Finds L x.store r.key ∨ ShiftSeen L x.store x.thread r.key)
    (hstep : x.retryNow L r = some y) : Inv L r y := by
  have htype : retryNowOperation r.operation.type = some r.operation := by
    rw [hread]
    rfl
  simp only [System.retryNow, htype, if_true, Option.map_eq_some_iff] at hstep
  obtain ⟨⟨status', z⟩, hexecute, hstep⟩ := hstep
  obtain ⟨status, rfl, hreads, rfl⟩ := execute_readsAs h.sound hread hexecute
  cases hreads with
  | success hpresent =>
      cases hstep
      exact ⟨h.sound, _, rfl, Or.inl ⟨rfl, hpresent⟩⟩
  | notFound _ hno hseen => exact (hok.elim hno hseen).elim
  | cprShiftDetected =>
      cases hstep
      exact ⟨h.sound, trivial⟩
  | recordOnDisk ha _ hanswers =>
      cases hstep
      refine Inv.issue h.sound rfl ?_
      rw [ha]
      exact hanswers

theorem Inv.corrupted_iff (h : Inv L r x) (hread : r.operation = .read)
    (hstep : x.retryNow L r = some y) :
    y.stage = .done .corruption ↔
      ¬ (Finds L x.store r.key ∨ ShiftSeen L x.store x.thread r.key) := by
  constructor
  · intro hstage hok
    have hknows := (h.retryNow hread hok hstep).knows
    rw [hstage] at hknows
    obtain ⟨e, -, ⟨hstatus, -⟩ | ⟨hstatus, -⟩⟩ := hknows
    · cases hstatus
    · cases hstatus
  · intro hno
    have htype : retryNowOperation r.operation.type = some r.operation := by
      rw [hread]
      rfl
    simp only [System.retryNow, htype, if_true, Option.map_eq_some_iff] at hstep
    obtain ⟨⟨status', z⟩, hexecute, hstep⟩ := hstep
    obtain ⟨status, rfl, hreads, rfl⟩ := execute_readsAs h.sound hread hexecute
    cases hreads with
    | success _ hfinds => exact absurd (Or.inl hfinds) hno
    | notFound =>
        cases hstep
        rfl
    | cprShiftDetected hseen => exact absurd (Or.inr hseen) hno
    | recordOnDisk _ _ _ hfinds => exact absurd (Or.inl hfinds) hno

theorem Inv.readDisk (h : Inv L r x) (hstage : x.stage = .reading a)
    (hstep : x.readDisk r a = some y) : Inv L r y := by
  have hknows := h.knows
  rw [hstage] at hknows
  obtain ⟨e, hlast, hanswers⟩ := hknows
  rw [System.readDisk, Option.map_eq_some_iff] at hstep
  obtain ⟨rc, hr, rfl⟩ := hstep
  have hle := h.sound.low a rc hr
  split
  · next hkey =>
      refine ⟨h.sound, e, hlast, Or.inl ⟨if_pos hle, ?_⟩⟩
      exact hanswers.present hle hr hkey.symm
  · next hkey =>
      have hnext := hanswers.next h.sound hr (Ne.symm hkey)
      split
      · exact ⟨h.sound, e, hlast, hnext⟩
      · next hlt =>
          exact ⟨h.sound, e, hlast, Or.inr ⟨if_neg hlt, hnext.absent (Nat.not_le.mp hlt)⟩⟩

/-- When a `Read` is retried, the search of the chain in memory ends at a record of
the key or on disk, or another version is met again. -/
def Meets (L : Layout K) (r : Request K) (x : System K) : Move K → Prop
  | .run _ => x.stage = .retrying → Finds L x.store r.key ∨ ShiftSeen L x.store x.thread r.key
  | _ => True

theorem Inv.next {move : Move K} (h : Inv L r x) (hread : r.operation = .read)
    (hok : Meets L r x move) (hstep : x.next L r move = some y) : Inv L r y := by
  cases move with
  | run continued =>
      simp only [System.next] at hstep
      split at hstep
      · exact h.begin hread hstep
      · next hstage => exact h.retryNow hread (hok hstage) hstep
      · cases hstep
        exact ⟨h.sound, trivial⟩
      · next hstage =>
          have hknows := h.knows
          rw [hstage] at hknows
          exact hknows.elim
      · next hstage => exact h.readDisk hstage hstep
      · next hstage => exact h.completeIo hread hstage hstep
      all_goals cases hstep
  | other a =>
      rw [System.next, Option.map_eq_some_iff] at hstep
      obtain ⟨s, haccess, rfl⟩ := hstep
      obtain ⟨hs, hg⟩ := access_spec h.sound haccess
      exact ⟨hs, h.knows.grows hg⟩
  | refresh ctx =>
      simp only [System.next] at hstep
      split at hstep
      · cases hstep
        exact ⟨h.sound, h.knows⟩
      · cases hstep

/-- In every run in which no retry ends at an absent key, the final status of a
`Read` is `Ok` if its last search has met the key, and `NotFound` if it was
absent. -/
theorem reports_of_meets {input : BitVec 64}
    (h : Reaches (System.next L ⟨.read, key, input⟩) (Meets L ⟨.read, key, input⟩)
      (System.start ctx) x) :
    Reports L ⟨.read, key, input⟩ x := by
  have hinv : Inv L ⟨.read, key, input⟩ x :=
    h.invariant (inv_start ctx) fun x move y hx hok hstep => hx.next rfl hok hstep
  intro status hstage
  have hknows := hinv.knows
  rw [hstage] at hknows
  exact hknows

theorem reports_shiftMoves : ∃ x,
    Reaches (System.next oneEntry ⟨.read, 2, 0⟩) (Meets oneEntry ⟨.read, 2, 0⟩)
      (System.start ⟨.prepare, 1⟩) x ∧
    x.stage = .done .ok ∧ Reports oneEntry ⟨.read, 2, 0⟩ x := by
  let ok : System Nat → Move Nat → Prop := fun x _ => x.stage = .retrying →
    (x.store.buckets 0)[0]? = some (some ⟨64, 0, false⟩) ∧ x.store.beginAddress ≤ 64 ∧
      (x.store.log 64).map Record.key = some 2
  have hrun : (runActions (System.next oneEntry ⟨.read, 2, 0⟩) (System.start ⟨.prepare, 1⟩)
      shiftMoves).map System.stage = some (.done .ok) := by
    decide +kernel
  obtain ⟨x, hx, hstage⟩ := Option.map_eq_some_iff.mp hrun
  have hadmits : Admits (System.next oneEntry ⟨.read, 2, 0⟩) ok (System.start ⟨.prepare, 1⟩)
      shiftMoves := by
    decide +kernel
  have hmeets : ∀ (x : System Nat) (a : Move Nat), ok x a →
      Meets oneEntry ⟨.read, 2, 0⟩ x a := by
    intro x a hok
    cases a with
    | run continued =>
        intro hretrying
        obtain ⟨hslot, hle, hkey⟩ := hok hretrying
        obtain ⟨rc, hr, hkey⟩ := Option.map_eq_some_iff.mp hkey
        exact Or.inl (finds_of_entry hslot rfl hle hr hkey)
    | other | refresh => trivial
  have hreach := (reaches_of_runActions hadmits hx).mono hmeets
  exact ⟨x, hreach, hstage, reports_of_meets hreach⟩

/-- Key 1 is absent when the same happens to a `Read` of it. -/
theorem read_corrupted : ∃ x,
    Reaches (System.next oneEntry ⟨.read, 1, 0⟩) (fun _ _ => True)
      (System.start ⟨.prepare, 1⟩) x ∧
    x.stage = .done .corruption ∧ ¬ Reports oneEntry ⟨.read, 1, 0⟩ x := by
  have hrun : (runActions (System.next oneEntry ⟨.read, 1, 0⟩) (System.start ⟨.prepare, 1⟩)
      shiftMoves).map System.stage = some (.done .corruption) := by
    decide +kernel
  obtain ⟨x, hx, hstage⟩ := Option.map_eq_some_iff.mp hrun
  refine ⟨x, reaches_of_runActions (admits_of_forall fun _ _ _ => trivial) hx, hstage, ?_⟩
  intro hreports
  obtain ⟨e, -, ⟨hstatus, -⟩ | ⟨hstatus, -⟩⟩ := hreports _ hstage
  · cases hstatus
  · cases hstatus

end Runs

end HashComp.Requests
