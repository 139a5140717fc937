import HashComp.Library.RecordChain
import HashComp.Recovery.CleanPages

namespace HashComp.Recovery

open HashComp.ByteMemory
open HashComp.Faster (kInvalidAddress kPageSize)
open HashComp.Hlog
open HashComp.RecordChain
open HashComp.Records
open HashComp.Runs

structure Met (H : Type) where
  address : Nat
  hash : H
  header : RecordInfo
  deriving DecidableEq

def headerAt (m : Memory) (offset : Nat) : RecordInfo :=
  .ofControl (readWord m offset)

def Classes.met {H : Type} (C : Classes H) (page : Nat) (m : Memory) (offset : Nat) : Met H :=
  ⟨pageStart page + offset, C.getHash m (C.keyAt offset), headerAt m offset⟩

namespace RecoveryPoint

variable {H : Type} (point : RecoveryPoint)

def entryAfter (r : Met H) (entry : Option Nat) : Option Nat :=
  if r.header.invalid then entry
  else if r.header.checkpointVersion.toNat ≤ point.version.toNat then some r.address
  else if r.header.previousAddress.toNat < point.checkpointStartAddress then
    some r.header.previousAddress.toNat
  else some (entry.getD kInvalidAddress)

def replay [DecidableEq H] (entries : H → Option Nat) (r : Met H) : H → Option Nat :=
  Function.update entries r.hash (point.entryAfter r (entries r.hash))

end RecoveryPoint

section Visits

variable {H : Type} [DecidableEq H] {C : Classes H} (point : RecoveryPoint) (page : Nat)
  {stop : Nat → Option Nat} {m : Memory} {n offset fromOffset toOffset : Nat} {s t : Scan H}
  {v : List Nat}

theorem entries_findOrCreateEntry (s : Scan H) (hash : H) : (s.findOrCreateEntry hash).entries =
    Function.update s.entries hash (some ((s.entries hash).getD kInvalidAddress)) := by
  rw [Scan.findOrCreateEntry]
  split
  · rename_i hnone
    rw [hnone]
    rfl
  · rename_i address hsome
    rw [hsome, Option.getD_some, ← hsome, Function.update_eq_self]

theorem entries_replayRecord (hvalid : (headerAt s.memory offset).invalid = false) :
    (replayRecord C point page offset s).entries =
      point.replay s.entries (C.met page s.memory offset) := by
  have hfound := entries_findOrCreateEntry s (C.getHash s.memory (C.keyAt offset))
  have hafter : point.entryAfter (C.met page s.memory offset)
      (s.entries (C.getHash s.memory (C.keyAt offset))) =
      if (RecordInfo.ofControl (readWord s.memory offset)).checkpointVersion.toNat ≤
          point.version.toNat then some (pageStart page + offset)
      else if (RecordInfo.ofControl (readWord s.memory offset)).previousAddress.toNat <
          point.checkpointStartAddress then
        some (RecordInfo.ofControl (readWord s.memory offset)).previousAddress.toNat
      else some ((s.entries (C.getHash s.memory (C.keyAt offset))).getD kInvalidAddress) := by
    rw [RecoveryPoint.entryAfter, if_neg]
    · rfl
    · intro h
      exact absurd (hvalid.symm.trans h) nofun
  rw [RecoveryPoint.replay]
  change _ = Function.update s.entries (C.getHash s.memory (C.keyAt offset))
    (point.entryAfter (C.met page s.memory offset)
      (s.entries (C.getHash s.memory (C.keyAt offset))))
  rw [hafter, replayRecord]
  dsimp only
  split
  · rw [Scan.store, hfound, Function.update_idem]
  · split
    · rw [Scan.store, hfound, Function.update_idem]
    · exact hfound

omit [DecidableEq H] in
theorem recoverRecord_old {version : BitVec 32} {header : RecordInfo}
    (hold : header.checkpointVersion.toNat ≤ version.toNat) :
    recoverRecord version header = header := by
  rw [recoverRecord, if_pos hold, ite_self]

omit [DecidableEq H] in
theorem recoverRecord_invalid {version : BitVec 32} {header : RecordInfo}
    (hinvalid : header.invalid = true) : recoverRecord version header = header := by
  rw [recoverRecord, if_pos hinvalid]

omit [DecidableEq H] in
theorem recoverRecord_new {version : BitVec 32} {header : RecordInfo}
    (hvalid : header.invalid = false) (hnew : ¬ header.checkpointVersion.toNat ≤ version.toNat) :
    recoverRecord version header = { header with invalid := true } := by
  rw [recoverRecord, if_neg (by rw [hvalid]; nofun), if_neg hnew]

theorem memory_replayRecord (hvalid : (headerAt s.memory offset).invalid = false) :
    headerAt (replayRecord C point page offset s).memory offset =
        recoverRecord point.version (headerAt s.memory offset) ∧
      ∀ i, i < offset ∨ offset + 8 ≤ i →
        (replayRecord C point page offset s).memory i = s.memory i := by
  obtain ⟨hmemory, -⟩ := memory_findOrCreateEntry s (C.getHash s.memory (C.keyAt offset))
  have hwritten (header : RecordInfo) :
      headerAt (writeWord s.memory offset header.control) offset = header := by
    rw [headerAt, readWord_writeWord, RecordInfo.ofControl_control]
  have houtside (w : Word) (i : Nat) (hi : i < offset ∨ offset + 8 ≤ i) :
      writeWord s.memory offset w i = s.memory i :=
    agree_writeWord (b := i) (e := i + 1) (by omega) i le_rfl (Nat.lt_succ_self i)
  rw [replayRecord]
  dsimp only
  split
  · rename_i hold
    have hkept : recoverRecord point.version (headerAt s.memory offset) =
        headerAt s.memory offset := recoverRecord_old hold
    rw [hkept, Scan.store]
    dsimp only
    rw [hmemory]
    exact ⟨rfl, fun _ _ => rfl⟩
  · rename_i hnew
    have hmarked : recoverRecord point.version (headerAt s.memory offset) =
        { headerAt s.memory offset with invalid := true } := recoverRecord_new hvalid hnew
    rw [hmarked]
    split
    · rw [Scan.store]
      dsimp only
      rw [hmemory]
      exact ⟨hwritten _, houtside _⟩
    · rw [hmemory]
      exact ⟨hwritten _, houtside _⟩

theorem visit_spec (hheader : readWord s.memory offset ≠ 0) :
    (visit C point page offset s).1.entries =
        point.replay s.entries (C.met page s.memory offset) ∧
      headerAt (visit C point page offset s).1.memory offset =
        recoverRecord point.version (headerAt s.memory offset) ∧
      ∀ i, i < offset ∨ offset + 8 ≤ i →
        (visit C point page offset s).1.memory i = s.memory i := by
  rw [visit, if_neg hheader]
  dsimp only
  split
  · rename_i hinvalid
    have hmet : (C.met page s.memory offset).header.invalid = true := hinvalid
    refine ⟨?_, ?_, fun _ _ => rfl⟩
    · rw [RecoveryPoint.replay, RecoveryPoint.entryAfter, if_pos hmet, Function.update_eq_self]
    · exact (recoverRecord_invalid hmet).symm
  · rename_i hvalid
    have hvalid : (headerAt s.memory offset).invalid = false := Bool.eq_false_of_not_eq_true hvalid
    obtain ⟨hat, houtside⟩ := memory_replayRecord (C := C) point page
      (s := { s with visited := offset :: s.visited }) hvalid
    exact ⟨entries_replayRecord point page (s := { s with visited := offset :: s.visited }) hvalid,
      hat, houtside⟩

theorem eq_foldl_of_recoverFromPage
    (h : recoverFromPage C point page n fromOffset toOffset s = some t) :
    ∃ v, t.visited = v ++ s.visited ∧
      t = v.reverse.foldl (fun s a => (visit C point page a s).1) s := by
  induction n generalizing fromOffset s with
  | zero => cases h
  | succ n ih =>
      rw [recoverFromPage] at h
      split at h
      · obtain ⟨v, hvisited, heq⟩ := ih h
        by_cases hzero : readWord s.memory fromOffset = 0
        · have hsame : (visit C point page fromOffset s).1 = s := by
            rw [visit, if_pos hzero]
          rw [hsame] at hvisited heq
          exact ⟨v, hvisited, heq⟩
        · have hmet : (visit C point page fromOffset s).1.visited = fromOffset :: s.visited := by
            rw [visit, if_neg hzero]
            dsimp only
            split
            · rfl
            · exact (replayRecord_spec point page C _ _).1
          refine ⟨v ++ [fromOffset], ?_, ?_⟩
          · rw [hvisited, hmet, List.append_assoc]
            rfl
          · rw [List.reverse_append, List.foldl_append]
            exact heq
      · cases h
        exact ⟨[], rfl, rfl⟩

omit [DecidableEq H] in
theorem headerAt_congr {m' : Memory} (h : Agree m m' offset (offset + 8)) :
    headerAt m offset = headerAt m' offset := by
  rw [headerAt, headerAt, h.readWord_eq]

structure Rewritten (C : Classes H) (version : BitVec 32) (stop : Nat → Option Nat) (v : List Nat)
    (m m' : Memory) : Prop where
  scannable : Scannable C stop m'
  same : ∀ a e, stop a = some e → SameRecord C m m' a
  met : ∀ a ∈ v, headerAt m' a = recoverRecord version (headerAt m a)
  others : ∀ i, (∀ a ∈ v, i < a ∨ a + 8 ≤ i) → m' i = m i

theorem foldl_visit (h : Scannable C stop s.memory) (hv : ∀ a ∈ v, (stop a).isSome)
    (hnodup : v.Nodup) :
    Rewritten C point.version stop v s.memory
        (v.foldl (fun s a => (visit C point page a s).1) s).memory ∧
      (v.foldl (fun s a => (visit C point page a s).1) s).entries =
        (v.map (C.met page s.memory)).foldl point.replay s.entries := by
  induction v generalizing s with
  | nil => exact ⟨⟨h, fun _ _ _ => ⟨rfl, rfl, rfl, rfl⟩, nofun, fun _ _ => rfl⟩, rfl⟩
  | cons a v ih =>
      obtain ⟨hnot, hnodup⟩ := List.nodup_cons.mp hnodup
      obtain ⟨e, hstop⟩ := Option.isSome_iff_exists.mp (hv a List.mem_cons_self)
      obtain ⟨hkeeps, hsame, -, -⟩ := visit_record (C := C) point page h hstop
      obtain ⟨hentries, hheader, houtside⟩ :=
        visit_spec (C := C) point page (h.record a e hstop).header
      have haway (b : Nat) (hb : b ∈ v) : b + 8 ≤ a ∨ a + 8 ≤ b := by
        obtain ⟨e', hb'⟩ := Option.isSome_iff_exists.mp (hv b (List.mem_cons_of_mem _ hb))
        have ha8 := (h.record a e hstop).aligned
        have hb8 := (h.record b e' hb').aligned
        have hne : b ≠ a := fun heq => hnot (heq ▸ hb)
        omega
      have hother (b : Nat) (hb : b ∈ v) :
          headerAt (visit C point page a s).1.memory b = headerAt s.memory b := by
        have hb' := haway b hb
        exact headerAt_congr fun i hlo hhi => houtside i (by omega)
      obtain ⟨hrest, hfold⟩ := ih hkeeps (fun b hb => hv b (List.mem_cons_of_mem _ hb)) hnodup
      rw [List.foldl_cons]
      refine ⟨⟨hrest.scannable, fun b e' hb => ?_, fun b hb => ?_, fun i hi => ?_⟩, ?_⟩
      · have hfirst := hsame b e' hb
        have hthen := hrest.same b e' hb
        exact ⟨hfirst.keySize.trans hthen.keySize, hfirst.valueAt.trans hthen.valueAt,
          hfirst.size.trans hthen.size, hfirst.hash.trans hthen.hash⟩
      · rcases List.mem_cons.mp hb with rfl | hb
        · rw [← hheader]
          refine headerAt_congr fun i hlo hhi => hrest.others i fun c hc => ?_
          have hc' := haway c hc
          omega
        · rw [hrest.met b hb, hother b hb]
      · rw [hrest.others i fun b hb => hi b (List.mem_cons_of_mem _ hb)]
        exact houtside i (hi a List.mem_cons_self)
      · rw [hfold, hentries, List.map_cons, List.foldl_cons]
        refine congrArg (List.foldl _ _) (List.map_congr_left fun b hb => ?_)
        obtain ⟨e', hb'⟩ := Option.isSome_iff_exists.mp (hv b (List.mem_cons_of_mem _ hb))
        rw [Classes.met, Classes.met, hother b hb, (hsame b e' hb').hash]

def recordsOf (stop : Nat → Option Nat) (fromOffset toOffset : Nat) : List Nat :=
  (List.range toOffset).filter fun a => (stop a).isSome && decide (fromOffset ≤ a)

omit [DecidableEq H] in
theorem mem_recordsOf {a : Nat} : a ∈ recordsOf stop fromOffset toOffset ↔
    (stop a).isSome ∧ fromOffset ≤ a ∧ a < toOffset := by
  rw [recordsOf, List.mem_filter, List.mem_range, Bool.and_eq_true, decide_eq_true_eq]
  exact ⟨fun h => ⟨h.2.1, h.2.2, h.1⟩, fun h => ⟨h.2.2, h.1, h.2.1⟩⟩

omit [DecidableEq H] in
theorem pairwise_recordsOf : (recordsOf stop fromOffset toOffset).Pairwise (· < ·) :=
  List.pairwise_lt_range.filter _

/-- The scan of a page, by its records: it marks the later ones and leaves all else, and the
entries are replayed. -/
theorem recoverFromPage_replays (h : Scannable C stop s.memory)
    (hstands : Stands C stop s.memory fromOffset ∨ toOffset ≤ fromOffset)
    (hto : toOffset ≤ kPageSize) (hn : toOffset ≤ fromOffset + n) :
    ∃ t, recoverFromPage C point page (n + 1) fromOffset toOffset s = some t ∧
      Rewritten C point.version stop (recordsOf stop fromOffset toOffset) s.memory t.memory ∧
      t.entries = ((recordsOf stop fromOffset toOffset).map (C.met page s.memory)).foldl
        point.replay s.entries := by
  have hrecords (a : Nat) (ha : a ∈ recordsOf stop fromOffset toOffset) : (stop a).isSome :=
    (mem_recordsOf.mp ha).1
  obtain ⟨hrewritten, hentries⟩ := foldl_visit (C := C) point page (s := s) h hrecords
    pairwise_recordsOf.nodup
  by_cases hlt : fromOffset < toOffset
  · obtain ⟨t, v, ht, -, hvisited, hpairwise, hmem⟩ :=
      recoverFromPage_spec point page h (hstands.resolve_right (Nat.not_le.mpr hlt)) hto hn
    obtain ⟨v', hvisited', heq⟩ := eq_foldl_of_recoverFromPage point page ht
    have hsame : v' = v := List.append_cancel_right (hvisited'.symm.trans hvisited)
    subst hsame
    have hlist : v'.reverse = recordsOf stop fromOffset toOffset := by
      refine (List.pairwise_reverse.mpr hpairwise).eq_of_mem_iff pairwise_recordsOf fun a => ?_
      rw [List.mem_reverse, hmem a, mem_recordsOf]
    rw [hlist] at heq
    rw [← heq] at hrewritten hentries
    exact ⟨t, ht, hrewritten, hentries⟩
  · have hnone : recordsOf stop fromOffset toOffset = [] := by
      refine List.eq_nil_iff_forall_not_mem.mpr fun a ha => ?_
      have hrange := (mem_recordsOf.mp ha).2
      omega
    rw [hnone] at hrewritten hentries ⊢
    exact ⟨s, by rw [recoverFromPage, if_neg hlt], hrewritten, hentries⟩

end Visits

section Passes

variable {H : Type} [DecidableEq H] (C : Classes H) (point : RecoveryPoint) (r : LogRange)
  (stops : Nat → Nat → Option Nat) (log : Nat → Memory)

namespace LogRange

/-- The offsets of the records of a page between `checkpoint_start_address` and
`final_address`. -/
def records (p : Nat) : List Nat := recordsOf (stops p) (r.fromOffset p) (r.toOffset p)

def metBefore (page : Nat) : List (Met H) :=
  (List.range' r.startPage (page - r.startPage)).flatMap fun p =>
    (r.records stops p).map (C.met p (log p))

/-- The pages that are read hold records, and the scan of one begins between them. -/
structure Readable : Prop where
  scannable : ∀ p, r.startPage ≤ p → p < r.endPage → Scannable C (stops p) (log p)
  stands : ∀ p, r.startPage ≤ p → p < r.endPage →
    Stands C (stops p) (log p) (r.fromOffset p) ∨ r.toOffset p ≤ r.fromOffset p

end LogRange

structure Replaying (entries : H → Option Nat) (x : Pass H) : Prop where
  entries : x.entries = (r.metBefore C stops log x.page).foldl point.replay entries
  flushing : ∀ p, x.status p = .issuedFlush → ∃ m, x.pages (r.config.slot p) = some m ∧
    Rewritten C point.version (stops p) (r.records stops p) (log p) m
  flushed : ∀ p, x.status p = .flushDone →
    Rewritten C point.version (stops p) (r.records stops p) (log p) (x.log p)
  outside : ∀ p, p < r.startPage ∨ r.endPage ≤ p → x.log p = log p

variable {C} {point} {r} {stops} {log} {entries : H → Option Nat} {x y : Pass H} {p : Nat}
  {step : PassStep}

omit [DecidableEq H] in
theorem metBefore_succ (hle : r.startPage ≤ p) : r.metBefore C stops log (p + 1) =
    r.metBefore C stops log p ++ (r.records stops p).map (C.met p (log p)) := by
  have hpage : r.startPage + (p - r.startPage) = p := Nat.add_sub_of_le hle
  rw [LogRange.metBefore, LogRange.metBefore, Nat.succ_sub hle, List.range'_1_concat,
    List.flatMap_append, hpage, List.flatMap_singleton]

omit [DecidableEq H] in
/-- The buffer of a page that has it to itself is none that is being flushed. -/
theorem Passing.slot_ne (h : Passing r log x) (hstarted : x.status p ≠ .notStarted)
    (hnot : x.status p ≠ .flushDone) {q : Nat} (hne : q ≠ p)
    (hflushing : x.status q = .issuedFlush) : r.config.slot q ≠ r.config.slot p := by
  intro hslot
  have halone := h.alone hstarted hnot
  have hq := h.inRange q (by rw [hflushing]; decide)
  rcases Nat.lt_or_gt_of_ne hne with hlt | hlt
  · rw [(halone.earlier q hq.1 hlt hslot).1] at hflushing
    cases hflushing
  · rw [halone.later q hlt hslot] at hflushing
    cases hflushing

theorem Replaying.readDone (h : Replaying C point r stops log entries x) (hx : Passing r log x)
    (hnext : x.readDone r p = some y) : Replaying C point r stops log entries y := by
  rw [Pass.readDone] at hnext
  split at hnext <;> cases hnext
  rename_i hstatus
  have hother (q : Nat) (status : PageRecoveryStatus) (hstatus' : status ≠ .readDone)
      (hq : ((x.setPage r p (x.log p)).setStatus p .readDone).status q = status) :
      q ≠ p ∧ x.status q = status := by
    have hne : q ≠ p := by
      rintro rfl
      exact hstatus' (hq.symm.trans status_setStatus_self)
    exact ⟨hne, (status_setStatus_of_ne hne).symm.trans hq⟩
  refine ⟨h.entries, fun q hq => ?_, fun q hq => ?_, h.outside⟩
  · obtain ⟨hne, hq⟩ := hother q .issuedFlush (by decide) hq
    obtain ⟨m, hm, hrewritten⟩ := h.flushing q hq
    have hslot := hx.slot_ne (p := p) (by rw [hstatus]; decide) (by rw [hstatus]; decide) hne hq
    exact ⟨m, (pages_setPage_of_ne hslot).trans hm, hrewritten⟩
  · exact h.flushed q (hother q .flushDone (by decide) hq).2

theorem Replaying.recoverPage (h : Replaying C point r stops log entries x) (hx : Passing r log x)
    (hlog : r.Readable C stops log) (hnext : x.next C point r .recoverPage = some y) :
    Replaying C point r stops log entries y := by
  simp only [Pass.next] at hnext
  split at hnext
  · rename_i hguard
    obtain ⟨hlt, hstatus⟩ := hguard
    have hholds := hx.holds x.page hx.loop.1 hlt
    rw [hstatus] at hholds
    split at hnext
    · cases hnext
    · rename_i memory hmemory
      obtain ⟨scan, hscan, rfl⟩ := Option.map_eq_some_iff.mp hnext
      cases hholds.symm.trans hmemory
      obtain ⟨t, ht, hrewritten, hentries⟩ := recoverFromPage_replays (C := C) point x.page
        (s := ⟨log x.page, x.entries, []⟩) (n := r.toOffset x.page - r.fromOffset x.page)
        (hlog.scannable _ hx.loop.1 hlt) (hlog.stands _ hx.loop.1 hlt) (r.toOffset_le x.page)
        (by omega)
      cases hscan.symm.trans ht
      have hself : Function.update x.status x.page .issuedFlush x.page = .issuedFlush :=
        Function.update_self ..
      refine ⟨?_, fun q hq => ?_, fun q hq => ?_, h.outside⟩
      · change scan.entries = (r.metBefore C stops log (x.page + 1)).foldl point.replay entries
        rw [metBefore_succ hx.loop.1, List.foldl_append, ← h.entries]
        exact hentries
      · change Function.update x.status x.page .issuedFlush q = .issuedFlush at hq
        by_cases hne : q = x.page
        · subst hne
          exact ⟨scan.memory, pages_setPage_self, hrewritten⟩
        · rw [Function.update_of_ne hne] at hq
          obtain ⟨m, hm, hrewritten'⟩ := h.flushing q hq
          have hslot := hx.slot_ne (p := x.page) (by rw [hstatus]; decide)
            (by rw [hstatus]; decide) hne hq
          exact ⟨m, (pages_setPage_of_ne hslot).trans hm, hrewritten'⟩
      · change Function.update x.status x.page .issuedFlush q = .flushDone at hq
        have hne : q ≠ x.page := by
          rintro rfl
          rw [hself] at hq
          cases hq
        rw [Function.update_of_ne hne] at hq
        exact h.flushed q hq
  · cases hnext

theorem Replaying.turn {m : Memory} (h : Replaying C point r stops log entries x)
    (hx : Passing r log x) (hflushing : x.status p = .issuedFlush)
    (hm : x.pages (r.config.slot p) = some m) (hentries : y.entries = x.entries)
    (hpage : y.page = x.page) (hlog : y.log = Function.update x.log p m)
    (hpages : ∀ b, b ≠ r.config.slot p → y.pages b = x.pages b)
    (hissued : ∀ q, y.status q = .issuedFlush → q ≠ p ∧ x.status q = .issuedFlush)
    (hdone : ∀ q, y.status q = .flushDone → q = p ∨ x.status q = .flushDone) :
    Replaying C point r stops log entries y := by
  have hp := hx.inRange p (by rw [hflushing]; decide)
  obtain ⟨m', hm', hrewritten⟩ := h.flushing p hflushing
  cases hm.symm.trans hm'
  refine ⟨?_, fun q hq => ?_, fun q hq => ?_, fun q hq => ?_⟩
  · rw [hentries, hpage]
    exact h.entries
  · obtain ⟨hne, hq⟩ := hissued q hq
    obtain ⟨m', hm', hrewritten'⟩ := h.flushing q hq
    have hslot := hx.slot_ne (p := p) (by rw [hflushing]; decide) (by rw [hflushing]; decide) hne hq
    exact ⟨m', (hpages _ hslot).trans hm', hrewritten'⟩
  · rw [hlog]
    by_cases hne : q = p
    · subst hne
      rw [Function.update_self]
      exact hrewritten
    · rw [Function.update_of_ne hne]
      exact h.flushed q ((hdone q hq).resolve_left hne)
  · rw [hlog, Function.update_of_ne (by omega)]
    exact h.outside q hq

theorem Replaying.flushDone (h : Replaying C point r stops log entries x) (hx : Passing r log x)
    (hnext : x.next C point r (.flushDone p) = some y) :
    Replaying C point r stops log entries y := by
  have hcapacity := r.six_le
  simp only [Pass.next] at hnext
  split at hnext
  · rename_i hflushing
    split at hnext
    · cases hnext
    · rename_i m hm
      have hstatus (q : Nat) (hne : q ≠ p) :
          Function.update x.status p .flushDone q = x.status q := Function.update_of_ne hne ..
      have hself : Function.update x.status p .flushDone p = .flushDone :=
        Function.update_self ..
      split at hnext <;> cases hnext
      · rename_i hmore
        have hread : Function.update (Function.update x.status p .flushDone) (p + r.capacity)
            .issuedRead (p + r.capacity) = .issuedRead := Function.update_self ..
        have hkept (q : Nat) (status : PageRecoveryStatus) (hnot : status ≠ .issuedRead)
            (hq : Function.update (Function.update x.status p .flushDone) (p + r.capacity)
              .issuedRead q = status) : Function.update x.status p .flushDone q = status := by
          have hne : q ≠ p + r.capacity := by
            rintro rfl
            exact hnot (hq.symm.trans hread)
          rwa [Function.update_of_ne hne] at hq
        refine h.turn hx hflushing hm rfl rfl rfl (fun b hb => ?_) (fun q hq => ?_) (fun q hq => ?_)
        · refine pages_setPage_of_ne ?_
          rw [r.slot_add]
          exact hb
        · have hq := hkept q .issuedFlush (by decide) hq
          have hne : q ≠ p := by
            rintro rfl
            rw [hself] at hq
            cases hq
          exact ⟨hne, (hstatus q hne).symm.trans hq⟩
        · have hq := hkept q .flushDone (by decide) hq
          by_cases hne : q = p
          · exact Or.inl hne
          · exact Or.inr ((hstatus q hne).symm.trans hq)
      · refine h.turn hx hflushing hm rfl rfl rfl (fun _ _ => rfl) (fun q hq => ?_) (fun q hq => ?_)
        · change Function.update x.status p .flushDone q = .issuedFlush at hq
          have hne : q ≠ p := by
            rintro rfl
            rw [hself] at hq
            cases hq
          exact ⟨hne, (hstatus q hne).symm.trans hq⟩
        · change Function.update x.status p .flushDone q = .flushDone at hq
          by_cases hne : q = p
          · exact Or.inl hne
          · exact Or.inr ((hstatus q hne).symm.trans hq)
  · cases hnext

theorem Replaying.next (h : Replaying C point r stops log entries x) (hx : Passing r log x)
    (hlog : r.Readable C stops log) (hnext : x.next C point r step = some y) :
    Replaying C point r stops log entries y := by
  cases step with
  | readDone p => exact h.readDone hx hnext
  | recoverPage => exact h.recoverPage hx hlog hnext
  | flushDone p => exact h.flushDone hx hnext

omit [DecidableEq H] in
theorem entries_issueReads (x : Pass H) (page n : Nat) :
    (x.issueReads r page n).entries = x.entries := by
  induction n with
  | zero => rfl
  | succ n ih => exact ih

theorem replaying_start :
    Replaying C point r stops log entries (startRecovering r log entries) := by
  obtain ⟨hstatus, -, hlog, hpage⟩ := issueReads_spec (r := r)
    (Pass.mk (fun b => if b < 2 then some fun _ => 0 else none) log (fun _ => .notStarted)
      r.startPage entries) r.startPage (min r.capacity (r.endPage - r.startPage))
  rw [startRecovering]
  refine ⟨?_, fun q hq => ?_, fun q hq => ?_, fun q _ => congrFun hlog q⟩
  · rw [hpage, entries_issueReads, LogRange.metBefore, Nat.sub_self]
    rfl
  · rw [hstatus] at hq
    split at hq <;> cases hq
  · rw [hstatus] at hq
    split at hq <;> cases hq

/-- `RecoverHybridLog`, in whichever order the disk completes: the entries are those that the
records of the range make of the image of the index, one after the other, and of the log
nothing is changed but the headers of the later records. -/
structure Replayed (C : Classes H) (point : RecoveryPoint) (r : LogRange)
    (stops : Nat → Nat → Option Nat) (log : Nat → Memory) (entries : H → Option Nat)
    (x : Pass H) : Prop where
  entries : x.entries = (r.metBefore C stops log r.endPage).foldl point.replay entries
  pages : ∀ p, r.startPage ≤ p → p < r.endPage →
    Rewritten C point.version (stops p) (r.records stops p) (log p) (x.log p)
  others : ∀ p, p < r.startPage ∨ r.endPage ≤ p → x.log p = log p

theorem Replaying.replayed (h : Replaying C point r stops log entries x)
    (hrecovered : x.Recovered r) : Replayed C point r stops log entries x := by
  obtain ⟨hpage, hdone⟩ := hrecovered
  refine ⟨?_, fun p hlo hhi => h.flushed p (hdone p hlo hhi), h.outside⟩
  rw [h.entries, hpage]

theorem replaying_of_reaches (hlog : r.Readable C stops log)
    (hreach : Reaches (Pass.next C point r) (fun _ _ => True) (startRecovering r log entries) x) :
    Passing r log x ∧ Replaying C point r stops log entries x :=
  hreach.invariant (I := fun x => Passing r log x ∧ Replaying C point r stops log entries x)
    ⟨passing_start entries, replaying_start⟩ fun _ _ _ h _ hnext =>
      ⟨h.1.next hnext, h.2.next h.1 hlog hnext⟩

theorem replayed_of_recovered (hlog : r.Readable C stops log)
    (hreach : Reaches (Pass.next C point r) (fun _ _ => True) (startRecovering r log entries) x)
    (hrecovered : x.Recovered r) : Replayed C point r stops log entries x :=
  (replaying_of_reaches hlog hreach).2.replayed hrecovered

def secondPage : LogRange :=
  ⟨sixPages, pageStart 1, pageStart 1 + 72, by decide, Or.inl (by decide)⟩

theorem replayed_threeRanges : ∃ im x,
    runActions (PageImage.next kvcontext) (.opened 1) threeRanges = some im ∧
      Replayed kvcontext ⟨1, 64⟩ secondPage (fun _ => im.stops kvcontext) (fun _ => im.memory)
        (fun _ => none) x := by
  have hview : (runActions (PageImage.next kvcontext) (.opened 1) threeRanges).map
      PageImage.tail = some 72 := by
    decide +kernel
  obtain ⟨im, him, -⟩ := Option.map_eq_some_iff.mp hview
  have himaged : Imaged kvcontext im :=
    (reaches_of_runActions fitting_threeRanges him).invariant (imaged_opened 1)
      fun _ _ _ h hok hnext => h.next hok hnext
  have hfrom (p : Nat) : secondPage.fromOffset p = 0 := by
    rw [LogRange.fromOffset]
    split
    · decide
    · rfl
  have hlog : secondPage.Readable kvcontext (fun _ => im.stops kvcontext) fun _ => im.memory :=
    ⟨fun _ _ _ => himaged.scannable, fun p _ _ => Or.inl (himaged.stands (Or.inl (hfrom p)))⟩
  have hreturns : Returns kvcontext ⟨1, 64⟩ secondPage fun _ => im.memory :=
    fun p entries => returns_of_imaged himaged (hfrom p) entries
  obtain ⟨x, hx, -, hrecovered⟩ := exists_recovered hreturns fun _ => none
  exact ⟨im, x, him, replayed_of_recovered hlog hx hrecovered⟩

end Passes

section Chains

def previous (header : RecordInfo) : Nat := header.previousAddress.toNat

/-- The records that a search from an entry passes. -/
def Leads (log : Nat → Option RecordInfo) : Option Nat → List Nat → Prop
  | none, l => l = []
  | some a, l => Chain previous log kCacheLineBytes a l

theorem Leads.frame {log log' : Nat → Option RecordInfo} {entry : Option Nat} {l : List Nat}
    (h : Leads log entry l) (hsame : ∀ a ∈ l, (log' a).map previous = (log a).map previous) :
    Leads log' entry l := by
  cases entry with
  | none => exact h
  | some a => exact Chain.frame h hsame

theorem Leads.getD {log : Nat → Option RecordInfo} {entry : Option Nat} {l : List Nat}
    (h : Leads log entry l) : Leads log (some (entry.getD kInvalidAddress)) l := by
  cases entry with
  | none =>
      rw [h]
      exact .nil (by decide)
  | some a => exact h

theorem Leads.unique {log : Nat → Option RecordInfo} {entry : Option Nat} {l l' : List Nat}
    (h : Leads log entry l) (h' : Leads log entry l') : l = l' := by
  cases entry with
  | none => exact Eq.trans h (Eq.symm h')
  | some a => exact Chain.unique h h'

end Chains

section Replays

variable {H : Type} (point : RecoveryPoint) (last : Nat) (log : Nat → Option RecordInfo)

def RecoveryPoint.isOld (a : Nat) : Bool :=
  (log a).any fun header => decide (header.checkpointVersion.toNat ≤ point.version.toNat)

def RecoveryPoint.inRange (a : Nat) : Bool :=
  decide (point.checkpointStartAddress ≤ a ∧ a < last)

def metAlong (hash : H) (addresses : List Nat) : List (Met H) :=
  addresses.filterMap fun a => (log a).map fun header => ⟨a, hash, header⟩

/-- Along a chain the versions do not grow, and the range that is replayed has the first of
those that are not to be recovered and the last of those that are, save for what lies below. -/
structure Cuts (l : List Nat) : Prop where
  valid : ∀ a ∈ l, ∀ header, log a = some header → header.invalid = false
  versions : l.Pairwise fun a b => point.isOld log a = true → point.isOld log b = true
  old : ∀ a ∈ l, a < point.checkpointStartAddress → point.isOld log a = true
  new : ∀ a ∈ l, last ≤ a → point.isOld log a = false

variable {point} {last} {log} {hash : H} {entry : Option Nat} {a : Nat} {l : List Nat}

theorem Cuts.tail (h : Cuts point last log (a :: l)) : Cuts point last log l where
  valid := fun b hb => h.valid b (List.mem_cons_of_mem _ hb)
  versions := (List.pairwise_cons.mp h.versions).2
  old := fun b hb => h.old b (List.mem_cons_of_mem _ hb)
  new := fun b hb => h.new b (List.mem_cons_of_mem _ hb)

theorem Cuts.filter {p : Nat → Bool} (h : Cuts point last log l) :
    Cuts point last log (l.filter p) where
  valid := fun b hb => h.valid b (List.mem_of_mem_filter hb)
  versions := h.versions.filter _
  old := fun b hb => h.old b (List.mem_of_mem_filter hb)
  new := fun b hb => h.new b (List.mem_of_mem_filter hb)

theorem Cuts.filter_eq (h : Cuts point last log l) (hchain : Chain previous log kCacheLineBytes a l)
    (hlt : a < point.checkpointStartAddress) : l.filter (point.isOld log) = l :=
  List.filter_eq_self.mpr fun b hb => h.old b hb (Nat.lt_of_le_of_lt (hchain.bounds hb).2 hlt)

def RecoveryPoint.replayAlong (point : RecoveryPoint) (last : Nat) (log : Nat → Option RecordInfo)
    (hash : H) (l : List Nat) (entry : Option Nat) : Option Nat :=
  (metAlong log hash (l.reverse.filter (point.inRange last))).foldl
    (fun entry r => point.entryAfter r entry) entry

theorem replayAlong_cons_of_not (hnot : point.inRange last a = false) :
    point.replayAlong last log hash (a :: l) entry = point.replayAlong last log hash l entry := by
  rw [RecoveryPoint.replayAlong, List.reverse_cons, List.filter_append,
    List.filter_cons_of_neg (by rw [hnot]; nofun), List.filter_nil, List.append_nil]
  rfl

theorem replayAlong_cons {header : RecordInfo} (hin : point.inRange last a = true)
    (ha : log a = some header) : point.replayAlong last log hash (a :: l) entry =
      point.entryAfter ⟨a, hash, header⟩ (point.replayAlong last log hash l entry) := by
  rw [RecoveryPoint.replayAlong, List.reverse_cons, List.filter_append,
    List.filter_cons_of_pos hin, List.filter_nil, metAlong, List.filterMap_append,
    List.foldl_append, List.filterMap_cons, ha]
  rfl

/-- Where a record of the chain is met, the entry leads to those that are to be recovered. -/
theorem leads_replayAlong (hfirst : kCacheLineBytes ≤ point.checkpointStartAddress)
    (hchain : Chain previous log kCacheLineBytes a l) (h : Cuts point last log l)
    (hmet : ∃ b ∈ l, point.inRange last b = true) :
    Leads log (point.replayAlong last log hash l entry) (l.filter (point.isOld log)) := by
  induction hchain with
  | nil =>
      obtain ⟨b, hb, -⟩ := hmet
      cases hb
  | @cons a header l hle ha hprev hl ih =>
      cases hin : point.inRange last a with
      | false =>
          rw [replayAlong_cons_of_not hin]
          obtain ⟨b, hb, hbin⟩ := hmet
          have hb : b ∈ l := by
            rcases List.mem_cons.mp hb with rfl | hb
            · rw [hin] at hbin
              cases hbin
            · exact hb
          have hafter : last ≤ a := by
            have hba := (hl.bounds hb).2
            rw [RecoveryPoint.inRange, decide_eq_true_eq] at hbin
            rw [RecoveryPoint.inRange, decide_eq_false_iff_not] at hin
            omega
          rw [List.filter_cons_of_neg (by rw [h.new a List.mem_cons_self hafter]; nofun)]
          exact ih h.tail ⟨b, hb, hbin⟩
      | true =>
          have hvalid := h.valid a List.mem_cons_self header ha
          rw [replayAlong_cons hin ha, RecoveryPoint.entryAfter, if_neg (by rw [hvalid]; nofun)]
          by_cases hversion : header.checkpointVersion.toNat ≤ point.version.toNat
          · have hold : point.isOld log a = true := by
              rw [RecoveryPoint.isOld, ha]
              exact decide_eq_true hversion
            have hrest : l.filter (point.isOld log) = l :=
              List.filter_eq_self.mpr fun b hb => (List.pairwise_cons.mp h.versions).1 b hb hold
            rw [if_pos hversion, List.filter_cons_of_pos hold, hrest]
            exact .cons hle ha hprev hl
          · have hnew : ¬ point.isOld log a = true := by
              rw [RecoveryPoint.isOld, ha]
              exact fun hold => hversion (of_decide_eq_true hold)
            rw [if_neg hversion, List.filter_cons_of_neg hnew]
            by_cases hbelow : previous header < point.checkpointStartAddress
            · have hbelow' : header.previousAddress.toNat < point.checkpointStartAddress := hbelow
              rw [if_pos hbelow', h.tail.filter_eq hl hbelow]
              exact hl
            · have habove : ¬ header.previousAddress.toNat < point.checkpointStartAddress := hbelow
              rw [if_neg habove]
              obtain ⟨l', header', rfl, -⟩ := hl.eq_cons (by omega)
              refine (ih h.tail ⟨previous header, List.mem_cons_self, ?_⟩).getD
              rw [RecoveryPoint.inRange, decide_eq_true_eq] at hin ⊢
              omega

theorem leads_of_copied {l₁ l₂ : List Nat} (h : Cuts point last log (l₁ ++ l₂))
    (hafter : ∀ a ∈ l₁, point.checkpointStartAddress ≤ a) (hentry : Leads log entry l₂)
    (hlast : ∀ a, entry = some a → a < last)
    (hnone : ∀ a ∈ l₁ ++ l₂, point.inRange last a = false) :
    Leads log entry ((l₁ ++ l₂).filter (point.isOld log)) := by
  have hnew : l₁.filter (point.isOld log) = [] := by
    refine List.filter_eq_nil_iff.mpr fun a ha => ?_
    have hle := hafter a ha
    have hin := hnone a (List.mem_append_left _ ha)
    rw [RecoveryPoint.inRange, decide_eq_false_iff_not] at hin
    rw [h.new a (List.mem_append_left _ ha) (by omega)]
    nofun
  have hold : l₂.filter (point.isOld log) = l₂ := by
    refine List.filter_eq_self.mpr fun a ha => h.old a (List.mem_append_right _ ha) ?_
    have hin := hnone a (List.mem_append_right _ ha)
    rw [RecoveryPoint.inRange, decide_eq_false_iff_not] at hin
    cases entry with
    | none =>
        rw [hentry] at ha
        cases ha
    | some b =>
        have hle := (Chain.bounds hentry ha).2
        have hlt := hlast b rfl
        omega
  rw [List.filter_append, hnew, hold]
  exact hentry

end Replays

section Met

variable {H : Type} {C : Classes H} {r : LogRange} {stops : Nat → Nat → Option Nat}
  {log : Nat → Memory} {point : RecoveryPoint} {p a : Nat}

def headerIn (log : Nat → Memory) (a : Nat) : Option RecordInfo :=
  if readWord (log (pageOf a)) (a % kPageSize) = 0 then none
  else some (headerAt (log (pageOf a)) (a % kPageSize))

theorem foldl_replay [DecidableEq H] (entries : H → Option Nat) (records : List (Met H))
    (hash : H) :
    records.foldl point.replay entries hash =
      (records.filter fun r => decide (r.hash = hash) && !r.header.invalid).foldl
        (fun entry r => point.entryAfter r entry) (entries hash) := by
  induction records generalizing entries with
  | nil => rfl
  | cons r records ih =>
      rw [List.foldl_cons, ih, RecoveryPoint.replay]
      by_cases hhash : r.hash = hash
      · subst hhash
        rw [Function.update_self]
        cases hinvalid : r.header.invalid with
        | true =>
            rw [List.filter_cons_of_neg (by simp [hinvalid]), RecoveryPoint.entryAfter,
              if_pos hinvalid]
        | false =>
            rw [List.filter_cons_of_pos (by simp [hinvalid]), List.foldl_cons]
      · rw [Function.update_of_ne (Ne.symm hhash), List.filter_cons_of_neg (by simp [hhash])]

theorem mem_metBefore {page : Nat} {m : Met H} : m ∈ r.metBefore C stops log page ↔
    ∃ p, r.startPage ≤ p ∧ p < page ∧ ∃ a ∈ r.records stops p, m = C.met p (log p) a := by
  rw [LogRange.metBefore, List.mem_flatMap]
  constructor
  · rintro ⟨p, hp, hm⟩
    obtain ⟨a, ha, rfl⟩ := List.mem_map.mp hm
    rw [List.mem_range'_1] at hp
    exact ⟨p, by omega, by omega, a, ha, rfl⟩
  · rintro ⟨p, hlo, hhi, a, ha, rfl⟩
    exact ⟨p, List.mem_range'_1.mpr (by omega), List.mem_map_of_mem ha⟩

theorem pairwise_metBefore {page : Nat} :
    (r.metBefore C stops log page).Pairwise fun m m' => m.address < m'.address := by
  rw [LogRange.metBefore, List.pairwise_flatMap]
  refine ⟨fun p _ => List.pairwise_map.mpr ?_, (List.pairwise_lt_range' 1).imp ?_⟩
  · exact pairwise_recordsOf.imp fun hlt => Nat.add_lt_add_left hlt _
  · intro p q hlt m hm m' hm'
    obtain ⟨a, ha, rfl⟩ := List.mem_map.mp hm
    obtain ⟨a', -, rfl⟩ := List.mem_map.mp hm'
    have hto := (mem_recordsOf.mp ha).2.2
    have hle := r.toOffset_le p
    have hpage := pageStart_le_pageStart (Nat.succ_le_of_lt hlt)
    rw [Nat.succ_eq_add_one, pageStart_succ] at hpage
    change pageStart p + a < pageStart q + a'
    omega

/-- Where a record may start, the ranges of the pages make up the range of the log. -/
theorem LogRange.mem_iff (r : LogRange) (hdvd : 8 ∣ a) (hlt : a < kPageSize) :
    (r.startPage ≤ p ∧ p < r.endPage ∧ r.fromOffset p ≤ a ∧ a < r.toOffset p) ↔
      r.fromAddress ≤ pageStart p + a ∧ pageStart p + a < r.toAddress := by
  have hsize : kPageSize = 2 ^ 25 := rfl
  have hfrom := Nat.div_add_mod r.fromAddress kPageSize
  have hto := Nat.div_add_mod r.toAddress kPageSize
  have hfromLt := Nat.mod_lt r.fromAddress (show 0 < kPageSize by decide)
  have htoLt := Nat.mod_lt r.toAddress (show 0 < kPageSize by decide)
  have hstart : r.startPage = r.fromAddress / kPageSize := rfl
  have hend : r.endPage = if 0 < r.toAddress % kPageSize then r.toAddress / kPageSize + 1
    else r.toAddress / kPageSize := rfl
  rw [LogRange.fromOffset, LogRange.toOffset, hstart, hend]
  simp only [pageStart, hsize] at *
  split <;> split <;> split <;> omega

end Met

end HashComp.Recovery
