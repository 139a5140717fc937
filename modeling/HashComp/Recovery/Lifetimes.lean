import HashComp.Recovery.Contents

namespace HashComp.Recovery

open HashComp.ByteMemory
open HashComp.Faster (kInvalidAddress kPageSize)
open HashComp.Hlog
open HashComp.Records
open HashComp.Runs

/-- What `RecoverFromPage` makes of the header at an address. -/
def RecoveryPoint.recovered (point : RecoveryPoint) (r : LogRange) (a : Nat)
    (header : RecordInfo) : RecordInfo :=
  if r.fromAddress ≤ a ∧ a < r.toAddress then recoverRecord point.version header else header

def Stage.map (f : RecordInfo → RecordInfo) : Stage → Stage
  | .reserved => .reserved
  | .keyed header => .keyed (f header)
  | .filled header value => .filled (f header) value

/-- The store after `RestoreHybridLog`: the log and the entries are those of the recovery, the
tail is at `final_address`, and no thread is in an operation.  A page that was full stays so,
and the pages that are opened from now on are clean, as `LeftClean` has it. -/
def LiveStore.restoreHybridLog {T H : Type} (s : LiveStore T H) (point : RecoveryPoint)
    (r : LogRange) (x : Pass H) : LiveStore T H where
  pages := fun p =>
    { memory := x.log p
      tail := min (s.pages p).tail kPageSize
      blocks := (s.pages p).blocks
      stage := fun a => ((s.pages p).stage a).map (point.recovered r (pageStart p + a)) }
  page := pageOf r.toAddress
  entries := x.entries
  writers := fun _ => .idle
  start := none
  acknowledged := fun _ => false
  image := fun _ => none

section Restoring

variable {T H : Type} {C : Classes H} {point : RecoveryPoint} {r : LogRange} {s : LiveStore T H}
  {x : Pass H} {stage : Stage} {m m' : Memory} {b : Block} {a p i : Nat} {header : RecordInfo}
  {f : RecordInfo → RecordInfo}

theorem recovered_old (hold : header.checkpointVersion.toNat ≤ point.version.toNat) :
    point.recovered r a header = header := by
  rw [RecoveryPoint.recovered, recoverRecord_old hold, ite_self]

theorem finalBit_recovered : (point.recovered r a header).finalBit = header.finalBit := by
  rw [RecoveryPoint.recovered, recoverRecord]
  split
  · split
    · rfl
    · split <;> rfl
  · rfl

/-- The records that are valid after a recovery are those that were, of the recovered version or
an earlier one. -/
theorem valid_recovered (hin : r.fromAddress ≤ a → a < r.toAddress)
    (hbelow : header.invalid = false → a < r.fromAddress →
      header.checkpointVersion.toNat ≤ point.version.toNat)
    (hvalid : (point.recovered r a header).invalid = false) :
    header.invalid = false ∧ header.checkpointVersion.toNat ≤ point.version.toNat := by
  rw [RecoveryPoint.recovered] at hvalid
  by_cases hle : r.fromAddress ≤ a
  · rw [if_pos ⟨hle, hin hle⟩] at hvalid
    have hboth := congrArg (!·) hvalid
    rw [recoverRecord_valid_iff, Bool.not_false, Bool.and_eq_true, decide_eq_true_eq,
      Bool.not_eq_true'] at hboth
    exact hboth
  · rw [if_neg fun hand => hle hand.1] at hvalid
    exact ⟨hvalid, hbelow hvalid (Nat.not_le.mp hle)⟩

theorem Stage.header_map : (stage.map f).header = stage.header.map f := by
  cases stage <;> rfl

theorem Stage.map_ne_reserved (h : stage.map f ≠ .reserved) : stage ≠ .reserved := by
  rintro rfl
  exact h rfl

theorem Stage.Holds.map (h : stage.Holds C m b) (hroomy : b.Roomy C)
    (hreserved : stage = .reserved → Agree m' m b.start (b.stop C))
    (hfinal : ∀ header, stage.header = some header → (f header).finalBit = header.finalBit)
    (hheader : ∀ header, stage.header = some header → readWord m' b.start = (f header).control)
    (hagree : Agree m' m (b.start + 8) (b.stop C)) : (stage.map f).Holds C m' b := by
  obtain ⟨hkey, hvalue, hat⟩ := hroomy.bounds
  cases stage with
  | reserved => exact (hreserved rfl).trans h
  | keyed header =>
      obtain ⟨hbit, -, hkeyed, hzero⟩ := h
      refine ⟨(hfinal header rfl).trans hbit, hheader header rfl, ?_,
        (hagree.mono (by omega) le_rfl).trans hzero⟩
      exact (hagree.mono hat (by omega)).readBytes_eq.trans hkeyed
  | filled header value =>
      obtain ⟨hbit, -, hkeyed, his, hle, hfilled, hzero⟩ := h
      refine ⟨(hfinal header rfl).trans hbit, hheader header rfl, ?_, his, hle, ?_,
        (hagree.mono (by omega) le_rfl).trans hzero⟩
      · exact (hagree.mono hat (by omega)).readBytes_eq.trans hkeyed
      · exact (hagree.mono (by omega) (by omega)).readBytes_eq.trans hfilled

theorem LiveStore.header_restoreHybridLog :
    (s.restoreHybridLog point r x).header a = (s.header a).map (point.recovered r a) := by
  have hat : pageStart (pageOf a) + a % kPageSize = a := by
    rw [pageStart, pageOf, Nat.mul_comm, Nat.div_add_mod]
  rw [LiveStore.header, LiveStore.header, ← Stage.header_map]
  change (((s.pages (pageOf a)).stage (a % kPageSize)).map
    (point.recovered r (pageStart (pageOf a) + a % kPageSize))).header = _
  rw [hat]

variable [DecidableEq H]

theorem Replayed.log_eq (hx : Replayed C point r (s.stops C) s.memories s.copies x)
    (haway : ∀ b ∈ (s.pages p).blocks, (s.pages p).stage b.start ≠ .reserved →
      i < b.start ∨ b.start + 8 ≤ i) : x.log p i = (s.pages p).memory i := by
  by_cases hin : r.startPage ≤ p ∧ p < r.endPage
  · refine (hx.pages p hin.1 hin.2).others i fun a ha => ?_
    have hstop := (mem_recordsOf.mp ha).1
    rw [LiveStore.stops, PageImage.isSome_stops_iff] at hstop
    obtain ⟨hstage, b, hb, rfl⟩ := hstop
    exact haway b hb hstage
  · exact congrFun (hx.others p (by omega)) i

namespace LiveStore

theorem Sound.header_replayed (h : s.Sound C)
    (hx : Replayed C point r (s.stops C) s.memories s.copies x) (ha : s.header a = some header) :
    headerIn x.log a = some (point.recovered r a header) := by
  rw [hx.headerIn_eq h (by rw [ha]; nofun) (h.headerIn_eq ha), RecoveryPoint.recovered]
  split <;> rfl

theorem Sound.imaged_restoreHybridLog (h : s.Sound C)
    (hx : Replayed C point r (s.stops C) s.memories s.copies x) (p : Nat) :
    Imaged C ((s.restoreHybridLog point r x).pages p) where
  tail := by
    have hpage : 8 ∣ kPageSize := by decide
    change 8 ∣ min (s.pages p).tail kPageSize
    rcases Nat.le_total (s.pages p).tail kPageSize with hle | hle
    · rw [Nat.min_eq_left hle]
      exact (h.imaged p).tail
    · rw [Nat.min_eq_right hle]
      exact hpage
  roomy := fun b hb => by
    obtain ⟨hroomy, hstop⟩ := (h.imaged p).roomy b hb
    exact ⟨hroomy, Nat.le_min.mpr ⟨hstop, hroomy.within⟩⟩
  apart := (h.imaged p).apart
  content := by
    intro b hb
    change b ∈ (s.pages p).blocks at hb
    have hroomy := ((h.imaged p).roomy b hb).1
    obtain ⟨hpage, hoffset⟩ := pageOf_addressOf (p := p) (h.start_lt hb)
    refine ((h.imaged p).content b hb).map hroomy (fun hreserved i hlow hhigh => ?_)
      (fun _ _ => finalBit_recovered) (fun header hheader => ?_)
      fun i hlow hhigh => (hx.block_spec h hb).2 i hlow hhigh
    · refine hx.log_eq fun b' hb' hstage => ?_
      have hne : b' ≠ b := by
        rintro rfl
        exact hstage hreserved
      have hbounds := (h.imaged p).start_lt hb'
      rcases (h.imaged p).apart_of_ne hb' hb hne with hle | hle
      · exact Or.inr (by omega)
      · exact Or.inl (by omega)
    · have hread := h.header_replayed hx ((h.header_addressOf hb).trans hheader)
      have hword := headerAt_of_headerIn hread
      rw [hpage, hoffset, headerAt] at hword
      exact (RecordInfo.control_ofControl _).symm.trans (congrArg RecordInfo.control hword)
  zeros := by
    intro i hi houtside
    change x.log p i = 0
    rw [hx.log_eq fun b hb _ => ?_]
    · exact (h.imaged p).zeros i hi houtside
    · have hbounds := (h.imaged p).start_lt hb
      exact (houtside b hb).imp id fun hle => by omega
  ahead := by
    intro a ha
    change min (s.pages p).tail kPageSize ≤ a at ha
    change ((s.pages p).stage a).map _ = .reserved
    have hreserved : (s.pages p).stage a = .reserved := by
      by_contra hstage
      obtain ⟨b, hb, rfl⟩ := h.staged p a hstage
      have hbounds := (h.imaged p).start_lt hb
      have hstop := ((h.imaged p).roomy b hb).2
      omega
    rw [hreserved]
    rfl

omit [DecidableEq H] in
theorem page_restoreHybridLog (htail : s.getTailAddress = r.toAddress) :
    (s.restoreHybridLog point r x).page = s.page := by
  have hsize : kPageSize = 2 ^ 25 := rfl
  change pageOf r.toAddress = s.page
  rw [← htail]
  exact pageOf_add (by omega)

omit [DecidableEq H] in
theorem limit_restoreHybridLog (htail : s.getTailAddress = r.toAddress) :
    (s.restoreHybridLog point r x).limit = s.limit := by
  rw [limit, page_restoreHybridLog htail, limit]
  change _ + min (min (s.pages s.page).tail kPageSize) kPageSize = _
  rw [Nat.min_assoc, Nat.min_self]

theorem Sound.restoreHybridLog (h : s.Sound C) (hlined : s.Lined C) (hcut : Cut point r s)
    (htail : s.getTailAddress = r.toAddress)
    (hx : Replayed C point r (s.stops C) s.memories s.copies x) :
    (s.restoreHybridLog point r x).Sound C where
  imaged := h.imaged_restoreHybridLog hx
  staged := fun p a ha => h.staged p a (Stage.map_ne_reserved ha)
  ahead := by
    intro p hp
    rw [page_restoreHybridLog htail] at hp
    have hopened := h.ahead p hp
    have hlog : x.log p = fun _ => 0 := funext fun i => by
      rw [hx.log_eq fun b hb _ => ?_, hopened]
      · rfl
      · rw [hopened] at hb
        cases hb
    have hfirst : p ≠ 0 := by omega
    change PageImage.mk (x.log p) _ _ _ = _
    rw [hlog, hopened, PageImage.opened, if_neg hfirst]
    rfl
  page_lt := by
    rw [page_restoreHybridLog htail]
    exact h.page_lt
  first := by
    rw [limit_restoreHybridLog htail]
    exact h.first
  within := by
    rw [limit_restoreHybridLog htail]
    exact h.within
  hashed := h.hashed
  grants := fun _ => trivial
  distinct := fun _ _ _ ha => by cases ha
  entries := by
    intro hash a ha
    obtain ⟨l, hl⟩ := hlined hash
    have hleads := hcut.leads h hl hx
    have hentry : x.entries hash = some a := ha
    rw [hentry] at hleads
    rw [limit_restoreHybridLog htail]
    generalize l.filter (point.isOld s.header) = l' at hleads
    cases hleads with
    | nil hlt => exact Nat.lt_of_lt_of_le hlt h.first
    | cons hle hr hprev hrest =>
        have hbounds := h.bounds hr
        omega
  start := fun _ ha => by cases ha
  acknowledged := fun _ _ _ ha => by cases ha
  copied := fun _ hnone => absurd rfl hnone

variable {hash : H} {l : List Nat} {key value : List Byte} {events all : List (Event H)}
  {versions : Nat → Bool}

omit [DecidableEq H] in
theorem header_restoreHybridLog_old (ha : point.isOld s.header a = true) :
    (s.restoreHybridLog point r x).header a = s.header a := by
  rw [header_restoreHybridLog]
  rw [RecoveryPoint.isOld] at ha
  cases hheader : s.header a with
  | none => rfl
  | some header =>
      rw [hheader] at ha
      exact congrArg some (recovered_old (of_decide_eq_true ha))

theorem Line.restoreHybridLog (h : s.Line C hash l) (hs : s.Sound C) (hcut : Cut point r s)
    (hx : Replayed C point r (s.stops C) s.memories s.copies x) :
    (s.restoreHybridLog point r x).Line C hash (l.filter (point.isOld s.header)) where
  leads := (hcut.leads hs h hx).frame fun a ha =>
    congrArg _ (header_restoreHybridLog_old (List.mem_filter.mp ha).2)
  settled := by
    intro a ha
    obtain ⟨hmem, hold⟩ := List.mem_filter.mp ha
    have hsettled := h.settled a hmem
    refine ⟨?_, fun t ht => ?_, hsettled.hash⟩
    · rw [header_restoreHybridLog_old hold]
      exact hsettled.record
    · cases ht
  versions := by
    refine (h.versions.filter _).imp_of_mem fun {a b} ha hb hnot header header' => ?_
    rw [header_restoreHybridLog_old (List.mem_filter.mp ha).2,
      header_restoreHybridLog_old (List.mem_filter.mp hb).2]
    exact hnot header header'
  complete := fun _ _ hstart => by cases hstart
  copied := fun _ _ hstart => by cases hstart

omit [DecidableEq H] in
theorem Keeps.restoreHybridLog (h : s.Keeps events a key header value)
    (hisolated : s.Isolated point.version.toNat events)
    (hversion : header.checkpointVersion.toNat ≤ point.version.toNat) :
    (s.restoreHybridLog point r x).Keeps (.recovered point.version.toNat :: events) a key header
      value := by
  have hheader := Holds.header_eq h
  obtain ⟨b, hb, hstart, hkey, hstage⟩ := h
  refine ⟨b, hb, hstart, hkey, ?_⟩
  rw [overwritten, hisolated.overwritten_eq hheader hversion]
  change ((s.pages (pageOf a)).stage b.start).map _ = _
  rw [hstage]
  exact congrArg (Stage.filled · _) (recovered_old hversion)

omit [DecidableEq H] in
theorem Traced.restoreHybridLog (h : s.Traced C all hash versions l events)
    (hisolated : s.Isolated point.version.toNat all) :
    (s.restoreHybridLog point r x).Traced C (.recovered point.version.toNat :: all) hash
      (upTo versions point.version.toNat) (l.filter (point.isOld s.header)) events := by
  induction h with
  | nil => exact .nil
  | @write versions a key value header l events hadmits ha hhash h ih =>
      have hold : point.isOld s.header a = true ↔
          header.checkpointVersion.toNat ≤ point.version.toNat := ha.isOld_iff
      by_cases hversion : header.checkpointVersion.toNat ≤ point.version.toNat
      · rw [List.filter_cons_of_pos (hold.mpr hversion)]
        refine .write ?_ (ha.restoreHybridLog hisolated hversion) hhash ih
        rw [upTo, hadmits, decide_eq_true hversion]
        rfl
      · rw [List.filter_cons_of_neg fun hin => hversion (hold.mp hin)]
        refine .later ?_ ih
        rw [upTo, decide_eq_false hversion, Bool.and_false]
  | later hversion h ih =>
      refine .later ?_ ih
      rw [upTo, hversion, Bool.false_and]
  | other hother h ih => exact .other hother ih
  | clear => exact .clear
  | recovered h ih =>
      refine .recovered ?_
      rw [upTo_comm]
      exact ih

theorem Recorded.restoreHybridLog (h : Recorded C s events) (hs : s.Sound C) (hcut : Cut point r s)
    (hisolated : s.Isolated point.version.toNat events)
    (hx : Replayed C point r (s.stops C) s.memories s.copies x) :
    Recorded C (s.restoreHybridLog point r x) (.recovered point.version.toNat :: events) := by
  intro hash
  obtain ⟨l, hl, htraced⟩ := h hash
  exact ⟨_, hl.restoreHybridLog hs hcut hx, .recovered (htraced.restoreHybridLog hisolated)⟩

end LiveStore

end Restoring

section Lifetimes

variable {T H : Type} [DecidableEq T] [Fintype T] [Zero T] [DecidableEq H] {C : Classes H}
  {point : RecoveryPoint} {r : LogRange}

/-- The stores with what has been written to them, as the threads take steps and the store is
recovered, with no more of the log than the checkpoint tells of, and goes on. -/
inductive Lifetimes (C : Classes H) : LiveStore T H × List (Event H) → Prop where
  | initial : Lifetimes C (.initial, [])
  | next {z z' : LiveStore T H × List (Event H)} {step : StoreStep T H} (h : Lifetimes C z)
      (hok : LiveStore.Orderly C z.1 step) (hrecord : LiveStore.record C z step = some z') :
      Lifetimes C z'
  | recover {s : LiveStore T H} {events : List (Event H)} {point : RecoveryPoint} {r : LogRange}
      {x : Pass H} (h : Lifetimes C (s, events)) (hcut : Cut point r s)
      (htail : s.getTailAddress = r.toAddress)
      (hisolated : s.Isolated point.version.toNat events)
      (hpasses : Reaches (Pass.next C point r) (fun _ _ => True)
        (startRecovering r s.memories s.copies) x) (hrecovered : x.Recovered r) :
      Lifetimes C (s.restoreHybridLog point r x, .recovered point.version.toNat :: events)

theorem Lifetimes.run {z z' : LiveStore T H × List (Event H)} (h : Lifetimes C z)
    (hreach : Reaches (LiveStore.record C) (fun z step => LiveStore.Orderly C z.1 step) z z') :
    Lifetimes C z' :=
  hreach.invariant (I := Lifetimes C) h fun _ _ _ h hok hrecord => h.next hok hrecord

/-- In every lifetime the store is sound, and its entries lead to the records that the events
of all lifetimes tell of. -/
theorem Lifetimes.recorded {z : LiveStore T H × List (Event H)} (h : Lifetimes C z) :
    z.1.Sound C ∧ z.1.Lined C ∧ LiveStore.Recorded C z.1 z.2 := by
  induction h with
  | initial =>
      exact ⟨LiveStore.sound_initial, LiveStore.lined_initial, fun _ => ⟨[], .clear rfl rfl, .nil⟩⟩
  | next h hok hrecord ih =>
      obtain ⟨hs, hlined, hrecorded⟩ := ih
      obtain ⟨s', hnext, rfl⟩ := Option.map_eq_some_iff.mp hrecord
      have heffect := LiveStore.effect_of_next hs hok hnext
      have hlined' := hlined.effect hs heffect
      exact ⟨hs.effect heffect, hlined', hrecorded.effect hs hlined' heffect⟩
  | recover h hcut htail hisolated hpasses hrecovered ih =>
      obtain ⟨hs, hlined, hrecorded⟩ := ih
      have hx := (replaying_of_reaches (hs.readable hcut) hpasses).2.replayed hrecovered
      refine ⟨hs.restoreHybridLog hlined hcut htail hx, fun hash => ?_,
        hrecorded.restoreHybridLog hs hcut hisolated hx⟩
      obtain ⟨l, hl⟩ := hlined hash
      exact ⟨_, hl.restoreHybridLog hs hcut hx⟩

end Lifetimes

section SecondLifetime

/-- The key 7 is put by the second version, after the recovery of the first one and the index
being copied again. -/
def secondLifetime {T H : Type} (t u : T) (hash : H) : List (StoreStep T H) :=
  [.checkpoint, .refresh t, .refresh u, .copyEntries fun _ => true,
    .findOrCreateEntry t (bytesOf 7) hash, .blockAllocate t 8, .construct t 2,
    .put t (bytesOf 71), .compareExchange t]

def lastRecord : LogRange := ⟨sixPages, 160, 184, by decide, Or.inl (by decide)⟩

def firstEvents : List (Event (Fin 2)) :=
  [.write 112 (bytesOf 5) 2 (bytesOf 51), .overwrite 64 1 (bytesOf 55),
    .write 88 (bytesOf 7) 1 (bytesOf 70), .write 64 (bytesOf 5) 1 (bytesOf 50)]

def allEvents : List (Event (Fin 2)) :=
  .write 160 (bytesOf 7) 2 (bytesOf 71) :: .recovered 1 :: firstEvents

theorem lifetimes_twoVersions : ∃ s : LiveStore (Fin 2) (Fin 2),
    Lifetimes parityKeys (s, allEvents) ∧ s.entries 1 = some 160 ∧ Cut ⟨2, 160⟩ lastRecord s := by
  have hview : ((runActions (LiveStore.record parityKeys) (.initial, []) twoVersions).bind fun z =>
      (runActions (Pass.next parityKeys ⟨1, 88⟩ fourRecords)
        (startRecovering fourRecords z.1.memories z.1.copies)
        [.readDone 0, .recoverPage, .flushDone 0]).bind fun x =>
      let restored := (z.1.restoreHybridLog ⟨1, 88⟩ fourRecords x, .recovered 1 :: z.2)
      (runActions (LiveStore.record parityKeys) restored (secondLifetime 0 1 1)).map fun z' =>
        decide (z.2 = firstEvents ∧ checkedCut ⟨1, 88⟩ fourRecords z.1 = true ∧
          z.1.getTailAddress = 160 ∧ x.page = 1 ∧ x.status 0 = .flushDone ∧
          Admits (LiveStore.record parityKeys) (fun z step => checked z.1 step = true) restored
            (secondLifetime 0 1 1) ∧
          z'.2 = allEvents ∧ z'.1.entries 1 = some 160 ∧
          checkedCut ⟨2, 160⟩ lastRecord z'.1 = true)) = some true := by
    decide +kernel
  have hchecked : Admits (LiveStore.record parityKeys) (fun z step => checked z.1 step = true)
      (.initial, []) twoVersions := by
    decide +kernel
  obtain ⟨⟨s, events⟩, hfirst, hview⟩ := Option.bind_eq_some_iff.mp hview
  obtain ⟨x, hx, hview⟩ := Option.bind_eq_some_iff.mp hview
  obtain ⟨⟨s', events'⟩, hsecond, hdecide⟩ := Option.map_eq_some_iff.mp hview
  obtain ⟨hevents, hcut, htail, hpage, hstatus, hchecked', hevents', hentry, hcut'⟩ :=
    of_decide_eq_true hdecide
  cases hevents
  cases hevents'
  have hlife := Lifetimes.initial.run
    ((reaches_of_runActions hchecked hfirst).mono fun _ _ => orderly_of_checked)
  have hisolated : s.Isolated 1 firstEvents := by
    intro a version' value header hmem _ _
    simp only [firstEvents, List.mem_cons, Event.overwrite.injEq, reduceCtorEq, List.not_mem_nil,
      false_or, or_false] at hmem
    omega
  have hpasses := reaches_of_runActions (admits_of_forall fun _ _ _ => trivial) hx
  have hrecovered : x.Recovered fourRecords := by
    refine ⟨hpage, fun p _ hlt => ?_⟩
    change p < 1 at hlt
    rw [Nat.lt_one_iff.mp hlt, hstatus]
  have hlife' := (hlife.recover (cut_of_checked hlife.recorded.1 hcut) htail hisolated hpasses
    hrecovered).run ((reaches_of_runActions hchecked' hsecond).mono fun _ _ => orderly_of_checked)
  exact ⟨s', hlife', hentry, cut_of_checked hlife'.recorded.1 hcut'⟩

end SecondLifetime

end HashComp.Recovery
