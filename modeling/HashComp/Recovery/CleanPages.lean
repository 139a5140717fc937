import HashComp.Recovery.HybridLog
import HashComp.Recovery.PageImages
import Mathlib.Algebra.Order.BigOperators.Group.Finset
import Mathlib.Order.Interval.Finset.Nat

namespace HashComp.Recovery

open HashComp.Alignment
open HashComp.ByteMemory
open HashComp.Faster (kPageSize)
open HashComp.Hlog
open HashComp.Records
open HashComp.Runs

section Scans

variable {H : Type} [DecidableEq H] {C : Classes H} {point : RecoveryPoint}
  {n page offset fromOffset toOffset a : Nat} {s t : Scan H} {m : Memory}

omit [DecidableEq H] in
theorem dvd_size : 8 ∣ (C.size m a).toNat := by
  rw [Classes.size, toNat_sizeFor]
  exact (Nat.dvd_mod_iff (by decide)).mpr dvd_roundUp

theorem not_blank_of_readWord (haligned : 8 ∣ offset) (hlt : offset < kPageSize)
    (hword : readWord m offset ≠ 0) : ¬ Blank m := by
  intro hblank
  have hpage : 8 ∣ kPageSize := by decide
  exact hword (readWord_eq_zero fun i _ hhi => hblank i (by omega))

/-- A turn of the scan makes no page blank, and none that was blank anything else. -/
theorem blank_visit (C : Classes H) (point : RecoveryPoint) (page : Nat) (s : Scan H)
    (haligned : 8 ∣ offset) (hlt : offset < kPageSize) :
    (Blank (visit C point page offset s).1.memory ↔ Blank s.memory) ∧
      8 ∣ (visit C point page offset s).2 := by
  rw [visit]
  dsimp only
  split
  · exact ⟨Iff.rfl, (Nat.dvd_add_right haligned).mpr (Nat.dvd_refl 8)⟩
  · rename_i hword
    refine ⟨?_, (Nat.dvd_add_right haligned).mpr dvd_size⟩
    split
    · exact Iff.rfl
    · obtain ⟨-, hmemory | ⟨w, hw, hmemory⟩⟩ := replayRecord_spec point page C offset
        { s with visited := offset :: s.visited }
      · rw [hmemory]
      · rw [hmemory]
        have hwritten : readWord (writeWord s.memory offset w) offset ≠ 0 := by
          rw [readWord_writeWord]
          exact hw
        exact iff_of_false (not_blank_of_readWord haligned hlt hwritten)
          (not_blank_of_readWord haligned hlt hword)

theorem blank_recoverFromPage (haligned : 8 ∣ fromOffset ∨ toOffset ≤ fromOffset)
    (hto : toOffset ≤ kPageSize)
    (h : recoverFromPage C point page n fromOffset toOffset s = some t) :
    Blank t.memory ↔ Blank s.memory := by
  induction n generalizing fromOffset s with
  | zero => cases h
  | succ n ih =>
      rw [recoverFromPage] at h
      split at h
      · rename_i hlt
        have hfrom := haligned.resolve_right (Nat.not_le.mpr hlt)
        obtain ⟨hblank, hnext⟩ := blank_visit C point page s hfrom (Nat.lt_of_lt_of_le hlt hto)
        exact (ih (Or.inl hnext) h).trans hblank
      · cases h
        exact Iff.rfl

end Scans

section Slots

variable {r : LogRange} {p q : Nat}

theorem LogRange.startPage_le : r.startPage ≤ r.endPage := by
  have hle : pageOf r.fromAddress ≤ pageOf r.toAddress := Nat.div_le_div_right r.from_le
  rw [LogRange.startPage, LogRange.endPage]
  split <;> omega

theorem LogRange.six_le : 6 ≤ r.capacity := r.config.bufferSize_gt

theorem LogRange.add_le_of_slot (hslot : r.config.slot q = r.config.slot p) (hlt : q < p) :
    q + r.capacity ≤ p := by
  by_contra hnot
  have heq := r.config.eq_of_slot hslot (Nat.le_of_lt hlt) (Nat.not_le.mp hnot)
  omega

theorem LogRange.slot_sub (hle : r.capacity ≤ p) :
    r.config.slot (p - r.capacity) = r.config.slot p :=
  (Nat.mod_eq_sub_mod hle).symm

theorem LogRange.slot_add : r.config.slot (p + r.capacity) = r.config.slot p :=
  Nat.add_mod_right p r.capacity

theorem LogRange.toOffset_le (r : LogRange) (p : Nat) : r.toOffset p ≤ kPageSize := by
  have hdiv := Nat.div_add_mod r.toAddress kPageSize
  have hmod := Nat.mod_lt r.toAddress (show 0 < kPageSize by decide)
  rw [LogRange.toOffset]
  split
  · rename_i hlast
    rw [LogRange.endPage] at hlast
    rw [pageStart]
    rw [Nat.mul_comm] at hdiv
    split at hlast
    · have hpage : p = r.toAddress / kPageSize := Nat.succ.inj hlast
      rw [hpage]
      omega
    · have hpage : r.toAddress / kPageSize * kPageSize = (p + 1) * kPageSize := by
        rw [hlast]
        rfl
      rw [Nat.add_mul, Nat.one_mul] at hpage
      omega
  · exact Nat.sub_le ..

theorem LogRange.fromOffset_spec (r : LogRange) (p : Nat) :
    8 ∣ r.fromOffset p ∨ r.toOffset p ≤ r.fromOffset p := by
  rw [LogRange.fromOffset]
  split
  · rename_i hstart
    have hpage : 8 ∣ kPageSize := by decide
    rcases r.from_spec with haligned | ⟨hfull, hne⟩
    · exact Or.inl ((Nat.dvd_mod_iff hpage).mpr haligned)
    · rw [hfull]
      have hto := r.toOffset_le p
      refine Or.inr (Nat.le_pred_of_lt (Nat.lt_of_le_of_ne hto fun heq => hne ?_))
      rw [LogRange.toOffset] at heq
      split at heq
      · have hdiv := Nat.div_add_mod r.fromAddress kPageSize
        have hpageStart : pageStart p = r.fromAddress / kPageSize * kPageSize := by
          rw [hstart]
          rfl
        have hpos : 0 < kPageSize := by decide
        rw [Nat.mul_comm] at hdiv
        omega
      · exact absurd heq (by decide)
  · exact Or.inl (Nat.dvd_zero 8)

end Slots

section Passing

variable {H : Type} [DecidableEq H] {C : Classes H} {point : RecoveryPoint} {r : LogRange}
  {log : Nat → Memory} {x y : Pass H} {p q : Nat} {step : PassStep} {entries : H → Option Nat}

omit [DecidableEq H] in
@[simp] theorem status_setStatus_self {status : PageRecoveryStatus} :
    (x.setStatus p status).status p = status :=
  Function.update_self ..

omit [DecidableEq H] in
theorem status_setStatus_of_ne {status : PageRecoveryStatus} (hne : q ≠ p) :
    (x.setStatus p status).status q = x.status q :=
  Function.update_of_ne hne ..

omit [DecidableEq H] in
@[simp] theorem pages_setPage_self {m : Memory} :
    (x.setPage r p m).pages (r.config.slot p) = some m :=
  Function.update_self ..

omit [DecidableEq H] in
theorem pages_setPage_of_ne {m : Memory} {b : Nat} (hne : b ≠ r.config.slot p) :
    (x.setPage r p m).pages b = x.pages b :=
  Function.update_of_ne hne ..

def Pass.Holds (r : LogRange) (log : Nat → Memory) (x : Pass H) (p : Nat) :
    PageRecoveryStatus → Prop
  | .notStarted | .issuedRead => x.log p = log p
  | .readDone => x.pages (r.config.slot p) = some (log p)
  | .issuedFlush => ∃ m, x.pages (r.config.slot p) = some m ∧ (Blank m ↔ Blank (log p))
  | .flushDone => r.endPage ≤ p + r.capacity →
      ∃ m, x.pages (r.config.slot p) = some m ∧ (Blank m ↔ Blank (log p))

/-- A page is read into its buffer when the one before it there has been flushed; the loop
goes over the pages in their order. -/
structure Passing (r : LogRange) (log : Nat → Memory) (x : Pass H) : Prop where
  inRange : ∀ p, x.status p ≠ .notStarted → r.startPage ≤ p ∧ p < r.endPage
  before : ∀ p, x.status p ≠ .notStarted → r.startPage + r.capacity ≤ p →
    x.status (p - r.capacity) = .flushDone
  waits : ∀ p, r.startPage ≤ p → p < r.endPage → x.status p = .notStarted →
    r.startPage + r.capacity ≤ p ∧ x.status (p - r.capacity) ≠ .flushDone
  holds : ∀ p, r.startPage ≤ p → p < r.endPage → x.Holds r log p (x.status p)
  untouched : ∀ b, (∀ p, r.startPage ≤ p → p < r.endPage → r.config.slot p ≠ b) →
    x.pages b = if b < 2 then some fun _ => 0 else none
  loop : r.startPage ≤ x.page ∧ x.page ≤ r.endPage
  done : ∀ p, r.startPage ≤ p → p < x.page →
    x.status p = .issuedFlush ∨ x.status p = .flushDone
  toDo : ∀ p, x.page ≤ p → x.status p ≠ .issuedFlush ∧ x.status p ≠ .flushDone

omit [DecidableEq H]

theorem Passing.chain (h : Passing r log x) (hq : r.startPage ≤ q) (hlt : q < p)
    (hslot : r.config.slot q = r.config.slot p) (hstarted : x.status p ≠ .notStarted) :
    x.status q = .flushDone := by
  induction p using Nat.strongRecOn with
  | ind p ih =>
      have hle := r.add_le_of_slot hslot hlt
      have hcapacity := r.six_le
      have hflushed := h.before p hstarted (by omega)
      rcases Nat.lt_or_ge q (p - r.capacity) with hmore | hlast
      · refine ih (p - r.capacity) (by omega) hmore ?_ (by rw [hflushed]; nofun)
        rw [r.slot_sub (by omega)]
        exact hslot
      · have heq : q = p - r.capacity := by omega
        rw [heq]
        exact hflushed

structure Alone (r : LogRange) (x : Pass H) (p : Nat) : Prop where
  earlier : ∀ q, r.startPage ≤ q → q < p → r.config.slot q = r.config.slot p →
    x.status q = .flushDone ∧ q + r.capacity < r.endPage
  later : ∀ q, p < q → r.config.slot q = r.config.slot p → x.status q = .notStarted

theorem Passing.alone (h : Passing r log x) (hstarted : x.status p ≠ .notStarted)
    (hnot : x.status p ≠ .flushDone) : Alone r x p := by
  have hp := h.inRange p hstarted
  refine ⟨fun q hq hlt hslot => ⟨h.chain hq hlt hslot hstarted, ?_⟩, fun q hlt hslot => ?_⟩
  · exact Nat.lt_of_le_of_lt (r.add_le_of_slot hslot hlt) hp.2
  · by_contra hq
    exact hnot (h.chain hp.1 hlt hslot.symm hq)

/-- What other pages have in the buffer and in the log stays there when one page has its slot
to itself. -/
theorem Passing.holds_of_alone (h : Passing r log x) (halone : Alone r x p)
    (hpages : ∀ b, b ≠ r.config.slot p → y.pages b = x.pages b)
    (hlog : ∀ q, q ≠ p → y.log q = x.log q) (hq : r.startPage ≤ q) (hend : q < r.endPage)
    (hne : q ≠ p) : y.Holds r log q (x.status q) := by
  have hx := h.holds q hq hend
  by_cases hslot : r.config.slot q = r.config.slot p
  · rcases Nat.lt_or_gt_of_ne hne with hlt | hlt
    · obtain ⟨hflushed, hmore⟩ := halone.earlier q hq hlt hslot
      rw [hflushed]
      intro hle
      exact absurd hmore (Nat.not_lt.mpr hle)
    · have hnot := halone.later q hlt hslot
      rw [hnot] at hx ⊢
      exact (hlog q hne).trans hx
  · cases hstatus : x.status q <;> rw [hstatus] at hx
    case notStarted => exact (hlog q hne).trans hx
    case issuedRead => exact (hlog q hne).trans hx
    case readDone => exact (hpages _ hslot).trans hx
    case issuedFlush =>
      obtain ⟨m, hm, hblank⟩ := hx
      exact ⟨m, (hpages _ hslot).trans hm, hblank⟩
    case flushDone =>
      intro hle
      obtain ⟨m, hm, hblank⟩ := hx hle
      exact ⟨m, (hpages _ hslot).trans hm, hblank⟩

theorem Passing.advance (h : Passing r log x) (p : Nat) (status : PageRecoveryStatus)
    (hstarted : x.status p ≠ .notStarted) (hnot : x.status p ≠ .flushDone)
    (hstarted' : status ≠ .notStarted) (hnot' : status ≠ .flushDone)
    (hstatus : y.status = Function.update x.status p status)
    (hpages : ∀ b, b ≠ r.config.slot p → y.pages b = x.pages b) (hlog : y.log = x.log)
    (hholds : y.Holds r log p status) (hloop : r.startPage ≤ y.page ∧ y.page ≤ r.endPage)
    (hdone : ∀ q, r.startPage ≤ q → q < y.page →
      y.status q = .issuedFlush ∨ y.status q = .flushDone)
    (htoDo : ∀ q, y.page ≤ q → y.status q ≠ .issuedFlush ∧ y.status q ≠ .flushDone) :
    Passing r log y := by
  have hself : y.status p = status := by
    rw [hstatus, Function.update_self]
  have hother (q : Nat) (hne : q ≠ p) : y.status q = x.status q := by
    rw [hstatus, Function.update_of_ne hne]
  have hp := h.inRange p hstarted
  have hwas (q : Nat) (hq : y.status q ≠ .notStarted) : x.status q ≠ .notStarted := by
    by_cases hne : q = p
    · rw [hne]
      exact hstarted
    · rwa [← hother q hne]
  have hflushed (q : Nat) : y.status q = .flushDone ↔ x.status q = .flushDone := by
    by_cases hne : q = p
    · rw [hne, hself]
      exact iff_of_false hnot' hnot
    · rw [hother q hne]
  refine ⟨fun q hq => h.inRange q (hwas q hq), fun q hq hle => ?_, fun q hlo hhi hq => ?_,
    fun q hlo hhi => ?_, fun b hb => ?_, hloop, hdone, htoDo⟩
  · exact (hflushed _).mpr (h.before q (hwas q hq) hle)
  · have hne : q ≠ p := by
      rintro rfl
      exact hstarted' (hself.symm.trans hq)
    rw [hother q hne] at hq
    exact ⟨(h.waits q hlo hhi hq).1, fun hdone => (h.waits q hlo hhi hq).2 ((hflushed _).mp hdone)⟩
  · by_cases hne : q = p
    · rw [hne, hself]
      exact hholds
    · rw [hother q hne]
      exact h.holds_of_alone (h.alone hstarted hnot) hpages (fun _ _ => congrFun hlog _) hlo hhi hne
  · rw [hpages b (hb p hp.1 hp.2).symm]
    exact h.untouched b hb

theorem Passing.readDone (h : Passing r log x) (hnext : x.readDone r p = some y) :
    Passing r log y := by
  rw [Pass.readDone] at hnext
  split at hnext <;> cases hnext
  rename_i hstatus
  have hp := h.inRange p (by rw [hstatus]; nofun)
  have hlog := h.holds p hp.1 hp.2
  rw [hstatus] at hlog
  refine h.advance p .readDone (by rw [hstatus]; nofun) (by rw [hstatus]; nofun) nofun nofun rfl
    (fun b hb => pages_setPage_of_ne hb) rfl ?_ h.loop (fun q hlo hhi => ?_) (fun q hle => ?_)
  · exact pages_setPage_self.trans (congrArg some hlog)
  · have hq := h.done q hlo hhi
    have hne : q ≠ p := by
      rintro rfl
      rw [hstatus] at hq
      rcases hq with hq | hq <;> cases hq
    rw [status_setStatus_of_ne hne]
    exact hq
  · by_cases hne : q = p
    · rw [hne, status_setStatus_self]
      exact ⟨nofun, nofun⟩
    · rw [status_setStatus_of_ne hne]
      exact h.toDo q hle

theorem Passing.recoverPage [DecidableEq H] (h : Passing r log x)
    (hnext : x.next C point r .recoverPage = some y) : Passing r log y := by
  simp only [Pass.next] at hnext
  split at hnext
  · rename_i hguard
    obtain ⟨hlt, hstatus⟩ := hguard
    have hholds := h.holds x.page h.loop.1 hlt
    rw [hstatus] at hholds
    split at hnext
    · cases hnext
    · rename_i memory hmemory
      obtain ⟨scan, hscan, rfl⟩ := Option.map_eq_some_iff.mp hnext
      cases hholds.symm.trans hmemory
      have hblank := blank_recoverFromPage (r.fromOffset_spec x.page) (r.toOffset_le x.page) hscan
      refine h.advance x.page .issuedFlush (by rw [hstatus]; nofun) (by rw [hstatus]; nofun)
        nofun nofun rfl (fun b hb => pages_setPage_of_ne hb) rfl
        ⟨scan.memory, pages_setPage_self, hblank⟩ ⟨Nat.le_succ_of_le h.loop.1, hlt⟩
        (fun q hlo hhi => ?_) (fun q hle => ?_)
      · change Function.update x.status x.page .issuedFlush q = _ ∨
          Function.update x.status x.page .issuedFlush q = _
        by_cases hne : q = x.page
        · rw [hne, Function.update_self]
          exact Or.inl rfl
        · rw [Function.update_of_ne hne]
          exact h.done q hlo (Nat.lt_of_le_of_ne (Nat.le_of_lt_succ hhi) hne)
      · change x.page + 1 ≤ q at hle
        change Function.update x.status x.page .issuedFlush q ≠ _ ∧
          Function.update x.status x.page .issuedFlush q ≠ _
        rw [Function.update_of_ne (by omega)]
        exact h.toDo q (Nat.le_of_succ_le hle)
  · cases hnext

/-- A page that has been flushed, and the next one that is read into its buffer. -/
theorem Passing.turn (h : Passing r log x) (hflushing : x.status p = .issuedFlush)
    (hstatus : ∀ q, y.status q = if q = p then .flushDone
      else if q = p + r.capacity ∧ q < r.endPage then .issuedRead else x.status q)
    (hpages : ∀ b, b ≠ r.config.slot p → y.pages b = x.pages b)
    (hlast : r.endPage ≤ p + r.capacity → y.pages (r.config.slot p) = x.pages (r.config.slot p))
    (hlog : ∀ q, q ≠ p → y.log q = x.log q) (hpage : y.page = x.page) : Passing r log y := by
  have hstarted : x.status p ≠ .notStarted := by
    rw [hflushing]
    nofun
  have hp := h.inRange p hstarted
  have halone := h.alone hstarted (by rw [hflushing]; nofun)
  have hcapacity := r.six_le
  have hself : y.status p = .flushDone := by
    rw [hstatus, if_pos rfl]
  have hflushed (q : Nat) (hq : x.status q = .flushDone) : y.status q = .flushDone := by
    rw [hstatus]
    split
    · rfl
    · rw [if_neg]
      · exact hq
      · rintro ⟨rfl, -⟩
        have hearlier := h.before _ (by rw [hq]; nofun) (by omega)
        rw [Nat.add_sub_cancel, hflushing] at hearlier
        cases hearlier
  refine ⟨fun q hq => ?_, fun q hq hle => ?_, fun q hlo hhi hq => ?_, fun q hlo hhi => ?_,
    fun b hb => ?_, by rw [hpage]; exact h.loop, fun q hlo hhi => ?_, fun q hle => ?_⟩
  · rw [hstatus] at hq
    split at hq
    · rename_i heq
      exact heq ▸ hp
    · split at hq
      · omega
      · exact h.inRange q hq
  · rw [hstatus] at hq
    split at hq
    · rename_i heq
      subst heq
      exact hflushed _ (h.before q hstarted hle)
    · split at hq
      · rename_i hnext
        rw [hnext.1, Nat.add_sub_cancel]
        exact hself
      · exact hflushed _ (h.before q hq hle)
  · rw [hstatus] at hq
    split at hq
    · cases hq
    · split at hq
      · cases hq
      · rename_i hne hnot
        obtain ⟨hle, hwaits⟩ := h.waits q hlo hhi hq
        refine ⟨hle, ?_⟩
        rw [hstatus, if_neg (by omega)]
        split
        · nofun
        · exact hwaits
  · by_cases hne : q = p
    · rw [hne, hself]
      intro hend
      have hholds := h.holds p hp.1 hp.2
      rw [hflushing] at hholds
      rw [hlast hend]
      exact hholds
    · have hother := h.holds_of_alone halone hpages hlog hlo hhi hne
      rw [hstatus, if_neg hne]
      split
      · rename_i hnext
        rw [hnext.1] at hother
        rw [halone.later _ (by omega) r.slot_add] at hother
        rw [hnext.1]
        exact hother
      · exact hother
  · rw [hpages b (hb p hp.1 hp.2).symm]
    exact h.untouched b hb
  · rw [hpage] at hhi
    rw [hstatus]
    split
    · exact Or.inr rfl
    · rw [if_neg]
      · exact h.done q hlo hhi
      · rintro ⟨rfl, -⟩
        have hlater := halone.later _ (by omega) r.slot_add
        have hdone := h.done _ hlo hhi
        rw [hlater] at hdone
        rcases hdone with hdone | hdone <;> cases hdone
  · rw [hpage] at hle
    have htoDo := h.toDo q hle
    rw [hstatus, if_neg]
    · split
      · exact ⟨nofun, nofun⟩
      · exact htoDo
    · rintro rfl
      exact htoDo.1 hflushing

theorem Passing.flushDone [DecidableEq H] (h : Passing r log x)
    (hnext : x.next C point r (.flushDone p) = some y) : Passing r log y := by
  have hcapacity := r.six_le
  simp only [Pass.next] at hnext
  split at hnext
  · rename_i hflushing
    split at hnext
    · cases hnext
    · split at hnext <;> cases hnext
      · rename_i hmore
        refine h.turn hflushing (fun q => ?_) (fun b hb => ?_)
          (fun hle => absurd hmore (Nat.not_lt.mpr hle))
          (fun q hne => Function.update_of_ne hne ..) rfl
        · change Function.update (Function.update x.status p .flushDone) (p + r.capacity)
            .issuedRead q = _
          by_cases hne : q = p + r.capacity
          · rw [if_neg (by omega), if_pos ⟨hne, by omega⟩, hne, Function.update_self]
          · rw [Function.update_of_ne hne]
            by_cases heq : q = p
            · rw [if_pos heq, heq, Function.update_self]
            · rw [if_neg heq, if_neg fun hand => hne hand.1, Function.update_of_ne heq]
        · refine pages_setPage_of_ne ?_
          rw [r.slot_add]
          exact hb
      · rename_i hlast
        refine h.turn hflushing (fun q => ?_) (fun _ _ => rfl) (fun _ => rfl)
          (fun q hne => Function.update_of_ne hne ..) rfl
        change Function.update x.status p .flushDone q = _
        by_cases heq : q = p
        · rw [if_pos heq, heq, Function.update_self]
        · rw [if_neg heq, if_neg (by omega), Function.update_of_ne heq]
  · cases hnext

theorem Passing.next [DecidableEq H] (h : Passing r log x) (hnext : x.next C point r step = some y) :
    Passing r log y := by
  cases step with
  | readDone p => exact h.readDone hnext
  | recoverPage => exact h.recoverPage hnext
  | flushDone p => exact h.flushDone hnext

theorem issueReads_spec (x : Pass H) (page n : Nat) :
    (∀ q, (x.issueReads r page n).status q =
      if page ≤ q ∧ q < page + n then .issuedRead else x.status q) ∧
    (∀ b, (∀ q, page ≤ q → q < page + n → r.config.slot q ≠ b) →
      (x.issueReads r page n).pages b = x.pages b) ∧
    (x.issueReads r page n).log = x.log ∧ (x.issueReads r page n).page = x.page := by
  induction n with
  | zero =>
      refine ⟨fun q => ?_, fun b _ => rfl, rfl, rfl⟩
      rw [if_neg (by omega)]
      rfl
  | succ n ih =>
      obtain ⟨hstatus, hpages, hlog, hpage⟩ := ih
      refine ⟨fun q => ?_, fun b hb => ?_, hlog, hpage⟩
      · change Function.update (x.issueReads r page n).status (page + n) .issuedRead q = _
        by_cases hne : q = page + n
        · rw [hne, Function.update_self, if_pos (by omega)]
        · rw [Function.update_of_ne hne, hstatus]
          by_cases hin : page ≤ q ∧ q < page + n
          · rw [if_pos hin, if_pos (by omega)]
          · rw [if_neg hin, if_neg (by omega)]
      · have hold := hpages b fun q hlo hhi => hb q hlo (by omega)
        exact (pages_setPage_of_ne (hb (page + n) (by omega) (by omega)).symm).trans hold

theorem passing_start (entries : H → Option Nat) : Passing r log (startRecovering r log entries) := by
  have hle := r.startPage_le
  have hcapacity := r.six_le
  obtain ⟨hstatus, hpages, hlog, hpage⟩ := issueReads_spec (r := r)
    (Pass.mk (fun b => if b < 2 then some fun _ => 0 else none) log (fun _ => .notStarted)
      r.startPage entries) r.startPage (min r.capacity (r.endPage - r.startPage))
  rw [startRecovering]
  refine ⟨fun q hq => ?_, fun q hq hlate => ?_, fun q hlo hhi hq => ?_, fun q hlo hhi => ?_,
    fun b hb => ?_, ?_, fun q hlo hhi => ?_, fun q hle => ?_⟩
  · rw [hstatus] at hq
    split at hq
    · omega
    · exact absurd rfl hq
  · rw [hstatus] at hq
    split at hq
    · omega
    · exact absurd rfl hq
  · rw [hstatus] at hq
    split at hq
    · cases hq
    · refine ⟨by omega, ?_⟩
      rw [hstatus]
      split <;> nofun
  · rw [hstatus]
    split
    · exact congrFun hlog q
    · exact congrFun hlog q
  · exact hpages b fun q hlo hhi => hb q hlo (by omega)
  · rw [hpage]
    exact ⟨le_rfl, hle⟩
  · rw [hpage] at hhi
    exact absurd hhi (Nat.not_lt.mpr hlo)
  · rw [hstatus]
    split <;> exact ⟨nofun, nofun⟩

end Passing

section Restoring

variable {H : Type} {r : LogRange} {x y : Pass H} {p q page b : Nat} {m : Memory}

structure Restoring (r : LogRange) (x y : Pass H) : Prop where
  log : y.log = x.log
  inRange : ∀ p, y.status p ≠ .notStarted → r.headPage ≤ p ∧ p < r.endPage
  status : ∀ p, r.headPage ≤ p → p < r.endPage →
    y.status p = .issuedRead ∨ y.status p = .readDone
  held : ∀ p, y.status p = .readDone → y.pages (r.config.slot p) = some (x.log p)
  others : ∀ b, (∀ p, r.headPage ≤ p → p < r.endPage → r.config.slot p ≠ b) →
    y.pages b = x.pages b

theorem LogRange.headPage_spec (r : LogRange) :
    r.headPage ≤ r.endPage ∧ r.endPage + 4 ≤ r.headPage + r.capacity := by
  have hcapacity := r.six_le
  have hhead : kNumHeadPages = 4 := rfl
  rw [LogRange.headPage]
  split <;> omega

theorem LogRange.endPage_spec (r : LogRange) :
    pageOf r.toAddress ≤ r.endPage ∧ r.endPage ≤ pageOf r.toAddress + 1 := by
  rw [LogRange.endPage]
  split <;> omega

theorem LogRange.eq_of_slot (hp : r.headPage ≤ p) (hq : r.headPage ≤ q) (hp' : p < r.endPage)
    (hq' : q < r.endPage) (hslot : r.config.slot p = r.config.slot q) : p = q := by
  have hspec := r.headPage_spec
  rcases Nat.lt_trichotomy p q with hlt | heq | hlt
  · have hle := r.add_le_of_slot hslot hlt
    omega
  · exact heq
  · have hle := r.add_le_of_slot hslot.symm hlt
    omega

theorem restoring_start (x : Pass H) : Restoring r x (startRestoring r x) := by
  have hspec := r.headPage_spec
  obtain ⟨hstatus, hpages, hlog, -⟩ := issueReads_spec (r := r)
    { x with status := fun _ => .notStarted } r.headPage (r.endPage - r.headPage)
  rw [startRestoring]
  refine ⟨hlog, fun p hp => ?_, fun p hlo hhi => ?_, fun p hp => ?_, fun b hb => ?_⟩
  · rw [hstatus] at hp
    split at hp
    · omega
    · exact absurd rfl hp
  · rw [hstatus, if_pos (by omega)]
    exact Or.inl rfl
  · rw [hstatus] at hp
    split at hp <;> cases hp
  · exact hpages b fun q hlo hhi => hb q hlo (by omega)

theorem Restoring.next {z : Pass H} (h : Restoring r x y)
    (hnext : y.restoreNext r page = some z) : Restoring r x z := by
  rw [Pass.restoreNext, Pass.readDone] at hnext
  split at hnext <;> cases hnext
  rename_i hreading
  have hpage := h.inRange page (by rw [hreading]; nofun)
  refine ⟨h.log, fun p hp => ?_, fun p hlo hhi => ?_, fun p hp => ?_, fun b hb => ?_⟩
  · by_cases hne : p = page
    · exact hne ▸ hpage
    · rw [status_setStatus_of_ne hne] at hp
      exact h.inRange p hp
  · by_cases hne : p = page
    · rw [hne, status_setStatus_self]
      exact Or.inr rfl
    · rw [status_setStatus_of_ne hne]
      exact h.status p hlo hhi
  · by_cases hne : p = page
    · rw [hne, ← h.log]
      exact pages_setPage_self
    · rw [status_setStatus_of_ne hne] at hp
      change y.status p = .readDone at hp
      have hrange := h.inRange p (by rw [hp]; nofun)
      have hslot : r.config.slot p ≠ r.config.slot page := fun heq =>
        hne (r.eq_of_slot hrange.1 hpage.1 hrange.2 hpage.2 heq)
      exact (pages_setPage_of_ne hslot).trans (h.held p hp)
  · exact (pages_setPage_of_ne (hb page hpage.1 hpage.2).symm).trans (h.others b hb)

theorem pages_allocateMissing (hm : x.pages b = some m) :
    (x.allocateMissing r page).pages b = some m := by
  rw [Pass.allocateMissing]
  split
  · rename_i hnone
    have hne : b ≠ r.config.slot page := by
      rintro rfl
      rw [hnone] at hm
      cases hm
    rwa [pages_setPage_of_ne hne]
  · exact hm

theorem blank_allocateMissing (h : ∀ m, x.pages b = some m → Blank m)
    (hm : (x.allocateMissing r page).pages b = some m) : Blank m := by
  rw [Pass.allocateMissing] at hm
  split at hm
  · by_cases hne : b = r.config.slot page
    · rw [hne, pages_setPage_self] at hm
      cases hm
      exact fun _ _ => rfl
    · rw [pages_setPage_of_ne hne] at hm
      exact h m hm
  · exact h m hm

theorem exists_allocateMissing (x : Pass H) (page : Nat) :
    ∃ m, (x.allocateMissing r page).pages (r.config.slot page) = some m := by
  rw [Pass.allocateMissing]
  split
  · exact ⟨_, pages_setPage_self⟩
  · rename_i m hm
    exact ⟨m, hm⟩

theorem log_recoveryReset (x : Pass H) : (recoveryReset r x).log = x.log := by
  have hlog (z : Pass H) (page : Nat) : (z.allocateMissing r page).log = z.log := by
    rw [Pass.allocateMissing]
    split <;> rfl
  rw [recoveryReset, hlog, hlog]

end Restoring

section Clean

variable {H : Type} {r : LogRange} {log : Nat → Memory} {x y : Pass H} {p q : Nat} {m : Memory}

/-- The first pass recovers no page whose buffer the second one leaves for a page ahead of the
tail, save blank ones. -/
def BlankAhead (r : LogRange) (log : Nat → Memory) : Prop :=
  ∀ q, r.startPage ≤ q → r.endPage ≤ q + r.capacity → q + 1 < r.headPage → Blank (log q)

/-- The buffer of a page that `NewPage` can open is still that of a page of the first pass, or
has never been used. -/
theorem Restoring.ahead_spec (h : Restoring r x y) (hx : Passing r log x)
    (hrecovered : x.Recovered r) (hend : r.endPage ≤ p) (hroom : p + 1 < r.headPage + r.capacity) :
    (r.startPage + r.capacity ≤ p ∧ ∃ m, y.pages (r.config.slot p) = some m ∧
        (Blank m ↔ Blank (log (p - r.capacity)))) ∨
      (p < r.startPage + r.capacity ∧ ∀ m, y.pages (r.config.slot p) = some m → Blank m) := by
  have hspec := r.headPage_spec
  have hsame : y.pages (r.config.slot p) = x.pages (r.config.slot p) := by
    refine h.others _ fun q hlo hhi hslot => ?_
    have hle := r.add_le_of_slot hslot (by omega)
    omega
  rw [hsame]
  rcases Nat.lt_or_ge p (r.startPage + r.capacity) with hlt | hge
  · refine Or.inr ⟨hlt, fun m hm => ?_⟩
    have hfresh := hx.untouched (r.config.slot p) fun q hlo hhi hslot => by
      have hle := r.add_le_of_slot hslot (by omega)
      omega
    rw [hfresh] at hm
    split at hm <;> cases hm
    exact fun _ _ => rfl
  · have hholds := hx.holds (p - r.capacity) (by omega) (by omega)
    rw [hrecovered.2 (p - r.capacity) (by omega) (by omega)] at hholds
    obtain ⟨m, hm, hblank⟩ := hholds (by omega)
    rw [r.slot_sub (by omega)] at hm
    exact Or.inl ⟨hge, m, hm, hblank⟩

theorem leftClean_of_blankAhead (h : Restoring r x y) (hx : Passing r log x)
    (hrecovered : x.Recovered r) (hrestored : y.Restored r) (hblank : BlankAhead r log) :
    LeftClean r (recoveryReset r y) := by
  have hspec := r.headPage_spec
  have htail := r.endPage_spec
  have hahead (p : Nat) (hend : r.endPage ≤ p) (hroom : p + 1 < r.headPage + r.capacity)
      (m : Memory) (hm : (recoveryReset r y).pages (r.config.slot p) = some m) : Blank m := by
    refine blank_allocateMissing (fun m hm => blank_allocateMissing (fun m hm => ?_) hm) hm
    rcases h.ahead_spec hx hrecovered hend hroom with ⟨hge, m', hm', hiff⟩ | ⟨-, hall⟩
    · cases hm'.symm.trans hm
      exact hiff.mpr (hblank _ (by omega) (by omega) (by omega))
    · exact hall m hm
  refine ⟨fun p hp hroom => hahead p (by omega) hroom, fun p hlo hhi => ?_⟩
  rcases Nat.lt_or_ge p r.endPage with hlt | hge
  · refine ⟨x.log p, pages_allocateMissing (pages_allocateMissing
      (h.held p (hrestored p hlo hlt))), ?_⟩
    rw [if_pos hlt, log_recoveryReset, h.log]
  · have heq : p = r.endPage := by omega
    obtain ⟨m, hm⟩ := exists_allocateMissing (r := r) y r.endPage
    have hm' : (recoveryReset r y).pages (r.config.slot p) = some m := by
      rw [heq]
      exact pages_allocateMissing hm
    refine ⟨m, hm', ?_⟩
    rw [if_neg (by omega)]
    exact hahead p hge (by omega) m hm'

theorem blankAhead_of_leftClean (h : Restoring r x y) (hx : Passing r log x)
    (hrecovered : x.Recovered r) (hclean : LeftClean r (recoveryReset r y)) :
    BlankAhead r log := by
  intro q hstart hend hhead
  have hspec := r.headPage_spec
  have htail := r.endPage_spec
  rcases h.ahead_spec hx hrecovered hend (by omega) with ⟨-, m, hm, hiff⟩ | ⟨hlt, -⟩
  · have hm' : (recoveryReset r y).pages (r.config.slot (q + r.capacity)) = some m :=
      pages_allocateMissing (pages_allocateMissing hm)
    rw [Nat.add_sub_cancel] at hiff
    refine hiff.mp ?_
    rcases Nat.lt_or_ge (pageOf r.toAddress) (q + r.capacity) with hlt | hge
    · exact hclean.ahead _ hlt (by omega) m hm'
    · obtain ⟨m', hheld, hif⟩ := hclean.held _ (by omega) hge
      rw [if_neg (by omega)] at hif
      cases hheld.symm.trans hm'
      exact hif
  · omega

end Clean

section Progress

variable {H : Type} [DecidableEq H] {C : Classes H} {point : RecoveryPoint} {r : LogRange}
  {log : Nat → Memory} {x y : Pass H} {p : Nat}

/-- The scans of the pages of the log end. -/
def Returns (C : Classes H) (point : RecoveryPoint) (r : LogRange) (log : Nat → Memory) : Prop :=
  ∀ p (entries : H → Option Nat), ∃ t, recoverFromPage C point p
    (r.toOffset p - r.fromOffset p + 1) (r.fromOffset p) (r.toOffset p)
      ⟨log p, entries, []⟩ = some t

/-- The steps that a page has before it. -/
def PageRecoveryStatus.rest : PageRecoveryStatus → Nat
  | .notStarted => 4
  | .issuedRead => 3
  | .readDone => 2
  | .issuedFlush => 1
  | .flushDone => 0

def Pass.rest (x : Pass H) (first last : Nat) : Nat :=
  ∑ p ∈ Finset.Ico first last, (x.status p).rest

omit [DecidableEq H]

theorem rest_lt {first last : Nat} (hlo : first ≤ p) (hhi : p < last)
    (hle : ∀ q, (y.status q).rest ≤ (x.status q).rest)
    (hlt : (y.status p).rest < (x.status p).rest) : y.rest first last < x.rest first last :=
  Finset.sum_lt_sum (fun q _ => hle q) ⟨p, Finset.mem_Ico.mpr ⟨hlo, hhi⟩, hlt⟩

theorem rest_setStatus {first last : Nat} {status : PageRecoveryStatus} (hlo : first ≤ p)
    (hhi : p < last) (hstatus : y.status = Function.update x.status p status)
    (hlt : status.rest < (x.status p).rest) : y.rest first last < x.rest first last := by
  have hself : y.status p = status := by
    rw [hstatus, Function.update_self]
  refine rest_lt hlo hhi (fun q => ?_) (by rw [hself]; exact hlt)
  by_cases hne : q = p
  · rw [hne, hself]
    exact Nat.le_of_lt hlt
  · rw [hstatus, Function.update_of_ne hne]

theorem Passing.flush_progress [DecidableEq H] (h : Passing r log x)
    (hflushing : x.status p = .issuedFlush) : ∃ y, x.next C point r (.flushDone p) = some y ∧
      y.rest r.startPage r.endPage < x.rest r.startPage r.endPage := by
  have hp := h.inRange p (by rw [hflushing]; nofun)
  have halone := h.alone (p := p) (by rw [hflushing]; nofun) (by rw [hflushing]; nofun)
  have hholds := h.holds p hp.1 hp.2
  have hcapacity := r.six_le
  rw [hflushing] at hholds
  obtain ⟨m, hm, -⟩ := hholds
  simp only [Pass.next, if_pos hflushing, hm]
  split
  · have hlater := halone.later (p + r.capacity) (by omega) r.slot_add
    have hself : Function.update (Function.update x.status p .flushDone) (p + r.capacity)
        .issuedRead p = .flushDone := by
      rw [Function.update_of_ne (by omega), Function.update_self]
    refine ⟨_, rfl, rest_lt hp.1 hp.2 (fun q => ?_) ?_⟩
    · change (Function.update (Function.update x.status p .flushDone) (p + r.capacity)
        .issuedRead q).rest ≤ _
      by_cases hne : q = p + r.capacity
      · rw [hne, Function.update_self, hlater]
        decide
      · rw [Function.update_of_ne hne]
        by_cases heq : q = p
        · rw [heq, Function.update_self]
          exact Nat.zero_le _
        · rw [Function.update_of_ne heq]
    · change (Function.update (Function.update x.status p .flushDone) (p + r.capacity)
        .issuedRead p).rest < _
      rw [hself, hflushing]
      decide
  · refine ⟨_, rfl, rest_setStatus hp.1 hp.2 rfl ?_⟩
    rw [hflushing]
    decide

theorem Passing.progress [DecidableEq H] (h : Passing r log x) (hreturns : Returns C point r log)
    (hnot : ¬ x.Recovered r) : ∃ step y, x.next C point r step = some y ∧
      y.rest r.startPage r.endPage < x.rest r.startPage r.endPage := by
  have hcapacity := r.six_le
  rcases Nat.lt_or_ge x.page r.endPage with hlt | hge
  · have htoDo := h.toDo x.page le_rfl
    have hholds := h.holds x.page h.loop.1 hlt
    cases hstatus : x.status x.page <;> rw [hstatus] at hholds
    case notStarted =>
      obtain ⟨hle, hwaits⟩ := h.waits x.page h.loop.1 hlt hstatus
      have hflushing := (h.done (x.page - r.capacity) (by omega) (by omega)).resolve_right hwaits
      obtain ⟨y, hy, hless⟩ := h.flush_progress hflushing
      exact ⟨_, y, hy, hless⟩
    case issuedRead =>
      refine ⟨.readDone x.page, _, if_pos hstatus, rest_setStatus h.loop.1 hlt rfl ?_⟩
      rw [hstatus]
      decide
    case readDone =>
      obtain ⟨t, ht⟩ := hreturns x.page x.entries
      change x.pages (r.config.slot x.page) = some (log x.page) at hholds
      have hnext : x.next C point r .recoverPage = some
          { (x.setPage r x.page t.memory).setStatus x.page .issuedFlush with
            page := x.page + 1
            entries := t.entries } := by
        simp only [Pass.next, if_pos (And.intro hlt hstatus), hholds, ht]
        rfl
      refine ⟨.recoverPage, _, hnext, rest_setStatus h.loop.1 hlt rfl ?_⟩
      rw [hstatus]
      decide
    case issuedFlush => exact absurd hstatus htoDo.1
    case flushDone => exact absurd hstatus htoDo.2
  · have hpage : x.page = r.endPage := Nat.le_antisymm h.loop.2 hge
    have hleft : ∃ p, r.startPage ≤ p ∧ p < r.endPage ∧ x.status p ≠ .flushDone := by
      by_contra hall
      refine hnot ⟨hpage, fun p hlo hhi => ?_⟩
      by_contra hne
      exact hall ⟨p, hlo, hhi, hne⟩
    obtain ⟨p, hlo, hhi, hne⟩ := hleft
    have hflushing := (h.done p hlo (by omega)).resolve_right hne
    obtain ⟨y, hy, hless⟩ := h.flush_progress hflushing
    exact ⟨_, y, hy, hless⟩

theorem exists_recovered [DecidableEq H] (hreturns : Returns C point r log)
    (entries : H → Option Nat) : ∃ x,
    Reaches (Pass.next C point r) (fun _ _ => True) (startRecovering r log entries) x ∧
      Passing r log x ∧ x.Recovered r := by
  refine exists_reaches_done (Passing r log) (Pass.Recovered r)
    (fun x => x.rest r.startPage r.endPage) (fun x hx hnot => ?_) (passing_start entries)
  obtain ⟨step, y, hy, hlt⟩ := hx.progress hreturns hnot
  exact ⟨step, y, trivial, hy, hx.next hy, hlt⟩

theorem exists_restored (x : Pass H) : ∃ y,
    Reaches (Pass.restoreNext r) (fun _ _ => True) (startRestoring r x) y ∧
      Restoring r x y ∧ y.Restored r := by
  refine exists_reaches_done (Restoring r x) (Pass.Restored r)
    (fun y => y.rest r.headPage r.endPage) (fun y hy hnot => ?_) (restoring_start x)
  have hleft : ∃ p, r.headPage ≤ p ∧ p < r.endPage ∧ y.status p ≠ .readDone := by
    by_contra hall
    refine hnot fun p hlo hhi => ?_
    by_contra hne
    exact hall ⟨p, hlo, hhi, hne⟩
  obtain ⟨p, hlo, hhi, hne⟩ := hleft
  have hreading := (hy.status p hlo hhi).resolve_right hne
  have hnext : y.restoreNext r p = some
      ((y.setPage r p (y.log p)).setStatus p .readDone) := if_pos hreading
  refine ⟨p, _, trivial, hnext, hy.next hnext, rest_setStatus hlo hhi rfl ?_⟩
  rw [hreading]
  decide

end Progress

section Runs

variable {H : Type} [DecidableEq H] {C : Classes H} {point : RecoveryPoint} {r : LogRange}
  {log : Nat → Memory} {x y : Pass H}

theorem leftClean_iff {entries : H → Option Nat}
    (hfirst : Reaches (Pass.next C point r) (fun _ _ => True) (startRecovering r log entries) x)
    (hrecovered : x.Recovered r)
    (hsecond : Reaches (Pass.restoreNext r) (fun _ _ => True) (startRestoring r x) y)
    (hrestored : y.Restored r) : LeftClean r (recoveryReset r y) ↔ BlankAhead r log := by
  have hx : Passing r log x :=
    hfirst.invariant (passing_start entries) fun _ _ _ hs _ hnext => hs.next hnext
  have hy : Restoring r x y :=
    hsecond.invariant (restoring_start x) fun _ _ _ hs _ hnext => hs.next hnext
  exact ⟨blankAhead_of_leftClean hy hx hrecovered,
    leftClean_of_blankAhead hy hx hrecovered hrestored⟩

theorem returns_of_blank {p : Nat} (hfrom : 8 ∣ r.fromOffset p) (entries : H → Option Nat) :
    ∃ t, recoverFromPage C point p (r.toOffset p - r.fromOffset p + 1) (r.fromOffset p)
      (r.toOffset p) ⟨fun _ => 0, entries, []⟩ = some t := by
  have hscannable : Scannable C (fun _ => none) (fun _ => 0) := ⟨nofun, nofun, fun _ _ _ => rfl⟩
  obtain ⟨t, -, ht, -⟩ := recoverFromPage_spec point p (s := ⟨fun _ => 0, entries, []⟩)
    (n := r.toOffset p - r.fromOffset p) hscannable ⟨hfrom, nofun⟩ (r.toOffset_le p) (by omega)
  exact ⟨t, ht⟩

theorem returns_of_imaged {p : Nat} {im : PageImage} (h : Imaged C im)
    (hfrom : r.fromOffset p = 0) (entries : H → Option Nat) :
    ∃ t, recoverFromPage C point p (r.toOffset p - r.fromOffset p + 1) (r.fromOffset p)
      (r.toOffset p) ⟨im.memory, entries, []⟩ = some t := by
  obtain ⟨t, -, ht, -⟩ := recoverFromPage_spec point p (s := ⟨im.memory, entries, []⟩)
    (n := r.toOffset p - r.fromOffset p) h.scannable (h.stands (Or.inl hfrom)) (r.toOffset_le p)
    (by omega)
  exact ⟨t, ht⟩

def fivePages : LogRange := ⟨sixPages, 64, pageStart 4 + 64, by decide, Or.inl (by decide)⟩

theorem fromOffset_dvd (hfrom : r.fromAddress = 64) (p : Nat) : 8 ∣ r.fromOffset p := by
  rw [LogRange.fromOffset]
  split
  · rw [hfrom]
    decide
  · exact Nat.dvd_zero 8

theorem exists_recordsImage : ∃ im, Imaged kvcontext im ∧ im.memory 7 ≠ 0 := by
  have hview : (runActions (PageImage.next kvcontext) (.opened 1) threeRanges).map
      (fun im => decide (im.memory 7 = 0)) = some false := by
    decide +kernel
  obtain ⟨im, him, hbyte⟩ := Option.map_eq_some_iff.mp hview
  refine ⟨im, ?_, of_decide_eq_false hbyte⟩
  exact (reaches_of_runActions fitting_threeRanges him).invariant (imaged_opened 1)
    fun _ _ _ h hok hnext => h.next hok hnext

theorem returns_of_onlyPage {im : PageImage} (himaged : Imaged kvcontext im) {q : Nat}
    (hq : q ≠ 0) : Returns kvcontext ⟨1, 64⟩ fivePages
      (Function.update (fun _ _ => 0) q im.memory) := by
  intro p entries
  by_cases hp : p = q
  · rw [hp, Function.update_self]
    have hfrom : fivePages.fromOffset q = 0 := if_neg hq
    exact returns_of_imaged himaged hfrom entries
  · rw [Function.update_of_ne hp]
    exact returns_of_blank (fromOffset_dvd rfl p) entries

/-- Five pages in a buffer of six, of which the fourth has records, and the second pass reads
it again. -/
theorem leftClean_fivePages : ∃ (log : Nat → Memory) (x y : Pass (BitVec 64)),
    log 3 7 ≠ 0 ∧
    Reaches (Pass.next kvcontext ⟨1, 64⟩ fivePages) (fun _ _ => True)
      (startRecovering fivePages log fun _ => none) x ∧ x.Recovered fivePages ∧
    Reaches (Pass.restoreNext fivePages) (fun _ _ => True) (startRestoring fivePages x) y ∧
    y.Restored fivePages ∧ LeftClean fivePages (recoveryReset fivePages y) := by
  obtain ⟨im, himaged, hbyte⟩ := exists_recordsImage
  obtain ⟨x, hx, -, hrecovered⟩ := exists_recovered
    (returns_of_onlyPage himaged (by decide : 3 ≠ 0)) fun _ => none
  obtain ⟨y, hy, -, hrestored⟩ := exists_restored (r := fivePages) x
  refine ⟨Function.update (fun _ _ => 0) 3 im.memory, x, y, ?_, hx, hrecovered, hy, hrestored,
    (leftClean_iff hx hrecovered hy hrestored).mpr fun q hlo hend hhead => ?_⟩
  · rw [Function.update_self]
    exact hbyte
  · have hlt : q + 1 < 3 := hhead
    rw [Function.update_of_ne (by omega)]
    exact fun _ _ => rfl

/-- Five pages in a buffer of six, of which the second has a record.  It is recovered in the
buffer of the page 7, which the second pass does not read. -/
theorem recovered_page_ahead : ¬ ∀ (log : Nat → Memory) (x y : Pass (BitVec 64)),
    Reaches (Pass.next kvcontext ⟨1, 64⟩ fivePages) (fun _ _ => True)
      (startRecovering fivePages log fun _ => none) x → x.Recovered fivePages →
    Reaches (Pass.restoreNext fivePages) (fun _ _ => True) (startRestoring fivePages x) y →
    y.Restored fivePages → LeftClean fivePages (recoveryReset fivePages y) := by
  intro hall
  obtain ⟨im, himaged, hbyte⟩ := exists_recordsImage
  obtain ⟨x, hx, hpassing, hrecovered⟩ := exists_recovered
    (returns_of_onlyPage himaged Nat.one_ne_zero) fun _ => none
  obtain ⟨y, hy, hrestoring, hrestored⟩ := exists_restored (r := fivePages) x
  have hblank := blankAhead_of_leftClean hrestoring hpassing hrecovered
    (hall _ x y hx hrecovered hy hrestored) 1 (by decide) (by decide) (by decide)
  rw [Function.update_self] at hblank
  exact hbyte (hblank 7 (by decide))

end Runs

end HashComp.Recovery
