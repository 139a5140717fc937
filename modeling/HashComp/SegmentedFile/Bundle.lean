import Mathlib.Algebra.Group.Nat.Defs
import Mathlib.Data.List.Nodup
import Mathlib.Data.List.Range
import Mathlib.Logic.Function.Basic

namespace HashComp.SegmentedFile

/-- What `Open` returned for the file of a segment, with the number of files opened
before. -/
structure Handle where
  segment : Nat
  serial : Nat
  deriving DecidableEq

structure Bundle where
  beginSegment : Nat
  endSegment : Nat
  slots : Nat → Option Handle

def Bundle.exists (b : Bundle) (segment : Nat) : Bool :=
  decide (b.beginSegment ≤ segment ∧ segment < b.endSegment)

structure Sizes where
  bundle : Nat
  file : Nat

/-- Whether the memory for a bundle can be had: its size has to fit into 64 bits.  The count
of the segments is the difference of two words. -/
def Sizes.malloc (sizes : Sizes) (beginSegment endSegment : Nat) : Bool :=
  decide (sizes.bundle + (endSegment + 2 ^ 64 - beginSegment) % 2 ^ 64 * sizes.file < 2 ^ 64)

/-- A file is constructed in the slot of a segment and opened.  There is `none` when the
slot is outside the bundle. -/
def openFile (beginSegment endSegment idx : Nat) (slots : Nat → Option Handle)
    (opened : List Handle) : Option ((Nat → Option Handle) × List Handle) :=
  if beginSegment ≤ idx ∧ idx < endSegment then
    let handle : Handle := ⟨idx, opened.length⟩
    some (Function.update slots idx (some handle), opened ++ [handle])
  else none

def openFiles (beginSegment endSegment : Nat) : Nat → Nat → (Nat → Option Handle) →
    List Handle → Option ((Nat → Option Handle) × List Handle)
  | _, 0, slots, opened => some (slots, opened)
  | idx, n + 1, slots, opened =>
      match openFile beginSegment endSegment idx slots opened with
      | none => none
      | some (slots', opened') => openFiles beginSegment endSegment (idx + 1) n slots' opened'

def moveFile (beginSegment endSegment idx : Nat) (slots : Nat → Option Handle)
    (other : Bundle) : Option ((Nat → Option Handle) × Bundle) :=
  if (beginSegment ≤ idx ∧ idx < endSegment) ∧ other.exists idx then
    some (Function.update slots idx (other.slots idx),
      { other with slots := Function.update other.slots idx none })
  else none

def moveFiles (beginSegment endSegment : Nat) : Nat → Nat → (Nat → Option Handle) → Bundle →
    Option ((Nat → Option Handle) × Bundle)
  | _, 0, slots, other => some (slots, other)
  | idx, n + 1, slots, other =>
      match moveFile beginSegment endSegment idx slots other with
      | none => none
      | some (slots', other') => moveFiles beginSegment endSegment (idx + 1) n slots' other'

def Bundle.create (sizes : Sizes) (beginSegment endSegment : Nat) (opened : List Handle) :
    Option (Bundle × List Handle) :=
  if sizes.malloc beginSegment endSegment then
    match openFiles beginSegment endSegment beginSegment (endSegment - beginSegment)
        (fun _ => none) opened with
    | none => none
    | some (slots, opened') => some (⟨beginSegment, endSegment, slots⟩, opened')
  else none

/-- The second constructor, with the memory that it needs: the new bundle, what is left of
the other one, and the files opened. -/
def Bundle.takeOver (sizes : Sizes) (beginSegment endSegment : Nat) (other : Bundle)
    (opened : List Handle) : Option (Bundle × Bundle × List Handle) :=
  if sizes.malloc beginSegment endSegment then
    let beginCopy := max beginSegment other.beginSegment
    let endCopy := min endSegment other.endSegment
    match openFiles beginSegment endSegment beginSegment (beginCopy - beginSegment)
        (fun _ => none) opened with
    | none => none
    | some (slots₁, opened₁) =>
        match moveFiles beginSegment endSegment beginCopy (endCopy - beginCopy) slots₁ other with
        | none => none
        | some (slots₂, other') =>
            match openFiles beginSegment endSegment endCopy (endSegment - endCopy) slots₂
                opened₁ with
            | none => none
            | some (slots₃, opened₃) =>
                some (⟨beginSegment, endSegment, slots₃⟩, other', opened₃)
  else none

/-- A file is closed and deleted.  There is `none` when the bundle has no such file. -/
def Bundle.discard (b : Bundle) (idx : Nat) (closed deleted : List Handle) :
    Option (List Handle × List Handle) :=
  if b.exists idx then
    match b.slots idx with
    | none => none
    | some handle => some (closed ++ [handle], deleted ++ [handle])
  else none

def Bundle.discardFiles (b : Bundle) : Nat → Nat → List Handle → List Handle →
    Option (List Handle × List Handle)
  | _, 0, closed, deleted => some (closed, deleted)
  | idx, n + 1, closed, deleted =>
      match b.discard idx closed deleted with
      | none => none
      | some (closed', deleted') => b.discardFiles (idx + 1) n closed' deleted'

section Loops

variable {b e idx n : Nat} {slots : Nat → Option Handle} {opened : List Handle} {other : Bundle}

structure Opens (idx n : Nat) (slots slots' : Nat → Option Handle) (fresh : List Handle) :
    Prop where
  segments : fresh.map Handle.segment = List.range' idx n
  slot : ∀ h ∈ fresh, slots' h.segment = some h
  others : ∀ i, i < idx ∨ idx + n ≤ i → slots' i = slots i

theorem openFiles_spec (slots : Nat → Option Handle) (opened : List Handle) (hlow : b ≤ idx)
    (hhigh : idx + n ≤ e) :
    ∃ slots' fresh, openFiles b e idx n slots opened = some (slots', opened ++ fresh) ∧
      Opens idx n slots slots' fresh := by
  induction n generalizing idx slots opened with
  | zero =>
      refine ⟨slots, [], ?_, rfl, fun h hh => (List.not_mem_nil hh).elim, fun i _ => rfl⟩
      rw [openFiles, List.append_nil]
  | succ n ih =>
      have hslot : b ≤ idx ∧ idx < e := ⟨hlow, by omega⟩
      obtain ⟨slots', fresh, hrun, hopens⟩ := @ih (idx + 1)
        (Function.update slots idx (some ⟨idx, opened.length⟩)) (opened ++ [⟨idx, opened.length⟩])
        (Nat.le_succ_of_le hlow) (by omega)
      refine ⟨slots', ⟨idx, opened.length⟩ :: fresh, ?_, ?_, fun h hh => ?_, fun i hi => ?_⟩
      · rw [openFiles, openFile, if_pos hslot]
        simp only [hrun, List.append_assoc, List.singleton_append]
      · rw [List.map_cons, hopens.segments, List.range'_succ]
      · rcases List.mem_cons.mp hh with rfl | hh
        · rw [hopens.others idx (Or.inl (by omega))]
          exact Function.update_self ..
        · exact hopens.slot h hh
      · have hne : i ≠ idx := by omega
        rw [hopens.others i (by omega), Function.update_of_ne hne]

theorem Opens.segment_mem {slots' : Nat → Option Handle} {fresh : List Handle}
    (h : Opens idx n slots slots' fresh) {i : Nat} :
    i ∈ fresh.map Handle.segment ↔ idx ≤ i ∧ i < idx + n := by
  rw [h.segments, List.mem_range'_1]

/-- Files that were moved are in the new bundle and no longer in the old one. -/
theorem moveFiles_spec (slots : Nat → Option Handle) (hlow : b ≤ idx) (hhigh : idx + n ≤ e)
    (hlow' : other.beginSegment ≤ idx) (hhigh' : idx + n ≤ other.endSegment) :
    moveFiles b e idx n slots other =
      some (fun i => if idx ≤ i ∧ i < idx + n then other.slots i else slots i,
        { other with
          slots := fun i => if idx ≤ i ∧ i < idx + n then none else other.slots i }) := by
  induction n generalizing idx slots other with
  | zero =>
      have hempty : ∀ i, ¬ (idx ≤ i ∧ i < idx + 0) := fun i => by omega
      simp only [moveFiles, hempty, if_false]
  | succ n ih =>
      have hslot : (b ≤ idx ∧ idx < e) ∧ other.exists idx = true :=
        ⟨⟨hlow, by omega⟩, decide_eq_true ⟨hlow', by omega⟩⟩
      have hrest := @ih (idx + 1) { other with slots := Function.update other.slots idx none }
        (Function.update slots idx (other.slots idx)) (Nat.le_succ_of_le hlow)
        (by omega) (Nat.le_succ_of_le hlow') ((Nat.add_right_comm idx 1 n).trans_le hhigh')
      rw [moveFiles, moveFile, if_pos hslot]
      refine hrest.trans ?_
      refine congrArg some (Prod.ext (funext fun i => ?_) ?_)
      · rcases eq_or_ne i idx with rfl | hi
        · simp
        · simp only [Function.update_of_ne hi]
          exact if_congr (by omega) rfl rfl
      · refine congrArg (Bundle.mk other.beginSegment other.endSegment) (funext fun i => ?_)
        rcases eq_or_ne i idx with rfl | hi
        · simp
        · simp only [Function.update_of_ne hi]
          exact if_congr (by omega) rfl rfl

theorem discardFiles_spec (closed deleted : List Handle) (hlow : other.beginSegment ≤ idx)
    (hhigh : idx + n ≤ other.endSegment)
    (hslots : ∀ i, idx ≤ i → i < idx + n → ∃ h, other.slots i = some h ∧ h.segment = i) :
    ∃ gone, other.discardFiles idx n closed deleted = some (closed ++ gone, deleted ++ gone) ∧
      gone.map Handle.segment = List.range' idx n ∧
        ∀ h ∈ gone, other.slots h.segment = some h := by
  induction n generalizing idx closed deleted with
  | zero =>
      refine ⟨[], ?_, rfl, fun h hh => (List.not_mem_nil hh).elim⟩
      rw [Bundle.discardFiles, List.append_nil, List.append_nil]
  | succ n ih =>
      obtain ⟨h, hh, rfl⟩ := hslots idx (Nat.le_refl idx) (by omega)
      have hexists : other.exists h.segment = true := decide_eq_true ⟨hlow, by omega⟩
      obtain ⟨gone, hrun, hsegments, hgone⟩ := @ih (h.segment + 1) (closed ++ [h]) (deleted ++ [h])
        (Nat.le_succ_of_le hlow) (by omega) fun i hi hi' => hslots i (by omega) (by omega)
      refine ⟨h :: gone, ?_, ?_, fun g hg => ?_⟩
      · rw [Bundle.discardFiles, Bundle.discard, if_pos hexists, hh]
        simp only [hrun, List.append_assoc, List.singleton_append]
      · rw [List.map_cons, hsegments, List.range'_succ]
      · rcases List.mem_cons.mp hg with rfl | hg
        · exact hh
        · exact hgone g hg

end Loops

section Bundles

variable {b e : Nat} {other : Bundle} {opened : List Handle} {sizes : Sizes}

theorem malloc_eq_true (hbe : b ≤ e) (he : e < 2 ^ 64)
    (hsize : sizes.bundle + (e - b) * sizes.file < 2 ^ 64) : sizes.malloc b e = true := by
  have hcount : (e + 2 ^ 64 - b) % 2 ^ 64 = e - b := by omega
  rw [Sizes.malloc, hcount]
  exact decide_eq_true hsize

variable (opened) in
theorem create_spec (hbe : b ≤ e) (he : e < 2 ^ 64)
    (hsize : sizes.bundle + (e - b) * sizes.file < 2 ^ 64) :
    ∃ slots fresh, Bundle.create sizes b e opened = some (⟨b, e, slots⟩, opened ++ fresh) ∧
      Opens b (e - b) (fun _ => none) slots fresh := by
  obtain ⟨slots, fresh, hrun, hopens⟩ := openFiles_spec (e := e) (n := e - b) (fun _ => none) opened
    (Nat.le_refl b) (by omega)
  refine ⟨slots, fresh, ?_, hopens⟩
  rw [Bundle.create, if_pos (malloc_eq_true hbe he hsize), hrun]

/-- The new bundle has the files of its range, those of the other bundle first of all.  The
other bundle keeps what is below the range. -/
structure TakenOver (b e : Nat) (other new other' : Bundle) (fresh : List Handle) : Prop where
  beginSegment : new.beginSegment = b
  endSegment : new.endSegment = e
  range : other'.beginSegment = other.beginSegment ∧ other'.endSegment = other.endSegment
  moved : ∀ i, b ≤ i → other.beginSegment ≤ i → i < other.endSegment →
    new.slots i = other.slots i ∧ other'.slots i = none
  kept : ∀ i, ¬ (b ≤ i ∧ other.beginSegment ≤ i ∧ i < other.endSegment) →
    other'.slots i = other.slots i
  opened : ∀ h ∈ fresh, new.slots h.segment = some h
  nodup : (fresh.map Handle.segment).Nodup
  segments : ∀ i, i ∈ fresh.map Handle.segment ↔
    (b ≤ i ∧ i < e) ∧ ¬ (other.beginSegment ≤ i ∧ i < other.endSegment)
  outside : ∀ i, ¬ (b ≤ i ∧ i < e) → new.slots i = none

variable (opened) in
theorem takeOver_spec (hbe : b ≤ other.endSegment) (he : other.endSegment ≤ e)
    (hother : other.beginSegment ≤ other.endSegment) (hlt : e < 2 ^ 64)
    (hsize : sizes.bundle + (e - b) * sizes.file < 2 ^ 64) :
    ∃ new other' fresh, other.takeOver sizes b e opened = some (new, other', opened ++ fresh) ∧
      TakenOver b e other new other' fresh := by
  have hend : min e other.endSegment = other.endSegment := Nat.min_eq_right he
  have hmax : max b other.beginSegment ≤ other.endSegment := Nat.max_le.mpr ⟨hbe, hother⟩
  have hb := Nat.le_max_left b other.beginSegment
  have ho := Nat.le_max_right b other.beginSegment
  generalize hcopy : max b other.beginSegment = copy at hmax hb ho
  have hor : copy = b ∨ copy = other.beginSegment := by omega
  obtain ⟨slots₁, fresh₁, hrun₁, hopens₁⟩ := openFiles_spec (e := e)
    (n := copy - b) (fun _ => none) opened (Nat.le_refl b) (by omega)
  have hrun₂ := moveFiles_spec (e := e) (n := other.endSegment - copy) slots₁ hb (by omega) ho
    (by omega)
  obtain ⟨slots₃, fresh₃, hrun₃, hopens₃⟩ := openFiles_spec (e := e) (n := e - other.endSegment)
    (fun i => if copy ≤ i ∧ i < copy + (other.endSegment - copy) then other.slots i else slots₁ i)
    (opened ++ fresh₁) hbe (by omega)
  have hlow : ∀ i, i ∈ fresh₁.map Handle.segment ↔ b ≤ i ∧ i < copy := by
    intro i
    rw [hopens₁.segment_mem, Nat.add_sub_cancel' hb]
  have hhigh : ∀ i, i ∈ fresh₃.map Handle.segment ↔ other.endSegment ≤ i ∧ i < e := by
    intro i
    rw [hopens₃.segment_mem, Nat.add_sub_cancel' he]
  have hbelow : ∀ i, i < other.endSegment → slots₃ i =
      if copy ≤ i then other.slots i else slots₁ i := by
    intro i hi
    rw [hopens₃.others i (Or.inl hi)]
    exact if_congr (by omega) rfl rfl
  refine ⟨⟨b, e, slots₃⟩, ⟨other.beginSegment, other.endSegment,
    fun i => if copy ≤ i ∧ i < copy + (other.endSegment - copy) then none else other.slots i⟩,
    fresh₁ ++ fresh₃, ?_, rfl, rfl, ⟨rfl, rfl⟩, fun i hi hoi hi' => ?_,
    fun i hi => ?_, fun h hh => ?_, ?_, fun i => ?_, fun i hi => ?_⟩
  · simp only [Bundle.takeOver, if_pos (malloc_eq_true (Nat.le_trans hbe he) hlt hsize), hcopy, hend,
      hrun₁, hrun₂, hrun₃, List.append_assoc]
  · have hci : copy ≤ i := by omega
    refine ⟨?_, if_pos ⟨hci, by omega⟩⟩
    exact (hbelow i hi').trans (if_pos hci)
  · refine if_neg fun hin => hi ⟨by omega, by omega, by omega⟩
  · rcases List.mem_append.mp hh with hh | hh
    · have hseg := (hlow h.segment).mp (List.mem_map_of_mem hh)
      have hslot : slots₃ h.segment = slots₁ h.segment :=
        (hbelow h.segment (by omega)).trans (if_neg (by omega))
      exact hslot.trans (hopens₁.slot h hh)
    · exact hopens₃.slot h hh
  · rw [List.map_append]
    refine List.nodup_append.mpr ⟨?_, ?_, fun i hi j hj => ?_⟩
    · rw [hopens₁.segments]
      exact List.nodup_range'
    · rw [hopens₃.segments]
      exact List.nodup_range'
    · have hi' := (hlow i).mp hi
      have hj' := (hhigh j).mp hj
      omega
  · rw [List.map_append, List.mem_append, hlow, hhigh]
    omega
  · have hslot : slots₃ i = slots₁ i := by
      rcases Nat.lt_or_ge i b with hlow | hge
      · rw [hbelow i (by omega), if_neg (by omega)]
      · rw [hopens₃.others i (Or.inr (by omega)), if_neg (by omega)]
    exact hslot.trans (hopens₁.others i (by omega))

end Bundles

end HashComp.SegmentedFile
