import Mathlib.Data.List.Perm.Basic
import HashComp.SegmentedFile.Model

namespace HashComp.SegmentedFile

open HashComp.Runs

structure Bundle.Whole (c : Setting) (beginSegment : Nat) (b : Bundle) : Prop where
  low : beginSegment ≤ b.beginSegment
  range : b.beginSegment ≤ b.endSegment
  high : b.endSegment < 2 ^ 64
  size : c.sizes.bundle + (b.endSegment - b.beginSegment) * c.sizes.file < 2 ^ 64
  slots : ∀ i, b.slots i ≠ none ↔ b.beginSegment ≤ i ∧ i < b.endSegment

def Callback.Holds (beginSegment : Nat) : Callback → Prop
  | .free files => ∀ i, files.slots i = none
  | .truncate files newBeginSegment _ =>
      newBeginSegment ≤ beginSegment ∧
        (files.beginSegment ≤ newBeginSegment ∧ newBeginSegment ≤ files.endSegment) ∧
          ∀ i, files.slots i ≠ none ↔ files.beginSegment ≤ i ∧ i < newBeginSegment

def Bundle.Apart (b b' : Bundle) : Prop :=
  ∀ i, b.slots i = none ∨ b'.slots i = none

structure File.Sound (c : Setting) (s : File) : Prop where
  fault : s.fault = false
  below : s.truncatedBelow = s.beginSegment
  whole : ∀ files, s.files = some files → files.Whole c s.beginSegment
  retired : ∀ callback ∈ s.pending, callback.Holds s.beginSegment
  named : ∀ b ∈ s.live, ∀ i h, b.slots i = some h → h.segment = i ∧ h ∈ s.opened ∧ h ∉ s.closed
  apart : s.live.Pairwise Bundle.Apart
  covered : ∀ h ∈ s.opened, h ∈ s.closed ∨ ∃ b ∈ s.live, b.slots h.segment = some h
  once : (s.opened.map Handle.segment).Nodup
  closed : s.closed.Nodup
  gone : ∀ h ∈ s.closed, h ∈ s.opened ∧ h.segment < s.beginSegment
  deleted : s.deleted = s.closed
  answers : ∀ a ∈ s.answers, a.Right c s.opened

section Lists

variable {s : File} {b : Bundle}

theorem mem_live : b ∈ s.live ↔ s.files = some b ∨ ∃ callback ∈ s.pending, callback.bundle = b := by
  rw [File.live, List.mem_append, Option.mem_toList, List.mem_map]

end Lists

section Replace

variable {c : Setting} {s : File} {new : Bundle} {rest : List Callback} {fresh : List Handle}
  {begin' below' : Nat}

/-- A segment that was not truncated and is not in the bundle has not been opened. -/
theorem File.Sound.unopened (h : s.Sound c) {i : Nat} (hi : s.beginSegment ≤ i)
    (hfiles : ∀ files, s.files = some files → files.slots i = none) :
    (∀ b ∈ s.live, b.slots i = none) ∧ i ∉ s.opened.map Handle.segment := by
  have hlive : ∀ b ∈ s.live, b.slots i = none := by
    intro b hb
    rcases mem_live.mp hb with hb | ⟨callback, hmem, rfl⟩
    · exact hfiles b hb
    · have hholds := h.retired callback hmem
      cases callback with
      | free files => exact hholds i
      | truncate files newBeginSegment callerCallback =>
          obtain ⟨hle, -, hslots⟩ := hholds
          by_contra hne
          have := (hslots i).mp hne
          omega
  refine ⟨hlive, fun hmem => ?_⟩
  obtain ⟨handle, hhandle, rfl⟩ := List.mem_map.mp hmem
  rcases h.covered handle hhandle with hclosed | ⟨b, hb, hslot⟩
  · have := (h.gone handle hclosed).2
    omega
  · rw [hlive b hb] at hslot
    cases hslot

/-- The bundle is replaced: its files are in the new one or in one that waits to be freed,
and the others in the new one were opened. -/
theorem File.Sound.replace (h : s.Sound c) (new : Bundle) (rest : List Callback)
    (fresh : List Handle) (hbegin : s.beginSegment ≤ begin')
    (hbelow : below' = begin')
    (hwhole : new.Whole c begin') (hrest : ∀ callback ∈ rest, callback.Holds begin')
    (hslots : ∀ b i handle, b = new ∨ (∃ callback ∈ rest, callback.bundle = b) →
      b.slots i = some handle →
        (∃ files, s.files = some files ∧ files.slots i = some handle) ∨
          handle ∈ fresh ∧ handle.segment = i)
    (hapart : (new :: rest.map Callback.bundle).Pairwise Bundle.Apart)
    (hkeep : ∀ files i handle, s.files = some files → files.slots i = some handle →
      ∃ b, (b = new ∨ ∃ callback ∈ rest, callback.bundle = b) ∧ b.slots i = some handle)
    (hopened : ∀ handle ∈ fresh, new.slots handle.segment = some handle)
    (hnodup : (fresh.map Handle.segment).Nodup)
    (hfresh : ∀ handle ∈ fresh, s.beginSegment ≤ handle.segment ∧
      ∀ files, s.files = some files → files.slots handle.segment = none) :
    File.Sound c { s with
      beginSegment := begin'
      truncatedBelow := below'
      files := some new
      opened := s.opened ++ fresh
      pending := s.pending ++ rest } := by
  have hunopened : ∀ handle ∈ fresh, _ := fun handle hmem =>
    h.unopened (hfresh handle hmem).1 (hfresh handle hmem).2
  have hnew : ∀ b ∈ s.live, ∀ i, ∀ b', (b' = new ∨ ∃ callback ∈ rest, callback.bundle = b') →
      (∀ files, s.files = some files → b.Apart files) → b.slots i = none ∨ b'.slots i = none := by
    intro b hb i b' hb' hfiles
    cases hslot : b'.slots i with
    | none => exact Or.inr rfl
    | some handle =>
        rcases hslots b' i handle hb' hslot with ⟨files, hf, hold⟩ | ⟨hmem, rfl⟩
        · rcases hfiles files hf i with hnone | hnone
          · exact Or.inl hnone
          · cases hold.symm.trans hnone
        · exact Or.inl ((hunopened handle hmem).1 b hb)
  have hpending : ∀ callback ∈ s.pending, callback.bundle ∈ s.live := fun callback hmem =>
    mem_live.mpr (Or.inr ⟨callback, hmem, rfl⟩)
  have hold : (s.pending.map Callback.bundle).Pairwise Bundle.Apart ∧
      ∀ b ∈ s.pending.map Callback.bundle, ∀ files, s.files = some files → b.Apart files := by
    have hall := h.apart
    rw [File.live, List.pairwise_append] at hall
    refine ⟨hall.2.1, fun b hb files hf i => ?_⟩
    exact (hall.2.2 files (by rw [hf]; exact List.mem_singleton_self files) b hb i).symm
  refine ⟨h.fault, hbelow, ?_, ?_, ?_, ?_, ?_, ?_, h.closed, ?_, h.deleted, ?_⟩
  · rintro files ⟨⟩
    exact hwhole
  · intro callback hmem
    rcases List.mem_append.mp hmem with hmem | hmem
    · have hholds := h.retired callback hmem
      cases callback with
      | free files => exact hholds
      | truncate files newBeginSegment callerCallback =>
          exact ⟨Nat.le_trans hholds.1 hbegin, hholds.2⟩
    · exact hrest callback hmem
  · intro b hb i handle hslot
    have hcases : (b = new ∨ ∃ callback ∈ rest, callback.bundle = b) ∨ b ∈ s.live := by
      rcases mem_live.mp hb with hb | ⟨callback, hmem, rfl⟩
      · exact Or.inl (Or.inl (Option.some.inj hb).symm)
      · rcases List.mem_append.mp hmem with hmem | hmem
        · exact Or.inr (hpending callback hmem)
        · exact Or.inl (Or.inr ⟨callback, hmem, rfl⟩)
    rcases hcases with hb | hb
    · rcases hslots b i handle hb hslot with ⟨files, hf, hold⟩ | ⟨hmem, rfl⟩
      · obtain ⟨hseg, hopen, hclosed⟩ := h.named files (mem_live.mpr (Or.inl hf)) i handle hold
        exact ⟨hseg, List.mem_append_left _ hopen, hclosed⟩
      · refine ⟨rfl, List.mem_append_right _ hmem, fun hclosed => ?_⟩
        exact (hunopened handle hmem).2 (List.mem_map_of_mem (h.gone handle hclosed).1)
    · obtain ⟨hseg, hopen, hclosed⟩ := h.named b hb i handle hslot
      exact ⟨hseg, List.mem_append_left _ hopen, hclosed⟩
  · have hrestApart := List.pairwise_cons.mp hapart
    simp only [File.live, Option.toList_some, List.singleton_append, List.map_append]
    refine List.pairwise_cons.mpr ⟨fun b hb i => ?_, List.pairwise_append.mpr
      ⟨hold.1, hrestApart.2, fun b hb b' hb' i => ?_⟩⟩
    · rcases List.mem_append.mp hb with hb | hb
      · obtain ⟨callback, hmem, rfl⟩ := List.mem_map.mp hb
        exact (hnew _ (hpending callback hmem) i new (Or.inl rfl) (hold.2 _ hb)).symm
      · exact hrestApart.1 b hb i
    · obtain ⟨callback, hmem, rfl⟩ := List.mem_map.mp hb
      obtain ⟨callback', hmem', rfl⟩ := List.mem_map.mp hb'
      exact hnew _ (hpending callback hmem) i _ (Or.inr ⟨callback', hmem', rfl⟩) (hold.2 _ hb)
  · intro handle hmem
    rcases List.mem_append.mp hmem with hmem | hmem
    · rcases h.covered handle hmem with hclosed | ⟨b, hb, hslot⟩
      · exact Or.inl hclosed
      · rcases mem_live.mp hb with hb | ⟨callback, hmem', rfl⟩
        · obtain ⟨b', hb', hslot'⟩ := hkeep b _ handle hb hslot
          refine Or.inr ⟨b', mem_live.mpr ?_, hslot'⟩
          rcases hb' with rfl | ⟨callback, hmem', rfl⟩
          · exact Or.inl rfl
          · exact Or.inr ⟨callback, List.mem_append_right _ hmem', rfl⟩
        · exact Or.inr ⟨_, mem_live.mpr (Or.inr ⟨callback, List.mem_append_left _ hmem', rfl⟩), hslot⟩
    · exact Or.inr ⟨new, mem_live.mpr (Or.inl rfl), hopened handle hmem⟩
  · rw [List.map_append]
    refine List.nodup_append.mpr ⟨h.once, hnodup, fun i hi j hj hij => ?_⟩
    obtain ⟨handle, hmem, rfl⟩ := List.mem_map.mp hj
    exact (hunopened handle hmem).2 (hij ▸ hi)
  · intro handle hmem
    obtain ⟨hopen, hlt⟩ := h.gone handle hmem
    exact ⟨List.mem_append_left _ hopen, Nat.lt_of_lt_of_le hlt hbegin⟩
  · intro a ha
    have hright := h.answers a ha
    unfold Answer.Right at hright ⊢
    split
    · rename_i handle offset houtcome
      rw [houtcome] at hright
      obtain ⟨hseg, hoff, hle, hopen, hclosed⟩ := hright
      exact ⟨hseg, hoff, hle, List.mem_append_left _ hopen, hclosed⟩
    · rename_i houtcome
      rw [houtcome] at hright
      exact hright

theorem File.Sound.takenOver (h : s.Sound c) {files other : Bundle} {b e : Nat}
    {callback : Callback} (hfiles : s.files = some files)
    (htaken : TakenOver b e files new other fresh) (hbegin : s.beginSegment ≤ begin')
    (hbelow : below' = begin') (hwhole : new.Whole c begin') (hb : begin' ≤ b)
    (hcallback : callback.bundle = other) (hholds : callback.Holds begin') :
    File.Sound c { s with
      beginSegment := begin'
      truncatedBelow := below'
      files := some new
      opened := s.opened ++ fresh
      pending := s.pending ++ [callback] } := by
  have hrange := (h.whole files hfiles).slots
  refine h.replace new [callback] fresh hbegin hbelow hwhole ?_ ?_ ?_ ?_ htaken.opened htaken.nodup ?_
  · intro callback' hmem
    rw [List.mem_singleton.mp hmem]
    exact hholds
  · rintro bundle i handle (rfl | ⟨callback', hmem, rfl⟩) hslot
    · by_cases hin : b ≤ i ∧ i < e
      · by_cases hold : files.beginSegment ≤ i ∧ i < files.endSegment
        · rw [(htaken.moved i hin.1 hold.1 hold.2).1] at hslot
          exact Or.inl ⟨files, hfiles, hslot⟩
        · obtain ⟨handle', hmem, rfl⟩ := List.mem_map.mp ((htaken.segments i).mpr ⟨hin, hold⟩)
          rw [htaken.opened handle' hmem] at hslot
          cases hslot
          exact Or.inr ⟨hmem, rfl⟩
      · rw [htaken.outside i hin] at hslot
        cases hslot
    · rw [List.mem_singleton.mp hmem, hcallback] at hslot
      by_cases hmoved : b ≤ i ∧ files.beginSegment ≤ i ∧ i < files.endSegment
      · rw [(htaken.moved i hmoved.1 hmoved.2.1 hmoved.2.2).2] at hslot
        cases hslot
      · rw [htaken.kept i hmoved] at hslot
        exact Or.inl ⟨files, hfiles, hslot⟩
  · simp only [List.map_cons, List.map_nil, hcallback]
    refine List.pairwise_cons.mpr ⟨fun bundle hmem i => ?_, List.pairwise_singleton ..⟩
    rw [List.mem_singleton.mp hmem]
    by_cases hmoved : b ≤ i ∧ files.beginSegment ≤ i ∧ i < files.endSegment
    · exact Or.inr (htaken.moved i hmoved.1 hmoved.2.1 hmoved.2.2).2
    · by_cases hin : b ≤ i ∧ i < e
      · rw [htaken.kept i hmoved]
        refine Or.inr ?_
        by_contra hne
        exact hmoved ⟨hin.1, (hrange i).mp hne⟩
      · exact Or.inl (htaken.outside i hin)
  · intro files' i handle hfiles' hslot
    cases hfiles.symm.trans hfiles'
    have hin := (hrange i).mp (by rw [hslot]; exact Option.some_ne_none handle)
    by_cases hbi : b ≤ i
    · exact ⟨new, Or.inl rfl, (htaken.moved i hbi hin.1 hin.2).1.trans hslot⟩
    · refine ⟨other, Or.inr ⟨callback, List.mem_singleton_self callback, hcallback⟩, ?_⟩
      exact (htaken.kept i fun hmoved => hbi hmoved.1).trans hslot
  · intro handle hmem
    obtain ⟨hin, hout⟩ := (htaken.segments handle.segment).mp (List.mem_map_of_mem hmem)
    refine ⟨Nat.le_trans hbegin (Nat.le_trans hb hin.1), fun files' hfiles' => ?_⟩
    cases hfiles.symm.trans hfiles'
    by_contra hne
    exact hout ((hrange _).mp hne)

end Replace

section Steps

variable {c : Setting} {s : File} {segment : Nat} {offset : BitVec 64} {files : Bundle}

theorem TakenOver.slots_ne_none {b e : Nat} {other new other' : Bundle} {fresh : List Handle}
    (h : TakenOver b e other new other' fresh)
    (hother : ∀ i, other.slots i ≠ none ↔ other.beginSegment ≤ i ∧ i < other.endSegment) (i : Nat) :
    new.slots i ≠ none ↔ b ≤ i ∧ i < e := by
  constructor
  · intro hne
    by_contra hout
    exact hne (h.outside i hout)
  · intro hin
    by_cases hold : other.beginSegment ≤ i ∧ i < other.endSegment
    · rw [(h.moved i hin.1 hold.1 hold.2).1]
      exact (hother i).mpr hold
    · obtain ⟨handle, hmem, rfl⟩ := List.mem_map.mp ((h.segments i).mpr ⟨hin, hold⟩)
      rw [h.opened handle hmem]
      exact Option.some_ne_none handle

theorem File.Sound.created (h : s.Sound c) (hfiles : s.files = none)
    (hsegment : s.beginSegment ≤ segment) (hlt : segment + 1 < 2 ^ 64)
    (hsize : c.sizes.bundle + 1 * c.sizes.file < 2 ^ 64) :
    ∃ new opened, Bundle.create c.sizes segment (segment + 1) s.opened = some (new, opened) ∧
      new.exists segment = true ∧
        File.Sound c { s with files := some new, opened := opened } := by
  have hone : segment + 1 - segment = 1 := by omega
  obtain ⟨slots, fresh, hcreate, hopens⟩ := create_spec s.opened (Nat.le_succ segment) hlt
    (by rwa [hone])
  have hmem : ∀ i, i ∈ fresh.map Handle.segment ↔ segment ≤ i ∧ i < segment + 1 := by
    intro i
    rw [hopens.segment_mem, hone]
  have hnone : ∀ i, ¬ (segment ≤ i ∧ i < segment + 1) → slots i = none := fun i hi =>
    hopens.others i (by omega)
  have hreplace := h.replace ⟨segment, segment + 1, slots⟩ [] fresh
    (Nat.le_refl _) h.below ?_ (fun _ hcb => (List.not_mem_nil hcb).elim) ?_
    (List.pairwise_singleton ..) ?_ hopens.slot ?_ ?_
  · rw [List.append_nil] at hreplace
    exact ⟨_, _, hcreate, decide_eq_true ⟨Nat.le_refl _, Nat.lt_succ_self _⟩, hreplace⟩
  · refine ⟨hsegment, Nat.le_succ _, hlt, ?_, fun i => ⟨fun hne => ?_, fun hin => ?_⟩⟩
    · change c.sizes.bundle + (segment + 1 - segment) * c.sizes.file < 2 ^ 64
      rwa [hone]
    · by_contra hout
      exact hne (hnone i hout)
    · obtain ⟨handle, hmem', rfl⟩ := List.mem_map.mp ((hmem i).mpr hin)
      change slots handle.segment ≠ none
      rw [hopens.slot handle hmem']
      exact Option.some_ne_none handle
  · rintro b i handle (rfl | ⟨callback, hcb, -⟩) hslot
    · by_cases hin : segment ≤ i ∧ i < segment + 1
      · obtain ⟨handle', hmem', rfl⟩ := List.mem_map.mp ((hmem i).mpr hin)
        cases (hopens.slot handle' hmem').symm.trans hslot
        exact Or.inr ⟨hmem', rfl⟩
      · cases (hnone i hin).symm.trans hslot
    · exact (List.not_mem_nil hcb).elim
  · intro files i handle hf
    cases hfiles.symm.trans hf
  · rw [hopens.segments]
    exact List.nodup_range'
  · intro handle hmem'
    refine ⟨Nat.le_trans hsegment ((hmem _).mp (List.mem_map_of_mem hmem')).1, fun files hf => ?_⟩
    cases hfiles.symm.trans hf

theorem File.Sound.extended (h : s.Sound c) (hfiles : s.files = some files)
    (hsegment : s.beginSegment ≤ segment) (hlt : segment + 1 < 2 ^ 64)
    (hsize : c.sizes.bundle + (max files.endSegment (segment + 1) -
      min files.beginSegment segment) * c.sizes.file < 2 ^ 64) :
    ∃ new other opened, files.takeOver c.sizes (min files.beginSegment segment)
        (max files.endSegment (segment + 1)) s.opened = some (new, other, opened) ∧
      new.exists segment = true ∧
        File.Sound c { s with
          files := some new
          opened := opened
          pending := s.pending ++ [.free other] } := by
  have hwhole := h.whole files hfiles
  have hlow := hwhole.low
  have hrange := hwhole.range
  have hb : min files.beginSegment segment ≤ files.beginSegment := Nat.min_le_left ..
  have hb' : min files.beginSegment segment ≤ segment := Nat.min_le_right ..
  have hlow' : s.beginSegment ≤ min files.beginSegment segment := Nat.le_min.mpr ⟨hlow, hsegment⟩
  have he : files.endSegment ≤ max files.endSegment (segment + 1) := Nat.le_max_left ..
  have he' : segment + 1 ≤ max files.endSegment (segment + 1) := Nat.le_max_right ..
  have hmax : max files.endSegment (segment + 1) < 2 ^ 64 := Nat.max_lt.mpr ⟨hwhole.high, hlt⟩
  generalize min files.beginSegment segment = b at *
  generalize max files.endSegment (segment + 1) = e at *
  obtain ⟨new, other, fresh, htake, htaken⟩ := takeOver_spec s.opened
    (Nat.le_trans hb hrange) he hrange hmax hsize
  refine ⟨new, other, s.opened ++ fresh, htake, ?_, ?_⟩
  · refine decide_eq_true ?_
    rw [htaken.beginSegment, htaken.endSegment]
    exact ⟨hb', he'⟩
  · have hnew : new.Whole c s.beginSegment := by
      refine ⟨?_, ?_, ?_, ?_, fun i => ?_⟩
      · rw [htaken.beginSegment]
        exact hlow'
      · rw [htaken.beginSegment, htaken.endSegment]
        exact Nat.le_trans hb (Nat.le_trans hrange he)
      · rw [htaken.endSegment]
        exact hmax
      · rw [htaken.beginSegment, htaken.endSegment]
        exact hsize
      · rw [htaken.slots_ne_none hwhole.slots, htaken.beginSegment, htaken.endSegment]
    refine h.takenOver hfiles htaken (Nat.le_refl _) h.below hnew hlow' rfl fun i => ?_
    by_cases hin : files.beginSegment ≤ i ∧ i < files.endSegment
    · exact (htaken.moved i (Nat.le_trans hb hin.1) hin.1 hin.2).2
    · refine (htaken.kept i fun hmoved => hin hmoved.2).trans ?_
      by_contra hne
      exact hin ((hwhole.slots i).mp hne)

theorem File.Sound.openSegment (h : s.Sound c) (hsegment : s.beginSegment ≤ segment)
    (hlt : segment + 1 < 2 ^ 64) (hsize : c.sizes.bundle + s.span segment * c.sizes.file < 2 ^ 64) :
    ∃ s', s.openSegment c segment = some (s', .ok) ∧ s'.Sound c ∧ s'.hasSegment segment = true ∧
      s'.answers = s.answers ∧ s'.beginSegment = s.beginSegment := by
  have hmod : (segment + 1) % 2 ^ 64 = segment + 1 := Nat.mod_eq_of_lt hlt
  unfold File.openSegment
  rw [if_neg (Nat.not_lt.mpr hsegment), hmod]
  cases hfiles : s.files with
  | none =>
      have hspan : s.span segment = 1 := by simp only [File.span, hfiles]
      rw [hspan] at hsize
      obtain ⟨new, opened, hcreate, hexists, hs'⟩ := h.created hfiles hsegment hlt hsize
      rw [hcreate]
      exact ⟨_, rfl, hs', hexists, rfl, rfl⟩
  | some files =>
      have hspan : s.span segment = max files.endSegment (segment + 1) -
          min files.beginSegment segment := by
        simp only [File.span, hfiles]
      rw [hspan] at hsize
      cases hexists : files.exists segment with
      | true =>
          refine ⟨s, by simp only [hexists, if_true], h, ?_, rfl, rfl⟩
          simp only [File.hasSegment, hfiles, hexists]
      | false =>
          obtain ⟨new, other, opened, htake, hnew, hs'⟩ :=
            h.extended hfiles hsegment hlt hsize
          simp only [hexists, htake, Bool.false_eq_true, if_false]
          exact ⟨_, rfl, hs', hnew, rfl, rfl⟩

theorem File.Sound.serve (h : s.Sound c) (hhas : s.hasSegment (offset.toNat / c.size) = true) :
    ∃ handle, s.serve c (offset.toNat / c.size) offset =
        some (s, .served handle (offset.toNat % c.size)) ∧
      ∀ kind length, Answer.Right c ⟨kind, offset, length,
        .served handle (offset.toNat % c.size), s.truncatedBelow, s.closed⟩ s.opened := by
  cases hfiles : s.files with
  | none =>
      simp only [File.hasSegment, hfiles] at hhas
      cases hhas
  | some files =>
      simp only [File.hasSegment, hfiles] at hhas
      have hin := of_decide_eq_true hhas
      have hwhole := h.whole files hfiles
      obtain ⟨handle, hslot⟩ := Option.ne_none_iff_exists'.mp ((hwhole.slots _).mpr hin)
      obtain ⟨hsegment, hopen, hclosed⟩ :=
        h.named files (mem_live.mpr (Or.inl hfiles)) _ handle hslot
      refine ⟨handle, ?_, fun kind length => ⟨hsegment, rfl, ?_, hopen, hclosed⟩⟩
      · simp only [File.serve, File.fileOf, hfiles, hhas, if_true, hslot]
      · rw [h.below, hsegment]
        exact Nat.le_trans hwhole.low hin.1

theorem File.Sound.request (h : s.Sound c) {kind : Kind} {length : BitVec 32}
    (hok : s.Orderly c (.request kind offset length)) :
    ∃ s' outcome, s.request c offset = some (s', outcome) ∧ s'.Sound c ∧
      Answer.Right c ⟨kind, offset, length, outcome, s'.truncatedBelow, s'.closed⟩ s'.opened := by
  unfold File.request
  cases hhas : s.hasSegment (offset.toNat / c.size) with
  | true =>
      obtain ⟨handle, hserve, hright⟩ := h.serve hhas
      exact ⟨s, _, (if_pos hhas).trans hserve, h, hright kind length⟩
  | false =>
      rcases Nat.lt_or_ge (offset.toNat / c.size) s.beginSegment with hlt | hge
      · have hrefused : s.openSegment c (offset.toNat / c.size) = some (s, .ioError) := by
          unfold File.openSegment
          exact if_pos hlt
        refine ⟨s, .ioError, ?_, h, h.below.symm ▸ hlt⟩
        simp only [hhas, Bool.false_eq_true, if_false, hrefused]
      · obtain ⟨hlt, hsize⟩ := hok hge
        obtain ⟨s', hopen, hs', hhas', -⟩ := h.openSegment hge hlt hsize
        obtain ⟨handle, hserve, hright⟩ := hs'.serve hhas'
        refine ⟨s', _, ?_, hs', hright kind length⟩
        simp only [hhas, Bool.false_eq_true, if_false, hopen, hserve]

theorem File.Sound.answered (h : s.Sound c) {a : Answer} (ha : a.Right c s.opened) :
    File.Sound c { s with answers := s.answers ++ [a] } := by
  refine { h with answers := fun a' hmem => ?_ }
  rcases List.mem_append.mp hmem with hmem | hmem
  · exact h.answers a' hmem
  · rw [List.mem_singleton.mp hmem]
    exact ha

theorem File.Sound.raised (h : s.Sound c) {newBeginSegment below' : Nat} (reported : List Nat)
    (hfiles : s.files = some files) (hbegin : s.beginSegment ≤ newBeginSegment)
    (hbelow : below' = newBeginSegment) (hle : newBeginSegment ≤ files.beginSegment) :
    File.Sound c { s with
      beginSegment := newBeginSegment
      truncatedBelow := below'
      reported := reported } := by
  refine { h with below := hbelow, whole := ?_, retired := ?_, gone := ?_ }
  · intro files' hfiles'
    cases hfiles.symm.trans hfiles'
    exact { h.whole files hfiles with low := hle }
  · intro callback hmem
    have hholds := h.retired callback hmem
    cases callback with
    | free files => exact hholds
    | truncate files newBegin callerCallback =>
        exact ⟨Nat.le_trans hholds.1 hbegin, hholds.2⟩
  · intro handle hmem
    obtain ⟨hopen, hlt⟩ := h.gone handle hmem
    exact ⟨hopen, Nat.lt_of_lt_of_le hlt hbegin⟩

theorem File.Sound.truncate (h : s.Sound c) {callback : Bool}
    (hok : s.Orderly c (.truncate offset callback)) :
    ∃ s', s.truncate c offset callback = some s' ∧ s'.Sound c := by
  cases hfiles : s.files with
  | none =>
      simp only [File.Orderly, hfiles] at hok
  | some files =>
      simp only [File.Orderly, hfiles] at hok
      obtain ⟨hbegin, hend⟩ := hok
      have hbelow : max s.truncatedBelow (offset.toNat / c.size) = offset.toNat / c.size := by
        rw [h.below]
        exact Nat.max_eq_right hbegin
      have hwhole := h.whole files hfiles
      unfold File.truncate File.truncateSegments
      simp only [hfiles]
      generalize offset.toNat / c.size = segment at *
      rcases Nat.lt_or_ge files.beginSegment segment with hlt | hge
      · have hcount : files.endSegment - segment ≤ files.endSegment - files.beginSegment := by omega
        have hmul := Nat.mul_le_mul_right c.sizes.file hcount
        have hsize : c.sizes.bundle + (files.endSegment - segment) * c.sizes.file < 2 ^ 64 :=
          Nat.lt_of_le_of_lt (Nat.add_le_add_left hmul _) hwhole.size
        obtain ⟨new, other, fresh, htake, htaken⟩ := takeOver_spec s.opened hend
          (Nat.le_refl _) hwhole.range hwhole.high hsize
        rw [if_neg (Nat.not_le.mpr hlt), htake]
        refine ⟨_, rfl, ?_⟩
        refine h.takenOver hfiles htaken hbegin hbelow ?_ (Nat.le_refl _) rfl
          ⟨Nat.le_refl _, ⟨?_, ?_⟩, fun i => ?_⟩
        · refine ⟨?_, ?_, ?_, ?_, fun i => ?_⟩
          · rw [htaken.beginSegment]
          · rw [htaken.beginSegment, htaken.endSegment]
            exact hend
          · rw [htaken.endSegment]
            exact hwhole.high
          · rw [htaken.beginSegment, htaken.endSegment]
            exact hsize
          · rw [htaken.slots_ne_none hwhole.slots, htaken.beginSegment, htaken.endSegment]
        · rw [htaken.range.1]
          exact Nat.le_of_lt hlt
        · rw [htaken.range.2]
          exact hend
        · rw [htaken.range.1]
          by_cases hmoved : segment ≤ i ∧ files.beginSegment ≤ i ∧ i < files.endSegment
          · refine ⟨fun hne => (hne (htaken.moved i hmoved.1 hmoved.2.1 hmoved.2.2).2).elim, ?_⟩
            omega
          · rw [htaken.kept i hmoved, hwhole.slots]
            omega
      · rw [if_pos hge]
        have hraised := h.raised (if callback then
          s.reported ++ [files.beginSegment * c.size] else s.reported) hfiles hbegin hbelow hge
        rw [hfiles] at hraised
        exact ⟨_, rfl, hraised⟩

/-- A callback is gone from those that wait, and the files of its bundle are closed and
deleted. -/
theorem File.Sound.retire (h : s.Sound c) {callback : Callback} {rest : List Callback}
    (gone : List Handle) (reported : List Nat) (hperm : s.pending.Perm (callback :: rest))
    (hgone : ∀ i handle, callback.bundle.slots i = some handle → handle ∈ gone)
    (hin : ∀ handle ∈ gone, callback.bundle.slots handle.segment = some handle)
    (hnodup : gone.Nodup) (hlt : ∀ handle ∈ gone, handle.segment < s.beginSegment) :
    File.Sound c { s with
      pending := rest
      closed := s.closed ++ gone
      deleted := s.deleted ++ gone
      reported := reported } := by
  have hmem : callback.bundle ∈ s.live :=
    mem_live.mpr (Or.inr ⟨callback, hperm.mem_iff.mpr (List.mem_cons_self ..), rfl⟩)
  have hlive : s.live.Perm
      (callback.bundle :: (s.files.toList ++ rest.map Callback.bundle)) :=
    ((hperm.map Callback.bundle).append_left s.files.toList).trans List.perm_middle
  obtain ⟨hfirst, hrest⟩ := List.pairwise_cons.mp
    ((hlive.pairwise_iff fun hbb i => (hbb i).symm).mp h.apart)
  have hsub : ∀ b, b ∈ s.files.toList ++ rest.map Callback.bundle → b ∈ s.live :=
    fun b hb => hlive.mem_iff.mpr (List.mem_cons_of_mem _ hb)
  refine ⟨h.fault, h.below, h.whole, ?_, ?_, hrest, ?_, h.once, ?_, ?_, ?_, ?_⟩
  · intro callback' hmem'
    exact h.retired callback' (hperm.mem_iff.mpr (List.mem_cons_of_mem _ hmem'))
  · intro b hb i handle hslot
    obtain ⟨hsegment, hopen, hclosed⟩ := h.named b (hsub b hb) i handle hslot
    refine ⟨hsegment, hopen, fun hmem' => ?_⟩
    rcases List.mem_append.mp hmem' with hmem' | hmem'
    · exact hclosed hmem'
    · have hother := hin handle hmem'
      rw [hsegment] at hother
      rcases hfirst b hb i with hnone | hnone
      · cases hnone.symm.trans hother
      · cases hnone.symm.trans hslot
  · intro handle hopen
    rcases h.covered handle hopen with hclosed | ⟨b, hb, hslot⟩
    · exact Or.inl (List.mem_append_left _ hclosed)
    · rcases List.mem_cons.mp (hlive.mem_iff.mp hb) with rfl | hb
      · exact Or.inl (List.mem_append_right _ (hgone _ handle hslot))
      · exact Or.inr ⟨b, hb, hslot⟩
  · refine List.nodup_append.mpr ⟨h.closed, hnodup, fun handle hclosed handle' hmem' heq => ?_⟩
    subst heq
    exact (h.named _ hmem _ handle (hin handle hmem')).2.2 hclosed
  · intro handle hmem'
    rcases List.mem_append.mp hmem' with hclosed | hmem'
    · exact h.gone handle hclosed
    · exact ⟨(h.named _ hmem _ handle (hin handle hmem')).2.1, hlt handle hmem'⟩
  · change s.deleted ++ gone = s.closed ++ gone
    rw [h.deleted]
  · exact h.answers

theorem File.Sound.runCallback (h : s.Sound c) {i : Nat} {callback : Callback}
    (hcallback : s.pending[i]? = some callback) :
    ∃ s', s.runCallback c i callback = some s' ∧ s'.Sound c := by
  obtain ⟨hi, hget⟩ := List.getElem?_eq_some_iff.mp hcallback
  have hperm : s.pending.Perm (callback :: s.pending.eraseIdx i) := by
    rw [← hget]
    exact (List.getElem_cons_eraseIdx_perm hi).symm
  have hholds := h.retired callback (List.mem_of_getElem? hcallback)
  cases callback with
  | free files =>
      have hretire := h.retire [] s.reported hperm
        (fun i handle hslot => nomatch (hholds i).symm.trans hslot)
        (fun _ hmem => (List.not_mem_nil hmem).elim) List.nodup_nil
        fun _ hmem => (List.not_mem_nil hmem).elim
      simp only [List.append_nil] at hretire
      exact ⟨_, rfl, hretire⟩
  | truncate files newBeginSegment callerCallback =>
      obtain ⟨hbegin, hend, hslots⟩ := hholds
      have hmem : files ∈ s.live :=
        mem_live.mpr (Or.inr ⟨_, List.mem_of_getElem? hcallback, rfl⟩)
      have hthere : ∀ j, files.beginSegment ≤ j →
          j < files.beginSegment + (newBeginSegment - files.beginSegment) →
            ∃ handle, files.slots j = some handle ∧ handle.segment = j := by
        intro j hj hj'
        obtain ⟨handle, hslot⟩ := Option.ne_none_iff_exists'.mp ((hslots j).mpr ⟨hj, by omega⟩)
        exact ⟨handle, hslot, (h.named files hmem j handle hslot).1⟩
      have hrange : files.beginSegment + (newBeginSegment - files.beginSegment) ≤
          files.endSegment := by
        omega
      obtain ⟨gone, hrun, hsegments, hin⟩ := discardFiles_spec s.closed s.deleted (Nat.le_refl _) hrange hthere
      have hgone : ∀ j, j ∈ gone.map Handle.segment ↔
          files.beginSegment ≤ j ∧ j < newBeginSegment := by
        intro j
        rw [hsegments, List.mem_range'_1]
        omega
      simp only [File.runCallback, hrun]
      refine ⟨_, rfl, h.retire gone _ hperm ?_ hin ?_ ?_⟩
      · intro j handle hslot
        have hj := (hslots j).mp (Option.ne_none_iff_exists'.mpr ⟨handle, hslot⟩)
        obtain ⟨handle', hmem', heq⟩ := List.mem_map.mp ((hgone j).mpr hj)
        have hslot' := hin handle' hmem'
        rw [heq] at hslot'
        cases hslot'.symm.trans hslot
        exact hmem'
      · refine List.Nodup.of_map Handle.segment ?_
        rw [hsegments]
        exact List.nodup_range'
      · intro handle hmem'
        have := (hgone handle.segment).mp (List.mem_map_of_mem hmem')
        omega

end Steps

section Runs

variable {c : Setting} {s s' : File}

theorem File.Sound.next (h : s.Sound c) {a : Action} (hok : s.Orderly c a)
    (hstep : s.next c a = some s') : s'.Sound c := by
  cases a with
  | request kind offset length =>
      obtain ⟨s₁, outcome, hrun, hs₁, hright⟩ := h.request hok
      simp only [File.next, hrun, Option.map_some, File.orFault] at hstep
      rw [← Option.some.inj hstep]
      exact hs₁.answered hright
  | truncate offset callback =>
      obtain ⟨s₁, hrun, hs₁⟩ := h.truncate hok
      simp only [File.next, hrun, File.orFault] at hstep
      rw [← Option.some.inj hstep]
      exact hs₁
  | run i =>
      cases hcallback : s.pending[i]? with
      | none =>
          simp only [File.next, hcallback] at hstep
          cases hstep
      | some callback =>
          obtain ⟨s₁, hrun, hs₁⟩ := h.runCallback hcallback
          simp only [File.next, hcallback, hrun, File.orFault] at hstep
          rw [← Option.some.inj hstep]
          exact hs₁

theorem sound_start (c : Setting) : File.start.Sound c := by
  refine ⟨rfl, rfl, ?_, ?_, ?_, List.Pairwise.nil, ?_, List.nodup_nil, List.nodup_nil, ?_, rfl, ?_⟩
  · rintro files ⟨⟩
  · exact fun callback hmem => (List.not_mem_nil hmem).elim
  · exact fun b hmem => (List.not_mem_nil hmem).elim
  · exact fun handle hmem => (List.not_mem_nil hmem).elim
  · exact fun handle hmem => (List.not_mem_nil hmem).elim
  · exact fun a hmem => (List.not_mem_nil hmem).elim

/-- An open file has one place: the segments of the files differ, and no two bundles have a
segment in common. -/
theorem File.Sound.owned (h : s.Sound c) {handle : Handle} (hopen : handle ∈ s.opened)
    (hclosed : handle ∉ s.closed) : ∃! place, s.Owns place handle := by
  rcases h.covered handle hopen with hgone | ⟨b, hb, hslot⟩
  · exact (hclosed hgone).elim
  · obtain ⟨j, hj, hget⟩ := List.mem_iff_getElem.mp hb
    refine ⟨(j, handle.segment), ⟨b, List.getElem?_eq_some_iff.mpr ⟨hj, hget⟩, hslot⟩, ?_⟩
    rintro ⟨j', i'⟩ ⟨b', hlive, hslot'⟩
    obtain ⟨hj', hget'⟩ := List.getElem?_eq_some_iff.mp hlive
    have hsegment := (h.named b' (List.mem_of_getElem? hlive) i' handle hslot').1
    have hapart := List.pairwise_iff_getElem.mp h.apart
    have hsame : j' = j := by
      rcases Nat.lt_trichotomy j' j with hlt | heq | hgt
      · rcases hapart j' j hj' hj hlt handle.segment with hnone | hnone
        · rw [hget', hsegment] at hnone
          cases hnone.symm.trans hslot'
        · rw [hget] at hnone
          cases hnone.symm.trans hslot
      · exact heq
      · rcases hapart j j' hj hj' hgt handle.segment with hnone | hnone
        · rw [hget] at hnone
          cases hnone.symm.trans hslot
        · rw [hget', hsegment] at hnone
          cases hnone.symm.trans hslot'
    exact Prod.ext hsame hsegment.symm

theorem File.Sound.routed (h : s.Sound c) : s.Routed c := by
  have hinj := List.inj_on_of_nodup_map h.once
  refine ⟨h.fault, h.answers, fun handle => h.owned, h.deleted, ?_, ?_, ?_⟩
  · exact h.closed.map_on fun handle hmem handle' hmem' =>
      hinj (h.gone handle hmem).1 (h.gone handle' hmem').1
  · rw [h.below]
    exact h.gone
  · intro hpending handle hopen hlt
    rcases h.covered handle hopen with hclosed | ⟨b, hb, hslot⟩
    · exact hclosed
    · rcases mem_live.mp hb with hfiles | ⟨callback, hmem, -⟩
      · have hwhole := h.whole b hfiles
        have hin := (hwhole.slots handle.segment).mp
          (by rw [hslot]; exact Option.some_ne_none handle)
        have hlow := hwhole.low
        rw [h.below] at hlt
        omega
      · rw [hpending] at hmem
        exact (List.not_mem_nil hmem).elim

theorem routed_of_orderly (h : Reaches (File.next c) (File.Orderly c) File.start s) :
    s.Routed c :=
  (h.invariant (sound_start c) fun _ _ _ hs hok hstep => hs.next hok hstep).routed

/-- A gap is opened, and the callback of a truncation runs before the one of the growth. -/
theorem routed_of_orderly_three :
    ∃ s, runActions (File.next ⟨⟨56, 72⟩, 2 ^ 30⟩) File.start
        [.request .write 100 512, .request .write (3 * 2 ^ 30 + 7) 512, .truncate (2 ^ 31) true,
          .request .read 100 512, .run 1, .request .read (2 ^ 31) 512, .run 0] = some s ∧
      s.closed.map Handle.segment = [0, 1] ∧ s.Routed ⟨⟨56, 72⟩, 2 ^ 30⟩ := by
  have hadmits : Admits (File.next ⟨⟨56, 72⟩, 2 ^ 30⟩) (File.Orderly ⟨⟨56, 72⟩, 2 ^ 30⟩) File.start
      [.request .write 100 512, .request .write (3 * 2 ^ 30 + 7) 512, .truncate (2 ^ 31) true,
        .request .read 100 512, .run 1, .request .read (2 ^ 31) 512, .run 0] := by decide +kernel
  exact ⟨_, rfl, by decide +kernel, routed_of_orderly (reaches_of_runActions hadmits rfl)⟩

/-- The first call truncates when there is no bundle; a segment beyond those of the bundle is
truncated; and what was truncated is served again when the second offset is smaller. -/
theorem not_routed_early_beyond_back :
    (∃ s, runActions (File.next ⟨⟨56, 72⟩, 2 ^ 30⟩) File.start [.truncate 0 false] = some s ∧
        ¬ s.Routed ⟨⟨56, 72⟩, 2 ^ 30⟩) ∧
      (∃ s, runActions (File.next ⟨⟨56, 72⟩, 2 ^ 30⟩) File.start
          [.request .write 0 512, .truncate (2 ^ 31) false] = some s ∧
        ¬ s.Routed ⟨⟨56, 72⟩, 2 ^ 30⟩) ∧
      ∃ s, runActions (File.next ⟨⟨56, 72⟩, 2 ^ 30⟩) File.start
          [.request .write 0 512, .truncate (2 ^ 30) false, .truncate 0 false,
            .request .read 0 512] = some s ∧
        ¬ s.Routed ⟨⟨56, 72⟩, 2 ^ 30⟩ := by
  refine ⟨⟨_, rfl, fun h => ?_⟩, ⟨_, rfl, fun h => ?_⟩, ⟨_, rfl, fun h => ?_⟩⟩
  · exact absurd h.fault (by decide +kernel)
  · exact absurd h.fault (by decide +kernel)
  · have hright := h.answers ⟨.read, 0, 512, .served ⟨0, 1⟩ 0, 1, []⟩ (by decide +kernel)
    exact absurd hright.2.2.1 (by decide)

end Runs

end HashComp.SegmentedFile
