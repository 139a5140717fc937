import HashComp.Library.Runs
import HashComp.Lss.Model

namespace HashComp.Lss

open HashComp.Runs

/-- Where the call of `Free` for a block is.  It reads the header before it counts the
block as freed. -/
inductive BlockPc where
  | held
  | located
  | destroying
  | freed
  deriving DecidableEq

inductive OwnerPc where
  | allocating
  | sealing
  | destroying
  | sealed
  deriving DecidableEq

/-- A segment with its owner, the blocks in the order in which they were allocated, and
how often it was destroyed. -/
structure Segment where
  control : BitVec 64
  thread : ThreadAllocator
  owner : OwnerPc
  blocks : List BlockPc
  destroyed : Nat

def Segment.start (address : Nat) : Segment where
  control := SegmentState.control ⟨0, 0⟩
  thread := ⟨some address, 0, 0⟩
  owner := .allocating
  blocks := []
  destroyed := 0

inductive SegmentAction where
  | allocate (r : Request)
  | owner
  | use (i : Nat)
  | free (i : Nat)
  | run (i : Nat)
  deriving DecidableEq

/-- The steps that the segment takes part in.  A block is used until its `Free` is
called. -/
def Segment.next (s : Segment) : SegmentAction → Option Segment
  | .allocate r =>
      match s.owner with
      | .allocating =>
          let t := (s.thread.reserve r.blockSize).2
          if t.segmentOffset ≤ kSegmentSize then
            some { s with thread := t, blocks := s.blocks ++ [.held] }
          else some { s with thread := t, owner := .sealing }
      | .sealing | .destroying | .sealed => none
  | .owner =>
      match s.owner with
      | .sealing =>
          let r := sealSegment s.control s.thread.allocations
          some { s with control := r.1, owner := if r.2 then .destroying else .sealed }
      | .destroying => some { s with owner := .sealed, destroyed := s.destroyed + 1 }
      | .allocating | .sealed => none
  | .use i =>
      match s.blocks[i]? with
      | some .held => some s
      | _ => none
  | .free i =>
      match s.blocks[i]? with
      | some .held => some { s with blocks := s.blocks.set i .located }
      | _ => none
  | .run i =>
      match s.blocks[i]? with
      | some .located =>
          let r := freeBlock s.control
          some { s with
            control := r.1
            blocks := s.blocks.set i (if r.2 then .destroying else .freed) }
      | some .destroying =>
          some { s with blocks := s.blocks.set i .freed, destroyed := s.destroyed + 1 }
      | _ => none

def Segment.Admits (_ : Segment) : SegmentAction → Prop
  | .allocate r => r.Proper
  | .owner | .use _ | .free _ | .run _ => True

def BlockPc.counted : BlockPc → Bool
  | .destroying | .freed => true
  | .held | .located => false

def OwnerPc.counted : OwnerPc → Bool
  | .destroying | .sealed => true
  | .allocating | .sealing => false

def Segment.frees (s : Segment) : Nat :=
  s.blocks.countP BlockPc.counted

def Segment.destroyers (s : Segment) : Nat :=
  s.blocks.countP (· == .destroying) + (if s.owner = .destroying then 1 else 0) + s.destroyed

def Segment.Over (s : Segment) : Prop :=
  s.owner.counted = true ∧ s.frees = s.blocks.length

/-- The word holds the counts, the blocks fit into the segment, and there is one destroyer
when all are counted and none before. -/
structure Segment.Sound (s : Segment) : Prop where
  word : s.control = SegmentState.control
    ⟨BitVec.ofNat 32 (s.frees + if s.owner.counted then 1 else 0),
      BitVec.ofNat 32 (if s.owner.counted then s.blocks.length + 1 else 0)⟩
  allocating : s.owner = .allocating → s.thread.allocations = BitVec.ofNat 32 s.blocks.length
  sealing : s.owner = .sealing → s.thread.allocations = BitVec.ofNat 32 (s.blocks.length + 1)
  room : 16 * s.blocks.length ≤ 8000
  offset : s.owner = .allocating →
    16 * s.blocks.length ≤ s.thread.segmentOffset.toNat ∧ s.thread.segmentOffset.toNat ≤ 8000
  ended : s.Over → s.destroyers = 1
  pending : ¬ s.Over → s.destroyers = 0

section Counts

variable {l : List BlockPc} {i : Nat} {pc : BlockPc}

theorem countP_mark (p : BlockPc → Bool) (pc' : BlockPc) (h : l[i]? = some pc) :
    (l.set i pc').countP p + (if p pc then 1 else 0) =
      l.countP p + if p pc' then 1 else 0 := by
  obtain ⟨hi, rfl⟩ := List.getElem?_eq_some_iff.mp h
  have hle : (if p l[i] then 1 else 0) ≤ l.countP p := by
    split
    · rename_i hp
      exact List.countP_pos_iff.mpr ⟨l[i], List.getElem_mem hi, hp⟩
    · exact Nat.zero_le _
  rw [List.countP_set hi]
  omega

end Counts

section Steps

variable {s s' : Segment} {i : Nat} {pc : BlockPc} {r : Request}

theorem Segment.frees_le : s.frees ≤ s.blocks.length := List.countP_le_length

theorem Segment.start_sound (address : Nat) : (Segment.start address).Sound where
  word := rfl
  allocating := fun _ => rfl
  sealing := fun h => by cases h
  room := Nat.zero_le _
  offset := fun _ => ⟨Nat.zero_le _, Nat.zero_le _⟩
  ended := fun h => by cases h.1
  pending := fun _ => rfl

theorem Segment.Sound.keep (h : s.Sound) (hcontrol : s'.control = s.control)
    (hthread : s'.thread = s.thread)
    (howner : s'.owner = s.owner ∨ s.owner = .destroying ∧ s'.owner = .sealed)
    (hlength : s'.blocks.length = s.blocks.length) (hfrees : s'.frees = s.frees)
    (hdestroyers : s'.destroyers = s.destroyers) : s'.Sound := by
  have hcounted : s'.owner.counted = s.owner.counted := by
    rcases howner with ho | ⟨ho, ho'⟩
    · rw [ho]
    · rw [ho, ho']
      rfl
  have hsame : ∀ pc, pc ≠ .sealed → s'.owner = pc → s.owner = pc := by
    intro pc hpc ho
    rcases howner with ho' | ⟨-, ho'⟩
    · exact ho'.symm.trans ho
    · exact absurd (ho.symm.trans ho') hpc
  have hover : s'.Over ↔ s.Over := by
    rw [Segment.Over, Segment.Over, hcounted, hfrees, hlength]
  refine ⟨?_, fun ha => ?_, fun ha => ?_, ?_, fun ha => ?_, fun ho => ?_, fun hn => ?_⟩
  · rw [hcontrol, hfrees, hcounted, hlength]
    exact h.word
  · rw [hthread, hlength]
    exact h.allocating (hsame _ (by decide) ha)
  · rw [hthread, hlength]
    exact h.sealing (hsame _ (by decide) ha)
  · rw [hlength]
    exact h.room
  · rw [hlength, hthread]
    exact h.offset (hsame _ (by decide) ha)
  · rw [hdestroyers]
    exact h.ended (hover.mp ho)
  · rw [hdestroyers]
    exact h.pending fun ho => hn (hover.mpr ho)

theorem Segment.not_over (howner : s.owner.counted = false) : ¬ s.Over := by
  intro ho
  rw [Segment.Over, howner] at ho
  cases ho.1

theorem Segment.Sound.allocate (h : s.Sound) (howner : s.owner = .allocating) (hr : r.Proper)
    (hfits : (s.thread.reserve r.blockSize).2.segmentOffset ≤ kSegmentSize) :
    Segment.Sound { s with
      thread := (s.thread.reserve r.blockSize).2, blocks := s.blocks ++ [.held] } := by
  have hcounted : s.owner.counted = false := by rw [howner]; rfl
  obtain ⟨hlow, hhigh⟩ := h.offset howner
  have hsum := hr.toNat_offset hhigh
  have hblock := hr.le_blockSize
  have hle : (s.thread.segmentOffset + r.blockSize).toNat ≤ 8000 := hfits
  have hlength : (s.blocks ++ [BlockPc.held]).length = s.blocks.length + 1 := List.length_append
  have hfrees : (s.blocks ++ [BlockPc.held]).countP BlockPc.counted = s.frees := by
    rw [List.countP_append]
    rfl
  have hroom : 16 * (s.blocks.length + 1) ≤ (s.thread.segmentOffset + r.blockSize).toNat := by
    omega
  refine ⟨?_, fun _ => ?_, fun ha => ?_, ?_, fun _ => ?_, fun ho => ?_, fun _ => ?_⟩
  · have hword := h.word
    simp only [hcounted, Segment.frees] at hword hfrees ⊢
    rw [hfrees]
    exact hword
  · rw [hlength, BitVec.ofNat_add, ← h.allocating howner]
    rfl
  · cases howner.symm.trans ha
  · rw [hlength]
    omega
  · rw [hlength]
    exact ⟨hroom, hle⟩
  · exact absurd ho (Segment.not_over hcounted)
  · have hbefore := h.pending (Segment.not_over hcounted)
    simp only [Segment.destroyers, List.countP_append] at hbefore ⊢
    exact hbefore

theorem Segment.Sound.fill (h : s.Sound) (howner : s.owner = .allocating) :
    Segment.Sound { s with
      thread := (s.thread.reserve r.blockSize).2, owner := .sealing } := by
  have hcounted : s.owner.counted = false := by rw [howner]; rfl
  refine ⟨?_, fun ha => ?_, fun _ => ?_, h.room, fun ha => ?_, fun ho => ?_, fun _ => ?_⟩
  · have hword := h.word
    rw [hcounted] at hword
    exact hword
  · cases ha
  · rw [BitVec.ofNat_add, ← h.allocating howner]
    rfl
  · cases ha
  · cases ho.1
  · have hbefore := h.pending (Segment.not_over hcounted)
    rw [Segment.destroyers, howner] at hbefore
    exact hbefore

theorem Segment.Sound.seal (h : s.Sound) (howner : s.owner = .sealing) :
    sealSegment s.control s.thread.allocations = (SegmentState.control
      ⟨BitVec.ofNat 32 (s.frees + 1), BitVec.ofNat 32 (s.blocks.length + 1)⟩,
        decide (s.blocks.length = s.frees)) := by
  have hroom := h.room
  have hfrees := s.frees_le
  have hword : s.control = SegmentState.control ⟨BitVec.ofNat 32 s.frees, 0⟩ := by
    have hword := h.word
    rw [howner] at hword
    exact hword
  rw [hword, h.sealing howner, sealSegment_eq (by omega) (by omega)]
  simp only [Nat.add_right_cancel_iff]

/-- `Free` finds that nothing is left to free when the segment is sealed and all other
blocks were counted. -/
theorem Segment.Sound.free (h : s.Sound) (hlt : s.frees < s.blocks.length) :
    freeBlock s.control = (SegmentState.control
      ⟨BitVec.ofNat 32 (s.frees + 1 + if s.owner.counted then 1 else 0),
        BitVec.ofNat 32 (if s.owner.counted then s.blocks.length + 1 else 0)⟩,
        decide (s.owner.counted = true ∧ s.frees + 1 = s.blocks.length)) := by
  have hroom := h.room
  have hword := h.word
  cases hcounted : s.owner.counted with
  | false =>
      simp only [hcounted, Bool.false_eq_true, if_false, false_and] at hword ⊢
      rw [hword]
      refine (freeBlock_eq (by omega) (by omega)).trans ?_
      rw [decide_eq_false (by omega), decide_eq_false id]
  | true =>
      simp only [hcounted, if_true, true_and] at hword ⊢
      rw [hword, freeBlock_eq (by omega) (by omega)]
      simp only [Nat.add_right_cancel_iff, eq_comm]

theorem Segment.Sound.sealed (h : s.Sound) (howner : s.owner = .sealing) :
    Segment.Sound { s with
      control := (sealSegment s.control s.thread.allocations).1
      owner := if (sealSegment s.control s.thread.allocations).2 then .destroying
        else .sealed } := by
  have hbefore := h.pending (Segment.not_over (by rw [howner]; rfl))
  rw [Segment.destroyers, howner] at hbefore
  rw [h.seal howner]
  by_cases hall : s.blocks.length = s.frees
  · simp only [decide_eq_true hall, if_true]
    refine ⟨rfl, ?_, ?_, h.room, ?_, fun _ => ?_, fun hn => absurd ⟨rfl, hall.symm⟩ hn⟩
    · intro ha
      cases ha
    · intro ha
      cases ha
    · intro ha
      cases ha
    · change List.countP (· == BlockPc.destroying) s.blocks + 1 + s.destroyed = 1
      change List.countP (· == BlockPc.destroying) s.blocks + 0 + s.destroyed = 0 at hbefore
      omega
  · simp only [decide_eq_false hall, Bool.false_eq_true, if_false]
    refine ⟨rfl, ?_, ?_, h.room, ?_, fun ho => absurd ho.2.symm hall, fun _ => hbefore⟩
    · intro ha
      cases ha
    · intro ha
      cases ha
    · intro ha
      cases ha

theorem Segment.Sound.mark (h : s.Sound) (hi : s.blocks[i]? = some pc) (pc' : BlockPc)
    (hcounted : pc'.counted = pc.counted) {d : Nat}
    (hd : d + (if pc' = .destroying then 1 else 0) =
      s.destroyed + if pc = .destroying then 1 else 0) :
    Segment.Sound { s with blocks := s.blocks.set i pc', destroyed := d } := by
  have hfrees := countP_mark BlockPc.counted pc' hi
  have hdestroying := countP_mark (· == BlockPc.destroying) pc' hi
  refine h.keep rfl rfl (Or.inl rfl) List.length_set ?_ ?_
  · rw [hcounted] at hfrees
    exact Nat.add_right_cancel hfrees
  · simp only [beq_iff_eq] at hdestroying
    simp only [Segment.destroyers]
    omega

theorem Segment.Sound.count (h : s.Sound) (hi : s.blocks[i]? = some .located) :
    Segment.Sound { s with
      control := (freeBlock s.control).1
      blocks := s.blocks.set i (if (freeBlock s.control).2 then .destroying else .freed) } := by
  have hlt : s.frees < s.blocks.length := by
    refine Nat.lt_of_le_of_ne s.frees_le fun heq => ?_
    have hall := List.countP_eq_length.mp heq _ (List.mem_of_getElem? hi)
    cases hall
  have hbefore := h.pending fun ho => Nat.ne_of_lt hlt ho.2
  rw [h.free hlt]
  generalize hpc : (if decide (s.owner.counted = true ∧ s.frees + 1 = s.blocks.length) = true
    then BlockPc.destroying else BlockPc.freed) = pc'
  have hcounted : pc'.counted = true := by
    rw [← hpc]
    split
    all_goals rfl
  have hfrees : (s.blocks.set i pc').countP BlockPc.counted = s.frees + 1 := by
    have hmark := countP_mark BlockPc.counted pc' hi
    rw [hcounted] at hmark
    exact hmark
  have hdestroying := countP_mark (· == BlockPc.destroying) pc' hi
  have hlength : (s.blocks.set i pc').length = s.blocks.length := List.length_set
  refine ⟨?_, fun ha => ?_, fun ha => ?_, ?_, fun ha => ?_, fun ho => ?_, fun hn => ?_⟩
  · simp only [Segment.frees, hfrees, hlength]
  · rw [hlength]
    exact h.allocating ha
  · rw [hlength]
    exact h.sealing ha
  · rw [hlength]
    exact h.room
  · rw [hlength]
    exact h.offset ha
  · obtain ⟨howner, hall⟩ := ho
    simp only [Segment.frees, hfrees, hlength] at hall
    rw [if_pos (decide_eq_true ⟨howner, hall⟩)] at hpc
    subst hpc
    simp only [Segment.destroyers] at hbefore ⊢
    simp only [beq_iff_eq, if_true, reduceCtorEq, if_false] at hdestroying
    omega
  · have hnot : ¬ (s.owner.counted = true ∧ s.frees + 1 = s.blocks.length) := by
      rintro ⟨howner, hall⟩
      refine hn ⟨howner, ?_⟩
      simp only [Segment.frees, hfrees, hlength]
      exact hall
    rw [if_neg (by rw [decide_eq_true_eq]; exact hnot)] at hpc
    subst hpc
    simp only [Segment.destroyers] at hbefore ⊢
    simp only [beq_iff_eq, reduceCtorEq, if_false] at hdestroying
    omega

theorem Segment.Sound.next (h : s.Sound) {a : SegmentAction} (hok : s.Admits a)
    (hnext : s.next a = some s') : s'.Sound := by
  cases a with
  | allocate r =>
      simp only [Segment.next] at hnext
      split at hnext
      · rename_i howner
        split at hnext
        · cases hnext
          exact h.allocate howner hok ‹_›
        · cases hnext
          exact h.fill howner
      all_goals cases hnext
  | owner =>
      simp only [Segment.next] at hnext
      split at hnext
      · cases hnext
        exact h.sealed ‹_›
      · rename_i howner
        cases hnext
        refine h.keep rfl rfl (Or.inr ⟨howner, rfl⟩) rfl rfl ?_
        simp only [Segment.destroyers, howner, reduceCtorEq, if_true, if_false]
        omega
      all_goals cases hnext
  | use i =>
      simp only [Segment.next] at hnext
      split at hnext
      · cases hnext
        exact h
      · cases hnext
  | free i =>
      simp only [Segment.next] at hnext
      split at hnext
      · rename_i hi
        cases hnext
        exact h.mark hi .located rfl rfl
      · cases hnext
  | run i =>
      simp only [Segment.next] at hnext
      split at hnext
      · cases hnext
        exact h.count ‹_›
      · rename_i hi
        cases hnext
        exact h.mark hi .freed rfl rfl
      · cases hnext

end Steps

section Runs

variable {s : Segment} {address : Nat}

theorem Segment.sound_of_reaches
    (h : Reaches Segment.next Segment.Admits (Segment.start address) s) : s.Sound :=
  h.invariant (Segment.start_sound address) fun _ _ _ hs hok hnext => hs.next hok hnext

theorem Segment.next_of_freed (howner : s.owner = .sealed) (hblocks : ∀ b ∈ s.blocks, b = .freed)
    (a : SegmentAction) : s.next a = none := by
  cases a with
  | allocate r => simp only [Segment.next, howner]
  | owner => simp only [Segment.next, howner]
  | use i | free i | run i =>
      simp only [Segment.next]
      cases hi : s.blocks[i]? with
      | none => rfl
      | some pc => rw [hblocks pc (List.mem_of_getElem? hi)]

/-- In every run a segment is destroyed at most once, and only when it is sealed, all its
blocks are freed and no step is left that touches it.  Once all are through it has been
destroyed. -/
theorem Segment.destroyed_once
    (h : Reaches Segment.next Segment.Admits (Segment.start address) s) :
    s.destroyed ≤ 1 ∧
      (0 < s.destroyed → s.owner = .sealed ∧ (∀ b ∈ s.blocks, b = .freed) ∧
        ∀ a, s.next a = none) ∧
      (s.owner = .sealed → (∀ b ∈ s.blocks, b = .freed) → s.destroyed = 1) := by
  have hs := Segment.sound_of_reaches h
  have hone : s.destroyers ≤ 1 := by
    by_cases ho : s.Over
    · exact Nat.le_of_eq (hs.ended ho)
    · exact (hs.pending ho).trans_le (Nat.zero_le 1)
  rw [Segment.destroyers] at hone
  refine ⟨by omega, fun hpos => ?_, fun howner hblocks => ?_⟩
  · have hover : s.Over := by
      by_contra hn
      have hzero := hs.pending hn
      rw [Segment.destroyers] at hzero
      omega
    have howner : s.owner = .sealed := by
      have hcounted := hover.1
      cases hpc : s.owner with
      | destroying =>
          rw [hpc, if_pos rfl] at hone
          omega
      | sealed => rfl
      | allocating | sealing =>
          rw [hpc] at hcounted
          cases hcounted
    have hblocks : ∀ b ∈ s.blocks, b = .freed := by
      intro b hb
      have hcounted := List.countP_eq_length.mp hover.2 b hb
      have hnone : s.blocks.countP (· == .destroying) = 0 := by omega
      have hother := List.countP_eq_zero.mp hnone b hb
      cases b with
      | freed => rfl
      | destroying => exact absurd rfl hother
      | held | located => cases hcounted
    exact ⟨howner, hblocks, Segment.next_of_freed howner hblocks⟩
  · have hover : s.Over := by
      refine ⟨by rw [howner]; rfl, List.countP_eq_length.mpr fun b hb => ?_⟩
      rw [hblocks b hb]
      rfl
    have hall := hs.ended hover
    have hnone : s.blocks.countP (· == .destroying) = 0 := by
      refine List.countP_eq_zero.mpr fun b hb => ?_
      rw [hblocks b hb]
      decide
    rw [Segment.destroyers, hnone, howner] at hall
    exact (Nat.zero_add _).symm.trans hall

/-- The third block does not fit, and the second one is the last to be freed. -/
theorem Segment.destroyed_once_two :
    ∃ s, runActions Segment.next (Segment.start 64)
        [.allocate (.allocate 100), .allocate (.allocate 200), .free 0, .allocate (.allocate 7900),
          .run 0, .owner, .use 1, .free 1, .run 1, .run 1] = some s ∧ s.destroyed = 1 ∧
      (s.destroyed ≤ 1 ∧
        (0 < s.destroyed → s.owner = .sealed ∧ (∀ b ∈ s.blocks, b = .freed) ∧
          ∀ a, s.next a = none) ∧
        (s.owner = .sealed → (∀ b ∈ s.blocks, b = .freed) → s.destroyed = 1)) := by
  have hrun : runActions Segment.next (Segment.start 64)
      [.allocate (.allocate 100), .allocate (.allocate 200), .free 0, .allocate (.allocate 7900),
        .run 0, .owner, .use 1, .free 1, .run 1, .run 1] =
      some ⟨SegmentState.control ⟨3, 3⟩, ⟨some 64, 8224, 3⟩, .sealed, [.freed, .freed], 1⟩ := rfl
  refine ⟨_, hrun, rfl, Segment.destroyed_once (reaches_of_runActions ?_ hrun)⟩
  refine admits_of_forall fun a ha s => ?_
  cases a with
  | allocate r =>
      simp only [List.mem_cons, SegmentAction.allocate.injEq, reduceCtorEq, false_or,
        List.not_mem_nil, or_false] at ha
      rcases ha with rfl | rfl | rfl
      all_goals exact proper_allocate (by decide)
  | owner | use i | free i | run i => trivial

end Runs

end HashComp.Lss
