import HashComp.Library.Runs
import HashComp.Recovery.PageScan

namespace HashComp.Recovery

open HashComp.Alignment
open HashComp.ByteMemory
open HashComp.Faster (kPageSize)
open HashComp.Records
open HashComp.Runs

inductive Stage where
  | reserved
  | keyed (header : RecordInfo)
  | filled (header : RecordInfo) (value : List Byte)
  deriving DecidableEq

structure Block where
  start : Nat
  key : List Byte
  valueSize : BitVec 32
  deriving DecidableEq

/-- A page: its bytes, the offset of the tail, the blocks on it, the last one first, and what
has been written of each.  The offset runs over the end of the page when a record does not
fit. -/
structure PageImage where
  memory : Memory
  tail : Nat
  blocks : List Block
  stage : Nat → Stage

inductive Creation where
  | blockAllocate (key : List Byte) (valueSize : BitVec 32)
  /-- The constructor of `Record` in the block. -/
  | construct (block : Block) (version : BitVec 32) (previousAddress : BitVec 48)
  /-- `Put`, `RmwInitial` or `RmwCopy`. -/
  | put (block : Block) (value : List Byte)
  /-- `record->header.invalid = true`. -/
  | invalidate (block : Block)

/-- The page when it is opened.  The first one begins with the invalid page. -/
def PageImage.opened (page : Nat) : PageImage where
  memory := fun _ => 0
  tail := if page = 0 then kCacheLineBytes else 0
  blocks := []
  stage := fun _ => .reserved

variable {H : Type} (C : Classes H)

/-- The bytes of a key, whose number `size()` finds wherever they are. -/
structure IsKey (key : List Byte) : Prop where
  fixed : C.layout.key.sizeof ≤ key.length
  keySize : ∀ m a, readBytes m a key.length = key → (C.keySize m a).toNat = key.length

structure IsValue (value : List Byte) : Prop where
  fixed : C.layout.value.sizeof ≤ value.length
  valueSize : ∀ m a, readBytes m a value.length = value → (C.valueSize m a).toNat = value.length

namespace Block

variable (b : Block)

def keySize : BitVec 32 := BitVec.ofNat 32 b.key.length

def valueAt : Nat := b.start + (C.layout.valueOffset b.keySize).toNat

/-- The size that is reserved, `record_t::size(key, value_size)`. -/
def size : BitVec 32 := C.layout.sizeFor b.keySize b.valueSize

def stop : Nat := b.start + (b.size C).toNat

def extent : Nat := roundUp (b.valueSize.toNat + (C.layout.valueOffset b.keySize).toNat) 8

end Block

def PageImage.write (im : PageImage) (b : Block) (memory : Memory) (stage : Stage) : PageImage :=
  { im with
    memory := memory
    stage := Function.update im.stage b.start stage }

def PageImage.next (im : PageImage) : Creation → Option PageImage
  | .blockAllocate key valueSize =>
      let block := ⟨im.tail, key, valueSize⟩
      let tail := im.tail + (block.size C).toNat
      if kPageSize < tail then some { im with tail := tail }
      else some { im with tail := tail, blocks := block :: im.blocks }
  | .construct block version previousAddress =>
      if block ∈ im.blocks ∧ im.stage block.start = .reserved then
        let header := RecordInfo.created version previousAddress
        let memory := writeWord im.memory block.start header.control
        some (im.write block (writeBytes memory (C.keyAt block.start) block.key) (.keyed header))
      else none
  | .put block value =>
      match im.stage block.start with
      | .keyed header =>
          if block ∈ im.blocks then
            some (im.write block
              (writeBytes im.memory (C.valueAt im.memory block.start) value)
              (.filled header value))
          else none
      | _ => none
  | .invalidate block =>
      let invalidated (header : RecordInfo) : RecordInfo := { header with invalid := true }
      let memory := writeWord im.memory block.start
        (invalidated (.ofControl (readWord im.memory block.start))).control
      if block ∈ im.blocks then
        match im.stage block.start with
        | .reserved => none
        | .keyed header => some (im.write block memory (.keyed (invalidated header)))
        | .filled header value =>
            some (im.write block memory (.filled (invalidated header) value))
      else none

/-- What is created are keys and values that fit in a page, and a value takes no more than
the bytes that were asked for it.  The assertion of `Reserve` says as much, except for a
size that wraps around past 2^32. -/
def Fitting (_ : PageImage) : Creation → Prop
  | .blockAllocate key valueSize =>
      IsKey C key ∧ C.layout.value.sizeof ≤ valueSize.toNat ∧ key.length < 2 ^ 32 ∧
        Block.extent C ⟨0, key, valueSize⟩ < kPageSize
  | .put block value => IsValue C value ∧ value.length ≤ block.valueSize.toNat
  | _ => True

section Invariant

def Stage.Holds (m : Memory) (b : Block) : Stage → Prop
  | .reserved => Agree m (fun _ => 0) b.start (b.stop C)
  | .keyed header => header.finalBit ∧ readWord m b.start = header.control ∧
      readBytes m (C.keyAt b.start) b.key.length = b.key ∧
      Agree m (fun _ => 0) (b.valueAt C) (b.stop C)
  | .filled header value => header.finalBit ∧ readWord m b.start = header.control ∧
      readBytes m (C.keyAt b.start) b.key.length = b.key ∧
      IsValue C value ∧ value.length ≤ b.valueSize.toNat ∧
      readBytes m (b.valueAt C) value.length = value ∧
      Agree m (fun _ => 0) (b.valueAt C + value.length) (b.stop C)

structure Block.Roomy (b : Block) : Prop where
  aligned : 8 ∣ b.start
  key : IsKey C b.key
  key_lt : b.key.length < 2 ^ 32
  valueFixed : C.layout.value.sizeof ≤ b.valueSize.toNat
  stop_eq : b.stop C = b.start + b.extent C
  within : b.stop C ≤ kPageSize

structure Imaged (im : PageImage) : Prop where
  tail : 8 ∣ im.tail
  roomy : ∀ b ∈ im.blocks, b.Roomy C ∧ b.stop C ≤ im.tail
  apart : im.blocks.Pairwise fun b b' => b'.stop C ≤ b.start
  content : ∀ b ∈ im.blocks, (im.stage b.start).Holds C im.memory b
  zeros : ∀ i < kPageSize, (∀ b ∈ im.blocks, i < b.start ∨ b.stop C ≤ i) → im.memory i = 0
  ahead : ∀ a ≥ im.tail, im.stage a = .reserved

variable {C} {m m' : Memory} {b b' : Block} {im im' : PageImage} {stage : Stage}
  {creation : Creation} {page : Nat}

theorem Block.Roomy.bounds (h : b.Roomy C) : C.keyAt b.start + b.key.length ≤ b.valueAt C ∧
    b.valueAt C + b.valueSize.toNat ≤ b.stop C ∧ b.start + 8 ≤ C.keyAt b.start := by
  have hkey : b.keySize.toNat = b.key.length := by
    rw [Block.keySize, BitVec.toNat_ofNat, Nat.mod_eq_of_lt h.key_lt]
  have hoffset : b.keySize.toNat + C.layout.keyOffset.toNat ≤
      (C.layout.valueOffset b.keySize).toNat := le_valueOffset
  have hround := le_roundUp (n := b.valueSize.toNat + (C.layout.valueOffset b.keySize).toNat)
    (a := 8) (by decide)
  refine ⟨?_, ?_, le_keyAt⟩
  · rw [Classes.keyAt, Block.valueAt]
    omega
  · rw [h.stop_eq, Block.valueAt, Block.extent]
    omega

theorem Stage.Holds.congr (h : stage.Holds C m b) (hroomy : b.Roomy C)
    (hagree : Agree m' m b.start (b.stop C)) : stage.Holds C m' b := by
  obtain ⟨hkey, hvalue, hat⟩ := hroomy.bounds
  have hword : readWord m' b.start = readWord m b.start :=
    (hagree.mono le_rfl (by omega)).readWord_eq
  cases stage with
  | reserved => exact hagree.trans h
  | keyed header =>
      obtain ⟨hfinal, hheader, hkeyed, hzero⟩ := h
      refine ⟨hfinal, hword.trans hheader, ?_, (hagree.mono (by omega) le_rfl).trans hzero⟩
      exact (hagree.mono (by omega) (by omega)).readBytes_eq.trans hkeyed
  | filled header value =>
      obtain ⟨hfinal, hheader, hkeyed, his, hle, hfilled, hzero⟩ := h
      refine ⟨hfinal, hword.trans hheader, ?_, his, hle, ?_,
        (hagree.mono (by omega) le_rfl).trans hzero⟩
      · exact (hagree.mono (by omega) (by omega)).readBytes_eq.trans hkeyed
      · exact (hagree.mono (by omega) (by omega)).readBytes_eq.trans hfilled

theorem Block.Roomy.valueAt_eq (h : b.Roomy C)
    (hkeyed : readBytes m (C.keyAt b.start) b.key.length = b.key) :
    C.keySize m (C.keyAt b.start) = b.keySize ∧ C.valueAt m b.start = b.valueAt C := by
  have hsize : C.keySize m (C.keyAt b.start) = b.keySize := by
    apply BitVec.eq_of_toNat_eq
    rw [h.key.keySize m _ hkeyed, Block.keySize, BitVec.toNat_ofNat, Nat.mod_eq_of_lt h.key_lt]
  refine ⟨hsize, ?_⟩
  rw [Classes.valueAt, Block.valueAt, hsize]

theorem imaged_opened (page : Nat) : Imaged C (.opened page) where
  tail := by
    rw [PageImage.opened]
    split <;> decide
  roomy := nofun
  apart := .nil
  content := nofun
  zeros := fun _ _ _ => rfl
  ahead := fun _ _ => rfl

theorem Imaged.apart_of_ne (h : Imaged C im) (hb : b ∈ im.blocks) (hb' : b' ∈ im.blocks)
    (hne : b ≠ b') : b.stop C ≤ b'.start ∨ b'.stop C ≤ b.start := by
  have hsymm : im.blocks.Pairwise fun b b' => b.stop C ≤ b'.start ∨ b'.stop C ≤ b.start :=
    h.apart.imp fun hle => Or.inr hle
  have : Std.Symm fun b b' : Block => b.stop C ≤ b'.start ∨ b'.stop C ≤ b.start :=
    ⟨fun _ _ => Or.symm⟩
  exact hsymm.forall hb hb' hne

theorem Imaged.write (h : Imaged C im) (hb : b ∈ im.blocks)
    (hbelow : Agree m' im.memory 0 b.start) (habove : Agree m' im.memory (b.stop C) kPageSize)
    (hholds : stage.Holds C m' b) : Imaged C (im.write b m' stage) where
  tail := h.tail
  roomy := h.roomy
  apart := h.apart
  content := by
    intro b' hb'
    change (Function.update im.stage b.start stage b'.start).Holds C m' b'
    by_cases heq : b' = b
    · subst heq
      rw [Function.update_self]
      exact hholds
    · obtain ⟨hroomy, -⟩ := h.roomy b hb
      obtain ⟨hroomy', -⟩ := h.roomy b' hb'
      have hbounds := hroomy.bounds
      have hbounds' := hroomy'.bounds
      have hwithin := hroomy'.within
      rcases h.apart_of_ne hb' hb heq with hle | hle
      · rw [Function.update_of_ne (by omega)]
        exact (h.content b' hb').congr hroomy' (hbelow.mono (Nat.zero_le _) hle)
      · rw [Function.update_of_ne (by omega)]
        exact (h.content b' hb').congr hroomy' (habove.mono hle hwithin)
  zeros := by
    intro i hi houtside
    have hmem : m' i = im.memory i := by
      rcases houtside b hb with hlt | hge
      · exact hbelow i (Nat.zero_le _) hlt
      · exact habove i hge hi
    exact hmem.trans (h.zeros i hi houtside)
  ahead := by
    intro a ha
    have hstop := (h.roomy b hb).2
    have hbounds := (h.roomy b hb).1.bounds
    change im.tail ≤ a at ha
    change Function.update im.stage b.start stage a = .reserved
    rw [Function.update_of_ne (by omega)]
    exact h.ahead a ha

theorem Imaged.construct (h : Imaged C im) (hb : b ∈ im.blocks)
    (hstage : im.stage b.start = .reserved) {header : RecordInfo} (hfinal : header.finalBit) :
    Imaged C (im.write b
      (writeBytes (writeWord im.memory b.start header.control) (C.keyAt b.start) b.key)
      (.keyed header)) := by
  obtain ⟨hkey, hvalue, hat⟩ := (h.roomy b hb).1.bounds
  have hzero := h.content b hb
  rw [hstage] at hzero
  have houtside {a e : Nat} (hout : e ≤ b.start ∨ b.valueAt C ≤ a) :
      Agree (writeBytes (writeWord im.memory b.start header.control) (C.keyAt b.start) b.key)
        im.memory a e :=
    (agree_writeBytes (by omega)).trans (agree_writeWord (by omega))
  refine h.write hb (houtside (Or.inl le_rfl)) (houtside (Or.inr (by omega))) ?_
  refine ⟨hfinal, ?_, readBytes_writeBytes, ?_⟩
  · rw [readWord_of_apart (Or.inr hat), readWord_writeWord]
  · exact (houtside (Or.inr le_rfl)).trans (hzero.mono (by omega) le_rfl)

theorem Imaged.put (h : Imaged C im) (hb : b ∈ im.blocks) {header : RecordInfo}
    (hstage : im.stage b.start = .keyed header) {value : List Byte} (hvalue : IsValue C value)
    (hle : value.length ≤ b.valueSize.toNat) :
    Imaged C (im.write b (writeBytes im.memory (C.valueAt im.memory b.start) value)
      (.filled header value)) := by
  have hroomy := (h.roomy b hb).1
  obtain ⟨hkey, hend, hat⟩ := hroomy.bounds
  have hkeyed := h.content b hb
  rw [hstage] at hkeyed
  obtain ⟨hfinal, hheader, hkeyed, hzero⟩ := hkeyed
  rw [(hroomy.valueAt_eq hkeyed).2]
  have houtside {a e : Nat} (hout : e ≤ b.valueAt C ∨ b.valueAt C + value.length ≤ a) :
      Agree (writeBytes im.memory (b.valueAt C) value) im.memory a e := agree_writeBytes hout
  refine h.write hb (houtside (Or.inl (by omega))) (houtside (Or.inr (by omega))) ?_
  refine ⟨hfinal, ?_, ?_, hvalue, hle, readBytes_writeBytes, ?_⟩
  · rw [(houtside (Or.inl (by omega))).readWord_eq, hheader]
  · rw [(houtside (Or.inl hkey)).readBytes_eq, hkeyed]
  · exact (houtside (Or.inr le_rfl)).trans (hzero.mono (by omega) le_rfl)

theorem Imaged.setHeader (h : Imaged C im) (hb : b ∈ im.blocks) {header : RecordInfo}
    (hholds : stage.Holds C (writeWord im.memory b.start header.control) b) :
    Imaged C (im.write b (writeWord im.memory b.start header.control) stage) := by
  have hbounds := (h.roomy b hb).1.bounds
  exact h.write hb (agree_writeWord (Or.inl le_rfl)) (agree_writeWord (Or.inr (by omega))) hholds

theorem Imaged.blockAllocate (h : Imaged C im) {key : List Byte} {valueSize : BitVec 32}
    (hok : Fitting C im (.blockAllocate key valueSize))
    (hnext : im.next C (.blockAllocate key valueSize) = some im') : Imaged C im' := by
  obtain ⟨hkey, hfixed, hlt, hextent⟩ := hok
  have hsize : (Block.size C ⟨im.tail, key, valueSize⟩).toNat =
      Block.extent C ⟨im.tail, key, valueSize⟩ := by
    have hpage : kPageSize = 2 ^ 25 := rfl
    rw [Block.size, toNat_sizeFor]
    exact Nat.mod_eq_of_lt (Nat.lt_trans hextent (by omega))
  have hdvd : 8 ∣ (Block.size C ⟨im.tail, key, valueSize⟩).toNat := by
    rw [hsize]
    exact dvd_roundUp
  have htail := h.tail
  simp only [PageImage.next] at hnext
  split at hnext <;> cases hnext
  · refine ⟨(Nat.dvd_add_right htail).mpr hdvd, fun b hb => ?_, h.apart, h.content, h.zeros,
      fun a ha => h.ahead a (Nat.le_trans (Nat.le_add_right ..) ha)⟩
    obtain ⟨hroomy, hstop⟩ := h.roomy b hb
    exact ⟨hroomy, Nat.le_trans hstop (Nat.le_add_right ..)⟩
  · rename_i hfits
    have hnew : im.stage im.tail = .reserved := h.ahead _ le_rfl
    refine ⟨(Nat.dvd_add_right htail).mpr hdvd, List.forall_mem_cons.mpr ⟨⟨⟨htail, hkey, hlt,
      hfixed, ?_, Nat.not_lt.mp hfits⟩, le_rfl⟩, fun b hb => ?_⟩,
      List.pairwise_cons.mpr ⟨fun b hb => (h.roomy b hb).2, h.apart⟩,
      List.forall_mem_cons.mpr ⟨?_, h.content⟩, fun i hi houtside => ?_, fun a ha => ?_⟩
    · rw [Block.stop, hsize]
    · obtain ⟨hroomy, hstop⟩ := h.roomy b hb
      exact ⟨hroomy, Nat.le_trans hstop (Nat.le_add_right ..)⟩
    · dsimp only
      rw [hnew]
      intro i hlo hhi
      refine h.zeros i (Nat.lt_of_lt_of_le hhi (Nat.not_lt.mp hfits)) fun b hb => ?_
      exact Or.inr (Nat.le_trans (h.roomy b hb).2 hlo)
    · exact h.zeros i hi fun b hb => houtside b (List.mem_cons_of_mem _ hb)
    · exact h.ahead a (Nat.le_trans (Nat.le_add_right ..) ha)

theorem Imaged.next (h : Imaged C im) (hok : Fitting C im creation)
    (hnext : im.next C creation = some im') : Imaged C im' := by
  cases creation with
  | blockAllocate key valueSize => exact h.blockAllocate hok hnext
  | construct block version previousAddress =>
      simp only [PageImage.next] at hnext
      split at hnext <;> cases hnext
      rename_i hguard
      exact h.construct hguard.1 hguard.2 rfl
  | put block value =>
      simp only [PageImage.next] at hnext
      split at hnext
      · rename_i header hstage
        split at hnext <;> cases hnext
        rename_i hb
        exact h.put hb hstage hok.1 hok.2
      · cases hnext
  | invalidate block =>
      simp only [PageImage.next] at hnext
      split at hnext
      · rename_i hb
        have hroomy := (h.roomy block hb).1
        have hbounds := hroomy.bounds
        have hcontent := h.content block hb
        split at hnext <;> cases hnext
        · rename_i header hstage
          rw [hstage] at hcontent
          obtain ⟨hfinal, hheader, hkeyed, hzero⟩ := hcontent
          rw [hheader, RecordInfo.ofControl_control]
          refine h.setHeader hb ⟨hfinal, readWord_writeWord, ?_, ?_⟩
          · rw [(agree_writeWord (by omega)).readBytes_eq, hkeyed]
          · exact (agree_writeWord (by omega)).trans hzero
        · rename_i header value hstage
          rw [hstage] at hcontent
          obtain ⟨hfinal, hheader, hkeyed, hvalue, hle, hfilled, hzero⟩ := hcontent
          rw [hheader, RecordInfo.ofControl_control]
          refine h.setHeader hb ⟨hfinal, readWord_writeWord, ?_, hvalue, hle, ?_, ?_⟩
          · rw [(agree_writeWord (by omega)).readBytes_eq, hkeyed]
          · rw [(agree_writeWord (by omega)).readBytes_eq, hfilled]
          · exact (agree_writeWord (by omega)).trans hzero
      · cases hnext

end Invariant

section Scans

def PageImage.Written (im : PageImage) (a : Nat) : Prop :=
  im.stage a ≠ .reserved ∧ ∃ b ∈ im.blocks, b.start = a

/-- The ends of the blocks in which a record has been written, by their starts. -/
def PageImage.stops {H : Type} (C : Classes H) (im : PageImage) (a : Nat) : Option Nat :=
  if im.stage a = .reserved then none
  else (im.blocks.find? fun b => b.start == a).map (Block.stop C)

/-- The page starts here, or a block. -/
def PageImage.Begins (im : PageImage) (a : Nat) : Prop :=
  a = 0 ∨ ∃ b ∈ im.blocks, b.start = a

variable {H : Type} {C : Classes H} {b : Block} {im : PageImage} {a e fromOffset toOffset : Nat}

theorem PageImage.mem_of_stops (h : im.stops C a = some e) :
    im.stage a ≠ .reserved ∧ ∃ b ∈ im.blocks, b.start = a ∧ b.stop C = e := by
  rw [PageImage.stops] at h
  split at h
  · cases h
  · rename_i hstage
    obtain ⟨b, hfind, rfl⟩ := Option.map_eq_some_iff.mp h
    exact ⟨hstage, b, List.mem_of_find?_eq_some hfind,
      by simpa using List.find?_some hfind, rfl⟩

theorem PageImage.isSome_stops_iff : (im.stops C a).isSome ↔ im.Written a := by
  constructor
  · intro h
    obtain ⟨e, he⟩ := Option.isSome_iff_exists.mp h
    obtain ⟨hstage, b, hb, hstart, -⟩ := PageImage.mem_of_stops he
    exact ⟨hstage, b, hb, hstart⟩
  · rintro ⟨hstage, b, hb, hstart⟩
    rw [PageImage.stops, if_neg hstage, Option.isSome_map, List.find?_isSome]
    exact ⟨b, hb, by simpa using hstart⟩

/-- The value of a record, filled or not, ends in its block, with zeros after it. -/
theorem Stage.Holds.value_spec {m : Memory} {stage : Stage} (h : stage.Holds C m b)
    (hroomy : b.Roomy C) (hstage : stage ≠ .reserved) :
    readWord m b.start ≠ 0 ∧ readBytes m (C.keyAt b.start) b.key.length = b.key ∧
      (C.valueSize m (b.valueAt C)).toNat ≤ b.valueSize.toNat ∧
      Agree m (fun _ => 0) (b.valueAt C + (C.valueSize m (b.valueAt C)).toNat) (b.stop C) := by
  obtain ⟨-, hend, -⟩ := hroomy.bounds
  cases stage with
  | reserved => exact absurd rfl hstage
  | keyed header =>
      obtain ⟨hfinal, hheader, hkeyed, hzero⟩ := h
      refine ⟨?_, hkeyed, ?_, hzero.mono (Nat.le_add_right ..) le_rfl⟩
      · rw [hheader]
        exact RecordInfo.control_ne_zero (Or.inr hfinal)
      · exact C.valueSize_blank m _ _ hroomy.valueFixed (hzero.mono le_rfl hend)
  | filled header value =>
      obtain ⟨hfinal, hheader, hkeyed, hvalue, hle, hfilled, hzero⟩ := h
      have hsize := hvalue.valueSize m _ hfilled
      rw [hsize]
      refine ⟨?_, hkeyed, hle, hzero⟩
      rw [hheader]
      exact RecordInfo.control_ne_zero (Or.inr hfinal)

theorem Imaged.isRecord (h : Imaged C im) (hb : b ∈ im.blocks)
    (hstage : im.stage b.start ≠ .reserved) : IsRecord C im.memory b.start (b.stop C) ∧
      Agree im.memory (fun _ => 0) (b.start + (C.size im.memory b.start).toNat) (b.stop C) := by
  have hroomy := (h.roomy b hb).1
  obtain ⟨hkey, hend, hat⟩ := hroomy.bounds
  obtain ⟨hheader, hkeyed, hvalue, hzero⟩ := (h.content b hb).value_spec hroomy hstage
  obtain ⟨hkeySize, hvalueAt⟩ := hroomy.valueAt_eq hkeyed
  have hwithin := hroomy.within
  have hstop := hroomy.stop_eq
  have hpage : kPageSize = 2 ^ 25 := rfl
  have hle : (C.valueSize im.memory (b.valueAt C)).toNat +
      (C.layout.valueOffset b.keySize).toNat ≤ b.extent C :=
    Nat.le_trans (Nat.add_le_add_right hvalue _) (le_roundUp (by decide))
  have hround := roundUp_le_of_dvd (a := 8) (by decide) hle dvd_roundUp
  have hsize : (C.size im.memory b.start).toNat =
      roundUp ((C.valueSize im.memory (b.valueAt C)).toNat +
        (C.layout.valueOffset b.keySize).toNat) 8 := by
    rw [Classes.size, hkeySize, hvalueAt, toNat_sizeFor]
    exact Nat.mod_eq_of_lt (by omega)
  have hsizeLe := le_roundUp (n := (C.valueSize im.memory (b.valueAt C)).toNat +
    (C.layout.valueOffset b.keySize).toNat) (a := 8) (by decide)
  have hoffset : b.start + (C.layout.valueOffset b.keySize).toNat = b.valueAt C := rfl
  have hkeyRead := hroomy.key.keySize im.memory _ hkeyed
  have hkeyFixed := hroomy.key.fixed
  have hvalueFixed := hroomy.valueFixed
  refine ⟨⟨hroomy.aligned, hwithin, hheader, by omega, by omega, by omega, by omega, ?_,
    by omega⟩, hzero.mono (by omega) le_rfl⟩
  rw [hsize]
  exact dvd_roundUp

theorem Imaged.scannable (h : Imaged C im) : Scannable C (im.stops C) im.memory where
  record := by
    intro a e he
    obtain ⟨hstage, b, hb, rfl, rfl⟩ := PageImage.mem_of_stops he
    exact (h.isRecord hb hstage).1
  apart := by
    intro a e a' e' he he' hlt
    obtain ⟨hstage, b, hb, rfl, rfl⟩ := PageImage.mem_of_stops he
    obtain ⟨-, b', hb', rfl, rfl⟩ := PageImage.mem_of_stops he'
    have hne : b ≠ b' := by
      rintro rfl
      exact absurd hlt (Nat.lt_irrefl _)
    have hsize := (h.roomy b' hb').1.bounds
    rcases h.apart_of_ne hb hb' hne with hle | hle
    · exact hle
    · omega
  zeros := by
    intro i hi houtside
    by_cases hin : ∃ b ∈ im.blocks, b.start ≤ i ∧ i < b.stop C
    · obtain ⟨b, hb, hlo, hhi⟩ := hin
      have hcontent := h.content b hb
      by_cases hstage : im.stage b.start = .reserved
      · rw [hstage] at hcontent
        exact hcontent i hlo hhi
      · obtain ⟨e, he⟩ := Option.isSome_iff_exists.mp
          ((PageImage.isSome_stops_iff (C := C)).mpr ⟨hstage, b, hb, rfl⟩)
        have hpast := (houtside b.start e he).resolve_left (Nat.not_lt.mpr hlo)
        exact (h.isRecord hb hstage).2 i hpast hhi
    · refine h.zeros i hi fun b hb => ?_
      by_contra hboth
      exact hin ⟨b, hb, by omega, by omega⟩

theorem Imaged.stands (h : Imaged C im) (hbegins : im.Begins fromOffset) :
    Stands C (im.stops C) im.memory fromOffset := by
  rcases hbegins with rfl | ⟨b, hb, rfl⟩
  · exact ⟨Nat.dvd_zero 8, fun a e _ => Or.inl (Nat.zero_le a)⟩
  · refine ⟨(h.roomy b hb).1.aligned, fun a e he => ?_⟩
    obtain ⟨hstage, b', hb', rfl, rfl⟩ := PageImage.mem_of_stops he
    by_cases heq : b' = b
    · exact Or.inl (heq ▸ le_rfl)
    · have hrecord := (h.isRecord hb' hstage).1.size_le
      have hbounds := (h.roomy b hb).1.bounds
      rcases h.apart_of_ne hb' hb heq with hle | hle
      · exact Or.inr (Nat.le_trans hrecord hle)
      · exact Or.inl (by omega)

end Scans

section Recovery

variable {H : Type} [DecidableEq H] (C : Classes H) (point : RecoveryPoint) (page : Nat)

/-- The scan of a range of a page ends.  It has met the records of the range in their order,
each once, and nothing else that it took for a header; each ends in its block, and what
lies outside the page makes no difference. -/
structure VisitsRecords (im : PageImage) (entries : H → Option Nat) (fromOffset toOffset : Nat)
    (t : Scan H) : Prop where
  returns : recoverFromPage C point page (toOffset - fromOffset + 1) fromOffset toOffset
    ⟨im.memory, entries, []⟩ = some t
  once : t.visited.Pairwise (· > ·)
  written : ∀ a, a ∈ t.visited ↔ im.Written a ∧ fromOffset ≤ a ∧ a < toOffset
  within : ∀ b ∈ im.blocks, b.start ∈ t.visited →
    b.start + (C.size im.memory b.start).toNat ≤ b.stop C ∧ b.stop C ≤ kPageSize
  inPage : ∀ m, Agree im.memory m 0 kPageSize →
    ∃ t', recoverFromPage C point page (toOffset - fromOffset + 1) fromOffset toOffset
      ⟨m, entries, []⟩ = some t' ∧ SamePage t t'

variable {C} {im : PageImage} {entries : H → Option Nat} {fromOffset toOffset : Nat}

theorem visitsRecords_of_reaches
    (hreach : Reaches (PageImage.next C) (Fitting C) (.opened page) im)
    (hfrom : im.Begins fromOffset) (hto : toOffset ≤ kPageSize) :
    ∃ t, VisitsRecords C point page im entries fromOffset toOffset t := by
  have himaged : Imaged C im :=
    hreach.invariant (imaged_opened page) fun _ _ _ h hok hnext => h.next hok hnext
  have hscannable := himaged.scannable
  have hstands := himaged.stands hfrom
  obtain ⟨t, v, ht, -, hvisited, hpairwise, hmem⟩ :=
    recoverFromPage_spec point page (n := toOffset - fromOffset)
      (s := ⟨im.memory, entries, []⟩) hscannable hstands hto (by omega)
  rw [List.append_nil] at hvisited
  subst hvisited
  refine ⟨t, ht, hpairwise, fun a => (hmem a).trans ?_, fun b hb hin => ?_, fun m hm => ?_⟩
  · rw [PageImage.isSome_stops_iff]
  · have hwritten := PageImage.isSome_stops_iff.mp ((hmem b.start).mp hin).1
    have hrecord := (himaged.isRecord hb hwritten.1).1
    exact ⟨hrecord.size_le, hrecord.within⟩
  · have hsame : SamePage (H := H) ⟨im.memory, entries, []⟩ ⟨m, entries, []⟩ := ⟨hm, rfl, rfl⟩
    exact hsame.recoverFromPage point page hscannable hstands hto ht

def getHashCode (input : BitVec 64) : BitVec 64 :=
  let localRandHash : BitVec 64 := 40343 * 8 + (input &&& 0xFFFF)
  let localRandHash := 40343 * localRandHash + (input >>> 16 &&& 0xFFFF)
  let localRandHash := 40343 * localRandHash + (input >>> 32 &&& 0xFFFF)
  let localRandHash := 40343 * localRandHash + input >>> 48
  (40343 * localRandHash).rotateRight 43

/-- `Key` and `Value` of `kvcontext.h`. -/
def kvcontext : Classes (BitVec 64) where
  layout := ⟨⟨3, 8, alignof_word_le⟩, ⟨3, 8, alignof_word_le⟩⟩
  keySize := fun _ _ => 8
  valueSize := fun _ _ => 8
  getHash := fun m a => getHashCode (readWord m a)
  keySize_congr := fun _ _ _ _ => rfl
  valueSize_congr := fun _ _ _ _ => rfl
  getHash_congr := fun _ _ _ h => congrArg getHashCode h.readWord_eq
  valueSize_blank := fun _ _ _ h _ => h

/-- The key 5 gets the value 9, a record of the key 6 is marked before it has a value, and a
range is reserved and lost. -/
def threeRanges : List Creation :=
  let first : Block := ⟨0, bytesOf 5, 8⟩
  let second : Block := ⟨24, bytesOf 6, 8⟩
  [.blockAllocate (bytesOf 5) 8, .blockAllocate (bytesOf 6) 8, .construct second 1 1,
    .construct first 1 1, .invalidate second, .put first (bytesOf 9), .blockAllocate (bytesOf 7) 8]

theorem fitting_threeRanges :
    Admits (PageImage.next kvcontext) (Fitting kvcontext) (.opened 1) threeRanges := by
  have hkey (w : Word) : IsKey kvcontext (bytesOf w) := ⟨le_rfl, fun _ _ _ => rfl⟩
  have hvalue (w : Word) : IsValue kvcontext (bytesOf w) := ⟨le_rfl, fun _ _ _ => rfl⟩
  refine admits_of_forall fun creation hmem im => ?_
  simp only [threeRanges, List.mem_cons, List.not_mem_nil, or_false] at hmem
  rcases hmem with rfl | rfl | rfl | rfl | rfl | rfl | rfl
  · exact ⟨hkey 5, by decide, by decide, by decide⟩
  · exact ⟨hkey 6, by decide, by decide, by decide⟩
  · trivial
  · trivial
  · trivial
  · exact ⟨hvalue 9, by decide⟩
  · exact ⟨hkey 7, by decide, by decide, by decide⟩

theorem visitsRecords_threeRanges : ∃ im,
    runActions (PageImage.next kvcontext) (.opened 1) threeRanges = some im ∧ im.tail = 72 ∧
      ∃ t, VisitsRecords kvcontext ⟨1, 64⟩ 1 im (fun _ => none) 0 (kPageSize - 1) t := by
  have hview : (runActions (PageImage.next kvcontext) (.opened 1) threeRanges).map
      PageImage.tail = some 72 := by
    decide +kernel
  obtain ⟨im, him, htail⟩ := Option.map_eq_some_iff.mp hview
  exact ⟨im, him, htail, visitsRecords_of_reaches _ _
    (reaches_of_runActions fitting_threeRanges him) (Or.inl rfl) (by decide)⟩

end Recovery

end HashComp.Recovery
