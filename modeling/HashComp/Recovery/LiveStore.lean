import HashComp.Recovery.Replay
import Mathlib.Data.Fintype.Basic

namespace HashComp.Recovery

open HashComp.ByteMemory
open HashComp.Faster (kInvalidAddress kPageSize)
open HashComp.Hlog
open HashComp.Records
open HashComp.Runs

def addressOf (page : Nat) (block : Block) : Nat := pageStart page + block.start

/-- What a thread has got in an operation that creates a record: the entry and the address
that it found there, a block, the record in the block. -/
inductive Writer (H : Type) where
  | idle
  | found (key : List Byte) (hash : H) (expected : Nat)
  | allocated (page : Nat) (block : Block) (hash : H) (expected : Nat)
  | constructed (page : Nat) (block : Block) (hash : H) (expected : Nat)

/-- The address of the block that the thread has got. -/
def Writer.address {H : Type} : Writer H → Option Nat
  | .idle => none
  | .found .. => none
  | .allocated page block .. => some (addressOf page block)
  | .constructed page block .. => some (addressOf page block)

/-- The log, the address in the entry of each hash, and a checkpoint of the index:
`checkpoint_start_address`, the threads that have acknowledged `PREP_INDEX_CHKPT`, and the
entries that have been copied. -/
structure LiveStore (T H : Type) where
  pages : Nat → PageImage
  page : Nat
  entries : H → Option Nat
  writers : T → Writer H
  start : Option Nat
  acknowledged : T → Bool
  image : H → Option (Option Nat)

inductive StoreStep (T H : Type) where
  | findOrCreateEntry (t : T) (key : List Byte) (hash : H)
  | blockAllocate (t : T) (valueSize : BitVec 32)
  /-- `BlockAllocate` finds that the block is below `read_only_address`, and goes on. -/
  | abandonBlock (t : T)
  | newPage
  | construct (t : T) (version : BitVec 32)
  | put (t : T) (value : List Byte)
  /-- `atomic_entry->compare_exchange_strong`, and `header.invalid = true` where it fails. -/
  | compareExchange (t : T)
  /-- The operation ends without the record, which is marked invalid if it is there. -/
  | giveUp (t : T)
  /-- `PutAtomic` or `RmwAtomic` in a context of this version, on a record that an entry leads
  to. -/
  | updateInPlace (version : BitVec 32) (page : Nat) (block : Block) (value : List Byte)
  /-- An entry is set to `kInvalidEntry` by `InternalDelete` or `CleanHashTableBuckets`. -/
  | clear (hash : H)
  | checkpoint
  | checkpointDone
  /-- `Refresh`, between two operations or in `BlockAllocate`. -/
  | refresh (t : T)
  /-- `CheckpointFuzzyIndex` writes some of the entries.  `FinishThreadPhase` has found that
  all threads are through with the phase before, but thread id 0 that it does not look at. -/
  | copyEntries (hashes : H → Bool)

/-- A record is there for everyone, or has got another value, the records of a hash are there
for no one any more, or those of the versions after this one are not after a recovery. -/
inductive Event (H : Type) where
  | write (address : Nat) (key : List Byte) (version : Nat) (value : List Byte)
  | overwrite (address : Nat) (version : Nat) (value : List Byte)
  | clear (hash : H)
  | recovered (version : Nat)
  deriving DecidableEq

namespace LiveStore

variable {T H : Type}

def initial : LiveStore T H where
  pages := .opened
  page := 0
  entries := fun _ => none
  writers := fun _ => .idle
  start := none
  acknowledged := fun _ => false
  image := fun _ => none

variable (s : LiveStore T H)

def getTailAddress : Nat := pageStart s.page + min (s.pages s.page).tail (kPageSize - 1)

def setPage (page : Nat) (im : PageImage) : LiveStore T H :=
  { s with pages := Function.update s.pages page im }

/-- `atomic_entry->store` -/
def setEntry [DecidableEq H] (hash : H) (entry : Option Nat) : LiveStore T H :=
  { s with entries := Function.update s.entries hash entry }

variable [DecidableEq T]

def setWriter (t : T) (writer : Writer H) : LiveStore T H :=
  { s with writers := Function.update s.writers t writer }

variable (C : Classes H)

def abandon (t : T) (page : Nat) (block : Block) : Option (LiveStore T H) :=
  ((s.pages page).next C (.invalidate block)).map fun im => (s.setPage page im).setWriter t .idle

variable [Fintype T] [Zero T] [DecidableEq H]

def next : StoreStep T H → Option (LiveStore T H)
  | .findOrCreateEntry t key hash =>
      match s.writers t with
      | .idle =>
          let address := (s.entries hash).getD kInvalidAddress
          some ((s.setEntry hash (some address)).setWriter t (.found key hash address))
      | _ => none
  | .blockAllocate t valueSize =>
      match s.writers t with
      | .found key hash expected =>
          let block : Block := ⟨(s.pages s.page).tail, key, valueSize⟩
          ((s.pages s.page).next C (.blockAllocate key valueSize)).map fun im =>
            if kPageSize < im.tail then s.setPage s.page im
            else (s.setPage s.page im).setWriter t (.allocated s.page block hash expected)
      | _ => none
  | .abandonBlock t =>
      match s.writers t with
      | .allocated _ block hash expected => some (s.setWriter t (.found block.key hash expected))
      | _ => none
  | .newPage =>
      if kPageSize < (s.pages s.page).tail then some { s with page := s.page + 1 } else none
  | .construct t version =>
      match s.writers t with
      | .allocated page block hash expected =>
          let creation := .construct block version (BitVec.ofNat 48 expected)
          ((s.pages page).next C creation).map fun im =>
            (s.setPage page im).setWriter t (.constructed page block hash expected)
      | _ => none
  | .put t value =>
      match s.writers t with
      | .constructed page block hash expected =>
          ((s.pages page).next C (.put block value)).map fun im =>
            (s.setPage page im).setWriter t (.constructed page block hash expected)
      | _ => none
  | .compareExchange t =>
      match s.writers t with
      | .constructed page block hash expected =>
          match (s.pages page).stage block.start with
          | .filled .. =>
              if s.entries hash = some expected then
                some ((s.setEntry hash (some (addressOf page block))).setWriter t .idle)
              else s.abandon C t page block
          | _ => none
      | _ => none
  | .giveUp t =>
      match s.writers t with
      | .found .. => some (s.setWriter t .idle)
      | .constructed page block _ _ => s.abandon C t page block
      | _ => none
  | .updateInPlace _ page block value =>
      match (s.pages page).stage block.start with
      | .filled header _ =>
          let im := s.pages page
          if block ∈ im.blocks ∧ ∀ t, (s.writers t).address ≠ some (addressOf page block) then
            some (s.setPage page (im.write block
              (writeBytes im.memory (C.valueAt im.memory block.start) value)
              (.filled header value)))
          else none
      | _ => none
  | .clear hash => some (s.setEntry hash none)
  | .checkpoint =>
      some { s with
        start := some s.getTailAddress
        acknowledged := fun _ => false
        image := fun _ => none }
  | .checkpointDone => some { s with start := none, image := fun _ => none }
  | .refresh t =>
      match (s.writers t).address with
      | none => some { s with acknowledged := Function.update s.acknowledged t true }
      | some _ => none
  | .copyEntries hashes =>
      if s.start.isSome ∧ ∀ t ≠ 0, s.acknowledged t = true then
        some { s with image := fun h => if hashes h then some (s.entries h) else s.image h }
      else none

def event : StoreStep T H → Option (Event H)
  | .compareExchange t =>
      match s.writers t with
      | .constructed page block hash expected =>
          match (s.pages page).stage block.start with
          | .filled header value =>
              if s.entries hash = some expected then
                some (.write (addressOf page block) block.key header.checkpointVersion.toNat value)
              else none
          | _ => none
      | _ => none
  | .updateInPlace version page block value =>
      some (.overwrite (addressOf page block) version.toNat value)
  | .clear hash => some (.clear hash)
  | _ => none

end LiveStore

/-- The hash of the key is what `GetHash()` finds wherever its bytes are. -/
def Classes.HasHash {H : Type} (C : Classes H) (key : List Byte) (hash : H) : Prop :=
  ∀ m a, readBytes m a key.length = key → C.getHash m a = hash

/-- The header in a block, when it is there. -/
def Stage.header : Stage → Option RecordInfo
  | .reserved => none
  | .keyed header => some header
  | .filled header _ => some header

namespace LiveStore

variable {T H : Type} (C : Classes H) (s : LiveStore T H)

def header (a : Nat) : Option RecordInfo := ((s.pages (pageOf a)).stage (a % kPageSize)).header

/-- What the operations are given fits in a page, and in the place of the value before it, the
pages fit in an address, no record is put in front of one of a later version, no entry is
cleared during a checkpoint, and none is copied before thread id 0 has acknowledged it. -/
def Orderly [Zero T] (s : LiveStore T H) : StoreStep T H → Prop
  | .findOrCreateEntry _ key hash => IsKey C key ∧ C.HasHash key hash
  | .blockAllocate t valueSize =>
      ∀ key hash expected, s.writers t = .found key hash expected →
        Fitting C (s.pages s.page) (.blockAllocate key valueSize)
  | .newPage => s.page + 1 < 2 ^ 23
  | .put t value =>
      ∀ page block hash expected, s.writers t = .constructed page block hash expected →
        Fitting C (s.pages page) (.put block value)
  | .compareExchange t =>
      ∀ page block hash expected, s.writers t = .constructed page block hash expected →
        ∀ header header', s.header expected = some header →
          s.header (addressOf page block) = some header' →
          header.checkpointVersion.toNat ≤ header'.checkpointVersion.toNat
  | .updateInPlace _ page block value =>
      IsValue C value ∧ ∀ header old, (s.pages page).stage block.start = .filled header old →
        value.length = old.length
  | .clear _ => s.start = none
  | .copyEntries _ => s.acknowledged 0 = true
  | _ => True

def limit : Nat := pageStart s.page + min (s.pages s.page).tail kPageSize

def Grants : Writer H → Prop
  | .idle => True
  | .found key hash expected => C.HasHash key hash ∧ expected < s.limit
  | .allocated page block hash expected =>
      block ∈ (s.pages page).blocks ∧ (s.pages page).stage block.start = .reserved ∧
        C.HasHash block.key hash ∧ expected < addressOf page block ∧ addressOf page block < s.limit
  | .constructed page block hash expected =>
      block ∈ (s.pages page).blocks ∧
        (∃ header, s.header (addressOf page block) = some header ∧ previous header = expected ∧
          header.invalid = false) ∧
        C.HasHash block.key hash ∧ expected < addressOf page block ∧ addressOf page block < s.limit

def Boundary (a : Nat) : Prop :=
  kCacheLineBytes ≤ a ∧ a ≤ s.limit ∧ (a % kPageSize = kPageSize - 1 ∨
    8 ∣ a ∧ ∀ b ∈ (s.pages (pageOf a)).blocks, b.stop C ≤ a % kPageSize ∨ a % kPageSize ≤ b.start)

structure Sound : Prop where
  imaged : ∀ p, Imaged C (s.pages p)
  staged : ∀ p a, (s.pages p).stage a ≠ .reserved → ∃ b ∈ (s.pages p).blocks, b.start = a
  ahead : ∀ p, s.page < p → s.pages p = .opened p
  page_lt : s.page < 2 ^ 23
  first : kCacheLineBytes ≤ s.limit
  within : ∀ p, ∀ b ∈ (s.pages p).blocks,
    kCacheLineBytes ≤ addressOf p b ∧ addressOf p b + 8 ≤ s.limit
  hashed : ∀ p, ∀ b ∈ (s.pages p).blocks, ∃ hash, C.HasHash b.key hash
  grants : ∀ t, s.Grants C (s.writers t)
  distinct : ∀ t t' a, (s.writers t).address = some a → (s.writers t').address = some a → t = t'
  entries : ∀ h a, s.entries h = some a → a < s.limit
  start : ∀ a, s.start = some a → s.Boundary C a
  acknowledged : ∀ t a b, s.start = some a → s.acknowledged t = true →
    (s.writers t).address = some b → a ≤ b
  copied : ∀ h, s.image h ≠ none → s.start ≠ none ∧ ∀ t, s.acknowledged t = true

end LiveStore

section Allocation

variable {T H : Type} {C : Classes H} {s : LiveStore T H} {t : T} {w : Writer H} {p a : Nat}
  {b : Block} {m : Memory} {stage : Stage}

theorem Imaged.start_lt {im : PageImage} (h : Imaged C im) (hb : b ∈ im.blocks) :
    b.start + 8 ≤ b.stop C ∧ b.stop C ≤ kPageSize := by
  have hroomy := (h.roomy b hb).1
  have hbounds := hroomy.bounds
  exact ⟨by omega, hroomy.within⟩

theorem Imaged.overwrite {im : PageImage} {header : RecordInfo} {old value : List Byte}
    (h : Imaged C im) (hb : b ∈ im.blocks) (hstage : im.stage b.start = .filled header old)
    (hvalue : IsValue C value) (hlength : value.length = old.length) :
    Imaged C (im.write b (writeBytes im.memory (C.valueAt im.memory b.start) value)
      (.filled header value)) := by
  have hroomy := (h.roomy b hb).1
  obtain ⟨hkey, hend, hat⟩ := hroomy.bounds
  have hcontent := h.content b hb
  rw [hstage] at hcontent
  obtain ⟨hfinal, hheader, hkeyed, -, hle, -, hzero⟩ := hcontent
  rw [(hroomy.valueAt_eq hkeyed).2]
  rw [← hlength] at hle hzero
  have houtside {a e : Nat} (hout : e ≤ b.valueAt C ∨ b.valueAt C + value.length ≤ a) :
      Agree (writeBytes im.memory (b.valueAt C) value) im.memory a e := agree_writeBytes hout
  refine h.write hb (houtside (Or.inl (by omega))) (houtside (Or.inr (by omega))) ?_
  refine ⟨hfinal, ?_, ?_, hvalue, hle, readBytes_writeBytes, ?_⟩
  · rw [(houtside (Or.inl (by omega))).readWord_eq, hheader]
  · rw [(houtside (Or.inl hkey)).readBytes_eq, hkeyed]
  · exact (houtside (Or.inr le_rfl)).trans hzero

theorem pageOf_addressOf (h : b.start < kPageSize) :
    pageOf (addressOf p b) = p ∧ addressOf p b % kPageSize = b.start := by
  refine ⟨pageOf_add h, ?_⟩
  rw [addressOf, pageStart, Nat.mul_comm, Nat.mul_add_mod, Nat.mod_eq_of_lt h]

theorem addressOf_eq_iff (h : b.start < kPageSize) :
    a = addressOf p b ↔ pageOf a = p ∧ a % kPageSize = b.start := by
  constructor
  · rintro rfl
    exact pageOf_addressOf h
  · rintro ⟨hpage, hoffset⟩
    have hdiv := Nat.div_add_mod a kPageSize
    rw [Nat.mul_comm] at hdiv
    rw [addressOf, pageStart, ← hpage, ← hoffset, pageOf, hdiv]

theorem LiveStore.Sound.start_lt (h : s.Sound C) (hb : b ∈ (s.pages p).blocks) :
    b.start < kPageSize := by
  have hlt := (h.imaged p).start_lt hb
  omega

theorem LiveStore.Sound.block_unique (h : s.Sound C) {b' : Block} (hb : b ∈ (s.pages p).blocks)
    (hb' : b' ∈ (s.pages p).blocks) (hstart : b.start = b'.start) : b = b' := by
  by_contra hne
  have hlt := (h.imaged p).start_lt hb
  have hlt' := (h.imaged p).start_lt hb'
  rcases (h.imaged p).apart_of_ne hb hb' hne with hle | hle <;> omega

theorem Classes.HasHash.unique {key : List Byte} {hash hash' : H} (h : C.HasHash key hash)
    (h' : C.HasHash key hash') : hash = hash' := by
  have hread : readBytes (writeBytes (fun _ => 0) 0 key) 0 key.length = key :=
    readBytes_writeBytes
  exact (h _ _ hread).symm.trans (h' _ _ hread)

theorem LiveStore.Sound.header_addressOf (h : s.Sound C) (hb : b ∈ (s.pages p).blocks) :
    s.header (addressOf p b) = ((s.pages p).stage b.start).header := by
  obtain ⟨hpage, hoffset⟩ := pageOf_addressOf (p := p) (h.start_lt hb)
  rw [LiveStore.header, hpage, hoffset]

theorem LiveStore.Sound.exists_block (h : s.Sound C) {header : RecordInfo}
    (ha : s.header a = some header) :
    ∃ b ∈ (s.pages (pageOf a)).blocks, b.start = a % kPageSize ∧ a = addressOf (pageOf a) b := by
  have hstage : (s.pages (pageOf a)).stage (a % kPageSize) ≠ .reserved := by
    intro hreserved
    rw [LiveStore.header, hreserved] at ha
    cases ha
  obtain ⟨b, hb, hstart⟩ := h.staged _ _ hstage
  refine ⟨b, hb, hstart, (addressOf_eq_iff (h.start_lt hb)).mpr ⟨rfl, hstart.symm⟩⟩

theorem LiveStore.Sound.bounds (h : s.Sound C) {header : RecordInfo}
    (ha : s.header a = some header) : kCacheLineBytes ≤ a ∧ a + 8 ≤ s.limit := by
  obtain ⟨b, hb, -, hat⟩ := h.exists_block ha
  rw [hat]
  exact h.within _ b hb

variable [DecidableEq T]

def LiveStore.rewrite (s : LiveStore T H) (t : T) (p : Nat) (b : Block) (m : Memory)
    (stage : Stage) (w : Writer H) : LiveStore T H :=
  (s.setPage p ((s.pages p).write b m stage)).setWriter t w

theorem pages_rewrite (q : Nat) :
    ((s.rewrite t p b m stage w).pages q).blocks = (s.pages q).blocks ∧
      ((s.rewrite t p b m stage w).pages q).tail = (s.pages q).tail := by
  change (Function.update s.pages p ((s.pages p).write b m stage) q).blocks = _ ∧
    (Function.update s.pages p ((s.pages p).write b m stage) q).tail = _
  by_cases hq : q = p
  · subst hq
    rw [Function.update_self]
    exact ⟨rfl, rfl⟩
  · rw [Function.update_of_ne hq]
    exact ⟨rfl, rfl⟩

theorem limit_rewrite : (s.rewrite t p b m stage w).limit = s.limit := by
  rw [LiveStore.limit, LiveStore.limit, (pages_rewrite _).2]
  rfl

theorem header_rewrite (h : b.start < kPageSize) : (s.rewrite t p b m stage w).header a =
    if a = addressOf p b then stage.header else s.header a := by
  rw [LiveStore.header, LiveStore.header]
  change ((Function.update s.pages p ((s.pages p).write b m stage) (pageOf a)).stage
    (a % kPageSize)).header = _
  by_cases hpage : pageOf a = p
  · rw [hpage, Function.update_self]
    change (Function.update (s.pages p).stage b.start stage (a % kPageSize)).header = _
    by_cases hoffset : a % kPageSize = b.start
    · rw [hoffset, Function.update_self, if_pos ((addressOf_eq_iff h).mpr ⟨hpage, hoffset⟩)]
    · rw [Function.update_of_ne hoffset, if_neg fun ha => hoffset ((addressOf_eq_iff h).mp ha).2]
  · rw [Function.update_of_ne hpage, if_neg fun ha => hpage ((addressOf_eq_iff h).mp ha).1]

theorem writers_rewrite_self : (s.rewrite t p b m stage w).writers t = w :=
  Function.update_self ..

theorem writers_rewrite_of_ne {t' : T} (hne : t' ≠ t) :
    (s.rewrite t p b m stage w).writers t' = s.writers t' :=
  Function.update_of_ne hne ..

theorem address_rewrite (hheld : (s.writers t).address = some (addressOf p b))
    (hw : w.address = none ∨ w.address = some (addressOf p b)) {t' : T}
    (ha : ((s.rewrite t p b m stage w).writers t').address = some a) :
    (s.writers t').address = some a := by
  by_cases hne : t' = t
  · subst hne
    rw [writers_rewrite_self] at ha
    rcases hw with hw | hw
    · rw [hw] at ha
      cases ha
    · exact hheld.trans (hw.symm.trans ha)
  · rwa [writers_rewrite_of_ne hne] at ha

def LiveStore.overwrite (s : LiveStore T H) (p : Nat) (b : Block) (m : Memory)
    (header : RecordInfo) (value : List Byte) : LiveStore T H :=
  s.setPage p ((s.pages p).write b m (.filled header value))

namespace LiveStore

theorem Grants.rewrite {w' : Writer H} (h : s.Grants C w') (hb : b.start < kPageSize)
    (hne : w'.address ≠ some (addressOf p b)) : (s.rewrite t p b m stage w).Grants C w' := by
  cases w' with
  | idle => trivial
  | found key hash expected => exact ⟨h.1, by rw [limit_rewrite]; exact h.2⟩
  | allocated q b' hash expected =>
      obtain ⟨hmem, hreserved, hhash, hlt, hin⟩ := h
      refine ⟨by rw [(pages_rewrite q).1]; exact hmem, ?_, hhash, hlt,
        by rw [limit_rewrite]; exact hin⟩
      change (Function.update s.pages p ((s.pages p).write b m stage) q).stage b'.start = _
      by_cases hq : q = p
      · subst hq
        rw [Function.update_self]
        change Function.update (s.pages q).stage b.start stage b'.start = _
        rw [Function.update_of_ne, hreserved]
        intro hstart
        exact hne (congrArg (fun start => some (pageStart q + start)) hstart)
      · rw [Function.update_of_ne hq]
        exact hreserved
  | constructed q b' hash expected =>
      obtain ⟨hmem, hheader, hhash, hlt, hin⟩ := h
      refine ⟨by rw [(pages_rewrite q).1]; exact hmem, ?_, hhash, hlt,
        by rw [limit_rewrite]; exact hin⟩
      rw [header_rewrite hb, if_neg fun heq => hne (congrArg some heq)]
      exact hheader

theorem Sound.rewrite (h : s.Sound C) (hb : b ∈ (s.pages p).blocks)
    (hheld : (s.writers t).address = some (addressOf p b))
    (him : Imaged C ((s.pages p).write b m stage))
    (hw : w.address = none ∨ w.address = some (addressOf p b))
    (hgrants : (s.rewrite t p b m stage w).Grants C w) : (s.rewrite t p b m stage w).Sound C where
  imaged := by
    intro q
    change Imaged C (Function.update s.pages p ((s.pages p).write b m stage) q)
    by_cases hq : q = p
    · subst hq
      rw [Function.update_self]
      exact him
    · rw [Function.update_of_ne hq]
      exact h.imaged q
  staged := by
    intro q a ha
    rw [(pages_rewrite q).1]
    change (Function.update s.pages p ((s.pages p).write b m stage) q).stage a ≠ _ at ha
    by_cases hq : q = p
    · subst hq
      rw [Function.update_self] at ha
      change Function.update (s.pages q).stage b.start stage a ≠ _ at ha
      by_cases hstart : a = b.start
      · exact ⟨b, hb, hstart.symm⟩
      · rw [Function.update_of_ne hstart] at ha
        exact h.staged q a ha
    · rw [Function.update_of_ne hq] at ha
      exact h.staged q a ha
  ahead := by
    intro q hq
    change s.page < q at hq
    have hne : q ≠ p := by
      rintro rfl
      rw [h.ahead q hq] at hb
      cases hb
    exact (Function.update_of_ne hne ..).trans (h.ahead q hq)
  page_lt := h.page_lt
  first := by
    rw [limit_rewrite]
    exact h.first
  within := by
    intro q b' hb'
    rw [(pages_rewrite q).1] at hb'
    rw [limit_rewrite]
    exact h.within q b' hb'
  hashed := by
    intro q b' hb'
    rw [(pages_rewrite q).1] at hb'
    exact h.hashed q b' hb'
  grants := by
    intro t'
    by_cases hne : t' = t
    · subst hne
      rw [writers_rewrite_self]
      exact hgrants
    · rw [writers_rewrite_of_ne hne]
      exact (h.grants t').rewrite (h.start_lt hb) fun haddress =>
        hne (h.distinct t' t _ haddress hheld)
  distinct := fun t₁ t₂ a h₁ h₂ =>
    h.distinct t₁ t₂ a (address_rewrite hheld hw h₁) (address_rewrite hheld hw h₂)
  entries := by
    intro hash a ha
    rw [limit_rewrite]
    exact h.entries hash a ha
  start := by
    intro a ha
    obtain ⟨hfirst, hle, hspec⟩ := h.start a ha
    refine ⟨hfirst, by rw [limit_rewrite]; exact hle, ?_⟩
    rw [(pages_rewrite (pageOf a)).1]
    exact hspec
  acknowledged := fun t' a a' ha hack ha' =>
    h.acknowledged t' a a' ha hack (address_rewrite hheld hw ha')
  copied := h.copied

omit [DecidableEq T] in
theorem Grants.mono {s' : LiveStore T H} {w : Writer H} (h : s.Grants C w)
    (hblocks : ∀ q, ∀ b ∈ (s.pages q).blocks, b ∈ (s'.pages q).blocks)
    (hheader : ∀ a, s'.header a = s.header a)
    (hreserved : ∀ q a, (s.pages q).stage a = .reserved → (s'.pages q).stage a = .reserved)
    (hlimit : s.limit ≤ s'.limit) : s'.Grants C w := by
  cases w with
  | idle => trivial
  | found key hash expected => exact ⟨h.1, Nat.lt_of_lt_of_le h.2 hlimit⟩
  | allocated q b hash expected =>
      obtain ⟨hmem, hstage, hhash, hlt, hin⟩ := h
      exact ⟨hblocks q b hmem, hreserved q _ hstage, hhash, hlt, Nat.lt_of_lt_of_le hin hlimit⟩
  | constructed q b hash expected =>
      obtain ⟨hmem, hrecord, hhash, hlt, hin⟩ := h
      refine ⟨hblocks q b hmem, ?_, hhash, hlt, Nat.lt_of_lt_of_le hin hlimit⟩
      rw [hheader]
      exact hrecord

theorem Sound.setWriter (h : s.Sound C) (hw : w.address = none) (hgrants : s.Grants C w) :
    (s.setWriter t w).Sound C := by
  have haddress (t' : T) (a : Nat) (ha : ((s.setWriter t w).writers t').address = some a) :
      (s.writers t').address = some a := by
    change (Function.update s.writers t w t').address = some a at ha
    by_cases hne : t' = t
    · rw [hne, Function.update_self, hw] at ha
      cases ha
    · rwa [Function.update_of_ne hne] at ha
  refine ⟨h.imaged, h.staged, h.ahead, h.page_lt, h.first, h.within, h.hashed, fun t' => ?_,
    fun t₁ t₂ a h₁ h₂ => h.distinct t₁ t₂ a (haddress t₁ a h₁) (haddress t₂ a h₂), h.entries,
    h.start, fun t' a b ha hack hb => h.acknowledged t' a b ha hack (haddress t' b hb), h.copied⟩
  change s.Grants C (Function.update s.writers t w t')
  by_cases hne : t' = t
  · rw [hne, Function.update_self]
    exact hgrants
  · rw [Function.update_of_ne hne]
    exact h.grants t'

omit [DecidableEq T] in
theorem Sound.setEntry [DecidableEq H] (h : s.Sound C) {hash : H} {entry : Option Nat}
    (hentry : ∀ a, entry = some a → a < s.limit) :
    (s.setEntry hash entry).Sound C where
  imaged := h.imaged
  staged := h.staged
  ahead := h.ahead
  page_lt := h.page_lt
  first := h.first
  within := h.within
  hashed := h.hashed
  grants := h.grants
  distinct := h.distinct
  entries := by
    intro hash' a ha
    change Function.update s.entries hash entry hash' = some a at ha
    by_cases hne : hash' = hash
    · rw [hne, Function.update_self] at ha
      exact hentry a ha
    · rw [Function.update_of_ne hne] at ha
      exact h.entries hash' a ha
  start := h.start
  acknowledged := h.acknowledged
  copied := h.copied

omit [DecidableEq T] in
theorem Boundary.le (h : s.Boundary C a) (hpage : pageOf a = s.page) :
    a % kPageSize ≤ (s.pages s.page).tail := by
  have hle := h.2.1
  have hdiv := Nat.div_add_mod a kPageSize
  rw [limit, pageStart, ← hpage, Nat.mul_comm] at hle
  change kPageSize * pageOf a + _ = _ at hdiv
  rw [hpage] at hle hdiv
  omega

omit [DecidableEq T] in
/-- The tail of the page goes on, with a block before it or over the end of the page. -/
theorem Sound.setTail {im : PageImage} (h : s.Sound C) (blocks : List Block)
    (him : Imaged C im) (hstage : im.stage = (s.pages s.page).stage)
    (htail : (s.pages s.page).tail ≤ im.tail)
    (hblocks : im.blocks = blocks ++ (s.pages s.page).blocks)
    (hnew : ∀ b ∈ blocks, b.start = (s.pages s.page).tail ∧ im.tail ≤ kPageSize ∧
      ∃ hash, C.HasHash b.key hash) :
    (s.setPage s.page im).Sound C ∧ s.limit ≤ (s.setPage s.page im).limit := by
  have hself : (s.setPage s.page im).pages s.page = im := Function.update_self ..
  have hother (q : Nat) (hq : q ≠ s.page) : (s.setPage s.page im).pages q = s.pages q :=
    Function.update_of_ne hq ..
  have heq : (s.setPage s.page im).limit = pageStart s.page + min im.tail kPageSize :=
    congrArg (fun im : PageImage => pageStart s.page + min im.tail kPageSize) hself
  have hlimit : s.limit ≤ (s.setPage s.page im).limit := by
    rw [heq, limit]
    omega
  have hstages (q a : Nat) : ((s.setPage s.page im).pages q).stage a = (s.pages q).stage a := by
    by_cases hq : q = s.page
    · rw [hq, hself, hstage]
    · rw [hother q hq]
  have hheaders (a : Nat) : (s.setPage s.page im).header a = s.header a := by
    rw [LiveStore.header, LiveStore.header, hstages]
  have hreserved (q a : Nat) (ha : (s.pages q).stage a = .reserved) :
      ((s.setPage s.page im).pages q).stage a = .reserved := (hstages q a).trans ha
  have hmem (q : Nat) (b : Block) (hb : b ∈ (s.pages q).blocks) :
      b ∈ ((s.setPage s.page im).pages q).blocks := by
    by_cases hq : q = s.page
    · subst hq
      rw [hself, hblocks]
      exact List.mem_append_right _ hb
    · rwa [hother q hq]
  have hcases (q : Nat) (b : Block) (hb : b ∈ ((s.setPage s.page im).pages q).blocks) :
      b ∈ (s.pages q).blocks ∨ q = s.page ∧ b ∈ blocks := by
    by_cases hq : q = s.page
    · subst hq
      rw [hself, hblocks] at hb
      exact (List.mem_append.mp hb).symm.imp id fun hb => ⟨rfl, hb⟩
    · rw [hother q hq] at hb
      exact Or.inl hb
  refine ⟨⟨fun q => ?_, fun q a ha => ?_, fun q hq => ?_, h.page_lt, Nat.le_trans h.first hlimit,
    fun q b hb => ?_, fun q b hb => ?_,
    fun t => (h.grants t).mono hmem hheaders hreserved hlimit, h.distinct,
    fun hash a ha => Nat.lt_of_lt_of_le (h.entries hash a ha) hlimit, fun a ha => ?_,
    h.acknowledged, h.copied⟩, hlimit⟩
  · by_cases hq : q = s.page
    · rw [hq, hself]
      exact him
    · rw [hother q hq]
      exact h.imaged q
  · rw [hstages] at ha
    obtain ⟨b, hb, hstart⟩ := h.staged q a ha
    exact ⟨b, hmem q b hb, hstart⟩
  · exact (hother q (Nat.ne_of_gt hq)).trans (h.ahead q hq)
  · rcases hcases q b hb with hb | ⟨rfl, hin⟩
    · obtain ⟨hfirst, hle⟩ := h.within q b hb
      exact ⟨hfirst, Nat.le_trans hle hlimit⟩
    · obtain ⟨hstart, hfits, -⟩ := hnew b hin
      rw [hself] at hb
      have hroomy := him.roomy b hb
      have hsize := him.start_lt hb
      have hfirst := h.first
      rw [limit] at hfirst
      rw [heq, addressOf]
      omega
  · rcases hcases q b hb with hb | ⟨rfl, hin⟩
    · exact h.hashed q b hb
    · exact (hnew b hin).2.2
  · have hbound := h.start a ha
    refine ⟨hbound.1, Nat.le_trans hbound.2.1 hlimit, hbound.2.2.imp id fun ⟨haligned, hapart⟩ =>
      ⟨haligned, fun b hb => ?_⟩⟩
    rcases hcases _ b hb with hb | ⟨hpage, hin⟩
    · exact hapart b hb
    · rw [(hnew b hin).1]
      exact Or.inr (hbound.le hpage)

theorem Sound.setAddress (h : s.Sound C) (hw : w.address = some a) (hgrants : s.Grants C w)
    (hfresh : ∀ t', (s.writers t').address ≠ some a) (hstart : ∀ b, s.start = some b → b ≤ a) :
    (s.setWriter t w).Sound C := by
  have haddress (t' : T) (c : Nat) (hc : ((s.setWriter t w).writers t').address = some c) :
      t' = t ∧ c = a ∨ (s.writers t').address = some c := by
    change (Function.update s.writers t w t').address = some c at hc
    by_cases hne : t' = t
    · rw [hne, Function.update_self, hw] at hc
      exact Or.inl ⟨hne, (Option.some.inj hc).symm⟩
    · rw [Function.update_of_ne hne] at hc
      exact Or.inr hc
  refine ⟨h.imaged, h.staged, h.ahead, h.page_lt, h.first, h.within, h.hashed, fun t' => ?_,
    fun t₁ t₂ c h₁ h₂ => ?_, h.entries, h.start, fun t' b c hb hack hc => ?_, h.copied⟩
  · change s.Grants C (Function.update s.writers t w t')
    by_cases hne : t' = t
    · rw [hne, Function.update_self]
      exact hgrants
    · rw [Function.update_of_ne hne]
      exact h.grants t'
  · rcases haddress t₁ c h₁ with ⟨rfl, rfl⟩ | hold₁
    · rcases haddress t₂ c h₂ with ⟨rfl, -⟩ | hold₂
      · rfl
      · exact absurd hold₂ (hfresh t₂)
    · rcases haddress t₂ c h₂ with ⟨rfl, rfl⟩ | hold₂
      · exact absurd hold₁ (hfresh t₁)
      · exact h.distinct t₁ t₂ c hold₁ hold₂
  · rcases haddress t' c hc with ⟨-, rfl⟩ | hc
    · exact hstart b hb
    · exact h.acknowledged t' b c hb hack hc

section Overwriting

omit [DecidableEq T]

variable {header : RecordInfo} {old value : List Byte}

theorem pages_overwrite (q : Nat) :
    ((s.overwrite p b m header value).pages q).blocks = (s.pages q).blocks ∧
      ((s.overwrite p b m header value).pages q).tail = (s.pages q).tail := by
  change (Function.update s.pages p ((s.pages p).write b m (.filled header value)) q).blocks = _ ∧
    (Function.update s.pages p ((s.pages p).write b m (.filled header value)) q).tail = _
  by_cases hq : q = p
  · subst hq
    rw [Function.update_self]
    exact ⟨rfl, rfl⟩
  · rw [Function.update_of_ne hq]
    exact ⟨rfl, rfl⟩

theorem stage_overwrite (q c : Nat) : ((s.overwrite p b m header value).pages q).stage c =
    if q = p ∧ c = b.start then .filled header value else (s.pages q).stage c := by
  change (Function.update s.pages p ((s.pages p).write b m (.filled header value)) q).stage c = _
  by_cases hq : q = p
  · subst hq
    rw [Function.update_self]
    change Function.update (s.pages q).stage b.start (.filled header value) c = _
    by_cases hc : c = b.start
    · rw [hc, Function.update_self, if_pos ⟨rfl, rfl⟩]
    · rw [Function.update_of_ne hc, if_neg fun h => hc h.2]
  · rw [Function.update_of_ne hq, if_neg fun h => hq h.1]

theorem header_overwrite (hfilled : (s.pages p).stage b.start = .filled header old) (c : Nat) :
    (s.overwrite p b m header value).header c = s.header c := by
  rw [LiveStore.header, LiveStore.header, stage_overwrite]
  split
  · rename_i hat
    rw [hat.1, hat.2, hfilled]
    rfl
  · rfl

theorem limit_overwrite : (s.overwrite p b m header value).limit = s.limit := by
  rw [LiveStore.limit, LiveStore.limit, (pages_overwrite _).2]
  rfl

theorem Sound.overwrite (h : s.Sound C) (hb : b ∈ (s.pages p).blocks)
    (hfilled : (s.pages p).stage b.start = .filled header old)
    (him : Imaged C ((s.pages p).write b m (.filled header value))) :
    (s.overwrite p b m header value).Sound C := by
  have hblocks (q : Nat) : ((s.overwrite p b m header value).pages q).blocks =
      (s.pages q).blocks := (pages_overwrite q).1
  have hreserved (q c : Nat) (hc : (s.pages q).stage c = .reserved) :
      ((s.overwrite p b m header value).pages q).stage c = .reserved := by
    rw [stage_overwrite, if_neg, hc]
    rintro ⟨rfl, rfl⟩
    rw [hfilled] at hc
    cases hc
  refine ⟨fun q => ?_, fun q c hc => ?_, fun q hq => ?_, h.page_lt,
    by rw [limit_overwrite]; exact h.first, fun q b' hb' => ?_, fun q b' hb' => ?_, fun t => ?_,
    h.distinct, fun hash c hc => ?_, fun c hc => ?_, h.acknowledged, h.copied⟩
  · change Imaged C (Function.update s.pages p ((s.pages p).write b m (.filled header value)) q)
    by_cases hq : q = p
    · subst hq
      rw [Function.update_self]
      exact him
    · rw [Function.update_of_ne hq]
      exact h.imaged q
  · rw [hblocks]
    exact h.staged q c fun hc' => hc (hreserved q c hc')
  · have hne : q ≠ p := by
      rintro rfl
      rw [h.ahead q hq] at hb
      cases hb
    exact (Function.update_of_ne hne ..).trans (h.ahead q hq)
  · rw [hblocks] at hb'
    rw [limit_overwrite]
    exact h.within q b' hb'
  · rw [hblocks] at hb'
    exact h.hashed q b' hb'
  · exact (h.grants t).mono (fun q b' hb' => by rwa [hblocks]) (header_overwrite hfilled) hreserved
      (Nat.le_of_eq limit_overwrite.symm)
  · rw [limit_overwrite]
    exact h.entries hash c hc
  · obtain ⟨hfirst, hle, hspec⟩ := h.start c hc
    refine ⟨hfirst, by rw [limit_overwrite]; exact hle, ?_⟩
    rw [hblocks]
    exact hspec

end Overwriting

omit [DecidableEq T] in
theorem Sound.address_lt (h : s.Sound C) (ha : (s.writers t).address = some a) :
    a < s.limit := by
  have hgrants := h.grants t
  cases hw : s.writers t <;> rw [hw] at ha hgrants <;> cases ha
  · exact hgrants.2.2.2.2
  · exact hgrants.2.2.2.2

end LiveStore

end Allocation

section Effects

variable {T H : Type} {C : Classes H} {im im' : PageImage} {b : Block} {key value : List Byte}
  {valueSize version : BitVec 32} {previousAddress : BitVec 48}

theorem PageImage.next_blockAllocate (h : im.next C (.blockAllocate key valueSize) = some im') :
    im'.stage = im.stage ∧ im.tail ≤ im'.tail ∧
      (kPageSize < im'.tail ∧ im'.blocks = im.blocks ∨
        im'.tail ≤ kPageSize ∧ im'.blocks = ⟨im.tail, key, valueSize⟩ :: im.blocks) := by
  simp only [PageImage.next] at h
  split at h <;> cases h
  · rename_i hover
    exact ⟨rfl, Nat.le_add_right .., Or.inl ⟨hover, rfl⟩⟩
  · rename_i hfits
    exact ⟨rfl, Nat.le_add_right .., Or.inr ⟨Nat.not_lt.mp hfits, rfl⟩⟩

theorem PageImage.next_construct
    (h : im.next C (.construct b version previousAddress) = some im') :
    b ∈ im.blocks ∧ ∃ m, im' = im.write b m (.keyed (.created version previousAddress)) := by
  simp only [PageImage.next] at h
  split at h <;> cases h
  rename_i hguard
  exact ⟨hguard.1, _, rfl⟩

theorem PageImage.next_put (h : im.next C (.put b value) = some im') : b ∈ im.blocks ∧
    ∃ header m, im.stage b.start = .keyed header ∧ im' = im.write b m (.filled header value) := by
  simp only [PageImage.next] at h
  split at h
  · rename_i header hstage
    split at h <;> cases h
    rename_i hb
    exact ⟨hb, header, _, hstage, rfl⟩
  · cases h

theorem PageImage.next_invalidate (h : im.next C (.invalidate b) = some im') : b ∈ im.blocks ∧
    ∃ header stage m, stage.header = some header ∧ header.invalid = true ∧
      im' = im.write b m stage := by
  simp only [PageImage.next] at h
  split at h
  · rename_i hb
    refine ⟨hb, ?_⟩
    split at h <;> cases h
    · exact ⟨_, _, _, rfl, rfl, rfl⟩
    · exact ⟨_, _, _, rfl, rfl, rfl⟩
  · cases h

variable [DecidableEq T] [DecidableEq H]

inductive LiveStore.Effect (C : Classes H) (s : LiveStore T H) :
    Option (Event H) → LiveStore T H → Prop where
  | find (t : T) (key : List Byte) (hash : H) (hidle : s.writers t = .idle)
      (hhash : C.HasHash key hash) :
      Effect C s none ((s.setEntry hash (some ((s.entries hash).getD kInvalidAddress))).setWriter t
        (.found key hash ((s.entries hash).getD kInvalidAddress)))
  | overrun (im : PageImage) (him : Imaged C im) (hstage : im.stage = (s.pages s.page).stage)
      (htail : (s.pages s.page).tail ≤ im.tail) (hblocks : im.blocks = (s.pages s.page).blocks) :
      Effect C s none (s.setPage s.page im)
  | allocate (t : T) (im : PageImage) (block : Block) (hash : H) (expected : Nat)
      (him : Imaged C im) (hstage : im.stage = (s.pages s.page).stage)
      (htail : (s.pages s.page).tail ≤ im.tail) (hfits : im.tail ≤ kPageSize)
      (hstart : block.start = (s.pages s.page).tail)
      (hblocks : im.blocks = block :: (s.pages s.page).blocks)
      (hfound : s.writers t = .found block.key hash expected) :
      Effect C s none ((s.setPage s.page im).setWriter t (.allocated s.page block hash expected))
  | abandonBlock (t : T) (p : Nat) (b : Block) (hash : H) (expected : Nat)
      (hwriter : s.writers t = .allocated p b hash expected) :
      Effect C s none (s.setWriter t (.found b.key hash expected))
  | newPage (hpage : s.page + 1 < 2 ^ 23) : Effect C s none { s with page := s.page + 1 }
  | rewrite (t : T) (p : Nat) (b : Block) (m : Memory) (stage : Stage) (w : Writer H)
      (header : RecordInfo) (hb : b ∈ (s.pages p).blocks)
      (hheld : (s.writers t).address = some (addressOf p b))
      (him : Imaged C ((s.pages p).write b m stage)) (hstage : stage.header = some header)
      (hw : w.address = some (addressOf p b) ∨ w = .idle ∧ header.invalid = true)
      (hgrants : (s.rewrite t p b m stage w).Grants C w) :
      Effect C s none (s.rewrite t p b m stage w)
  | publish (t : T) (p : Nat) (b : Block) (hash : H) (expected : Nat) (header : RecordInfo)
      (value : List Byte) (hwriter : s.writers t = .constructed p b hash expected)
      (hfilled : (s.pages p).stage b.start = .filled header value)
      (hentry : s.entries hash = some expected)
      (hversions : ∀ header header', s.header expected = some header →
        s.header (addressOf p b) = some header' →
          header.checkpointVersion.toNat ≤ header'.checkpointVersion.toNat) :
      Effect C s (some (.write (addressOf p b) b.key header.checkpointVersion.toNat value))
        ((s.setEntry hash (some (addressOf p b))).setWriter t .idle)
  | overwrite (p : Nat) (b : Block) (m : Memory) (header : RecordInfo) (old value : List Byte)
      (version : BitVec 32) (hb : b ∈ (s.pages p).blocks)
      (hfree : ∀ t, (s.writers t).address ≠ some (addressOf p b))
      (hfilled : (s.pages p).stage b.start = .filled header old)
      (him : Imaged C ((s.pages p).write b m (.filled header value))) :
      Effect C s (some (.overwrite (addressOf p b) version.toNat value))
        (s.overwrite p b m header value)
  | leave (t : T) (haddress : (s.writers t).address = none) : Effect C s none (s.setWriter t .idle)
  | clear (hash : H) (hstart : s.start = none) :
      Effect C s (some (.clear hash)) (s.setEntry hash none)
  | checkpoint : Effect C s none
      { s with
        start := some s.getTailAddress
        acknowledged := fun _ => false
        image := fun _ => none }
  | checkpointDone : Effect C s none { s with start := none, image := fun _ => none }
  | refresh (t : T) (haddress : (s.writers t).address = none) :
      Effect C s none { s with acknowledged := Function.update s.acknowledged t true }
  | copyEntries (hashes : H → Bool) (hstart : s.start ≠ none)
      (hall : ∀ t, s.acknowledged t = true) :
      Effect C s none
        { s with image := fun h => if hashes h then some (s.entries h) else s.image h }

namespace LiveStore

variable {s s' : LiveStore T H} {t : T} {p : Nat} {step : StoreStep T H}

omit [DecidableEq T] [DecidableEq H] in
theorem Sound.limit_le (h : s.Sound C) : s.limit ≤ 2 ^ 48 := by
  have hpage := h.page_lt
  have hsize : kPageSize = 2 ^ 25 := rfl
  rw [limit, pageStart, hsize]
  omega

theorem Effect.of_abandon (h : s.Sound C) (hb : b ∈ (s.pages p).blocks)
    (hheld : (s.writers t).address = some (addressOf p b))
    (hnext : s.abandon C t p b = some s') : Effect C s none s' := by
  obtain ⟨im, him, rfl⟩ := Option.map_eq_some_iff.mp hnext
  have hok : Fitting C (s.pages p) (.invalidate b) := trivial
  have himaged := (h.imaged p).next hok him
  obtain ⟨-, header, stage, m, hheader, hinvalid, rfl⟩ := PageImage.next_invalidate him
  exact .rewrite t p b m stage .idle header hb hheld himaged hheader (Or.inr ⟨rfl, hinvalid⟩)
    trivial

theorem effect_of_next [Fintype T] [Zero T] (h : s.Sound C) (hok : Orderly C s step)
    (hnext : s.next C step = some s') : Effect C s (s.event step) s' := by
  cases step with
  | findOrCreateEntry t key hash =>
      simp only [LiveStore.next] at hnext
      split at hnext <;> cases hnext
      rename_i hidle
      exact .find t key hash hidle hok.2
  | blockAllocate t valueSize =>
      simp only [LiveStore.next] at hnext
      split at hnext
      · rename_i key hash expected hfound
        obtain ⟨im, him, rfl⟩ := Option.map_eq_some_iff.mp hnext
        have himaged := (h.imaged s.page).next (hok key hash expected hfound) him
        obtain ⟨hstage, htail, hcases⟩ := PageImage.next_blockAllocate him
        rcases hcases with ⟨hover, hblocks⟩ | ⟨hfits, hblocks⟩
        · rw [if_pos hover]
          exact .overrun im himaged hstage htail hblocks
        · rw [if_neg (Nat.not_lt.mpr hfits)]
          exact .allocate t im ⟨_, key, valueSize⟩ hash expected himaged hstage htail hfits rfl
            hblocks hfound
      · cases hnext
  | abandonBlock t =>
      simp only [LiveStore.next] at hnext
      split at hnext <;> cases hnext
      rename_i p b hash expected hwriter
      exact .abandonBlock t p b hash expected hwriter
  | newPage =>
      simp only [LiveStore.next] at hnext
      split at hnext <;> cases hnext
      exact .newPage hok
  | construct t version =>
      simp only [LiveStore.next] at hnext
      split at hnext
      · rename_i p b hash expected hwriter
        have hgrants := h.grants t
        have hlimit := h.limit_le
        rw [hwriter] at hgrants
        obtain ⟨hb, -, hhash, hlt, hin⟩ := hgrants
        obtain ⟨im, him, rfl⟩ := Option.map_eq_some_iff.mp hnext
        have hfitting : Fitting C (s.pages p)
            (.construct b version (BitVec.ofNat 48 expected)) := trivial
        have himaged := (h.imaged p).next hfitting him
        obtain ⟨-, m, rfl⟩ := PageImage.next_construct him
        have hheld : (s.writers t).address = some (addressOf p b) := by
          rw [hwriter]
          rfl
        refine .rewrite t p b m _ _ _ hb hheld himaged rfl (Or.inl rfl)
          ⟨by rw [(pages_rewrite p).1]; exact hb,
            ⟨.created version (BitVec.ofNat 48 expected), ?_, ?_, rfl⟩, hhash, hlt,
            by rw [limit_rewrite]; exact hin⟩
        · rw [header_rewrite (h.start_lt hb), if_pos rfl]
          rfl
        · change (BitVec.ofNat 48 expected).toNat = expected
          rw [BitVec.toNat_ofNat, Nat.mod_eq_of_lt (by omega)]
      · cases hnext
  | put t value =>
      simp only [LiveStore.next] at hnext
      split at hnext
      · rename_i p b hash expected hwriter
        have hgrants := h.grants t
        rw [hwriter] at hgrants
        obtain ⟨hb, ⟨header, hheader, hprevious, hvalid⟩, hhash, hlt, hin⟩ := hgrants
        obtain ⟨im, him, rfl⟩ := Option.map_eq_some_iff.mp hnext
        have himaged := (h.imaged p).next (hok p b hash expected hwriter) him
        obtain ⟨-, header', m, hstage, rfl⟩ := PageImage.next_put him
        have hheld : (s.writers t).address = some (addressOf p b) := by
          rw [hwriter]
          rfl
        rw [h.header_addressOf hb, hstage] at hheader
        cases hheader
        refine .rewrite t p b m _ _ _ hb hheld himaged rfl (Or.inl rfl)
          ⟨by rw [(pages_rewrite p).1]; exact hb, ⟨header, ?_, hprevious, hvalid⟩, hhash, hlt,
            by rw [limit_rewrite]; exact hin⟩
        rw [header_rewrite (h.start_lt hb), if_pos rfl]
        rfl
      · cases hnext
  | compareExchange t =>
      simp only [LiveStore.next] at hnext
      split at hnext
      · rename_i p b hash expected hwriter
        split at hnext
        · rename_i header value hfilled
          by_cases hentry : s.entries hash = some expected
          · rw [if_pos hentry] at hnext
            cases hnext
            simp only [event, hwriter, hfilled, if_pos hentry]
            exact .publish t p b hash expected header value hwriter hfilled hentry
              (hok p b hash expected hwriter)
          · rw [if_neg hentry] at hnext
            have hgrants := h.grants t
            rw [hwriter] at hgrants
            simp only [event, hwriter, hfilled, if_neg hentry]
            exact .of_abandon h hgrants.1 (by rw [hwriter]; rfl) hnext
        · cases hnext
      · cases hnext
  | giveUp t =>
      simp only [LiveStore.next] at hnext
      split at hnext
      · rename_i hwriter
        cases hnext
        exact .leave t (by rw [hwriter]; rfl)
      · rename_i p b hash expected hwriter
        have hgrants := h.grants t
        rw [hwriter] at hgrants
        exact .of_abandon h hgrants.1 (by rw [hwriter]; rfl) hnext
      · cases hnext
  | updateInPlace version p b value =>
      simp only [LiveStore.next] at hnext
      split at hnext
      · rename_i header old hfilled
        split at hnext <;> cases hnext
        rename_i hguard
        exact .overwrite p b _ header old value version hguard.1 hguard.2 hfilled
          ((h.imaged p).overwrite hguard.1 hfilled hok.1 (hok.2 header old hfilled))
      · cases hnext
  | clear hash =>
      cases hnext
      exact .clear hash hok
  | checkpoint =>
      cases hnext
      exact .checkpoint
  | checkpointDone =>
      cases hnext
      exact .checkpointDone
  | refresh t =>
      simp only [LiveStore.next] at hnext
      split at hnext <;> cases hnext
      rename_i haddress
      exact .refresh t haddress
  | copyEntries hashes =>
      simp only [LiveStore.next] at hnext
      split at hnext <;> cases hnext
      rename_i hguard
      refine .copyEntries hashes (Option.isSome_iff_ne_none.mp hguard.1) fun t => ?_
      by_cases ht : t = 0
      · rw [ht]
        exact hok
      · exact hguard.2 t ht

omit [DecidableEq T] [DecidableEq H] in
theorem Sound.newPage (h : s.Sound C) (hpage : s.page + 1 < 2 ^ 23) :
    { s with page := s.page + 1 }.Sound C := by
  have hopened := h.ahead (s.page + 1) (Nat.lt_succ_self _)
  have heq : LiveStore.limit { s with page := s.page + 1 } = pageStart s.page + kPageSize := by
    change pageStart (s.page + 1) + min (s.pages (s.page + 1)).tail kPageSize = _
    rw [hopened, PageImage.opened, if_neg (Nat.succ_ne_zero _), pageStart_succ, Nat.zero_min,
      Nat.add_zero]
  have hlimit : s.limit ≤ LiveStore.limit { s with page := s.page + 1 } := by
    rw [heq, limit]
    omega
  exact ⟨h.imaged, h.staged, fun p hp => h.ahead p (Nat.lt_of_succ_lt hp), hpage,
    Nat.le_trans h.first hlimit,
    fun p b hb => ⟨(h.within p b hb).1, Nat.le_trans (h.within p b hb).2 hlimit⟩, h.hashed,
    fun t => (h.grants t).mono (fun _ _ => id) (fun _ => rfl) (fun _ _ => id) hlimit, h.distinct,
    fun hash a ha => Nat.lt_of_lt_of_le (h.entries hash a ha) hlimit,
    fun a ha => ⟨(h.start a ha).1, Nat.le_trans (h.start a ha).2.1 hlimit, (h.start a ha).2.2⟩,
    h.acknowledged, h.copied⟩

omit [DecidableEq T] [DecidableEq H] in
/-- `GetTailAddress` gives an address that no block lies across, above all blocks. -/
theorem Sound.boundary (h : s.Sound C) : s.Boundary C s.getTailAddress ∧
    ∀ p, ∀ b ∈ (s.pages p).blocks, addressOf p b < s.getTailAddress := by
  have hsize : kPageSize = 2 ^ 25 := rfl
  have htail := (h.imaged s.page).tail
  have hoffset : s.getTailAddress % kPageSize = min (s.pages s.page).tail (kPageSize - 1) := by
    rw [getTailAddress, pageStart, Nat.mul_comm, Nat.mul_add_mod, Nat.mod_eq_of_lt (by omega)]
  have hpage : pageOf s.getTailAddress = s.page := pageOf_add (by omega)
  refine ⟨⟨?_, ?_, ?_⟩, fun p b hb => ?_⟩
  · have hfirst := h.first
    have hcache : kCacheLineBytes = 64 := rfl
    rw [limit] at hfirst
    rw [getTailAddress]
    omega
  · rw [getTailAddress, limit]
    omega
  · rw [hoffset, hpage]
    by_cases hfull : kPageSize ≤ (s.pages s.page).tail
    · exact Or.inl (by omega)
    · refine Or.inr ⟨?_, fun b hb => Or.inl ?_⟩
      · have hdvd : 8 ∣ kPageSize := by decide
        rw [getTailAddress, pageStart, Nat.min_eq_left (by omega)]
        exact Nat.dvd_add (hdvd.mul_left _) htail
      · have hstop := ((h.imaged s.page).roomy b hb).2
        omega
  · have hle := (h.within p b hb).2
    rw [limit] at hle
    rw [getTailAddress]
    omega

omit [DecidableEq T] [DecidableEq H] in
theorem sound_initial : (initial : LiveStore T H).Sound C where
  imaged := imaged_opened
  staged := fun _ _ h => absurd rfl h
  ahead := fun _ _ => rfl
  page_lt := Nat.two_pow_pos 23
  first := by
    change kCacheLineBytes ≤ 0 * kPageSize + min kCacheLineBytes kPageSize
    decide
  within := nofun
  hashed := nofun
  grants := fun _ => trivial
  distinct := nofun
  entries := nofun
  start := nofun
  acknowledged := nofun
  copied := fun _ h => absurd rfl h

theorem Sound.effect {event : Option (Event H)} (h : s.Sound C)
    (heffect : Effect C s event s') : s'.Sound C := by
  have hinvalid : kInvalidAddress < s.limit := Nat.lt_of_lt_of_le (by decide) h.first
  cases heffect with
  | find t key hash hidle hhash =>
      have hentry : (s.entries hash).getD kInvalidAddress < s.limit := by
        cases hentry : s.entries hash with
        | none => exact hinvalid
        | some a => exact h.entries hash a hentry
      exact (h.setEntry fun a ha => Option.some.inj ha ▸ hentry).setWriter rfl ⟨hhash, hentry⟩
  | overrun im him hstage htail hblocks =>
      exact (h.setTail [] him hstage htail hblocks nofun).1
  | allocate t im block hash expected him hstage htail hfits hstart hblocks hfound =>
      have hgrants := h.grants t
      rw [hfound] at hgrants
      have hkey : C.HasHash block.key hash := hgrants.1
      obtain ⟨hsound, hlimit⟩ := h.setTail [block] him hstage htail hblocks
        (List.forall_mem_singleton.mpr ⟨hstart, hfits, hash, hkey⟩)
      have hself : (s.setPage s.page im).pages s.page = im := Function.update_self ..
      have hmem : block ∈ ((s.setPage s.page im).pages s.page).blocks := by
        rw [hself, hblocks]
        exact List.mem_cons_self
      have hat : addressOf s.page block = s.limit := by
        rw [addressOf, limit, hstart]
        omega
      have hreserved : ((s.setPage s.page im).pages s.page).stage block.start = .reserved := by
        rw [hself, hstage, hstart]
        exact (h.imaged s.page).ahead _ le_rfl
      have hin := (hsound.within s.page block hmem).2
      refine hsound.setAddress rfl ⟨hmem, hreserved, hgrants.1, ?_, by omega⟩ (fun t' ht' => ?_)
        fun a ha => ?_
      · rw [hat]
        exact hgrants.2
      · have hlt := h.address_lt (t := t') ht'
        omega
      · rw [hat]
        exact (h.start a ha).2.1
  | abandonBlock t p b hash expected hwriter =>
      have hgrants := h.grants t
      rw [hwriter] at hgrants
      obtain ⟨-, -, hhash, hlt, hin⟩ := hgrants
      exact h.setWriter rfl ⟨hhash, Nat.lt_trans hlt hin⟩
  | newPage hpage => exact h.newPage hpage
  | rewrite t p b m stage w header hb hheld him hstage hw hgrants =>
      refine h.rewrite hb hheld him ?_ hgrants
      rcases hw with hw | ⟨rfl, -⟩
      · exact Or.inr hw
      · exact Or.inl rfl
  | publish t p b hash expected header value hwriter hfilled hentry hversions =>
      have hgrants := h.grants t
      rw [hwriter] at hgrants
      exact (h.setEntry fun a ha => Option.some.inj ha ▸ hgrants.2.2.2.2).setWriter rfl trivial
  | overwrite p b m header old value version hb hfree hfilled him =>
      exact h.overwrite hb hfilled him
  | leave t haddress => exact h.setWriter rfl trivial
  | clear hash hstart => exact h.setEntry nofun
  | checkpoint =>
      obtain ⟨hboundary, -⟩ := h.boundary
      refine ⟨h.imaged, h.staged, h.ahead, h.page_lt, h.first, h.within, h.hashed, h.grants,
        h.distinct, h.entries, fun a ha => ?_, fun _ _ _ _ hack => ?_,
        fun _ hnone => absurd rfl hnone⟩
      · cases ha
        exact hboundary
      · cases hack
  | checkpointDone =>
      exact ⟨h.imaged, h.staged, h.ahead, h.page_lt, h.first, h.within, h.hashed, h.grants,
        h.distinct, h.entries, nofun, nofun, fun _ hnone => absurd rfl hnone⟩
  | refresh t haddress =>
      refine ⟨h.imaged, h.staged, h.ahead, h.page_lt, h.first, h.within, h.hashed, h.grants,
        h.distinct, h.entries, h.start, fun t' a c ha hack hc => ?_, fun hash hcopied => ?_⟩
      · change Function.update s.acknowledged t true t' = true at hack
        change (s.writers t').address = some c at hc
        have hne : t' ≠ t := by
          rintro rfl
          rw [haddress] at hc
          cases hc
        rw [Function.update_of_ne hne] at hack
        exact h.acknowledged t' a c ha hack hc
      · obtain ⟨hstart, hall⟩ := h.copied hash hcopied
        refine ⟨hstart, fun t' => ?_⟩
        change Function.update s.acknowledged t true t' = true
        by_cases hne : t' = t
        · rw [hne, Function.update_self]
        · rw [Function.update_of_ne hne]
          exact hall t'
  | copyEntries hashes hstart hall =>
      exact ⟨h.imaged, h.staged, h.ahead, h.page_lt, h.first, h.within, h.hashed, h.grants,
        h.distinct, h.entries, h.start, h.acknowledged, fun _ _ => ⟨hstart, hall⟩⟩

end LiveStore

end Effects

end HashComp.Recovery
