import HashComp.Recovery.IndexImages

namespace HashComp.Recovery

open HashComp.ByteMemory
open HashComp.Faster (kInvalidAddress kPageSize)
open HashComp.Hlog
open HashComp.RecordChain
open HashComp.Records
open HashComp.Runs

section Reading

variable {H : Type} (C : Classes H) (log : Nat → Memory) (key : List Byte)

/-- `key == record->key()` -/
def keyIn (a : Nat) : Bool :=
  decide (readBytes (log (pageOf a)) (C.keyAt (a % kPageSize)) key.length = key)

def valueIn (a : Nat) : List Byte :=
  let m := log (pageOf a)
  let valueAt := C.valueAt m (a % kPageSize)
  readBytes m valueAt (C.valueSize m valueAt).toNat

def traceBackForKeyMatch (minOffset : Nat) : Nat → Nat → Nat
  | 0, fromAddress => fromAddress
  | n + 1, fromAddress =>
      if minOffset ≤ fromAddress then
        if keyIn C log key fromAddress then fromAddress
        else traceBackForKeyMatch minOffset n
          (previous (headerAt (log (pageOf fromAddress)) (fromAddress % kPageSize)))
      else fromAddress

/-- `InternalRead` looks through the records in memory, from the head on, and
`AsyncGetFromDiskCallback` through those on disk. -/
def read (entries : H → Option Nat) (headAddress : Nat) (hash : H) : Option (List Byte) :=
  match entries hash with
  | none => none
  | some address =>
      let inMemory := traceBackForKeyMatch C log key headAddress (address + 1) address
      let found :=
        if headAddress ≤ inMemory then inMemory
        else traceBackForKeyMatch C log key kCacheLineBytes (inMemory + 1) inMemory
      if kCacheLineBytes ≤ found then some (valueIn C log found) else none

variable {C} {log} {key} {first a n : Nat} {l : List Nat}

theorem headerAt_of_headerIn {header : RecordInfo} (h : headerIn log a = some header) :
    headerAt (log (pageOf a)) (a % kPageSize) = header := by
  rw [headerIn] at h
  split at h <;> cases h
  rfl

/-- A search stops at a record of the key or below the bound, and passes no record of the
key on the way. -/
theorem traceBackForKeyMatch_spec (key : List Byte) (minOffset : Nat)
    (h : Chain previous (headerIn log) first a l) (hfirst : first ≤ minOffset) (hn : a < n) :
    ∃ l', Chain previous (headerIn log) first (traceBackForKeyMatch C log key minOffset n a) l' ∧
      l'.find? (keyIn C log key) = l.find? (keyIn C log key) ∧
      (traceBackForKeyMatch C log key minOffset n a < minOffset ∨
        keyIn C log key (traceBackForKeyMatch C log key minOffset n a) = true) := by
  induction n generalizing a l with
  | zero => exact absurd hn (Nat.not_lt_zero a)
  | succ n ih =>
      rw [traceBackForKeyMatch]
      by_cases hle : minOffset ≤ a
      · rw [if_pos hle]
        by_cases hkey : keyIn C log key a = true
        · rw [if_pos hkey]
          exact ⟨l, h, rfl, Or.inr hkey⟩
        · rw [if_neg hkey]
          obtain ⟨l', header, rfl, hheader, hlt, htail⟩ := h.eq_cons (Nat.le_trans hfirst hle)
          rw [headerAt_of_headerIn hheader, List.find?_cons_of_neg hkey]
          exact ih htail (by omega)
      · rw [if_neg hle]
        exact ⟨l, h, rfl, Or.inl (Nat.not_le.mp hle)⟩

theorem find_of_keyIn (h : Chain previous (headerIn log) first a l) (hle : first ≤ a)
    (hkey : keyIn C log key a = true) : l.find? (keyIn C log key) = some a := by
  obtain ⟨l', header, rfl, -⟩ := h.eq_cons hle
  exact List.find?_cons_of_pos hkey

theorem read_eq {entries : H → Option Nat} {headAddress : Nat} {hash : H}
    (h : Leads (headerIn log) (entries hash) l) (hhead : kCacheLineBytes ≤ headAddress) :
    read C log key entries headAddress hash =
      (l.find? (keyIn C log key)).map (valueIn C log) := by
  rw [read]
  cases hentry : entries hash with
  | none =>
      rw [hentry] at h
      rw [show l = [] from h]
      rfl
  | some address =>
      rw [hentry] at h
      obtain ⟨l', hchain, hfind, hstop⟩ := traceBackForKeyMatch_spec (C := C) key headAddress h
        hhead (Nat.lt_succ_self address)
      rw [← hfind]
      dsimp only
      split
      · rename_i hle
        have hkey := hstop.resolve_left (Nat.not_lt.mpr hle)
        have hcache := Nat.le_trans hhead hle
        rw [if_pos hcache, find_of_keyIn hchain hcache hkey]
        rfl
      · obtain ⟨l'', hchain', hfind', hstop'⟩ := traceBackForKeyMatch_spec (C := C) key
          kCacheLineBytes hchain le_rfl (Nat.lt_succ_self _)
        rw [← hfind']
        split
        · rename_i hcache
          rw [find_of_keyIn hchain' hcache (hstop'.resolve_left (Nat.not_lt.mpr hcache))]
          rfl
        · rename_i hcache
          rw [hchain'.eq_nil (Nat.not_le.mp hcache)]
          rfl

end Reading

section Writing

variable {T H : Type}

def upTo (versions : Nat → Bool) (version : Nat) : Nat → Bool :=
  fun version' => versions version' && decide (version' ≤ version)

/-- The address of the last record of a key that one of the versions has written, and the value
that it was written with. -/
def lastWrite [DecidableEq H] (key : List Byte) (hash : H) (versions : Nat → Bool) :
    List (Event H) → Option (Nat × List Byte)
  | [] => none
  | .write address key' version value :: events =>
      if key' = key ∧ versions version = true then some (address, value)
      else lastWrite key hash versions events
  | .overwrite .. :: events => lastWrite key hash versions events
  | .clear hash' :: events => if hash' = hash then none else lastWrite key hash versions events
  | .recovered version :: events => lastWrite key hash (upTo versions version) events

def overwritten (versions : Nat → Bool) (address : Nat) : List (Event H) → Option (List Byte)
  | [] => none
  | .write address' _ _ _ :: events =>
      if address' = address then none else overwritten versions address events
  | .overwrite address' version value :: events =>
      if address' = address ∧ versions version = true then some value
      else overwritten versions address events
  | .clear _ :: events => overwritten versions address events
  | .recovered version :: events => overwritten (upTo versions version) address events

/-- The last value that versions up to this one have given to a key. -/
def latest [DecidableEq H] (key : List Byte) (hash : H) (version : Nat) (events : List (Event H)) :
    Option (List Byte) :=
  let versions := upTo (fun _ => true) version
  (lastWrite key hash versions events).map fun write =>
    (overwritten versions write.1 events).getD write.2

theorem upTo_comm (versions : Nat → Bool) (version version' : Nat) :
    upTo (upTo versions version) version' = upTo (upTo versions version') version :=
  funext fun _ => Bool.and_right_comm ..

theorem overwritten_congr {versions versions' : Nat → Bool} {a : Nat} {events : List (Event H)}
    (h : ∀ version value, .overwrite a version value ∈ events →
      versions version = versions' version) :
    overwritten versions a events = overwritten versions' a events := by
  induction events generalizing versions versions' with
  | nil => rfl
  | cons event events ih =>
      have htail (version : Nat) (value : List Byte) (hmem : .overwrite a version value ∈ events) :
          versions version = versions' version := h version value (List.mem_cons_of_mem _ hmem)
      cases event with
      | write address key version value => rw [overwritten, overwritten, ih htail]
      | overwrite address version value =>
          rw [overwritten, overwritten, ih htail]
          by_cases heq : address = a
          · rw [h version value (by rw [heq]; exact List.mem_cons_self)]
          · rw [if_neg fun hand => heq hand.1, if_neg fun hand => heq hand.1]
      | clear hash => exact ih htail
      | recovered version =>
          refine ih fun version' value hmem => ?_
          rw [upTo, upTo, htail version' value hmem]

namespace LiveStore

def record [DecidableEq T] [DecidableEq H] [Fintype T] [Zero T] (C : Classes H)
    (x : LiveStore T H × List (Event H)) (step : StoreStep T H) :
    Option (LiveStore T H × List (Event H)) :=
  (x.1.next C step).map fun s => (s, (x.1.event step).toList ++ x.2)

variable (C : Classes H) (s : LiveStore T H)

def Holds (a : Nat) (key : List Byte) (header : RecordInfo) (value : List Byte) : Prop :=
  ∃ b ∈ (s.pages (pageOf a)).blocks, b.start = a % kPageSize ∧ b.key = key ∧
    (s.pages (pageOf a)).stage b.start = .filled header value

def Event.Apart (hash : H) : Event H → Prop
  | .write _ key _ _ => ∃ hash', C.HasHash key hash' ∧ hash ≠ hash'
  | .overwrite .. => True
  | .clear hash' => hash ≠ hash'
  | .recovered _ => False

/-- A record that was written with a value, and has now the last one put in its place. -/
def Keeps (events : List (Event H)) (a : Nat) (key : List Byte) (header : RecordInfo)
    (value : List Byte) : Prop :=
  s.Holds a key header ((overwritten (fun _ => true) a events).getD value)

/-- The records of a hash, by the events that have made them, the latest of all the events.
Only those of some versions are still there. -/
inductive Traced (all : List (Event H)) (hash : H) :
    (Nat → Bool) → List Nat → List (Event H) → Prop where
  | nil {versions : Nat → Bool} : Traced all hash versions [] []
  | write {versions : Nat → Bool} {a : Nat} {key value : List Byte} {header : RecordInfo}
      {l : List Nat} {events : List (Event H)}
      (hversion : versions header.checkpointVersion.toNat = true)
      (ha : s.Keeps all a key header value) (hhash : C.HasHash key hash)
      (h : Traced all hash versions l events) :
      Traced all hash versions (a :: l)
        (.write a key header.checkpointVersion.toNat value :: events)
  | later {versions : Nat → Bool} {a version : Nat} {key value : List Byte} {l : List Nat}
      {events : List (Event H)} (hversion : versions version = false)
      (h : Traced all hash versions l events) :
      Traced all hash versions l (.write a key version value :: events)
  | other {versions : Nat → Bool} {event : Event H} {l : List Nat} {events : List (Event H)}
      (hother : Event.Apart C hash event) (h : Traced all hash versions l events) :
      Traced all hash versions l (event :: events)
  | clear {versions : Nat → Bool} {events : List (Event H)} :
      Traced all hash versions [] (.clear hash :: events)
  | recovered {versions : Nat → Bool} {version : Nat} {l : List Nat} {events : List (Event H)}
      (h : Traced all hash (upTo versions version) l events) :
      Traced all hash versions l (.recovered version :: events)

variable {C} {s} {s' : LiveStore T H} {hash : H} {a : Nat} {l : List Nat}
  {events : List (Event H)} {key value : List Byte} {header : RecordInfo}

theorem Holds.header_eq (h : s.Holds a key header value) : s.header a = some header := by
  obtain ⟨b, -, hstart, -, hstage⟩ := h
  rw [LiveStore.header, ← hstart, hstage]
  rfl

theorem Traced.mono {all all' : List (Event H)} {versions : Nat → Bool}
    (h : s.Traced C all hash versions l events)
    (hkeeps : ∀ a ∈ l, ∀ key header value, s.Keeps all a key header value →
      s'.Keeps all' a key header value) : s'.Traced C all' hash versions l events := by
  induction h with
  | nil => exact .nil
  | write hversion ha hhash h ih =>
      exact .write hversion (hkeeps _ List.mem_cons_self _ _ _ ha) hhash
        (ih fun b hb => hkeeps b (List.mem_cons_of_mem _ hb))
  | later hversion h ih => exact .later hversion (ih hkeeps)
  | other hother h ih => exact .other hother (ih hkeeps)
  | clear => exact .clear
  | recovered h ih => exact .recovered (ih hkeeps)

theorem Traced.exists_keeps {all : List (Event H)} {versions : Nat → Bool}
    (h : s.Traced C all hash versions l events) (ha : a ∈ l) :
    ∃ key header value, s.Keeps all a key header value := by
  induction h with
  | nil => cases ha
  | write hversion hkeeps hhash h ih =>
      rcases List.mem_cons.mp ha with rfl | ha
      · exact ⟨_, _, _, hkeeps⟩
      · exact ih ha
  | later hversion h ih => exact ih ha
  | other hother h ih => exact ih ha
  | clear => cases ha
  | recovered h ih => exact ih ha

theorem Holds.congr (h : s.Holds a key header value)
    (hblocks : ∀ b ∈ (s.pages (pageOf a)).blocks, b ∈ (s'.pages (pageOf a)).blocks)
    (hstage : (s'.pages (pageOf a)).stage (a % kPageSize) =
      (s.pages (pageOf a)).stage (a % kPageSize)) : s'.Holds a key header value := by
  obtain ⟨b, hb, hstart, hkey, hfilled⟩ := h
  rw [hstart] at hfilled
  exact ⟨b, hblocks b hb, hstart, hkey, by rw [hstart, hstage, hfilled]⟩

variable [DecidableEq T] [DecidableEq H] {event : Option (Event H)}

theorem Keeps.effect (h : s.Keeps events a key header value) (ha : s.Settled C hash a)
    (hs : s.Sound C) (heffect : Effect C s event s') :
    s'.Keeps (event.toList ++ events) a key header value := by
  have hpage (im : PageImage) (hstage : im.stage = (s.pages s.page).stage)
      (hblocks : ∀ b ∈ (s.pages s.page).blocks, b ∈ im.blocks) :
      (s.setPage s.page im).Keeps events a key header value := by
    by_cases heq : pageOf a = s.page
    · have hself : (s.setPage s.page im).pages (pageOf a) = im := by
        rw [heq]
        exact Function.update_self ..
      refine Holds.congr h (fun b hb => ?_) ?_
      · rw [hself]
        rw [heq] at hb
        exact hblocks b hb
      · rw [hself, hstage, heq]
    · have hother : (s.setPage s.page im).pages (pageOf a) = s.pages (pageOf a) :=
        Function.update_of_ne heq ..
      refine Holds.congr h (fun b hb => ?_) ?_
      · rwa [hother]
      · rw [hother]
  cases heffect with
  | find t key' hash' hidle hhash => exact h
  | overrun im him hstage htail hblocks => exact hpage im hstage fun b hb => by rwa [hblocks]
  | allocate t im block hash' expected him hstage htail hfits hstart hblocks hfound =>
      refine hpage im hstage fun b hb => ?_
      rw [hblocks]
      exact List.mem_cons_of_mem _ hb
  | abandonBlock t p b hash' expected hwriter => exact h
  | newPage hpage => exact h
  | rewrite t p b m stage w header' hb hheld him hstage hw hgrants =>
      refine Holds.congr h (fun b' hb' => by rwa [(pages_rewrite _).1]) ?_
      change (Function.update s.pages p ((s.pages p).write b m stage) (pageOf a)).stage _ = _
      by_cases heq : pageOf a = p
      · rw [heq, Function.update_self]
        change Function.update (s.pages p).stage b.start stage (a % kPageSize) = _
        refine Function.update_of_ne (fun hoffset => ?_) ..
        have hat := (addressOf_eq_iff (hs.start_lt hb)).mpr ⟨heq, hoffset⟩
        rw [← hat] at hheld
        exact ha.free t hheld
      · rw [Function.update_of_ne heq]
  | publish t p b hash' expected header' value' hwriter hfilled hentry hversions =>
      have hne : addressOf p b ≠ a := by
        rintro rfl
        refine ha.free t ?_
        rw [hwriter]
        rfl
      change s.Holds a key header
        ((overwritten _ a (.write (addressOf p b) _ _ _ :: events)).getD _)
      rw [overwritten, if_neg hne]
      exact h
  | overwrite p b m header' old value' version hb hfree hfilled him =>
      have hlt := hs.start_lt hb
      change (s.overwrite p b m header' value').Holds a key header
        ((overwritten _ a (.overwrite (addressOf p b) _ value' :: events)).getD value)
      rw [overwritten]
      by_cases heq : addressOf p b = a
      · rw [if_pos ⟨heq, rfl⟩, Option.getD_some]
        obtain ⟨b', hb', hstart, hkey, hstage⟩ := h
        obtain ⟨hpage, hoffset⟩ := (addressOf_eq_iff hlt).mp heq.symm
        rw [hstart, hpage, hoffset, hfilled] at hstage
        cases hstage
        refine ⟨b', by rw [(pages_overwrite _).1]; exact hb', hstart, hkey, ?_⟩
        rw [stage_overwrite, if_pos ⟨hpage, hstart.trans hoffset⟩]
      · rw [if_neg fun hand => heq hand.1]
        refine Holds.congr h (fun b' hb' => by rwa [(pages_overwrite _).1]) ?_
        rw [stage_overwrite, if_neg fun hand => heq ((addressOf_eq_iff hlt).mpr hand).symm]
  | leave t haddress => exact h
  | clear hash' hstart => exact h
  | checkpoint => exact h
  | checkpointDone => exact h
  | refresh t haddress => exact h
  | copyEntries hashes hstart hall => exact h

def Recorded (C : Classes H) (s : LiveStore T H) (events : List (Event H)) : Prop :=
  ∀ hash, ∃ l, s.Line C hash l ∧ s.Traced C events hash (fun _ => true) l events

theorem Recorded.effect (h : Recorded C s events) (hs : s.Sound C) (hlined : s'.Lined C)
    (heffect : Effect C s event s') : Recorded C s' (event.toList ++ events) := by
  intro hash
  obtain ⟨l, hl, htraced⟩ := h hash
  have htraced' : s'.Traced C (event.toList ++ events) hash (fun _ => true) l events :=
    htraced.mono fun a ha _ _ _ hkeeps => hkeeps.effect (hl.settled a ha) hs heffect
  have hheader (a : Nat) (ha : a ∈ l) : s'.header a = s.header a := by
    obtain ⟨_, _, _, hkeeps⟩ := htraced.exists_keeps ha
    rw [Holds.header_eq hkeeps, Holds.header_eq (hkeeps.effect (hl.settled a ha) hs heffect)]
  have hfound {l' : List Nat} {events' : List (Event H)}
      (hleads : Leads s'.header (s'.entries hash) l')
      (htraced : s'.Traced C (event.toList ++ events) hash (fun _ => true) l' events') :
      ∃ l, s'.Line C hash l ∧
        s'.Traced C (event.toList ++ events) hash (fun _ => true) l events' := by
    obtain ⟨l'', hl''⟩ := hlined hash
    rw [hleads.unique hl''.leads] at htraced
    exact ⟨l'', hl'', htraced⟩
  have hstays (hentry : s'.entries hash = s.entries hash ∨
      s'.entries hash = some ((s.entries hash).getD kInvalidAddress)) :
      Leads s'.header (s'.entries hash) l := by
    have hleads : Leads s.header (s'.entries hash) l := by
      rcases hentry with hentry | hentry <;> rw [hentry]
      · exact hl.leads
      · exact hl.leads.getD
    exact hleads.frame fun a ha => congrArg _ (hheader a ha)
  cases heffect with
  | find t key' hash' hidle hhash =>
      refine hfound (hstays ?_) htraced'
      by_cases hne : hash = hash'
      · subst hne
        exact Or.inr (Function.update_self ..)
      · exact Or.inl (Function.update_of_ne hne ..)
  | publish t p b hash' expected header' value' hwriter hfilled hentry hversions =>
      have hgrants := hs.grants t
      rw [hwriter] at hgrants
      obtain ⟨hb, -, hhash, -, -⟩ := hgrants
      by_cases hne : hash = hash'
      · subst hne
        have hnone : overwritten (fun _ => true) (addressOf p b) (.write (addressOf p b) b.key
            header'.checkpointVersion.toNat value' :: events) = none := if_pos rfl
        obtain ⟨hpage, hoffset⟩ := pageOf_addressOf (p := p) (hs.start_lt hb)
        refine hfound (hl.publish hs hwriter hentry hversions).leads (.write rfl ?_ hhash htraced')
        change s.Holds (addressOf p b) b.key header' ((overwritten _ _ (_ :: events)).getD value')
        rw [hnone, Option.getD_none, Holds, hpage, hoffset]
        exact ⟨b, hb, rfl, rfl, hfilled⟩
      · exact hfound (hl.publish_other hs hwriter hne).leads (.other ⟨hash', hhash, hne⟩ htraced')
  | clear hash' hstart =>
      by_cases hne : hash = hash'
      · subst hne
        refine hfound ?_ .clear
        change Leads s.header (Function.update s.entries hash none hash) []
        rw [Function.update_self]
        rfl
      · exact hfound (hstays (Or.inl (Function.update_of_ne hne ..))) (.other hne htraced')
  | overrun im him hstage htail hblocks => exact hfound (hstays (Or.inl rfl)) htraced'
  | allocate t im block hash' expected him hstage htail hfits hstart hblocks hfound' =>
      exact hfound (hstays (Or.inl rfl)) htraced'
  | abandonBlock t p b hash' expected hwriter => exact hfound (hstays (Or.inl rfl)) htraced'
  | newPage hpage => exact hfound (hstays (Or.inl rfl)) htraced'
  | rewrite t p b m stage w header' hb hheld him hstage hw hgrants =>
      exact hfound (hstays (Or.inl rfl)) htraced'
  | overwrite p b m header' old value' version hb hfree hfilled him =>
      exact hfound (hstays (Or.inl rfl)) (.other trivial htraced')
  | leave t haddress => exact hfound (hstays (Or.inl rfl)) htraced'
  | checkpoint => exact hfound (hstays (Or.inl rfl)) htraced'
  | checkpointDone => exact hfound (hstays (Or.inl rfl)) htraced'
  | refresh t haddress => exact hfound (hstays (Or.inl rfl)) htraced'
  | copyEntries hashes hstart hall => exact hfound (hstays (Or.inl rfl)) htraced'

end LiveStore

end Writing

section Recovering

variable {T H : Type} {C : Classes H} {point : RecoveryPoint} {r : LogRange} {s : LiveStore T H}
  {log : Nat → Memory} {key key' value : List Byte} {hash : H} {header : RecordInfo} {a : Nat}
  {l : List Nat} {events : List (Event H)}

/-- Two keys are told apart by their bytes, also where one is the beginning of the other. -/
theorem readBytes_key_iff {m : Memory} {i : Nat} (hkey : IsKey C key) (hkey' : IsKey C key')
    (hread : readBytes m i key'.length = key') :
    readBytes m i key.length = key ↔ key' = key := by
  constructor
  · intro h
    have hlength := (hkey'.keySize m i hread).symm.trans (hkey.keySize m i h)
    rw [← hread, hlength, h]
  · rintro rfl
    exact hread

theorem LiveStore.Holds.read_spec (ha : s.Holds a key' header value) (h : s.Sound C)
    (hrest : ∀ p, ∀ b ∈ (s.pages p).blocks, ∀ i, b.start + 8 ≤ i → i < b.stop C →
      log p i = s.memories p i) (hkey : IsKey C key) :
    (keyIn C log key a = true ↔ key' = key) ∧ valueIn C log a = value := by
  obtain ⟨b, hb, hstart, rfl, hstage⟩ := ha
  have hroomy := ((h.imaged (pageOf a)).roomy b hb).1
  obtain ⟨hkeyed, hend, hat⟩ := hroomy.bounds
  have hholds := (h.imaged (pageOf a)).content b hb
  rw [hstage] at hholds
  obtain ⟨-, -, hkeyRead, hvalue, hle, hvalueRead, -⟩ := hholds
  have hagree : Agree (log (pageOf a)) (s.pages (pageOf a)).memory (b.start + 8) (b.stop C) :=
    fun i hlow hhigh => hrest (pageOf a) b hb i hlow hhigh
  have hkeyRead' : readBytes (log (pageOf a)) (C.keyAt b.start) b.key.length = b.key :=
    ((hagree.mono hat (by omega)).readBytes_eq).trans hkeyRead
  have hvalueRead' : readBytes (log (pageOf a)) (b.valueAt C) value.length = value :=
    ((hagree.mono (by omega) (by omega)).readBytes_eq).trans hvalueRead
  rw [keyIn, valueIn, ← hstart, (hroomy.valueAt_eq hkeyRead').2, decide_eq_true_iff]
  refine ⟨readBytes_key_iff hkey hroomy.key hkeyRead', ?_⟩
  rw [hvalue.valueSize _ _ hvalueRead', hvalueRead']

variable [DecidableEq H]

/-- No later version has updated a record of this version or an earlier one in place. -/
def LiveStore.Isolated (s : LiveStore T H) (version : Nat) (events : List (Event H)) : Prop :=
  ∀ a version' value header, .overwrite a version' value ∈ events → s.header a = some header →
    header.checkpointVersion.toNat ≤ version → version' ≤ version

omit [DecidableEq H] in
theorem LiveStore.Isolated.overwritten_eq (h : s.Isolated point.version.toNat events)
    (ha : s.header a = some header)
    (hversion : header.checkpointVersion.toNat ≤ point.version.toNat) :
    overwritten (upTo (fun _ => true) point.version.toNat) a events =
      overwritten (fun _ => true) a events :=
  overwritten_congr fun version value hmem =>
    decide_eq_true (h a version value header hmem ha hversion)

omit [DecidableEq H] in
theorem LiveStore.Keeps.isOld_iff {all : List (Event H)} (ha : s.Keeps all a key header value) :
    point.isOld s.header a = true ↔
      header.checkpointVersion.toNat ≤ point.version.toNat := by
  rw [RecoveryPoint.isOld, LiveStore.Holds.header_eq ha]
  exact decide_eq_true_iff

/-- The first of the old records of a hash that has the key is the one that was written last. -/
theorem LiveStore.Traced.find_eq {all : List (Event H)} {versions : Nat → Bool}
    (htraced : s.Traced C all hash versions l events) (h : s.Sound C)
    (hisolated : s.Isolated point.version.toNat all)
    (hrest : ∀ p, ∀ b ∈ (s.pages p).blocks, ∀ i, b.start + 8 ≤ i → i < b.stop C →
      log p i = s.memories p i) (hkey : IsKey C key) (hhash : C.HasHash key hash) :
    ((l.filter (point.isOld s.header)).find? (keyIn C log key)).map (valueIn C log) =
      (lastWrite key hash (upTo versions point.version.toNat) events).map fun write =>
        (overwritten (upTo (fun _ => true) point.version.toNat) write.1 all).getD write.2 := by
  induction htraced with
  | nil => rfl
  | @write versions a key' value header l events hadmits ha hhash' htraced ih =>
      obtain ⟨hkeyIn, hvalueIn⟩ := LiveStore.Holds.read_spec ha h hrest hkey
      have hold : point.isOld s.header a = true ↔
          header.checkpointVersion.toNat ≤ point.version.toNat := LiveStore.Keeps.isOld_iff ha
      have hupTo : upTo versions point.version.toNat header.checkpointVersion.toNat = true ↔
          header.checkpointVersion.toNat ≤ point.version.toNat := by
        rw [upTo, hadmits, Bool.true_and, decide_eq_true_iff]
      rw [lastWrite]
      by_cases hversion : header.checkpointVersion.toNat ≤ point.version.toNat
      · rw [List.filter_cons_of_pos (hold.mpr hversion)]
        by_cases heq : key' = key
        · rw [List.find?_cons_of_pos (hkeyIn.mpr heq), if_pos ⟨heq, hupTo.mpr hversion⟩,
            Option.map_some, Option.map_some, hvalueIn,
            hisolated.overwritten_eq (LiveStore.Holds.header_eq ha) hversion]
        · rw [List.find?_cons_of_neg fun hin => heq (hkeyIn.mp hin), if_neg fun hand => heq hand.1]
          exact ih
      · rw [List.filter_cons_of_neg fun hin => hversion (hold.mp hin),
          if_neg fun hand => hversion (hupTo.mp hand.2)]
        exact ih
  | later hversion htraced ih =>
      rw [lastWrite, if_neg]
      · exact ih
      · rintro ⟨-, hupTo⟩
        rw [upTo, hversion, Bool.false_and] at hupTo
        cases hupTo
  | @other versions event l events hother htraced ih =>
      cases event with
      | write address key' version' value' =>
          obtain ⟨hash', hhash', hne⟩ := hother
          have hkeys : key' ≠ key := by
            rintro rfl
            exact hne (hhash.unique hhash')
          rw [lastWrite, if_neg fun hand => hkeys hand.1]
          exact ih
      | overwrite address version' value' => exact ih
      | clear hash' =>
          rw [lastWrite, if_neg (Ne.symm hother)]
          exact ih
      | recovered version' => exact hother.elim
  | clear =>
      rw [lastWrite, if_pos rfl]
      rfl
  | @recovered versions version l events htraced ih =>
      rw [ih, lastWrite, upTo_comm]

variable {x : Pass H} {headAddress : Nat}

theorem Rebuilt.read_eq (hrebuilt : Rebuilt C point r s x) (h : s.Sound C)
    (hrecorded : s.Recorded C events) (hisolated : s.Isolated point.version.toNat events)
    (hkey : IsKey C key) (hhash : C.HasHash key hash) (hhead : kCacheLineBytes ≤ headAddress) :
    read C x.log key x.entries headAddress hash = latest key hash point.version.toNat events := by
  obtain ⟨l, hl, htraced⟩ := hrecorded hash
  obtain ⟨l', hleads, hleads'⟩ := hrebuilt.index hash
  have hheader (a : Nat) (ha : a ∈ l) : headerIn s.memories a = s.header a := by
    obtain ⟨header, hheader, -⟩ := (hl.settled a ha).record
    rw [h.headerIn_eq hheader, hheader]
  have hsame : l' = l :=
    hleads.unique (hl.leads.frame fun a ha => congrArg _ (hheader a ha))
  have hfilter : l.filter (point.isOld (headerIn s.memories)) = l.filter (point.isOld s.header) :=
    List.filter_congr fun a ha => by
      rw [RecoveryPoint.isOld, RecoveryPoint.isOld, hheader a ha]
  rw [hsame, hfilter] at hleads'
  rw [Recovery.read_eq hleads' hhead]
  exact htraced.find_eq h hisolated hrebuilt.rest hkey hhash

end Recovering

end HashComp.Recovery
