import HashComp.Recovery.LiveStore

namespace HashComp.Recovery

open HashComp.ByteMemory
open HashComp.Faster (kInvalidAddress kPageSize)
open HashComp.Hlog
open HashComp.RecordChain
open HashComp.Records
open HashComp.Runs

section Lines

variable {T H : Type}

namespace LiveStore

variable (C : Classes H) (s : LiveStore T H) (hash : H)

def HashAt (a : Nat) : Prop :=
  ∃ b ∈ (s.pages (pageOf a)).blocks, b.start = a % kPageSize ∧ C.HasHash b.key hash

structure Settled (a : Nat) : Prop where
  record : ∃ header, s.header a = some header ∧ header.invalid = false
  free : ∀ t, (s.writers t).address ≠ some a
  hash : s.HashAt C hash a

def NotBelow (a b : Nat) : Prop :=
  ∀ header header', s.header a = some header → s.header b = some header' →
    header'.checkpointVersion.toNat ≤ header.checkpointVersion.toNat

/-- The records of a hash.  From the start of a checkpoint on, none is anywhere else, and a
copied entry lacks records after the start only. -/
structure Line (l : List Nat) : Prop where
  leads : Leads s.header (s.entries hash) l
  settled : ∀ a ∈ l, s.Settled C hash a
  versions : l.Pairwise s.NotBelow
  complete : ∀ start a, s.start = some start → start ≤ a → s.Settled C hash a → a ∈ l
  copied : ∀ start entry, s.start = some start → s.image hash = some entry →
    ∃ l₁ l₂, l = l₁ ++ l₂ ∧ (∀ a ∈ l₁, start ≤ a) ∧ Leads s.header entry l₂

variable {C} {s} {hash} {s' : LiveStore T H} {t : T} {a : Nat} {l : List Nat}

theorem Settled.congr (h : s.Settled C hash a) (hheader : s'.header a = s.header a)
    (hfree : ∀ t, (s'.writers t).address = some a → (s.writers t).address = some a)
    (hblocks : ∀ b ∈ (s.pages (pageOf a)).blocks, b ∈ (s'.pages (pageOf a)).blocks) :
    s'.Settled C hash a := by
  obtain ⟨b, hb, hspec⟩ := h.hash
  exact ⟨by rw [hheader]; exact h.record, fun t ht => h.free t (hfree t ht), b, hblocks b hb, hspec⟩

theorem Line.mono (h : s.Line C hash l) (hleads : Leads s.header (s'.entries hash) l)
    (hheader : ∀ a ∈ l, s'.header a = s.header a)
    (hsettled : ∀ a ∈ l, s.Settled C hash a → s'.Settled C hash a)
    (hcomplete : ∀ start a, s'.start = some start → start ≤ a → s'.Settled C hash a →
      s.start = some start ∧ s.Settled C hash a)
    (hcopied : ∀ start entry, s'.start = some start → s'.image hash = some entry →
      s.start = some start ∧ s.image hash = some entry) : s'.Line C hash l where
  leads := hleads.frame fun a ha => congrArg _ (hheader a ha)
  settled := fun a ha => hsettled a ha (h.settled a ha)
  versions := by
    refine h.versions.imp_of_mem fun {a b} ha hb hnot header header' => ?_
    rw [hheader a ha, hheader b hb]
    exact hnot header header'
  complete := by
    intro start a hstart hle ha
    obtain ⟨hstart, ha⟩ := hcomplete start a hstart hle ha
    exact h.complete start a hstart hle ha
  copied := by
    intro start entry hstart himage
    obtain ⟨hstart, himage⟩ := hcopied start entry hstart himage
    obtain ⟨l₁, l₂, rfl, hle, hentry⟩ := h.copied start entry hstart himage
    exact ⟨l₁, l₂, rfl, hle,
      hentry.frame fun a ha => congrArg _ (hheader a (List.mem_append_right _ ha))⟩

theorem Line.congr (h : s.Line C hash l) (hleads : Leads s.header (s'.entries hash) l)
    (hheader : ∀ a, s'.header a = s.header a)
    (haddress : ∀ t, (s'.writers t).address = (s.writers t).address)
    (hblocks : ∀ q, (s'.pages q).blocks = (s.pages q).blocks)
    (hstart : ∀ start, s'.start = some start → s.start = some start)
    (hcopied : ∀ entry, s'.image hash = some entry → s.image hash = some entry) :
    s'.Line C hash l := by
  refine h.mono hleads (fun a _ => hheader a)
    (fun a _ ha => ha.congr (hheader a) (fun t ht => (haddress t).symm.trans ht)
      fun b hb => by rw [hblocks]; exact hb)
    (fun start a hs _ ha => ⟨hstart start hs, ha.congr (hheader a).symm
      (fun t ht => (haddress t).trans ht) fun b hb => by rw [← hblocks]; exact hb⟩)
    fun start entry hs hentry => ⟨hstart start hs, hcopied entry hentry⟩

theorem HashAt.unique {hash' : H} (ha : s.HashAt C hash a) (ha' : s.HashAt C hash' a)
    (h : s.Sound C) : hash = hash' := by
  obtain ⟨b, hb, hstart, hhash⟩ := ha
  obtain ⟨b', hb', hstart', hhash'⟩ := ha'
  rw [h.block_unique hb' hb (hstart'.trans hstart.symm)] at hhash'
  exact hhash.unique hhash'

theorem Sound.hashAt {p : Nat} {b : Block} (h : s.Sound C) (hb : b ∈ (s.pages p).blocks)
    (hhash : C.HasHash b.key hash) : s.HashAt C hash (addressOf p b) := by
  obtain ⟨hpage, hoffset⟩ := pageOf_addressOf (p := p) (h.start_lt hb)
  rw [HashAt, hpage, hoffset]
  exact ⟨b, hb, rfl, hhash⟩

theorem Line.clear (hstart : s.start = none) (hentries : s.entries hash = none) :
    s.Line C hash [] where
  leads := by
    rw [hentries]
    rfl
  settled := nofun
  versions := .nil
  complete := by
    intro start a hs
    rw [hstart] at hs
    cases hs
  copied := by
    intro start entry hs
    rw [hstart] at hs
    cases hs

variable [DecidableEq T]

theorem Line.rewrite {p : Nat} {b : Block} {m : Memory} {stage : Stage} {w : Writer H}
    {header : RecordInfo} (h : s.Line C hash l) (hs : s.Sound C) (hb : b ∈ (s.pages p).blocks)
    (hheld : (s.writers t).address = some (addressOf p b)) (hstage : stage.header = some header)
    (hw : w.address = some (addressOf p b) ∨ w = .idle ∧ header.invalid = true) :
    (s.rewrite t p b m stage w).Line C hash l := by
  have hlt := hs.start_lt hb
  have hw' : w.address = none ∨ w.address = some (addressOf p b) := by
    rcases hw with hw | ⟨rfl, -⟩
    · exact Or.inr hw
    · exact Or.inl rfl
  have hheader (a : Nat) (hne : a ≠ addressOf p b) :
      (s.rewrite t p b m stage w).header a = s.header a := by
    rw [header_rewrite hlt, if_neg hne]
  have haway (a : Nat) (ha : s.Settled C hash a) : a ≠ addressOf p b := by
    rintro rfl
    exact ha.free t hheld
  refine h.mono h.leads (fun a ha => hheader a (haway a (h.settled a ha))) (fun a _ ha => ?_)
    (fun start a hstart _ ha => ⟨hstart, ?_⟩) fun _ _ hstart himage => ⟨hstart, himage⟩
  · exact ha.congr (hheader a (haway a ha)) (fun t' ht' => address_rewrite hheld hw' ht')
      fun b' hb' => by rw [(pages_rewrite _).1]; exact hb'
  · have hne : a ≠ addressOf p b := by
      rintro rfl
      rcases hw with hw | ⟨-, hinvalid⟩
      · exact ha.free t (by rw [writers_rewrite_self]; exact hw)
      · obtain ⟨header', hrecord, hvalid⟩ := ha.record
        rw [header_rewrite hlt, if_pos rfl, hstage] at hrecord
        cases hrecord
        rw [hinvalid] at hvalid
        cases hvalid
    refine ha.congr (hheader a hne).symm (fun t' ht' => ?_) fun b' hb' => ?_
    · by_cases heq : t' = t
      · subst heq
        exact absurd (Option.some.inj (hheld.symm.trans ht')).symm hne
      · rwa [writers_rewrite_of_ne heq]
    · rwa [(pages_rewrite _).1] at hb'

theorem Line.allocate {im : PageImage} {block : Block} {w : Writer H} (h : s.Line C hash l)
    (hs : s.Sound C) (hstage : im.stage = (s.pages s.page).stage)
    (hstart : block.start = (s.pages s.page).tail) (hin : block.start < kPageSize)
    (hblocks : im.blocks = block :: (s.pages s.page).blocks)
    (haddress : (s.writers t).address = none) (hw : w.address = some (addressOf s.page block)) :
    ((s.setPage s.page im).setWriter t w).Line C hash l := by
  have hself : ((s.setPage s.page im).setWriter t w).pages s.page = im := Function.update_self ..
  have hother (q : Nat) (hq : q ≠ s.page) :
      ((s.setPage s.page im).setWriter t w).pages q = s.pages q := Function.update_of_ne hq ..
  have hheader (a : Nat) : ((s.setPage s.page im).setWriter t w).header a = s.header a := by
    rw [LiveStore.header, LiveStore.header]
    by_cases hpage : pageOf a = s.page
    · rw [hpage, hself, hstage]
    · rw [hother _ hpage]
  have hblank : s.header (addressOf s.page block) = none := by
    obtain ⟨hpage, hoffset⟩ := pageOf_addressOf (p := s.page) hin
    rw [LiveStore.header, hpage, hoffset, hstart, (hs.imaged s.page).ahead _ le_rfl]
    rfl
  have haway (a : Nat) (ha : ∃ header, s.header a = some header ∧ header.invalid = false) :
      a ≠ addressOf s.page block := by
    rintro rfl
    obtain ⟨header, hrecord, -⟩ := ha
    rw [hblank] at hrecord
    cases hrecord
  refine h.mono h.leads (fun a _ => hheader a) (fun a _ ha => ?_)
    (fun start a hs _ ha => ⟨hs, ?_⟩) fun _ _ hs himage => ⟨hs, himage⟩
  · refine ha.congr (hheader a) (fun t' ht' => ?_) fun b hb => ?_
    · change (Function.update s.writers t w t').address = some a at ht'
      by_cases heq : t' = t
      · rw [heq, Function.update_self, hw] at ht'
        exact absurd (Option.some.inj ht').symm (haway a ha.record)
      · rwa [Function.update_of_ne heq] at ht'
    · by_cases hpage : pageOf a = s.page
      · rw [hpage] at hb ⊢
        rw [hself, hblocks]
        exact List.mem_cons_of_mem _ hb
      · rwa [hother _ hpage]
  · have hrecord := ha.record
    rw [hheader] at hrecord
    refine ⟨hrecord, fun t' ht' => ha.free t' ?_, ?_⟩
    · change (Function.update s.writers t w t').address = some a
      have hne : t' ≠ t := by
        rintro rfl
        rw [haddress] at ht'
        cases ht'
      rwa [Function.update_of_ne hne]
    · obtain ⟨b, hb, hoffset, hhash⟩ := ha.hash
      by_cases hpage : pageOf a = s.page
      · rw [hpage, hself, hblocks] at hb
        rcases List.mem_cons.mp hb with rfl | hb
        · exact absurd ((addressOf_eq_iff hin).mpr ⟨hpage, hoffset.symm⟩) (haway a hrecord)
        · rw [← hpage] at hb
          exact ⟨b, hb, hoffset, hhash⟩
      · rw [hother _ hpage] at hb
        exact ⟨b, hb, hoffset, hhash⟩

/-- No entry leads to a block that a thread leaves as it has got it. -/
theorem Line.abandonBlock {p : Nat} {b : Block} {hash' : H} {expected : Nat} (h : s.Line C hash l)
    (hs : s.Sound C) (hwriter : s.writers t = .allocated p b hash' expected) :
    (s.setWriter t (.found b.key hash' expected)).Line C hash l := by
  have hgrants := hs.grants t
  rw [hwriter] at hgrants
  obtain ⟨hb, hreserved, -⟩ := hgrants
  refine h.mono h.leads (fun _ _ => rfl) (fun a _ ha => ?_) (fun start a hstart _ ha => ⟨hstart, ?_⟩)
    fun _ _ hstart himage => ⟨hstart, himage⟩
  · refine ha.congr rfl (fun t' ht' => ?_) fun _ hb => hb
    change (Function.update s.writers t _ t').address = some a at ht'
    by_cases heq : t' = t
    · rw [heq, Function.update_self] at ht'
      cases ht'
    · rwa [Function.update_of_ne heq] at ht'
  · refine ha.congr rfl (fun t' ht' => ?_) fun _ hb => hb
    change (Function.update s.writers t _ t').address = some a
    have hne : t' ≠ t := by
      rintro rfl
      rw [hwriter] at ht'
      obtain ⟨header, hheader, -⟩ := ha.record
      change s.header a = some header at hheader
      rw [← Option.some.inj ht', hs.header_addressOf hb, hreserved] at hheader
      cases hheader
    rwa [Function.update_of_ne hne]

variable [DecidableEq H]

theorem Line.publish {p : Nat} {b : Block} {expected : Nat} (h : s.Line C hash l)
    (hs : s.Sound C) (hwriter : s.writers t = .constructed p b hash expected)
    (hentry : s.entries hash = some expected)
    (hversions : ∀ header header', s.header expected = some header →
      s.header (addressOf p b) = some header' →
        header.checkpointVersion.toNat ≤ header'.checkpointVersion.toNat) :
    ((s.setEntry hash (some (addressOf p b))).setWriter t .idle).Line C hash
      (addressOf p b :: l) := by
  have hgrants := hs.grants t
  rw [hwriter] at hgrants
  obtain ⟨hb, ⟨header, hheader, hprevious, hvalid⟩, hhash, hlt, -⟩ := hgrants
  have hheld : (s.writers t).address = some (addressOf p b) := by
    rw [hwriter]
    rfl
  have haddress (t' : T) (a : Nat)
      (ha : (((s.setEntry hash (some (addressOf p b))).setWriter t .idle).writers t').address =
        some a) : t' ≠ t ∧ (s.writers t').address = some a := by
    change (Function.update s.writers t .idle t').address = some a at ha
    by_cases hne : t' = t
    · rw [hne, Function.update_self] at ha
      cases ha
    · rw [Function.update_of_ne hne] at ha
      exact ⟨hne, ha⟩
  have hleads := h.leads
  rw [hentry] at hleads
  refine ⟨?_, fun a ha => ?_, List.pairwise_cons.mpr ⟨fun a ha => ?_, h.versions⟩,
    fun start a hstart hle ha => ?_, fun start entry hstart himage => ?_⟩
  · change Leads s.header (Function.update s.entries hash (some (addressOf p b)) hash) _
    rw [Function.update_self]
    refine .cons (hs.bounds hheader).1 hheader (by rw [hprevious]; exact hlt) ?_
    rw [hprevious]
    exact hleads
  · rcases List.mem_cons.mp ha with rfl | ha
    · refine ⟨⟨header, hheader, hvalid⟩, fun t' ht' => ?_, hs.hashAt hb hhash⟩
      obtain ⟨hne, ht'⟩ := haddress t' _ ht'
      exact hne (hs.distinct t' t _ ht' hheld)
    · exact (h.settled a ha).congr rfl (fun t' ht' => (haddress t' a ht').2) fun _ hb => hb
  · have hhead : s.NotBelow expected a := by
      cases hleads with
      | nil => cases ha
      | cons hle hr hprev htail =>
          rcases List.mem_cons.mp ha with rfl | ha
          · intro header header' hrecord hrecord'
            rw [hrecord] at hrecord'
            cases hrecord'
            exact le_rfl
          · exact (List.pairwise_cons.mp h.versions).1 a ha
    intro header₁ header₂ h₁ h₂
    have hmem : ∃ header', s.header expected = some header' := by
      cases hleads with
      | nil => cases ha
      | cons hle hr hprev htail => exact ⟨_, hr⟩
    obtain ⟨header', hrecord⟩ := hmem
    exact Nat.le_trans (hhead header' header₂ hrecord h₂) (hversions header' header₁ hrecord h₁)
  · by_cases hne : a = addressOf p b
    · exact hne ▸ List.mem_cons_self
    · refine List.mem_cons_of_mem _ (h.complete start a hstart hle (ha.congr rfl ?_ fun _ hb => hb))
      intro t' ht'
      change (Function.update s.writers t .idle t').address = some a
      have hne' : t' ≠ t := by
        rintro rfl
        exact hne (Option.some.inj (ht'.symm.trans hheld))
      rwa [Function.update_of_ne hne']
  · obtain ⟨l₁, l₂, rfl, hafter, hentry'⟩ := h.copied start entry hstart himage
    refine ⟨addressOf p b :: l₁, l₂, rfl, List.forall_mem_cons.mpr ⟨?_, hafter⟩, hentry'⟩
    have hcopied : s.image hash ≠ none := by
      change s.image hash = some entry at himage
      rw [himage]
      nofun
    exact hs.acknowledged t start _ hstart ((hs.copied hash hcopied).2 t) hheld

theorem Line.publish_other {p : Nat} {b : Block} {hash' : H} {expected : Nat}
    (h : s.Line C hash l) (hs : s.Sound C)
    (hwriter : s.writers t = .constructed p b hash' expected) (hne : hash ≠ hash') :
    ((s.setEntry hash' (some (addressOf p b))).setWriter t .idle).Line C hash l := by
  have hgrants := hs.grants t
  rw [hwriter] at hgrants
  obtain ⟨hb, -, hhash, -, -⟩ := hgrants
  have hheld : (s.writers t).address = some (addressOf p b) := by
    rw [hwriter]
    rfl
  refine h.mono ?_ (fun _ _ => rfl) (fun a _ ha => ?_) (fun start a hstart _ ha => ⟨hstart, ?_⟩)
    fun _ _ hstart himage => ⟨hstart, himage⟩
  · change Leads s.header (Function.update s.entries hash' _ hash) l
    rw [Function.update_of_ne hne]
    exact h.leads
  · refine ha.congr rfl (fun t' ht' => ?_) fun _ hb => hb
    change (Function.update s.writers t .idle t').address = some a at ht'
    by_cases heq : t' = t
    · rw [heq, Function.update_self] at ht'
      cases ht'
    · rwa [Function.update_of_ne heq] at ht'
  · refine ha.congr rfl (fun t' ht' => ?_) fun _ hb => hb
    change (Function.update s.writers t .idle t').address = some a
    by_cases heq : t' = t
    · subst heq
      have hat : a = addressOf p b := Option.some.inj (ht'.symm.trans hheld)
      have hother : s.HashAt C hash a := ha.hash
      rw [hat] at hother
      exact absurd (hother.unique (hs.hashAt hb hhash) hs) hne
    · rwa [Function.update_of_ne heq]

def Lined (C : Classes H) (s : LiveStore T H) : Prop :=
  ∀ hash, ∃ l, s.Line C hash l

theorem Lined.effect {event : Option (Event H)} (h : s.Lined C) (hs : s.Sound C)
    (heffect : Effect C s event s') : s'.Lined C := by
  intro hash
  obtain ⟨l, hl⟩ := h hash
  cases heffect with
  | find t key hash' hidle hhash =>
      refine ⟨l, hl.congr ?_ (fun _ => rfl) (fun t' => ?_) (fun _ => rfl) (fun _ h => h)
        fun _ h => h⟩
      · change Leads s.header (Function.update s.entries hash' _ hash) l
        by_cases hne : hash = hash'
        · subst hne
          rw [Function.update_self]
          exact hl.leads.getD
        · rw [Function.update_of_ne hne]
          exact hl.leads
      · change (Function.update s.writers t _ t').address = _
        by_cases heq : t' = t
        · rw [heq, Function.update_self, hidle]
          rfl
        · rw [Function.update_of_ne heq]
  | overrun im him hstage htail hblocks =>
      have hpages (q : Nat) : ((s.setPage s.page im).pages q).stage = (s.pages q).stage ∧
          ((s.setPage s.page im).pages q).blocks = (s.pages q).blocks := by
        change (Function.update s.pages s.page im q).stage = _ ∧
          (Function.update s.pages s.page im q).blocks = _
        by_cases hq : q = s.page
        · rw [hq, Function.update_self]
          exact ⟨hstage, hblocks⟩
        · rw [Function.update_of_ne hq]
          exact ⟨rfl, rfl⟩
      refine ⟨l, hl.congr hl.leads (fun a => ?_) (fun _ => rfl) (fun q => (hpages q).2)
        (fun _ h => h) fun _ h => h⟩
      rw [LiveStore.header, LiveStore.header, (hpages _).1]
  | allocate t im block hash' expected him hstage htail hfits hstart hblocks hfound =>
      have hmem : block ∈ im.blocks := by
        rw [hblocks]
        exact List.mem_cons_self
      have hlt := him.start_lt hmem
      exact ⟨l, hl.allocate hs hstage hstart (by omega) hblocks (by rw [hfound]; rfl) rfl⟩
  | abandonBlock t p b hash' expected hwriter => exact ⟨l, hl.abandonBlock hs hwriter⟩
  | newPage hpage =>
      exact ⟨l, hl.congr hl.leads (fun _ => rfl) (fun _ => rfl) (fun _ => rfl) (fun _ h => h)
        fun _ h => h⟩
  | rewrite t p b m stage w header hb hheld him hstage hw hgrants =>
      exact ⟨l, hl.rewrite hs hb hheld hstage hw⟩
  | publish t p b hash' expected header value hwriter hfilled hentry hversions =>
      by_cases hne : hash = hash'
      · subst hne
        exact ⟨_, hl.publish hs hwriter hentry hversions⟩
      · exact ⟨l, hl.publish_other hs hwriter hne⟩
  | overwrite p b m header old value version hb hfree hfilled him =>
      exact ⟨l, hl.congr hl.leads (header_overwrite hfilled) (fun _ => rfl)
        (fun q => (pages_overwrite q).1) (fun _ h => h) fun _ h => h⟩
  | leave t haddress =>
      refine ⟨l, hl.congr hl.leads (fun _ => rfl) (fun t' => ?_) (fun _ => rfl) (fun _ h => h)
        fun _ h => h⟩
      change (Function.update s.writers t _ t').address = _
      by_cases heq : t' = t
      · rw [heq, Function.update_self, haddress]
        rfl
      · rw [Function.update_of_ne heq]
  | clear hash' hstart =>
      by_cases hne : hash = hash'
      · subst hne
        exact ⟨[], .clear hstart (Function.update_self ..)⟩
      · refine ⟨l, hl.congr ?_ (fun _ => rfl) (fun _ => rfl) (fun _ => rfl) (fun _ h => h)
          fun _ h => h⟩
        change Leads s.header (Function.update s.entries hash' none hash) l
        rw [Function.update_of_ne hne]
        exact hl.leads
  | checkpoint =>
      refine ⟨l, hl.mono hl.leads (fun _ _ => rfl) (fun a _ ha => ⟨ha.record, ha.free, ha.hash⟩)
        (fun start a hstart hle ha => ?_) fun _ _ _ himage => ?_⟩
      · cases hstart
        obtain ⟨header, hrecord, -⟩ := ha.record
        obtain ⟨b, hb, -, hat⟩ := hs.exists_block (s := s) hrecord
        have hlt := hs.boundary.2 _ b hb
        omega
      · cases himage
  | checkpointDone =>
      refine ⟨l, hl.mono hl.leads (fun _ _ => rfl) (fun a _ ha => ⟨ha.record, ha.free, ha.hash⟩)
        (fun _ _ hstart => ?_) fun _ _ hstart => ?_⟩
      · cases hstart
      · cases hstart
  | refresh t haddress =>
      exact ⟨l, hl.congr hl.leads (fun _ => rfl) (fun _ => rfl) (fun _ => rfl) (fun _ h => h)
        fun _ h => h⟩
  | copyEntries hashes hstart hall =>
      refine ⟨l, hl.leads, fun a ha => ?_, hl.versions, fun start a hs hle ha => ?_,
        fun start entry hs himage => ?_⟩
      · exact (hl.settled a ha).congr rfl (fun _ h => h) fun _ h => h
      · exact hl.complete start a hs hle (ha.congr rfl (fun _ h => h) fun _ h => h)
      · change (if hashes hash then some (s.entries hash) else s.image hash) = some entry at himage
        split at himage
        · cases himage
          exact ⟨[], l, rfl, fun _ ha => absurd ha List.not_mem_nil, hl.leads⟩
        · exact hl.copied start entry hs himage

omit [DecidableEq T] [DecidableEq H] in
theorem lined_initial : (initial : LiveStore T H).Lined C :=
  fun _ => ⟨[], .clear rfl rfl⟩

theorem sound_lined_of_reaches [Fintype T] [Zero T]
    (h : Reaches (LiveStore.next · C) (Orderly C) initial s) : s.Sound C ∧ s.Lined C :=
  h.invariant (I := fun s => s.Sound C ∧ s.Lined C) ⟨sound_initial, lined_initial⟩
    fun _ _ _ hs hok hnext =>
      have heffect := effect_of_next hs.1 hok hnext
      ⟨hs.1.effect heffect, hs.2.effect hs.1 heffect⟩

end LiveStore

end Lines

section Rebuilding

variable {T H : Type} (C : Classes H) (point : RecoveryPoint) (r : LogRange) (s : LiveStore T H)

def LiveStore.memories (p : Nat) : Memory := (s.pages p).memory

def LiveStore.stops (p : Nat) : Nat → Option Nat := (s.pages p).stops C

def LiveStore.copies (hash : H) : Option Nat := (s.image hash).join

/-- The log and the index are recovered as they are on disk: all entries have been copied, what
lies below `final_address` is no thread's any more, and the versions of the records tell the
ones before the two addresses of the checkpoint from the ones after them. -/
structure Cut : Prop where
  start : s.start = some r.fromAddress
  start_eq : point.checkpointStartAddress = r.fromAddress
  copied : ∀ hash, ∃ entry, s.image hash = some entry ∧ ∀ a, entry = some a → a < r.toAddress
  settled : ∀ t a, (s.writers t).address = some a → r.toAddress ≤ a
  old : ∀ a header, s.header a = some header → header.invalid = false → a < r.fromAddress →
    header.checkpointVersion.toNat ≤ point.version.toNat
  new : ∀ a header, s.header a = some header → header.invalid = false → r.toAddress ≤ a →
    point.version.toNat < header.checkpointVersion.toNat

/-- What the recovery has made of the store.  A search from an entry, which has passed the
records of its hash, passes now those that have the recovered version or an earlier one; later
records are marked invalid, and the rest of the log is what it was. -/
structure Rebuilt [DecidableEq H] (x : Pass H) : Prop where
  index : ∀ hash, ∃ l, Leads (headerIn s.memories) (s.entries hash) l ∧
    Leads (headerIn x.log) (x.entries hash) (l.filter (point.isOld (headerIn s.memories)))
  headers : ∀ a, s.header a ≠ none → r.fromAddress ≤ a → a < r.toAddress →
    headerIn x.log a = (headerIn s.memories a).map (recoverRecord point.version)
  rest : ∀ p, ∀ b ∈ (s.pages p).blocks, ∀ i, b.start + 8 ≤ i → i < b.stop C →
    x.log p i = s.memories p i

variable {C} {point} {r} {s} {p a : Nat} {b : Block} {header : RecordInfo}

theorem LiveStore.Sound.headerIn_eq (h : s.Sound C) (ha : s.header a = some header) :
    headerIn s.memories a = some header := by
  obtain ⟨b, hb, hstart, -⟩ := h.exists_block ha
  have hcontent := (h.imaged (pageOf a)).content b hb
  rw [LiveStore.header, ← hstart] at ha
  rw [headerIn, headerAt, ← hstart]
  change (if readWord (s.pages (pageOf a)).memory b.start = 0 then none
    else some (.ofControl (readWord (s.pages (pageOf a)).memory b.start))) = some header
  cases hstage : (s.pages (pageOf a)).stage b.start <;> rw [hstage] at ha hcontent <;> cases ha
  · rw [hcontent.2.1, if_neg (RecordInfo.control_ne_zero (Or.inr hcontent.1)),
      RecordInfo.ofControl_control]
  · rw [hcontent.2.1, if_neg (RecordInfo.control_ne_zero (Or.inr hcontent.1)),
      RecordInfo.ofControl_control]

theorem LiveStore.Sound.met_eq {hash : H} (h : s.Sound C) (hb : b ∈ (s.pages p).blocks)
    (hheader : s.header (addressOf p b) = some header) (hhash : C.HasHash b.key hash) :
    C.met p (s.memories p) b.start = ⟨addressOf p b, hash, header⟩ := by
  obtain ⟨hpage, hoffset⟩ := pageOf_addressOf (p := p) (h.start_lt hb)
  have hstage : (s.pages p).stage b.start ≠ .reserved := by
    intro hreserved
    rw [h.header_addressOf hb, hreserved] at hheader
    cases hheader
  have hread := h.headerIn_eq hheader
  rw [headerIn, hpage, hoffset] at hread
  split at hread
  · cases hread
  · have hkey := ((h.imaged p).content b hb).value_spec ((h.imaged p).roomy b hb).1 hstage
    have hfound : C.getHash (s.memories p) (C.keyAt b.start) = hash := hhash _ _ hkey.2.1
    rw [Classes.met, Option.some.inj hread, hfound]
    rfl

theorem LiveStore.Sound.written_iff (h : s.Sound C) :
    (s.stops C p a).isSome ↔ ∃ b ∈ (s.pages p).blocks, b.start = a ∧
      ∃ header, s.header (addressOf p b) = some header := by
  rw [LiveStore.stops, PageImage.isSome_stops_iff]
  constructor
  · rintro ⟨hstage, b, hb, rfl⟩
    refine ⟨b, hb, rfl, ?_⟩
    rw [h.header_addressOf hb]
    cases hcase : (s.pages p).stage b.start with
    | reserved => exact absurd hcase hstage
    | keyed header => exact ⟨header, rfl⟩
    | filled header value => exact ⟨header, rfl⟩
  · rintro ⟨b, hb, rfl, header, hheader⟩
    refine ⟨fun hreserved => ?_, b, hb, rfl⟩
    rw [h.header_addressOf hb, hreserved] at hheader
    cases hheader

theorem LiveStore.Sound.stands (h : s.Sound C) (hcut : Cut point r s) (p : Nat) :
    Stands C (s.stops C p) (s.memories p) (r.fromOffset p) ∨ r.toOffset p ≤ r.fromOffset p := by
  rcases r.fromOffset_spec p with haligned | hnone
  · refine Or.inl ⟨haligned, fun a e hstop => ?_⟩
    obtain ⟨hstage, b, hb, rfl, rfl⟩ := PageImage.mem_of_stops hstop
    have hsize := ((h.imaged p).isRecord hb hstage).1.size_le
    rw [LogRange.fromOffset] at haligned ⊢
    split at haligned
    · rename_i hpage
      rw [if_pos hpage]
      rcases (h.start _ hcut.start).2.2 with hfull | ⟨-, hapart⟩
      · rw [hfull] at haligned
        exact absurd haligned (by decide)
      · have hblock : b ∈ (s.pages (pageOf r.fromAddress)).blocks := by
          rw [← show p = pageOf r.fromAddress from hpage]
          exact hb
        rcases hapart b hblock with hle | hle
        · exact Or.inr (Nat.le_trans hsize hle)
        · exact Or.inl hle
    · rename_i hpage
      rw [if_neg hpage]
      exact Or.inl (Nat.zero_le _)
  · exact Or.inr hnone

theorem LiveStore.Sound.readable (h : s.Sound C) (hcut : Cut point r s) :
    r.Readable C (s.stops C) s.memories where
  scannable := fun p _ _ => (h.imaged p).scannable
  stands := fun p _ _ => h.stands hcut p

theorem LiveStore.Line.pairwise {hash : H} {l : List Nat} (hl : s.Line C hash l) :
    l.Pairwise (· > ·) := by
  have hleads := hl.leads
  cases hentry : s.entries hash with
  | none =>
      rw [hentry] at hleads
      rw [hleads]
      exact .nil
  | some a =>
      rw [hentry] at hleads
      exact Chain.pairwise hleads

theorem Cut.cuts {hash : H} {l : List Nat} (hcut : Cut point r s) (hl : s.Line C hash l) :
    Cuts point r.toAddress s.header l := by
  have hold (a : Nat) (header : RecordInfo) (ha : s.header a = some header) :
      point.isOld s.header a = true ↔
        header.checkpointVersion.toNat ≤ point.version.toNat := by
    rw [RecoveryPoint.isOld, ha]
    exact decide_eq_true_iff
  refine ⟨fun a ha header hheader => ?_, hl.versions.imp_of_mem fun {a b} ha hb hnot => ?_,
    fun a ha hlt => ?_, fun a ha hle => ?_⟩
  · obtain ⟨header', hheader', hvalid⟩ := (hl.settled a ha).record
    cases hheader.symm.trans hheader'
    exact hvalid
  · obtain ⟨header, hheader, -⟩ := (hl.settled a ha).record
    obtain ⟨header', hheader', -⟩ := (hl.settled b hb).record
    rw [hold a header hheader, hold b header' hheader']
    exact Nat.le_trans (hnot header header' hheader hheader')
  · obtain ⟨header, hheader, hvalid⟩ := (hl.settled a ha).record
    rw [hcut.start_eq] at hlt
    exact (hold a header hheader).mpr (hcut.old a header hheader hvalid hlt)
  · obtain ⟨header, hheader, hvalid⟩ := (hl.settled a ha).record
    refine Bool.eq_false_of_not_eq_true fun htrue => ?_
    have hlt := hcut.new a header hheader hvalid hle
    exact absurd ((hold a header hheader).mp htrue) (Nat.not_le.mpr hlt)

/-- The valid records of a hash in the range are those of its line, in their order. -/
theorem Cut.met_eq {hash : H} [DecidableEq H] {l : List Nat} (hcut : Cut point r s) (h : s.Sound C)
    (hl : s.Line C hash l) :
    ((r.metBefore C (s.stops C) s.memories r.endPage).filter
        fun r => decide (r.hash = hash) && !r.header.invalid) =
      metAlong s.header hash (l.reverse.filter (point.inRange r.toAddress)) := by
  have hirrefl : Std.Irrefl fun m m' : Met H => m.address < m'.address :=
    ⟨fun m => Nat.lt_irrefl m.address⟩
  have hantisymm : Std.Antisymm fun m m' : Met H => m.address < m'.address :=
    ⟨fun m m' hlt hlt' => absurd hlt (Nat.lt_asymm hlt')⟩
  have hrange (p : Nat) (b : Block) (hb : b ∈ (s.pages p).blocks) :=
    r.mem_iff (p := p) ((h.imaged p).roomy b hb).1.aligned (h.start_lt hb)
  refine (pairwise_metBefore.filter _).eq_of_mem_iff ?_ fun m => ?_
  · rw [metAlong, List.pairwise_filterMap]
    refine ((List.pairwise_reverse.mpr hl.pairwise).filter _).imp fun {a b} hlt m hm m' hm' => ?_
    obtain ⟨header, -, rfl⟩ := Option.map_eq_some_iff.mp hm
    obtain ⟨header', -, rfl⟩ := Option.map_eq_some_iff.mp hm'
    exact hlt
  · rw [List.mem_filter, mem_metBefore, metAlong, List.mem_filterMap]
    simp only [Bool.and_eq_true, decide_eq_true_eq, Bool.not_eq_true', List.mem_filter,
      List.mem_reverse]
    constructor
    · rintro ⟨⟨p, hlo, hhi, a, ha, rfl⟩, hhash, hvalid⟩
      obtain ⟨hstop, hfrom, hto⟩ := mem_recordsOf.mp ha
      obtain ⟨b, hb, rfl, header, hheader⟩ := h.written_iff.mp hstop
      obtain ⟨hash', hhash'⟩ := h.hashed p b hb
      rw [h.met_eq hb hheader hhash'] at hhash hvalid ⊢
      have hsame : hash' = hash := hhash
      rw [hsame] at hhash' ⊢
      obtain ⟨hle, hlt⟩ := (hrange p b hb).mp ⟨hlo, hhi, hfrom, hto⟩
      have hsettled : s.Settled C hash (addressOf p b) := by
        refine ⟨⟨header, hheader, hvalid⟩, fun t ht => ?_, h.hashAt hb hhash'⟩
        exact absurd hlt (Nat.not_lt.mpr (hcut.settled t _ ht))
      refine ⟨addressOf p b, ⟨hl.complete _ _ hcut.start hle hsettled, ?_⟩, ?_⟩
      · rw [RecoveryPoint.inRange, hcut.start_eq]
        exact decide_eq_true ⟨hle, hlt⟩
      · rw [hheader]
        rfl
    · rintro ⟨a, ⟨ha, hin⟩, hm⟩
      obtain ⟨header, hheader, rfl⟩ := Option.map_eq_some_iff.mp hm
      have hsettled := hl.settled a ha
      obtain ⟨header', hheader', hvalid⟩ := hsettled.record
      cases hheader.symm.trans hheader'
      obtain ⟨b, hb, hstart, hhash⟩ := hsettled.hash
      have hat := (addressOf_eq_iff (h.start_lt hb)).mpr ⟨rfl, hstart.symm⟩
      rw [hat] at hheader
      rw [RecoveryPoint.inRange, hcut.start_eq, decide_eq_true_eq, hat] at hin
      obtain ⟨hlo, hhi, hfrom, hto⟩ := (hrange _ b hb).mpr hin
      refine ⟨⟨pageOf a, hlo, hhi, b.start, mem_recordsOf.mpr
        ⟨h.written_iff.mpr ⟨b, hb, rfl, header, hheader⟩, hfrom, hto⟩, ?_⟩, rfl, hvalid⟩
      rw [h.met_eq hb hheader hhash, ← hat]

variable [DecidableEq H] {x : Pass H} {log : Nat → Memory} {entries : H → Option Nat}

theorem Replayed.block_spec (h : s.Sound C)
    (hx : Replayed C point r (s.stops C) log entries x) (hb : b ∈ (s.pages p).blocks) :
    (∀ header, s.header (addressOf p b) ≠ none → headerIn log (addressOf p b) = some header →
      headerIn x.log (addressOf p b) =
        if r.fromAddress ≤ addressOf p b ∧ addressOf p b < r.toAddress then
          some (recoverRecord point.version header)
        else some header) ∧
    ∀ i, b.start + 8 ≤ i → i < b.stop C → x.log p i = log p i := by
  have hlt := h.start_lt hb
  have hrange := r.mem_iff (p := p) ((h.imaged p).roomy b hb).1.aligned hlt
  obtain ⟨hpage, hoffset⟩ := pageOf_addressOf (p := p) hlt
  by_cases hin : r.startPage ≤ p ∧ p < r.endPage
  · obtain ⟨hlo, hhi⟩ := hin
    have hpages := hx.pages p hlo hhi
    have haway (a : Nat) (ha : a ∈ r.records (s.stops C) p) (i : Nat) (hlow : b.start ≤ i)
        (hhigh : i < b.stop C) (hne : a = b.start → b.start + 8 ≤ i) : i < a ∨ a + 8 ≤ i := by
      obtain ⟨b', hb', rfl, -⟩ := h.written_iff.mp (mem_recordsOf.mp ha).1
      by_cases heq : b' = b
      · rw [heq]
        exact Or.inr (hne (congrArg Block.start heq))
      · have hlt' := (h.imaged p).start_lt hb'
        rcases (h.imaged p).apart_of_ne hb' hb heq with hle | hle
        · exact Or.inr (by omega)
        · exact Or.inl (by omega)
    refine ⟨fun header hwritten hread => ?_, fun i hlow hhigh => hpages.others i fun a ha =>
      haway a ha i (by omega) hhigh fun _ => hlow⟩
    rw [headerIn, hpage, hoffset] at hread ⊢
    split at hread
    · cases hread
    · rename_i hword
      have hheaderAt := Option.some.inj hread
      by_cases hbetween : r.fromAddress ≤ addressOf p b ∧ addressOf p b < r.toAddress
      · rw [if_pos hbetween]
        obtain ⟨-, -, hfrom, hto⟩ := hrange.mpr hbetween
        have hstop : (s.stops C p b.start).isSome :=
          h.written_iff.mpr ⟨b, hb, rfl, Option.ne_none_iff_exists'.mp hwritten⟩
        obtain ⟨e, he⟩ := Option.isSome_iff_exists.mp hstop
        have hmet := hpages.met b.start (mem_recordsOf.mpr ⟨hstop, hfrom, hto⟩)
        rw [if_neg (hpages.scannable.record b.start e he).header, hmet, hheaderAt]
      · rw [if_neg hbetween]
        have hnot : b.start ∉ r.records (s.stops C) p := fun hmem =>
          hbetween (hrange.mp ⟨hlo, hhi, (mem_recordsOf.mp hmem).2⟩)
        have hstop := ((h.imaged p).start_lt hb).1
        have hsame : Agree (x.log p) (log p) b.start (b.start + 8) :=
          fun i hlow hhigh => hpages.others i fun a ha =>
            haway a ha i hlow (by omega) fun heq => absurd (heq ▸ ha) hnot
        rw [hsame.readWord_eq, headerAt_congr hsame, if_neg hword, hheaderAt]
  · have hsame : x.log p = log p := hx.others p (by omega)
    refine ⟨fun header _ hread => ?_, fun i _ _ => congrFun hsame i⟩
    have houtside : ¬ (r.fromAddress ≤ addressOf p b ∧ addressOf p b < r.toAddress) :=
      fun hbetween => hin ⟨(hrange.mpr hbetween).1, (hrange.mpr hbetween).2.1⟩
    rw [if_neg houtside, ← hread, headerIn, headerIn, hpage, hsame]

theorem Cut.leads {hash : H} {l : List Nat} (hcut : Cut point r s) (h : s.Sound C)
    (hl : s.Line C hash l) (hx : Replayed C point r (s.stops C) s.memories s.copies x) :
    Leads s.header (x.entries hash) (l.filter (point.isOld s.header)) := by
  have hcuts := hcut.cuts hl
  have hfirst : kCacheLineBytes ≤ point.checkpointStartAddress := by
    rw [hcut.start_eq]
    exact (h.start _ hcut.start).1
  have hchain : l = [] ∨ ∃ a, Chain previous s.header kCacheLineBytes a l := by
    have hleads := hl.leads
    cases hentry : s.entries hash with
    | none =>
        rw [hentry] at hleads
        exact Or.inl hleads
    | some a =>
        rw [hentry] at hleads
        exact Or.inr ⟨a, hleads⟩
  have hentries : x.entries hash =
      point.replayAlong r.toAddress s.header hash l (s.copies hash) := by
    rw [hx.entries, foldl_replay, hcut.met_eq h hl]
    rfl
  rw [hentries]
  by_cases hmet : ∃ a ∈ l, point.inRange r.toAddress a = true
  · rcases hchain with rfl | ⟨a, hchain⟩
    · obtain ⟨a, ha, -⟩ := hmet
      cases ha
    · exact leads_replayAlong hfirst hchain hcuts hmet
  · have hnone (a : Nat) (ha : a ∈ l) : point.inRange r.toAddress a = false :=
      Bool.eq_false_of_not_eq_true fun hin => hmet ⟨a, ha, hin⟩
    have hempty : l.reverse.filter (point.inRange r.toAddress) = [] :=
      List.filter_eq_nil_iff.mpr fun a ha => by
        rw [hnone a (List.mem_reverse.mp ha)]
        nofun
    obtain ⟨entry, himage, hlast⟩ := hcut.copied hash
    have hcopies : s.copies hash = entry := by
      rw [LiveStore.copies, himage, Option.join_some]
    obtain ⟨l₁, l₂, rfl, hafter, hentry⟩ := hl.copied _ entry hcut.start himage
    rw [RecoveryPoint.replayAlong, hempty, hcopies]
    rw [← hcut.start_eq] at hafter
    exact leads_of_copied hcuts hafter hentry hlast hnone

/-- The store is rebuilt when the entries lead to the records that are to be recovered, and
the log is what the replay of its records makes of it. -/
theorem rebuilt_of_leads (h : s.Sound C) (hlined : s.Lined C)
    (hleads : ∀ hash l, s.Line C hash l →
      Leads s.header (x.entries hash) (l.filter (point.isOld s.header)))
    (hspec : ∀ a header, s.header a = some header → headerIn x.log a =
      if r.fromAddress ≤ a ∧ a < r.toAddress then some (recoverRecord point.version header)
      else some header)
    (hrest : ∀ p, ∀ b ∈ (s.pages p).blocks, ∀ i, b.start + 8 ≤ i → i < b.stop C →
      x.log p i = s.memories p i) : Rebuilt C point r s x := by
  refine ⟨fun hash => ?_, fun a ha hle hlt => ?_, hrest⟩
  · obtain ⟨l, hl⟩ := hlined hash
    have hread (a : Nat) (ha : a ∈ l) : headerIn s.memories a = s.header a := by
      obtain ⟨header, hheader, -⟩ := (hl.settled a ha).record
      rw [h.headerIn_eq hheader, hheader]
    have hfilter : l.filter (point.isOld (headerIn s.memories)) =
        l.filter (point.isOld s.header) :=
      List.filter_congr fun a ha => by
        rw [RecoveryPoint.isOld, RecoveryPoint.isOld, hread a ha]
    refine ⟨l, hl.leads.frame fun a ha => congrArg _ (hread a ha), ?_⟩
    rw [hfilter]
    refine (hleads hash l hl).frame fun a ha => ?_
    obtain ⟨hmem, hold⟩ := List.mem_filter.mp ha
    obtain ⟨header, hheader, -⟩ := (hl.settled a hmem).record
    rw [RecoveryPoint.isOld, hheader, Option.any_some, decide_eq_true_eq] at hold
    rw [hspec a header hheader, recoverRecord_old hold, ite_self, hheader]
  · obtain ⟨header, hheader⟩ := Option.ne_none_iff_exists'.mp ha
    rw [hspec a header hheader, if_pos ⟨hle, hlt⟩, h.headerIn_eq hheader]
    rfl

theorem Replayed.headerIn_eq {a : Nat} (h : s.Sound C)
    (hx : Replayed C point r (s.stops C) log entries x) (ha : s.header a ≠ none)
    (hread : headerIn log a = some header) : headerIn x.log a =
      if r.fromAddress ≤ a ∧ a < r.toAddress then some (recoverRecord point.version header)
      else some header := by
  obtain ⟨header', hheader⟩ := Option.ne_none_iff_exists'.mp ha
  obtain ⟨b, hb, -, hat⟩ := h.exists_block hheader
  rw [hat] at ha hread ⊢
  exact (hx.block_spec h hb).1 header ha hread

theorem Replayed.rebuilt (h : s.Sound C) (hlined : s.Lined C) (hcut : Cut point r s)
    (hx : Replayed C point r (s.stops C) s.memories s.copies x) : Rebuilt C point r s x := by
  refine rebuilt_of_leads h hlined (fun hash l hl => hcut.leads h hl hx) (fun a header ha => ?_)
    fun p b hb => (hx.block_spec h hb).2
  exact hx.headerIn_eq h (by rw [ha]; nofun) (h.headerIn_eq ha)

theorem LiveStore.Sound.returns (h : s.Sound C) (hcut : Cut point r s) :
    Returns C point r s.memories := by
  intro p entries
  obtain ⟨t, ht, -⟩ := recoverFromPage_replays (C := C) point p (s := ⟨s.memories p, entries, []⟩)
    (n := r.toOffset p - r.fromOffset p) (h.imaged p).scannable (h.stands hcut p) (r.toOffset_le p)
    (by omega)
  exact ⟨t, ht⟩

section Again

variable {y : Pass H}

omit [DecidableEq H] in
theorem recoverRecord_idem (version : BitVec 32) (header : RecordInfo) :
    recoverRecord version (recoverRecord version header) = recoverRecord version header := by
  by_cases hold : header.checkpointVersion.toNat ≤ version.toNat
  · rw [recoverRecord_old hold, recoverRecord_old hold]
  · cases hvalid : header.invalid with
    | true => rw [recoverRecord_invalid hvalid, recoverRecord_invalid hvalid]
    | false => rw [recoverRecord_new hvalid hold, recoverRecord_invalid rfl]

/-- The records that a second replay meets are those of the first, as it has left them. -/
theorem Replayed.metBefore_eq (hx : Replayed C point r (s.stops C) log entries x) :
    r.metBefore C (s.stops C) x.log r.endPage = (r.metBefore C (s.stops C) log r.endPage).map
      fun m => { m with header := recoverRecord point.version m.header } := by
  rw [LogRange.metBefore, LogRange.metBefore, List.map_flatMap]
  refine List.flatMap_congr fun p hp => ?_
  rw [List.mem_range'_1] at hp
  have hpages := hx.pages p hp.1 (by omega)
  rw [List.map_map]
  refine List.map_congr_left fun a ha => ?_
  obtain ⟨e, he⟩ := Option.isSome_iff_exists.mp (mem_recordsOf.mp ha).1
  rw [Function.comp_apply, Classes.met, Classes.met, hpages.met a ha, (hpages.same a e he).hash]

theorem Replayed.readable (hx : Replayed C point r (s.stops C) log entries x)
    (hlog : r.Readable C (s.stops C) log) : r.Readable C (s.stops C) x.log where
  scannable := fun p hlo hhi => (hx.pages p hlo hhi).scannable
  stands := fun p hlo hhi =>
    (hlog.stands p hlo hhi).imp (fun h => h.congr (hx.pages p hlo hhi).same) id

theorem Replayed.returns (hx : Replayed C point r (s.stops C) s.memories s.copies x)
    (h : s.Sound C) (hcut : Cut point r s) : Returns C point r x.log := by
  intro p entries
  by_cases hin : r.startPage ≤ p ∧ p < r.endPage
  · have hlog := hx.readable (h.readable hcut)
    obtain ⟨t, ht, -⟩ := recoverFromPage_replays (C := C) point p (s := ⟨x.log p, entries, []⟩)
      (n := r.toOffset p - r.fromOffset p) (hlog.scannable p hin.1 hin.2)
      (hlog.stands p hin.1 hin.2) (r.toOffset_le p) (by omega)
    exact ⟨t, ht⟩
  · rw [hx.others p (by omega)]
    exact h.returns hcut p entries

omit [DecidableEq H] in
theorem recoverRecord_valid_iff {version : BitVec 32} {header : RecordInfo} :
    (!(recoverRecord version header).invalid) =
      (!header.invalid && decide (header.checkpointVersion.toNat ≤ version.toNat)) := by
  by_cases hold : header.checkpointVersion.toNat ≤ version.toNat
  · rw [recoverRecord_old hold, decide_eq_true hold, Bool.and_true]
  · rw [decide_eq_false hold, Bool.and_false]
    cases hvalid : header.invalid with
    | true => rw [recoverRecord_invalid hvalid, hvalid]; rfl
    | false => rw [recoverRecord_new hvalid hold]; rfl

omit [DecidableEq H] in
theorem filter_metAlong {log : Nat → Option RecordInfo} {hash : H} {addresses : List Nat} :
    (metAlong log hash addresses).filter
        (fun m => decide (m.header.checkpointVersion.toNat ≤ point.version.toNat)) =
      metAlong log hash (addresses.filter (point.isOld log)) := by
  rw [metAlong, metAlong, List.filter_filterMap, List.filterMap_filter]
  refine List.filterMap_congr fun a _ => ?_
  rw [RecoveryPoint.isOld]
  cases log a with
  | none => rfl
  | some header => rw [Option.map_some, Option.filter_some, Option.any_some]

theorem Cut.replay_again {hash : H} {l : List Nat} (hcut : Cut point r s) (h : s.Sound C)
    (hl : s.Line C hash l) (hx : Replayed C point r (s.stops C) s.memories s.copies x)
    (hy : Replayed C point r (s.stops C) x.log s.copies y) : y.entries hash =
      point.replayAlong r.toAddress s.header hash (l.filter (point.isOld s.header))
        (s.copies hash) := by
  rw [hy.entries, foldl_replay, hx.metBefore_eq, List.filter_map]
  have hfilter : (r.metBefore C (s.stops C) s.memories r.endPage).filter
      ((fun m : Met H => decide (m.hash = hash) && !m.header.invalid) ∘
        fun m => { m with header := recoverRecord point.version m.header }) =
      metAlong s.header hash ((l.filter (point.isOld s.header)).reverse.filter
        (point.inRange r.toAddress)) := by
    rw [← List.filter_reverse, List.filter_comm, ← filter_metAlong, ← hcut.met_eq h hl,
      List.filter_filter]
    refine List.filter_congr fun m _ => ?_
    rw [Function.comp_apply, recoverRecord_valid_iff]
    rw [← Bool.and_assoc, Bool.and_comm]
  have hmap : (metAlong s.header hash ((l.filter (point.isOld s.header)).reverse.filter
      (point.inRange r.toAddress))).map
        (fun m => { m with header := recoverRecord point.version m.header }) =
      metAlong s.header hash ((l.filter (point.isOld s.header)).reverse.filter
        (point.inRange r.toAddress)) := by
    refine (List.map_congr_left fun m hm => ?_).trans (List.map_id _)
    obtain ⟨a, ha, hm⟩ := List.mem_filterMap.mp hm
    obtain ⟨header, hheader, rfl⟩ := Option.map_eq_some_iff.mp hm
    have hold := (List.mem_filter.mp (List.mem_reverse.mp (List.mem_filter.mp ha).1)).2
    rw [RecoveryPoint.isOld, hheader] at hold
    rw [recoverRecord_old (of_decide_eq_true hold)]
    rfl
  rw [hfilter, hmap]
  rfl

/-- The copied entries name no record of a later version. -/
def CopiesOld (point : RecoveryPoint) (s : LiveStore T H) : Prop :=
  ∀ hash a header, s.image hash = some (some a) → s.header a = some header →
    header.checkpointVersion.toNat ≤ point.version.toNat

theorem Cut.leads_again {hash : H} {l : List Nat} (hcut : Cut point r s)
    (hcopies : CopiesOld point s) (h : s.Sound C) (hl : s.Line C hash l)
    (hx : Replayed C point r (s.stops C) s.memories s.copies x)
    (hy : Replayed C point r (s.stops C) x.log s.copies y) :
    Leads s.header (y.entries hash) (l.filter (point.isOld s.header)) := by
  have hcuts := hcut.cuts hl
  have hfirst : kCacheLineBytes ≤ point.checkpointStartAddress := by
    rw [hcut.start_eq]
    exact (h.start _ hcut.start).1
  rw [hcut.replay_again h hl hx hy]
  by_cases hmet : ∃ a ∈ l.filter (point.isOld s.header), point.inRange r.toAddress a = true
  · have hleads := hcut.leads h hl hx
    have hagain : (l.filter (point.isOld s.header)).filter (point.isOld s.header) =
        l.filter (point.isOld s.header) := by
      rw [List.filter_filter]
      exact List.filter_congr fun a _ => Bool.and_self _
    cases hentry : x.entries hash with
    | none =>
        rw [hentry] at hleads
        obtain ⟨a, ha, -⟩ := hmet
        rw [show l.filter (point.isOld s.header) = [] from hleads] at ha
        cases ha
    | some a =>
        rw [hentry] at hleads
        have hreplayed : Leads s.header (point.replayAlong r.toAddress s.header hash
            (l.filter (point.isOld s.header)) (s.copies hash))
              ((l.filter (point.isOld s.header)).filter (point.isOld s.header)) :=
          leads_replayAlong hfirst hleads hcuts.filter hmet
        rwa [hagain] at hreplayed
  · have hnone (a : Nat) (ha : a ∈ l) (hold : point.isOld s.header a = true) :
        point.inRange r.toAddress a = false :=
      Bool.eq_false_of_not_eq_true fun hin => hmet ⟨a, List.mem_filter.mpr ⟨ha, hold⟩, hin⟩
    have hempty : (l.filter (point.isOld s.header)).reverse.filter (point.inRange r.toAddress) =
        [] :=
      List.filter_eq_nil_iff.mpr fun a ha => by
        obtain ⟨hmem, hold⟩ := List.mem_filter.mp (List.mem_reverse.mp ha)
        rw [hnone a hmem hold]
        nofun
    obtain ⟨entry, himage, -⟩ := hcut.copied hash
    have hentry : s.copies hash = entry := by
      rw [LiveStore.copies, himage, Option.join_some]
    obtain ⟨l₁, l₂, rfl, hafter, hleads⟩ := hl.copied _ entry hcut.start himage
    have hnew : l₁.filter (point.isOld s.header) = [] := by
      refine List.filter_eq_nil_iff.mpr fun a ha hold => ?_
      have hin := hnone a (List.mem_append_left _ ha) hold
      have hle := hafter a ha
      rw [RecoveryPoint.inRange, hcut.start_eq, decide_eq_false_iff_not] at hin
      have hlast := hcuts.new a (List.mem_append_left _ ha) (by omega)
      rw [hold] at hlast
      cases hlast
    have hall : l₂.filter (point.isOld s.header) = l₂ := by
      refine List.filter_eq_self.mpr fun a ha => ?_
      cases entry with
      | none =>
          rw [hleads] at ha
          cases ha
      | some b =>
          obtain ⟨header, hheader, -⟩ := (hl.settled a (List.mem_append_right _ ha)).record
          have hversions := (List.pairwise_append.mp hcuts.versions).2.1
          cases hleads with
          | nil => cases ha
          | cons hle hr hprev htail =>
              have hhead : point.isOld s.header b = true := by
                rw [RecoveryPoint.isOld, hr]
                exact decide_eq_true (hcopies hash b _ himage hr)
              rcases List.mem_cons.mp ha with rfl | ha
              · exact hhead
              · exact (List.pairwise_cons.mp hversions).1 a ha hhead
    rw [RecoveryPoint.replayAlong, hempty, hentry, List.filter_append, hnew, hall]
    exact hleads

end Again

end Rebuilding

section TwoVersions

def parity (b : Byte) : Fin 2 := if b.getLsbD 0 then 1 else 0

def parityKeys : Classes (Fin 2) where
  layout := kvcontext.layout
  keySize := fun _ _ => 8
  valueSize := fun _ _ => 8
  getHash := fun m a => parity (m a)
  keySize_congr := fun _ _ _ _ => rfl
  valueSize_congr := fun _ _ _ _ => rfl
  getHash_congr := fun _ _ a h => congrArg parity (h a le_rfl (Nat.lt_add_of_pos_right (by decide)))
  valueSize_blank := fun _ _ _ h _ => h

/-- The keys 5 and 7 have one hash.  Each is put by the first version, the index being copied
in between, and 5 again, in place, and by the second; a record of the key 6 is given up. -/
def twoVersions : List (StoreStep (Fin 2) (Fin 2)) :=
  [.findOrCreateEntry 0 (bytesOf 5) 1, .blockAllocate 0 8, .construct 0 1, .put 0 (bytesOf 50),
    .compareExchange 0, .findOrCreateEntry 1 (bytesOf 7) 1, .checkpoint, .refresh 0, .refresh 1,
    .copyEntries fun _ => true, .blockAllocate 1 8, .construct 1 1, .put 1 (bytesOf 70),
    .compareExchange 1, .updateInPlace 1 0 ⟨64, bytesOf 5, 8⟩ (bytesOf 55),
    .findOrCreateEntry 0 (bytesOf 5) 1, .blockAllocate 0 8, .construct 0 2,
    .put 0 (bytesOf 51), .compareExchange 0, .findOrCreateEntry 1 (bytesOf 6) 0,
    .blockAllocate 1 8, .construct 1 2, .giveUp 1]

def versionAt (s : LiveStore (Fin 2) (Fin 2)) (a : Nat) : Nat :=
  ((s.header a).map fun header => header.checkpointVersion.toNat).getD 0

def checked (s : LiveStore (Fin 2) (Fin 2)) : StoreStep (Fin 2) (Fin 2) → Bool
  | .findOrCreateEntry _ key hash => key.length == 8 && parity (key.headD 0) == hash
  | .blockAllocate t valueSize =>
      match s.writers t with
      | .found key _ _ => key.length == 8 && valueSize == 8
      | _ => true
  | .newPage => false
  | .put t value =>
      match s.writers t with
      | .constructed _ block _ _ => value.length == 8 && block.valueSize == 8
      | _ => true
  | .compareExchange t =>
      match s.writers t with
      | .constructed page block _ expected =>
          decide (versionAt s expected ≤ versionAt s (addressOf page block))
      | _ => true
  | .updateInPlace _ page block value =>
      match (s.pages page).stage block.start with
      | .filled _ old => value.length == 8 && old.length == 8
      | _ => false
  | .clear _ => false
  | .copyEntries _ => s.acknowledged 0
  | _ => true

theorem isValue_parityKeys {value : List Byte} (h : value.length = 8) : IsValue parityKeys value :=
  ⟨Nat.le_of_eq h.symm, fun _ _ _ => h.symm⟩

theorem isKey_parityKeys {key : List Byte} (h : key.length = 8) : IsKey parityKeys key :=
  ⟨Nat.le_of_eq h.symm, fun _ _ _ => h.symm⟩

theorem hasHash_parityKeys {key : List Byte} (h : key.length = 8) :
    parityKeys.HasHash key (parity (key.headD 0)) := by
  intro m a hread
  have hhead : key.headD 0 = m a := by
    rw [← hread, h]
    rfl
  rw [hhead]
  rfl

theorem orderly_of_checked {s : LiveStore (Fin 2) (Fin 2)} {step : StoreStep (Fin 2) (Fin 2)}
    (h : checked s step = true) : LiveStore.Orderly parityKeys s step := by
  cases step with
  | findOrCreateEntry t key hash =>
      simp only [checked, Bool.and_eq_true, beq_iff_eq] at h
      refine ⟨isKey_parityKeys h.1, ?_⟩
      rw [← h.2]
      exact hasHash_parityKeys h.1
  | blockAllocate t valueSize =>
      intro key hash expected hwriter
      simp only [checked, hwriter, Bool.and_eq_true, beq_iff_eq] at h
      obtain ⟨hkey, rfl⟩ := h
      have hextent : Block.extent parityKeys ⟨0, key, 8⟩ =
          Block.extent parityKeys ⟨0, bytesOf 0, 8⟩ := by
        rw [Block.extent, Block.extent, Block.keySize, Block.keySize, hkey]
        rfl
      refine ⟨isKey_parityKeys hkey, by decide, by rw [hkey]; decide, ?_⟩
      rw [hextent]
      decide
  | newPage => cases h
  | put t value =>
      intro page block hash expected hwriter
      simp only [checked, hwriter, Bool.and_eq_true, beq_iff_eq] at h
      obtain ⟨hvalue, hsize⟩ := h
      refine ⟨isValue_parityKeys hvalue, ?_⟩
      rw [hvalue, hsize]
      decide
  | compareExchange t =>
      intro page block hash expected hwriter header header' hheader hheader'
      simp only [checked, hwriter, decide_eq_true_eq, versionAt, hheader, hheader'] at h
      exact h
  | updateInPlace version page block value =>
      simp only [checked] at h
      split at h
      · rename_i header old hstage
        simp only [Bool.and_eq_true, beq_iff_eq] at h
        refine ⟨isValue_parityKeys h.1, fun header' old' hstage' => ?_⟩
        cases hstage.symm.trans hstage'
        rw [h.1, h.2]
      · cases h
  | clear hash => cases h
  | construct t version => trivial
  | giveUp t => trivial
  | checkpoint => trivial
  | checkpointDone => trivial
  | refresh t => trivial
  | copyEntries hashes => exact h
  | abandonBlock t => trivial

def fourRecords : LogRange := ⟨sixPages, 88, 160, by decide, Or.inl (by decide)⟩

def checkedCut (point : RecoveryPoint) (r : LogRange) (s : LiveStore (Fin 2) (Fin 2)) : Bool :=
  decide (s.start = some r.fromAddress ∧ point.checkpointStartAddress = r.fromAddress ∧
    s.page = 0 ∧ (∀ t, (s.writers t).address = none) ∧
    (∀ hash, s.image hash ≠ none ∧ (s.copies hash).all (· < r.toAddress)) ∧
    ∀ b ∈ (s.pages 0).blocks, b.start < r.toAddress ∧
      (b.start < r.fromAddress → versionAt s b.start ≤ point.version.toNat))

theorem cut_of_checked {point : RecoveryPoint} {r : LogRange} {s : LiveStore (Fin 2) (Fin 2)}
    (h : s.Sound parityKeys) (hchecked : checkedCut point r s = true) : Cut point r s := by
  obtain ⟨hstart, hpoint, hpage, hidle, himage, hblocks⟩ := of_decide_eq_true hchecked
  have hat (a : Nat) (header : RecordInfo) (ha : s.header a = some header) :
      a < r.toAddress ∧ (a < r.fromAddress →
        header.checkpointVersion.toNat ≤ point.version.toNat) := by
    obtain ⟨b, hb, hoffset, heq⟩ := h.exists_block ha
    have hfirst : pageOf a = 0 := by
      by_contra hne
      rw [h.ahead (pageOf a) (by omega)] at hb
      cases hb
    rw [hfirst] at hb heq
    have hsame : a = b.start := by
      rw [heq, addressOf, pageStart, Nat.zero_mul, Nat.zero_add]
    have hblock := hblocks b hb
    rw [← hsame, versionAt, ha] at hblock
    exact hblock
  refine ⟨hstart, hpoint, fun hash => ?_, fun t a ha => ?_,
    fun a header ha _ => (hat a header ha).2,
    fun a header ha _ hle => absurd (hat a header ha).1 (Nat.not_lt.mpr hle)⟩
  · obtain ⟨hsome, hlt⟩ := himage hash
    obtain ⟨entry, hentry⟩ := Option.ne_none_iff_exists'.mp hsome
    refine ⟨entry, hentry, fun a ha => ?_⟩
    rw [LiveStore.copies, hentry, ha] at hlt
    exact of_decide_eq_true hlt
  · rw [hidle t] at ha
    cases ha

theorem twoVersions_spec : ∃ s : LiveStore (Fin 2) (Fin 2),
    runActions (LiveStore.next · parityKeys) .initial twoVersions = some s ∧
      Reaches (LiveStore.next · parityKeys) (LiveStore.Orderly parityKeys) .initial s ∧
      s.entries 1 = some 112 ∧ Cut ⟨1, 88⟩ fourRecords s ∧ CopiesOld ⟨1, 88⟩ s := by
  have hview : (runActions (LiveStore.next · parityKeys) .initial twoVersions).map (fun s =>
      decide (s.entries 1 = some 112 ∧ checkedCut ⟨1, 88⟩ fourRecords s = true ∧
        ∀ hash, (s.copies hash).all fun a => versionAt s a ≤ 1)) = some true := by
    decide +kernel
  have hchecked : Admits (LiveStore.next · parityKeys) (fun s step => checked s step = true)
      .initial twoVersions := by
    decide +kernel
  obtain ⟨s, hs, hdecide⟩ := Option.map_eq_some_iff.mp hview
  obtain ⟨hentry, hcut, hcopies⟩ := of_decide_eq_true hdecide
  have hreach := (reaches_of_runActions hchecked hs).mono fun _ _ => orderly_of_checked
  have h := (LiveStore.sound_lined_of_reaches hreach).1
  refine ⟨s, hs, hreach, hentry, cut_of_checked h hcut, fun hash a header ha hheader => ?_⟩
  have hversion := hcopies hash
  rw [LiveStore.copies, ha, Option.join_some, Option.all_some, versionAt, hheader] at hversion
  exact of_decide_eq_true hversion

end TwoVersions

end HashComp.Recovery
