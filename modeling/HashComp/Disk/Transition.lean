import HashComp.Disk.Invariant

namespace HashComp.Disk

open HashComp.Faster
open HashComp.RecordChain
open HashComp.Runs

variable {K : Type} {L : Layout K} {numThreads : Nat} {s : Store K} {x y : System K}
  {t u a slot address newAddress : Nat} {key : K} {expected : HashBucketEntry} {r : Record K}
  {io : AsyncIOContext K} {op : Request K} {pc : Pc} {job : Option (Job K)} {m : Move K}

section Places

@[simp] theorem goto_pc_self : (x.goto t s pc).pc t = pc :=
  Function.update_self ..

theorem goto_pc_of_ne (h : u ≠ t) : (x.goto t s pc).pc u = x.pc u :=
  Function.update_of_ne h ..

@[simp] theorem finish_pc_self : (x.finish t s).pc t = .idle :=
  Function.update_self ..

@[simp] theorem finish_job_self : (x.finish t s).job t = none :=
  Function.update_self ..

variable {touched : Option Nat}

theorem Inv.lt_numThreads (h : Inv L numThreads x) (hpc : x.pc t ≠ .idle) : t < numThreads := by
  by_contra hge
  exact hpc (h.idle t (Nat.not_lt.mp hge))

theorem Inv.goto (h : Inv L numThreads x) (hs : Sound s) (hc : Change x.store s touched)
    (htouched : ∀ a, touched = some a → x.pc t = .updating a ∨ (x.pc t).creates = some a)
    (hsafe : s.safeReadOnlyAddress = x.store.safeReadOnlyAddress) (hbusy : x.pc t ≠ .idle)
    (hself : Knows L s (x.job t) pc)
    (hcreates : ∀ a, pc.creates = some a → (x.pc t).creates = some a ∨ x.store.log a = none)
    (hbelow : pc.Below s.safeReadOnlyAddress x.safeHeadAddress) :
    Inv L numThreads (x.goto t s pc) := by
  refine h.move hs hc htouched hsafe rfl (fun _ hu => goto_pc_of_ne hu) (fun _ _ => rfl) ?_
    (fun _ _ => Or.inl) ?_ ?_ (Or.inl (h.lt_numThreads hbusy))
  · rw [goto_pc_self]
    exact hself
  · rw [goto_pc_self]
    exact hcreates
  · rw [goto_pc_self]
    exact hbelow

theorem Inv.finish (h : Inv L numThreads x) (hs : Sound y.store)
    (hc : Change x.store y.store touched)
    (htouched : ∀ a, touched = some a → x.pc t = .updating a ∨ (x.pc t).creates = some a)
    (hsafe : y.store.safeReadOnlyAddress = x.store.safeReadOnlyAddress)
    (hclosed : y.safeHeadAddress = x.safeHeadAddress)
    (hpc : y.pc = Function.update x.pc t .idle) (hjob : y.job = Function.update x.job t none)
    (hios : ∀ u, ∀ io ∈ y.ios u, io ∈ x.ios u ∨ io.Known L y.store) : Inv L numThreads y := by
  have hself : y.pc t = .idle := by
    rw [hpc, Function.update_self]
  refine h.move hs hc htouched hsafe hclosed (fun u hu => ?_) (fun u hu => ?_) ?_ hios ?_ ?_
    (Or.inr hself)
  · rw [hpc, Function.update_of_ne hu]
  · rw [hjob, Function.update_of_ne hu]
  · rw [hjob, Function.update_self]
    exact hself
  · rw [hself]
    nofun
  · rw [hself]
    exact ⟨trivial, trivial⟩

theorem Inv.issue {context : PendingContext K} (h : Inv L numThreads x) (hs : Sound s)
    (hc : Change x.store s touched)
    (htouched : ∀ a, touched = some a → x.pc t = .updating a ∨ (x.pc t).creates = some a)
    (hsafe : s.safeReadOnlyAddress = x.store.safeReadOnlyAddress) (hknown : context.Known L s) :
    Inv L numThreads (x.issue t s context) := by
  refine h.finish (t := t) hs hc htouched hsafe rfl rfl rfl fun u io hio => ?_
  change io ∈ Function.update x.ios t _ u at hio
  by_cases hu : u = t
  · subst u
    rw [Function.update_self, List.mem_append, List.mem_singleton] at hio
    refine hio.imp_right ?_
    rintro rfl
    exact ⟨hknown, .refl _, fun _ => hknown.begin, nofun⟩
  · rw [Function.update_of_ne hu] at hio
    exact Or.inl hio

theorem Inv.take (h : Inv L numThreads x) (hs : Sound y.store)
    (hc : Change x.store y.store touched)
    (htouched : ∀ a, touched = some a → x.pc t = .updating a ∨ (x.pc t).creates = some a)
    (hsafe : y.store.safeReadOnlyAddress = x.store.safeReadOnlyAddress)
    (hclosed : y.safeHeadAddress = x.safeHeadAddress) (ht : t < numThreads)
    (hpc : y.pc = Function.update x.pc t pc) (hjob : y.job = Function.update x.job t job)
    (hself : Knows L y.store job pc) (hcreates : pc.creates = none)
    (hbelow : pc.Below y.store.safeReadOnlyAddress y.safeHeadAddress)
    (hios : ∀ u, ∀ io ∈ y.ios u, io ∈ x.ios u) : Inv L numThreads y := by
  have hat : y.pc t = pc := by
    rw [hpc, Function.update_self]
  refine h.move hs hc htouched hsafe hclosed (fun u hu => ?_) (fun u hu => ?_) ?_
    (fun u io hio => Or.inl (hios u io hio)) ?_ ?_ (Or.inl ht)
  · rw [hpc, Function.update_of_ne hu]
  · rw [hjob, Function.update_of_ne hu]
  · rw [hjob, Function.update_self, hat]
    exact hself
  · rw [hat, hcreates]
    nofun
  · rw [hat]
    exact hbelow

end Places

section Calls

theorem not_touched_none {P : Nat → Prop} : ∀ a, (none : Option Nat) = some a → P a :=
  nofun

theorem Expected.of_inSlot (he : InSlot (s.buckets (L.idx key)) slot expected)
    (htag : expected.tag = L.tag key) : Expected L s key expected :=
  ⟨htag, slot, expected, he, htag, .refl _⟩

theorem Expected.stored (h : Expected L s key expected) (hs : Sound s) :
    Stored s expected.address :=
  h.onChain.stored hs

theorem Fresh.setRecord {r' : Record K} (h : Fresh s key expected newAddress r)
    (hkey : r'.key = r.key) (hprev : r'.previousAddress = r.previousAddress) :
    Fresh (setRecord s newAddress r') key expected newAddress r' where
  record := setRecord_log_self
  key := hkey.trans h.key
  previous := hprev.trans h.previous
  begin := h.begin
  unlinked := h.unlinked.setRecord h.record hprev

theorem Fresh.lt (h : Fresh s key expected newAddress r) (hs : Sound s) :
    expected.address < newAddress := by
  rw [← h.previous]
  exact (hs.links _ _ h.record).1

theorem Inv.decide (h : Inv L numThreads x) (hjob : x.job t = some (.call op))
    {headAddress readOnlyAddress : Nat}
    (hpc : x.pc t = .loadingSafe slot expected headAddress readOnlyAddress)
    (he : Expected L x.store op.key expected) (hle : headAddress ≤ x.store.headAddress)
    (hsearch : Searches x.store op.key headAddress expected.address address)
    (hfound : address < headAddress ∨
      headAddress ≤ address ∧ ∃ r, x.store.log address = some r ∧ r.key = op.key) :
    Inv L numThreads (x.decide t slot expected headAddress readOnlyAddress address op) := by
  have hbusy : x.pc t ≠ .idle := by
    rw [hpc]
    nofun
  have hseen : x.store.safeReadOnlyAddress ≤ readOnlyAddress := by
    have := h.safe t
    rw [hpc] at this
    exact this
  have hupdating : readOnlyAddress ≤ address →
      Inv L numThreads (x.goto t x.store (.updating address)) := by
    intro hmutable
    refine h.goto h.sound (.refl _) not_touched_none rfl hbusy ?_ nofun
      ⟨Nat.le_trans hseen hmutable, trivial⟩
    rw [hjob]
    refine ⟨he.onChain.follows hsearch.misses.follows, ?_⟩
    rcases hfound with hlt | ⟨-, r, hr, -⟩
    · have := h.sound.safe
      omega
    · exact ⟨r, hr⟩
  have hcreating : Inv L numThreads (x.goto t x.store (.creating slot expected address)) := by
    refine h.goto h.sound (.refl _) not_touched_none rfl hbusy ?_ nofun ⟨trivial, trivial⟩
    rw [hjob]
    exact ⟨he, hsearch.misses⟩
  cases op with
  | upsert k input =>
      simp only [System.decide]
      split
      · rename_i hmutable
        exact hupdating hmutable
      · exact hcreating
  | rmw k incr =>
      simp only [System.decide]
      split
      · rename_i hmutable
        exact hupdating hmutable
      · split
        · exact h.finish (t := t) h.sound (.refl _) not_touched_none rfl rfl rfl rfl fun _ _ => Or.inl
        · split
          · exact hcreating
          · rename_i hdisk
            split
            · rename_i hbegin
              refine h.issue h.sound (.refl _) not_touched_none rfl
                ⟨he.onChain, hsearch.misses, hbegin, ?_⟩
              change address < x.store.headAddress
              omega
            · exact hcreating

theorem Inv.fill (h : Inv L numThreads x) (hjob : x.job t = some (.call op))
    (hpc : x.pc t = .filling slot expected address newAddress)
    (hy : x.fill t slot expected address newAddress op = some y) : Inv L numThreads y := by
  have hbusy : x.pc t ≠ .idle := by
    rw [hpc]
    nofun
  have hknows : (x.pc t).Calls L x.store op := by
    have := h.threads t
    rwa [hjob] at this
  rw [hpc] at hknows
  obtain ⟨he, hmisses, r, hfresh⟩ := hknows
  have hown : ∀ a, some newAddress = some a → x.pc t = .updating a ∨ (x.pc t).creates = some a := by
    intro a ha
    rw [hpc]
    exact Or.inr ha
  have hfill : ∀ v z, (setValue x.store newAddress v).map
      (fun s => x.goto t s (.publishing slot expected newAddress)) = some z →
      Inv L numThreads z := by
    intro v z hz
    rw [setValue_eq hfresh.record, Option.map_some] at hz
    cases hz
    have hc := change_setRecord { r with value := v } hfresh.record rfl rfl
    refine h.goto (h.sound.setRecord hfresh.record rfl) hc hown rfl hbusy ?_ ?_ ⟨trivial, trivial⟩
    · rw [hjob]
      exact ⟨he.change hc, _, hfresh.setRecord rfl rfl⟩
    · intro a ha
      rw [hpc]
      exact Or.inl ha
  cases op with
  | upsert k input => exact hfill input y hy
  | rmw k incr =>
      simp only [System.fill] at hy
      split at hy
      · exact hfill incr y hy
      · rename_i hbegin
        split at hy
        · split at hy
          · cases hy
          · exact hfill _ y hy
        · rename_i hhead
          cases hy
          rw [invalidate_eq hfresh.record]
          have hc := change_setRecord { r with invalid := true } hfresh.record rfl rfl
          refine h.issue (h.sound.setRecord hfresh.record rfl) hc hown rfl
            ⟨hc.onChain he.onChain, hc.misses hmisses, ?_, ?_⟩
          · exact Nat.not_lt.mp hbegin
          · exact Nat.not_le.mp hhead

theorem Inv.exchange (h : Inv L numThreads x) (hcreates : (x.pc t).creates = some newAddress)
    (he : InSlot (x.store.buckets (L.idx key)) slot expected) (htag : expected.tag = L.tag key)
    (hfresh : Fresh x.store key expected newAddress r) :
    Inv L numThreads (x.finish t
      (replaceEntry x.store (L.idx key) slot (some ⟨newAddress, L.tag key, false⟩))) := by
  rw [← htag]
  refine h.finish (t := t) (h.sound.publish he hfresh)
    (change_publish he hfresh (hfresh.lt h.sound)) ?_ rfl rfl rfl rfl fun _ _ => Or.inl
  rintro a ⟨⟩
  exact Or.inr hcreates

variable [DecidableEq K]

theorem Inv.stepCall (h : Inv L numThreads x) (hjob : x.job t = some (.call op))
    (hy : x.stepCall L t op = some y) : Inv L numThreads y := by
  have hknows : (x.pc t).Calls L x.store op := by
    have := h.threads t
    rwa [hjob] at this
  unfold System.stepCall at hy
  cases hpc : x.pc t <;> simp only [hpc] at hy <;> rw [hpc] at hknows
  case finding =>
    obtain ⟨slot, expected, bucket, hfind, hat⟩ :=
      findOrCreateEntry_step (L := L) h.sound op.key
    rw [hfind, Option.map_some] at hy
    cases hy
    refine h.goto hat.sound hat.change not_touched_none rfl (by rw [hpc]; nofun) ?_ nofun
      ⟨trivial, trivial⟩
    rw [hjob]
    exact .of_inSlot hat.slot hat.tag
  case loadingHead slot expected =>
    cases hy
    refine h.goto h.sound (.refl _) not_touched_none rfl (by rw [hpc]; nofun) ?_ nofun
      ⟨trivial, h.safeHead⟩
    rw [hjob]
    exact ⟨hknows, h.sound.head, Nat.le_refl _⟩
  case loadingReadOnly slot expected headAddress =>
    cases hy
    have hhead := h.head t
    rw [hpc] at hhead
    refine h.goto h.sound (.refl _) not_touched_none rfl (by rw [hpc]; nofun) ?_ nofun
      ⟨h.sound.readOnly, hhead⟩
    rw [hjob]
    exact hknows
  case loadingSafe slot expected headAddress readOnlyAddress =>
    obtain ⟨he, hbegin, hhead⟩ := hknows
    obtain ⟨found, hfind, hsearch, -, hfound⟩ :=
      h.sound.search_spec op.key hbegin (he.stored h.sound)
    have hopen := h.head t
    rw [hpc] at hopen
    rw [if_neg (Nat.not_lt.mpr hopen), hfind, Option.map_some] at hy
    cases hy
    exact h.decide hjob hpc he hhead hsearch hfound
  case updating address =>
    obtain ⟨hchain, r, hr⟩ := hknows
    simp only [hr, setValue_eq hr, Option.map_some] at hy
    cases hy
    refine h.finish (t := t) (h.sound.setRecord hr rfl) (change_setRecord _ hr rfl rfl) ?_ rfl rfl
      rfl rfl fun _ _ => Or.inl
    rintro a ⟨⟩
    exact Or.inl hpc
  case creating slot expected address =>
    obtain ⟨he, hmisses⟩ := hknows
    cases hy
    have hc := change_allocate h.sound op.key 0 he.onChain
    refine h.goto (h.sound.allocate (he.stored h.sound)) hc not_touched_none rfl
      (by rw [hpc]; nofun) ?_ ?_ ⟨trivial, trivial⟩
    · rw [hjob]
      exact ⟨he.change hc, hc.misses hmisses, _, fresh_allocate h.sound (he.stored h.sound)⟩
    · rintro a ⟨⟩
      exact Or.inr (h.sound.free _ (tailAddress_le_blockAllocate _))
  case filling => exact h.fill hjob hpc hy
  case publishing slot expected newAddress =>
    obtain ⟨he, r, hfresh⟩ := hknows
    split at hy
    · rename_i hslot
      cases hy
      exact h.exchange (by rw [hpc]; rfl) hslot he.tag hfresh
    · cases hy
      rw [invalidate_eq hfresh.record]
      refine h.goto (h.sound.setRecord hfresh.record rfl)
        (change_setRecord _ hfresh.record rfl rfl) ?_ rfl (by rw [hpc]; nofun) ?_ nofun
        ⟨trivial, trivial⟩
      · rintro a ⟨⟩
        rw [hpc]
        exact Or.inr rfl
      · rw [hjob]
        trivial
  all_goals cases hy

end Calls

section Continues

/-- A search past the remembered entry of a request has found no newer record of
its key. -/
theorem misses_of_not_retry {headAddress : Nat} (hio : io.Known L s)
    (hsearch : Searches s io.callerContext.key headAddress expected.address address)
    (hfollows : Follows s expected.address io.callerContext.entry.address)
    (hle : address ≤ io.callerContext.entry.address) :
    Misses s io.callerContext.key expected.address io.address := by
  obtain ⟨hto, -⟩ := hsearch.split hfollows hle
  exact (Searches.misses hto).trans (hio.context.misses.trans hio.misses)

theorem AsyncIOContext.Known.value_isSome (h : io.Known L s) (hr : io.responded = true) :
    ∃ v, io.value s.beginAddress = some v := by
  unfold AsyncIOContext.value
  split
  · exact ⟨_, rfl⟩
  · rename_i hbegin
    obtain ⟨r, r', hrecord, -⟩ := (h.ends hr).resolve_left hbegin
    rw [hrecord]
    exact ⟨_, rfl⟩

variable [DecidableEq K]

theorem Inv.stepContinue (h : Inv L numThreads x) (hjob : x.job t = some (.continuing io))
    (hy : x.stepContinue L t io = some y) : Inv L numThreads y := by
  have hknows : io.Known L x.store ∧ io.responded = true ∧ (x.pc t).Continues L x.store io := by
    have := h.threads t
    rwa [hjob] at this
  obtain ⟨hio, hresponded, hknows⟩ := hknows
  unfold System.stepContinue at hy
  cases hpc : x.pc t <;> simp only [hpc] at hy <;> rw [hpc] at hknows
  case resuming =>
    obtain ⟨slot, expected, bucket, hfind, hat⟩ :=
      findOrCreateEntry_step (L := L) h.sound io.callerContext.key
    rw [hfind, Option.map_some] at hy
    cases hy
    refine h.goto hat.sound hat.change not_touched_none rfl (by rw [hpc]; nofun) ?_ nofun
      ⟨trivial, trivial⟩
    rw [hjob]
    exact ⟨hio.change h.sound hat.change not_touched_none, hresponded,
      .of_inSlot hat.slot hat.tag,
      (hat.change.onChain hio.context.onChain).from_entry hat.sound hat.slot hat.tag⟩
  case rechecking slot expected =>
    obtain ⟨he, hfollows⟩ := hknows
    obtain ⟨found, hfind, hsearch, -, -⟩ :=
      h.sound.search_spec io.callerContext.key h.sound.head (he.stored h.sound)
    rw [hfind, Option.map_some] at hy
    split at hy
    · cases hy
      exact h.take (t := t) h.sound (.refl _) not_touched_none rfl rfl
        (h.lt_numThreads (by rw [hpc]; nofun)) rfl rfl trivial rfl ⟨trivial, trivial⟩
        fun _ _ hio => hio
    · rename_i hle
      cases hy
      refine h.goto h.sound (.refl _) not_touched_none rfl (by rw [hpc]; nofun) ?_ nofun
        ⟨trivial, trivial⟩
      rw [hjob]
      exact ⟨hio, hresponded, he, misses_of_not_retry hio hsearch hfollows (Nat.not_lt.mp hle)⟩
  case appending slot expected address =>
    obtain ⟨he, hmisses⟩ := hknows
    obtain ⟨v, hv⟩ := hio.value_isSome hresponded
    rw [hv, Option.map_some] at hy
    cases hy
    have hc := change_allocate h.sound io.callerContext.key v he.onChain
    refine h.goto (h.sound.allocate (he.stored h.sound)) hc not_touched_none rfl
      (by rw [hpc]; nofun) ?_ ?_ ⟨trivial, trivial⟩
    · rw [hjob]
      exact ⟨hio.change h.sound hc not_touched_none, hresponded, he.change hc, hc.misses hmisses,
        _, fresh_allocate h.sound (he.stored h.sound), hv⟩
    · rintro a ⟨⟩
      exact Or.inr (h.sound.free _ (tailAddress_le_blockAllocate _))
  case swapping slot expected address newAddress =>
    obtain ⟨he, hmisses, r, hfresh, hvalue⟩ := hknows
    split at hy
    · rename_i hslot
      cases hy
      exact h.exchange (by rw [hpc]; rfl) hslot he.tag hfresh
    · cases hy
      rw [invalidate_eq hfresh.record]
      refine h.take (t := t) (h.sound.setRecord hfresh.record rfl)
        (change_setRecord _ hfresh.record rfl rfl) ?_ rfl rfl
        (h.lt_numThreads (by rw [hpc]; nofun)) rfl rfl trivial rfl ⟨trivial, trivial⟩
        fun _ _ hio => hio
      rintro a ⟨⟩
      rw [hpc]
      exact Or.inr rfl
  all_goals cases hy

end Continues

section Runs

theorem Inv.shift (h : Inv L numThreads x) (hs : Sound s) (hc : Change x.store s none)
    (hsafe : ∀ t < numThreads, (x.pc t).SafeBelow s.safeReadOnlyAddress) :
    Inv L numThreads { x with store := s } where
  sound := hs
  threads := fun t => (h.threads t).change h.sound hc not_touched_none nofun
  ios := fun t io hio => (h.ios t io hio).change h.sound hc not_touched_none
  exclusive := h.exclusive
  safe := by
    intro t
    rcases Nat.lt_or_ge t numThreads with hlt | hge
    · exact hsafe t hlt
    · change (x.pc t).SafeBelow _
      rw [h.idle t hge]
      trivial
  head := h.head
  safeHead := Nat.le_trans h.safeHead hc.head
  idle := h.idle

theorem Inv.closePages (h : Inv L numThreads x) (hle : address ≤ x.store.headAddress)
    (hhead : ∀ t < numThreads, (x.pc t).HeadBelow address) :
    Inv L numThreads { x with safeHeadAddress := address } where
  sound := h.sound
  threads := h.threads
  ios := h.ios
  exclusive := h.exclusive
  safe := h.safe
  head := by
    intro t
    rcases Nat.lt_or_ge t numThreads with hlt | hge
    · exact hhead t hlt
    · change (x.pc t).HeadBelow _
      rw [h.idle t hge]
      trivial
  safeHead := hle
  idle := h.idle

theorem inv_start : Inv L numThreads (System.start : System K) where
  sound := sound_new
  threads := fun _ => rfl
  ios := nofun
  exclusive := nofun
  safe := fun _ => trivial
  head := fun _ => trivial
  safeHead := Nat.le_refl _
  idle := fun _ _ => rfl

variable [DecidableEq K]

theorem AsyncIOContext.Known.read {io' : AsyncIOContext K} (h : io.Known L s) (hs : Sound s)
    (hread : io.read s = some io') : io'.Known L s := by
  unfold AsyncIOContext.read at hread
  split at hread
  · cases hread
  · split at hread
    · cases hread
    · rename_i record hrecord
      split at hread
      · rename_i hkey
        cases hread
        exact ⟨h.context, h.misses, nofun,
          fun _ => Or.inr ⟨record, record, rfl, hrecord, hkey.symm, rfl⟩⟩
      · rename_i hkey
        cases hread
        refine ⟨h.context, h.misses.trans (.step hrecord (Ne.symm hkey) (hs.links _ _ hrecord).1
          (.refl _)), fun hr => ?_, fun hr => Or.inl ?_⟩
        · exact Nat.not_lt.mp (of_decide_eq_false hr)
        · exact of_decide_eq_true hr

/-- What holds of the other threads and of thread id 0 holds of all. -/
theorem all_of_zero {P : Nat → Prop} (hzero : P 0) (hothers : ∀ t < numThreads, t ≠ 0 → P t) :
    ∀ t < numThreads, P t := by
  intro t ht
  by_cases h0 : t = 0
  · rwa [h0]
  · exact hothers t ht h0

theorem Inv.next (h : Inv L numThreads x) (hzero : ZeroSafe x m)
    (hnext : x.next L numThreads m = some y) : Inv L numThreads y := by
  cases m with
  | call t op =>
      simp only [System.next] at hnext
      split at hnext
      · rename_i hidle
        cases hnext
        exact h.take (t := t) h.sound (.refl _) not_touched_none rfl rfl hidle.1 rfl rfl trivial
          rfl ⟨trivial, trivial⟩ fun _ _ hio => hio
      · cases hnext
  | run t =>
      simp only [System.next] at hnext
      split at hnext
      · cases hnext
      · rename_i op hjob
        exact h.stepCall hjob hnext
      · rename_i io hjob
        exact h.stepContinue hjob hnext
  | completeIo t i =>
      simp only [System.next] at hnext
      split at hnext
      · cases hnext
      · rename_i io hat
        split at hnext
        · rename_i hidle
          cases hnext
          refine h.take (t := t) h.sound (.refl _) not_touched_none rfl rfl hidle.1 rfl rfl
            ⟨h.ios t io (List.mem_of_getElem? hat), hidle.2.2, trivial⟩ rfl ⟨trivial, trivial⟩
            fun u io' hio' => ?_
          change io' ∈ Function.update x.ios t _ u at hio'
          by_cases hu : u = t
          · subst u
            rw [Function.update_self] at hio'
            exact List.mem_of_mem_eraseIdx hio'
          · rwa [Function.update_of_ne hu] at hio'
        · cases hnext
  | completeRetry t i =>
      simp only [System.next] at hnext
      split at hnext
      · cases hnext
      · split at hnext
        · rename_i hidle
          cases hnext
          exact h.take (t := t) h.sound (.refl _) not_touched_none rfl rfl hidle.1 rfl rfl trivial
            rfl ⟨trivial, trivial⟩ fun _ _ hio => hio
        · cases hnext
  | readDisk t i =>
      simp only [System.next] at hnext
      split at hnext
      · cases hnext
      · rename_i io hat
        obtain ⟨io', hread, rfl⟩ := Option.map_eq_some_iff.mp hnext
        refine ⟨h.sound, h.threads, fun u io'' hio => ?_, h.exclusive, h.safe, h.head, h.safeHead,
          h.idle⟩
        change io'' ∈ Function.update x.ios t _ u at hio
        by_cases hu : u = t
        · subst u
          rw [Function.update_self] at hio
          rcases List.mem_or_eq_of_mem_set hio with hio | rfl
          · exact h.ios _ io'' hio
          · exact (h.ios _ io (List.mem_of_getElem? hat)).read h.sound hread
        · rw [Function.update_of_ne hu] at hio
          exact h.ios u io'' hio
  | shiftReadOnly address =>
      simp only [System.next] at hnext
      split at hnext
      · rename_i hle
        cases hnext
        have hs := h.sound
        exact h.shift ⟨hs.begin, hs.head, hs.safe, Nat.le_trans hs.readOnly hle.1, hle.2, hs.free,
          hs.low, hs.settled, hs.links, hs.entries⟩ (.of_same rfl (Nat.le_refl _) rfl rfl)
          fun t _ => h.safe t
      · cases hnext
  | shiftSafeReadOnly address =>
      simp only [System.next] at hnext
      split at hnext
      · rename_i hle
        cases hnext
        have hs := h.sound
        exact h.shift ⟨hs.begin, hs.head, Nat.le_trans hs.safe hle.1, hle.2.1, hs.tail, hs.free,
          hs.low, hs.settled, hs.links, hs.entries⟩ (.of_same rfl (Nat.le_refl _) rfl rfl)
          (all_of_zero hzero hle.2.2)
      · cases hnext
  | shiftHead address =>
      simp only [System.next] at hnext
      split at hnext
      · rename_i hle
        cases hnext
        have hs := h.sound
        exact h.shift ⟨hs.begin, Nat.le_trans hs.head hle.1, hle.2, hs.readOnly, hs.tail, hs.free,
          hs.low, hs.settled, hs.links, hs.entries⟩ (.of_same rfl hle.1 rfl rfl) fun t _ => h.safe t
      · cases hnext
  | closePages address =>
      simp only [System.next] at hnext
      split at hnext
      · rename_i hle
        cases hnext
        exact h.closePages hle.2.1 (all_of_zero hzero hle.2.2)
      · cases hnext

theorem inv_of_reaches (h : Reaches (System.next L numThreads) ZeroSafe System.start x) :
    Inv L numThreads x :=
  h.invariant inv_start fun _ _ _ hs hzero hnext => hs.next hzero hnext

end Runs

end HashComp.Disk
