import HashComp.Interleaved.Transition
import HashComp.Library.Runs

namespace HashComp.Interleaved

open HashComp.Faster
open HashComp.Histories
open HashComp.RecordChain
open HashComp.Runs

variable {K : Type} [DecidableEq K] {L : Layout K} {x y : System K}
  {t u slot a called since : Nat} {op : Request K} {key : K} {pc : Pc}

section Stored

/-- The key is found through this slot, with a value that has been written at
`since` or later. -/
def StoredAt (L : Layout K) (x : System K) (key : K) (since slot : Nat) : Prop :=
  ∃ a, FoundAt L x.store key slot a ∧ Recent x key since a

def Stored (L : Layout K) (x : System K) (key : K) (since : Nat) : Prop :=
  ∃ slot, StoredAt L x key since slot

def Covered (L : Layout K) (x : System K) (key : K) (since a : Nat) : Prop :=
  Stored L x key since ∨ ∃ slot, FoundAt L x.store key slot a

/-- Whoever looks for the key finds it where it was, or what has just been put in
front. -/
structure Serves (L : Layout K) (x y : System K) (key : K) : Prop where
  carries : Carries x y
  found : ∀ slot a, FoundAt L x.store key slot a →
    FoundAt L y.store key slot a ∨
      ∃ a', FoundAt L y.store key slot a' ∧ Recent y key x.history.clock a'

theorem StoredAt.serves (hst : StoredAt L x key since slot) (h : Serves L x y key)
    (hsince : since ≤ x.history.clock) : StoredAt L y key since slot := by
  obtain ⟨a, hf, hrecent⟩ := hst
  rcases h.found slot a hf with hf | ⟨a', hf, hrecent'⟩
  · exact ⟨a, hf, hrecent.carries h.carries hsince⟩
  · exact ⟨a', hf, hrecent'.mono hsince⟩

theorem Stored.serves (hst : Stored L x key since) (h : Serves L x y key)
    (hsince : since ≤ x.history.clock) : Stored L y key since := by
  obtain ⟨slot, hst⟩ := hst
  exact ⟨slot, hst.serves h hsince⟩

theorem Covered.serves (hcov : Covered L x key since a) (h : Serves L x y key)
    (hsince : since ≤ x.history.clock) : Covered L y key since a := by
  rcases hcov with hst | ⟨slot, hf⟩
  · exact Or.inl (hst.serves h hsince)
  · rcases h.found slot a hf with hf | ⟨a', hf, hrecent⟩
    · exact Or.inr ⟨slot, hf⟩
    · exact Or.inl ⟨slot, a', hf, hrecent.mono hsince⟩

end Stored

section Places

/-- What a call of `Upsert` or `Rmw` that began at `since` has made sure of. -/
def Pc.Writing (L : Layout K) (x : System K) (key : K) (since : Nat) : Pc → Prop
  | .locating _ expected =>
      ∃ l, Linked L x.store (L.idx key) (L.tag key) expected.address l ∧
        ∀ a, firstOf Record.key x.store.log key l = some a → Covered L x key since a
  | .updating a => Covered L x key since a
  | .done .ok => Stored L x key since
  | .comparing _ _ | .erasing _ => False
  | _ => True

def Pc.Reading (L : Layout K) (x : System K) (key : K) (since : Nat) : Pc → Prop
  | .finding i => ∃ slot, i ≤ slot ∧ StoredAt L x key since slot
  | .loading slot => StoredAt L x key since slot
  | .tracing a =>
      ∃ l c, Linked L x.store (L.idx key) (L.tag key) a l ∧
        firstOf Record.key x.store.log key l = some c ∧ Recent x key since c
  | .getting a => Recent x key since a
  | .done reply => ∃ w ∈ x.writes, w.key = key ∧ reply = .value w.value ∧ since ≤ w.time
  | _ => False

theorem Pc.Writing.serves (hw : pc.Writing L x key since) (h : Serves L x y key)
    (hsince : since ≤ x.history.clock) : pc.Writing L y key since := by
  cases pc
  case locating slot expected =>
    obtain ⟨l, hl, hfirst⟩ := hw
    refine ⟨l, hl.grows h.carries.grows, fun a ha => ?_⟩
    rw [hl.firstOf_grows h.carries.grows] at ha
    exact (hfirst a ha).serves h hsince
  case updating a => exact Covered.serves hw h hsince
  case done reply =>
    cases reply
    case ok => exact Stored.serves hw h hsince
    all_goals trivial
  all_goals exact hw

theorem Pc.Reading.serves (hr : pc.Reading L x key since) (h : Serves L x y key)
    (hsince : since ≤ x.history.clock) : pc.Reading L y key since := by
  cases pc
  case finding i =>
    obtain ⟨slot, hle, hst⟩ := hr
    exact ⟨slot, hle, hst.serves h hsince⟩
  case loading slot => exact StoredAt.serves hr h hsince
  case tracing a =>
    obtain ⟨l, c, hl, hfirst, hrecent⟩ := hr
    refine ⟨l, c, hl.grows h.carries.grows, ?_, hrecent.carries h.carries hsince⟩
    rw [hl.firstOf_grows h.carries.grows]
    exact hfirst
  case getting a => exact Recent.carries hr h.carries hsince
  case done reply =>
    obtain ⟨w, hw, hkey, hvalue, hle⟩ := hr
    exact ⟨w, h.carries.writes w hw, hkey, hvalue, hle⟩
  all_goals exact hr

end Places

section Own

structure Legal (L : Layout K) (x : System K) (t : Nat) (op : Request K) (called : Nat)
    (y : System K) : Prop where
  sound : Sound L x.store
  entries : Entries L x
  knows : (x.pc t).Knows L x.store op
  running : x.history.running t = some (op, called)
  spares : ∀ slot, x.pc t = .erasing slot →
    SparesOthers x.store op.key (x.store.buckets (L.idx op.key))[slot]?
  step : x.step L t op = some y

theorem Legal.effect (h : Legal L x t op called y) : Effect L x t op y :=
  step_cases h.step

theorem Legal.serves (h : Legal L x t op called y) (hdeletes : ¬ op.Deletes key) :
    Serves L x y key where
  carries := carries_of_effect h.sound h.knows h.effect
  found := fun _ _ hf =>
    hf.effect h.sound h.entries h.knows h.running h.spares hdeletes h.effect

theorem knows_step (h : Legal L x t op called y) : (y.pc t).Knows L y.store op := by
  have hk := h.knows
  have hs := h.sound
  have hstep := h.step
  cases hpc : x.pc t
  case scanning i atomicEntry =>
    simp only [System.step, hpc] at hstep
    split at hstep
    · split at hstep
      all_goals
        cases hstep
        rw [goto_pc_self]
        trivial
    · cases hstep
      rw [goto_pc_self]
      trivial
    · rename_i entry hentry
      split at hstep
      · rename_i hmatch
        cases hstep
        rw [goto_pc_self]
        obtain ⟨l, hl⟩ := hs.chains _ i entry hentry
        rw [← hmatch.1] at hl
        exact ⟨hmatch.2, hmatch.1.symm, l, hl⟩
      · cases hstep
        rw [goto_pc_self]
        trivial
  case confirming slot =>
    simp only [System.step, hpc] at hstep
    cases hstep
    rw [goto_pc_self]
    exact ⟨rfl, rfl, [], .nil hs.head⟩
  case locating slot expected =>
    rw [hpc] at hk
    obtain ⟨hfinal, htag, l, hl⟩ := hk
    obtain ⟨found, latest, hrec, hfound⟩ := findRecord_spec hl.chain op.key
    simp only [System.step, hpc, hrec] at hstep
    obtain ⟨pc, hdecide, rfl⟩ := Option.map_eq_some_iff.mp hstep
    rw [goto_pc_self]
    have hkey : x.store.readOnlyAddress ≤ found →
        ∃ r, x.store.log found = some r ∧ r.key = op.key := by
      intro hle
      rcases hfound with hfirst | ⟨-, hlt⟩
      · exact firstOf_key hfirst
      · have := hs.readOnly
        omega
    cases op with
    | read key => cases hdecide
    | upsert key input =>
        simp only [Request.decide] at hdecide
        split at hdecide
        · cases hdecide
          exact hkey ‹_›
        · cases hdecide
          exact ⟨hfinal, htag, l, hl⟩
    | rmw key incr =>
        simp only [Request.decide] at hdecide
        split at hdecide
        · cases hdecide
          exact hkey ‹_›
        · repeat' split at hdecide
          all_goals
            cases hdecide
            try exact ⟨hfinal, htag, l, hl⟩
          trivial
    | delete key input =>
        simp only [Request.decide] at hdecide
        split at hdecide
        · cases hdecide
          exact rfl
        · cases hdecide
          exact ⟨hfinal, htag, l, hl⟩
  case comparing slot address =>
    rw [hpc] at hk
    simp only [System.step, hpc] at hstep
    repeat' split at hstep
    all_goals
      cases hstep
      rw [goto_pc_self]
      first
        | exact hk
        | trivial
  case creating slot expected address =>
    rw [hpc] at hk
    simp only [System.step, hpc] at hstep
    split at hstep
    · cases hstep
    · cases hstep
      rw [goto_pc_self]
      have htail := tailAddress_le_blockAllocate x.store
      obtain ⟨l, hl⟩ := hk.linked
      have hlt := hl.address_lt hs
      refine ⟨hk.grows (grows_constructRecord hs htail _), _, Function.update_self .., rfl, rfl,
        by omega, ?_⟩
      have := hs.readOnly
      have := hs.tail
      change x.store.headAddress ≤ blockAllocate x.store
      omega
  case updating a =>
    simp only [System.step, hpc] at hstep
    split at hstep
    · cases hstep
    · split at hstep
      · cases hstep
      · obtain ⟨s, -, rfl⟩ := Option.map_eq_some_iff.mp hstep
        rw [commit_pc_self]
        trivial
  case publishing slot expected newAddress =>
    simp only [System.step, hpc] at hstep
    split at hstep
    · cases hstep
    · split at hstep
      · cases hstep
        rw [commit_pc_self]
        trivial
      · cases hstep
        rw [goto_pc_self]
        trivial
  all_goals
    simp only [System.step, hpc] at hstep
    repeat' split at hstep
    all_goals first
      | cases hstep; done
      | cases hstep; rw [goto_pc_self]; trivial

theorem writing_step (h : Legal L x t op called y) (hop : op.Writes key)
    (hsince : since ≤ x.history.clock) (hw : (x.pc t).Writing L x key since) :
    (y.pc t).Writing L y key since := by
  have hk := h.knows
  have hs := h.sound
  have hstep := h.step
  have hkey : op.key = key := by
    cases op with
    | upsert | rmw => exact hop
    | read | delete => exact hop.elim
  have hdeletes : ¬ op.Deletes key := by
    cases op with
    | delete => exact hop.elim
    | _ => exact id
  cases hpc : x.pc t
  case scanning i atomicEntry =>
    simp only [System.step, hpc] at hstep
    split at hstep
    · split at hstep
      all_goals
        cases hstep
        rw [goto_pc_self]
        trivial
    · cases hstep
      rw [goto_pc_self]
      trivial
    · rename_i entry hentry
      split at hstep
      · rename_i hmatch
        cases hstep
        rw [goto_pc_self]
        obtain ⟨l, hl⟩ := hs.chains _ i entry hentry
        rw [← hmatch.1, hkey] at hl
        rw [hkey] at hentry hmatch
        exact ⟨l, hl, fun a ha =>
          Or.inr ⟨i, entry, l, hentry, hmatch.1.symm, hmatch.2, hl, ha⟩⟩
      · cases hstep
        rw [goto_pc_self]
        trivial
  case confirming slot =>
    simp only [System.step, hpc] at hstep
    cases hstep
    rw [goto_pc_self]
    refine ⟨[], .nil hs.head, fun a hfirst => ?_⟩
    rw [firstOf_nil] at hfirst
    cases hfirst
  case locating slot expected =>
    rw [hpc] at hw
    obtain ⟨l, hl, hcovered⟩ := hw
    obtain ⟨found, latest, hrec, hfound⟩ := findRecord_spec hl.chain key
    simp only [System.step, hpc, hkey, hrec] at hstep
    obtain ⟨pc, hdecide, rfl⟩ := Option.map_eq_some_iff.mp hstep
    rw [goto_pc_self]
    have hcov : x.store.readOnlyAddress ≤ found → Covered L x key since found := by
      intro hle
      rcases hfound with hfirst | ⟨-, hlt⟩
      · exact hcovered found hfirst
      · have := hs.readOnly
        omega
    cases op with
    | read key => cases hdecide
    | delete key input => exact hop.elim
    | upsert key input =>
        simp only [Request.decide] at hdecide
        split at hdecide
        · cases hdecide
          exact hcov ‹_›
        · cases hdecide
          trivial
    | rmw key incr =>
        simp only [Request.decide] at hdecide
        split at hdecide
        · cases hdecide
          exact hcov ‹_›
        · repeat' split at hdecide
          all_goals
            cases hdecide
            try trivial
  case updating a =>
    rw [hpc] at hk hw
    obtain ⟨r, hr, hrkey⟩ := hk
    simp only [System.step, hpc, hr, setValue] at hstep
    split at hstep
    · cases hstep
    · rename_i value hput
      cases hstep
      rw [commit_pc_self]
      rcases hw with hst | ⟨slot, hf⟩
      · exact hst.serves (h.serves hdeletes) hsince
      · rcases (h.serves hdeletes).found slot a hf with hf | ⟨a', hf, hrecent⟩
        · exact ⟨slot, a, hf, _, Function.update_self .., hrkey.trans hkey,
            ⟨op.key, value, x.history.clock⟩, List.mem_cons_self, hkey, rfl, hsince⟩
        · exact ⟨slot, a', hf, hrecent.mono hsince⟩
  case publishing slot expected newAddress =>
    rw [hpc] at hk
    obtain ⟨hexp, r, hr, hrkey, hprev, hlt, hle⟩ := hk
    obtain ⟨l, hl⟩ := hexp.linked
    simp only [System.step, hpc, hr] at hstep
    split at hstep
    · rename_i hslot
      cases hstep
      rw [commit_pc_self]
      rw [hkey] at hl hrkey hslot
      refine ⟨slot, newAddress, foundAt_of_push hl ?_ rfl rfl hr hrkey hprev hlt hle, r, hr, hrkey,
        ⟨op.key, r.value, x.history.clock⟩, List.mem_cons_self, hkey, rfl, hsince⟩
      rw [← hkey]
      have hlen : slot < (x.store.buckets (L.idx op.key)).length := by
        rw [hkey]
        exact InSlot.lt_length hslot
      exact fun _ _ _ => inSlot_replaceEntry_iff hlen
    · cases hstep
      rw [goto_pc_self]
      trivial
  case comparing slot a =>
    rw [hpc] at hw
    exact hw.elim
  case erasing slot =>
    rw [hpc] at hw
    exact hw.elim
  all_goals
    simp only [System.step, hpc] at hstep
    repeat' split at hstep
    all_goals first
      | cases hstep; done
      | cases hstep; rw [goto_pc_self]; trivial

theorem reading_step (h : Legal L x t op called y) (hr : (x.pc t).Reading L x op.key since) :
    (y.pc t).Reading L y op.key since := by
  have hstep := h.step
  cases hpc : x.pc t
  case finding i =>
    rw [hpc] at hr
    obtain ⟨slot, hle, hst⟩ := hr
    obtain ⟨a, ⟨e, l, hin, htag, hfinal, hl, hfirst⟩, hrecent⟩ := hst
    simp only [System.step, hpc] at hstep
    split at hstep
    · rename_i hend
      rw [List.getElem?_eq_none_iff] at hend
      have := hin.lt_length
      omega
    · rename_i hfree
      cases hstep
      rw [goto_pc_self]
      refine ⟨slot, Nat.lt_of_le_of_ne hle ?_, a, ⟨e, l, hin, htag, hfinal, hl, hfirst⟩, hrecent⟩
      rintro rfl
      have heq := hfree.symm.trans hin
      cases heq
    · rename_i entry hentry
      split at hstep
      · rename_i hmatch
        cases hstep
        rw [goto_pc_self]
        have heq := h.entries.unique hin hentry (htag.trans hmatch.1) hfinal hmatch.2
        subst heq
        exact ⟨a, ⟨e, l, hin, htag, hfinal, hl, hfirst⟩, hrecent⟩
      · rename_i hpass
        cases hstep
        rw [goto_pc_self]
        refine ⟨slot, Nat.lt_of_le_of_ne hle ?_, a, ⟨e, l, hin, htag, hfinal, hl, hfirst⟩, hrecent⟩
        rintro rfl
        rw [hin.unique hentry] at htag hfinal
        exact hpass ⟨htag.symm, hfinal⟩
  case loading slot =>
    rw [hpc] at hr
    obtain ⟨a, ⟨e, l, hin, -, -, hl, hfirst⟩, hrecent⟩ := hr
    simp only [System.step, hpc,
      show (x.store.buckets (L.idx op.key))[slot]? = some (some e) from hin] at hstep
    cases hstep
    rw [goto_pc_self]
    exact ⟨l, a, hl, hfirst, hrecent⟩
  case tracing address =>
    rw [hpc] at hr
    obtain ⟨l, c, hl, hfirst, hrecent⟩ := hr
    obtain ⟨found, latest, hrec, hfound⟩ := findRecord_spec hl.chain op.key
    have heq : found = c := by
      rcases hfound with hsome | ⟨hnone, -⟩
      · rw [hfirst] at hsome
        exact (Option.some.inj hsome).symm
      · rw [hfirst] at hnone
        cases hnone
    subst heq
    have hhead := (hl.chain.bounds (firstOf_mem hfirst)).1
    simp only [System.step, hpc, hrec, if_pos hhead] at hstep
    cases hstep
    rw [goto_pc_self]
    exact hrecent
  case getting address =>
    rw [hpc] at hr
    obtain ⟨r, hlog, -, w, hw, hkey, hvalue, hle⟩ := hr
    simp only [System.step, hpc, hlog] at hstep
    cases hstep
    rw [goto_pc_self]
    exact ⟨w, hw, hkey, by rw [hvalue], hle⟩
  case done reply => simp only [System.step, hpc] at hstep; cases hstep
  all_goals
    rw [hpc] at hr
    exact hr.elim

end Own

section Run

variable {m : Move K} {ok : System K → Move K → Prop}

/-- Every `Read` that is called after a write has been acknowledged returns a
value that the key has got since the write was called, unless a `Delete` of the
key has been in progress since then. -/
def NoLostWrite (x : System K) : Prop :=
  ∀ w ∈ x.history.returned, ∀ r ∈ x.history.returned, ∀ key, w.op.Writes key → w.result = .ok →
    r.op = .read key → w.returned < r.called →
    ¬ x.history.Overlaps (Request.Deletes key) w.called r.returned →
    ∃ e ∈ x.writes, e.key = key ∧ r.result = .value e.value ∧ w.called ≤ e.time ∧
      e.time < r.returned

structure Inv (L : Layout K) (x : System K) : Prop where
  entries : Entries L x
  sound : Sound L x.store
  timed : x.history.Timed
  past : ∀ e ∈ x.writes, e.time < x.history.clock
  knows : ∀ t op called, x.history.running t = some (op, called) →
    (x.pc t).Knows L x.store op
  kept : ∀ w ∈ x.history.returned, ∀ key, w.op.Writes key → w.result = .ok →
    x.history.Quiet (Request.Deletes key) w.called → Stored L x key w.called
  writing : ∀ t op called key, x.history.running t = some (op, called) → op.Writes key →
    x.history.Quiet (Request.Deletes key) called → (x.pc t).Writing L x key called
  reading : ∀ t key called, x.history.running t = some (.read key, called) →
    ∀ w ∈ x.history.returned, w.op.Writes key → w.result = .ok → w.returned < called →
    x.history.Quiet (Request.Deletes key) w.called → (x.pc t).Reading L x key w.called
  noLost : NoLostWrite x

omit [DecidableEq K] in
theorem NoLostWrite.mono (h : NoLostWrite x) (hreturned : y.history.returned = x.history.returned)
    (hwrites : ∀ e ∈ x.writes, e ∈ y.writes)
    (hoverlaps : ∀ key first last, first ≤ x.history.clock →
      x.history.Overlaps (Request.Deletes key) first last →
      y.history.Overlaps (Request.Deletes key) first last)
    (htimed : x.history.Timed) : NoLostWrite y := by
  intro w hw r hr key hop hok hread hlt hquiet
  rw [hreturned] at hw hr
  have hle : w.called ≤ x.history.clock := by
    have := htimed.returned w hw
    omega
  obtain ⟨e, he, hkey, hvalue, hge, hbefore⟩ := h w hw r hr key hop hok hread hlt
    fun ho => hquiet (hoverlaps key _ _ hle ho)
  exact ⟨e, hwrites e he, hkey, hvalue, hge, hbefore⟩

theorem Inv.step (h : Inv L x) (hrunning : x.history.running t = some (op, called))
    (hspares : Spares L x (.run t)) (hstep : x.step L t op = some y) : Inv L y := by
  have hlegal : Legal L x t op called y := by
    refine ⟨h.sound, h.entries, h.knows t op called hrunning, hrunning, fun slot hpc => ?_, hstep⟩
    exact hspares (op, called) hrunning slot (by rw [hpc]; rfl)
  have heffect := hlegal.effect
  obtain ⟨hmoves, hhistory, hpast⟩ := heffect.frame
  have hcarries := carries_of_effect h.sound hlegal.knows heffect
  have hclock : y.history.clock = x.history.clock + 1 := by rw [hhistory]; rfl
  have hquiet : ∀ {key since}, y.history.Quiet (Request.Deletes key) since →
      x.history.Quiet (Request.Deletes key) since := by
    intro key since hq
    rw [hhistory] at hq
    exact hq.of_tick
  have hserves : ∀ {key since}, y.history.Quiet (Request.Deletes key) since →
      Serves L x y key := by
    intro key since hq
    exact hlegal.serves ((hquiet hq).not_running h.timed hrunning)
  have hreturned : y.history.returned = x.history.returned := by rw [hhistory]; rfl
  constructor
  · exact h.entries.effect hlegal.knows hrunning hlegal.spares heffect
  · exact h.sound.effect hlegal.knows heffect
  · rw [hhistory]
    exact h.timed.tick
  · intro e he
    rw [hclock]
    rcases hpast e he with he | he
    · exact Nat.lt_succ_of_lt (h.past e he)
    · rw [he]
      exact Nat.lt_succ_self _
  · intro u op' called' hu
    rw [hmoves.running] at hu
    by_cases hut : u = t
    · subst u
      rw [hrunning] at hu
      cases hu
      exact knows_step hlegal
    · rw [hmoves.others u hut]
      exact (h.knows u op' called' hu).grows hcarries.grows
  · intro w hw key hop hok hq
    rw [hreturned] at hw
    have hle := h.timed.returned w hw
    exact (h.kept w hw key hop hok (hquiet hq)).serves (hserves hq) (by omega)
  · intro u op' called' key hu hop hq
    rw [hmoves.running] at hu
    have hle := h.timed.running u op' called' hu
    have hold := h.writing u op' called' key hu hop (hquiet hq)
    by_cases hut : u = t
    · subst u
      rw [hrunning] at hu
      cases hu
      exact writing_step hlegal hop (Nat.le_of_lt hle) hold
    · rw [hmoves.others u hut]
      exact hold.serves (hserves hq) (Nat.le_of_lt hle)
  · intro u key called' hu w hw hop hok hlt hq
    rw [hmoves.running] at hu
    rw [hreturned] at hw
    have hle := h.timed.returned w hw
    have hold := h.reading u key called' hu w hw hop hok hlt (hquiet hq)
    by_cases hut : u = t
    · subst u
      rw [hrunning] at hu
      cases hu
      exact reading_step hlegal hold
    · rw [hmoves.others u hut]
      exact hold.serves (hserves hq) (by omega)
  · refine h.noLost.mono hreturned hcarries.writes (fun key first last _ ho => ?_) h.timed
    rw [hhistory]
    exact ho

theorem Inv.call (h : Inv L x) (hfree : x.history.running t = none) (op : Request K) :
    Inv L { x with pc := Function.update x.pc t op.first, history := x.history.call t op } := by
  have hothers : ∀ u, u ≠ t → Function.update x.pc t op.first u = x.pc u ∧
      (x.history.call t op).running u = x.history.running u :=
    fun u hu => ⟨Function.update_of_ne hu .., Function.update_of_ne hu ..⟩
  have hpc : Function.update x.pc t op.first t = op.first := Function.update_self ..
  have hself : ∀ {op' called}, (x.history.call t op).running t = some (op', called) →
      op' = op ∧ called = x.history.clock := by
    intro op' called hu
    have heq := (Function.update_self ..).symm.trans hu
    cases heq
    exact ⟨rfl, rfl⟩
  constructor
  · refine h.entries.keep_free hothers (fun _ _ _ => Iff.rfl) ?_ ?_
    · intro op' called hu
      rw [hfree] at hu
      cases hu
    · refine (congrArg Pc.slot hpc).trans ?_
      cases op <;> rfl
  · exact h.sound
  · exact h.timed.call t op
  · exact fun e he => Nat.lt_succ_of_lt (h.past e he)
  · intro u op' called hu
    by_cases hut : u = t
    · subst u
      obtain ⟨rfl, -⟩ := hself hu
      change (Function.update x.pc t op'.first t).Knows L x.store op'
      rw [hpc]
      cases op' <;> trivial
    · change (Function.update x.pc t op.first u).Knows L x.store op'
      rw [(hothers u hut).1]
      exact h.knows u op' called ((hothers u hut).2.symm.trans hu)
  · exact fun w hw key hop hok hq => h.kept w hw key hop hok (hq.of_call hfree)
  · intro u op' called key hu hop hq
    by_cases hut : u = t
    · subst u
      obtain ⟨rfl, -⟩ := hself hu
      change (Function.update x.pc t op'.first t).Writing L _ key called
      rw [hpc]
      cases op' with
      | upsert | rmw => trivial
      | read | delete => exact hop.elim
    · change (Function.update x.pc t op.first u).Writing L _ key called
      rw [(hothers u hut).1]
      exact h.writing u op' called key ((hothers u hut).2.symm.trans hu) hop (hq.of_call hfree)
  · intro u key called hu w hw hop hok hlt hq
    by_cases hut : u = t
    · subst u
      obtain ⟨rfl, -⟩ := hself hu
      change (Function.update x.pc t (Request.read key).first t).Reading L _ key w.called
      rw [hpc]
      obtain ⟨slot, hst⟩ := h.kept w hw key hop hok (hq.of_call hfree)
      exact ⟨slot, Nat.zero_le _, hst⟩
    · change (Function.update x.pc t op.first u).Reading L _ key w.called
      rw [(hothers u hut).1]
      exact h.reading u key called ((hothers u hut).2.symm.trans hu) w hw hop hok hlt
        (hq.of_call hfree)
  · exact h.noLost.mono rfl (fun _ he => he) (fun key first last _ ho => ho.call hfree op) h.timed

theorem Inv.ret {reply : Reply} (h : Inv L x) (hrunning : x.history.running t = some (op, called))
    (hdone : x.pc t = .done reply) :
    Inv L { x with
      pc := Function.update x.pc t .idle
      history := x.history.ret t op called reply } := by
  have hothers : ∀ u, u ≠ t → Function.update x.pc t .idle u = x.pc u ∧
      (x.history.ret t op called reply).running u = x.history.running u :=
    fun u hu => ⟨Function.update_of_ne hu .., Function.update_of_ne hu ..⟩
  have hother : ∀ {u op' called'},
      (x.history.ret t op called reply).running u = some (op', called') → u ≠ t := by
    rintro u op' called' hu rfl
    have heq := (Function.update_self ..).symm.trans hu
    cases heq
  have hcalled := h.timed.running t op called hrunning
  constructor
  · refine h.entries.keep_free hothers (fun _ _ _ => Iff.rfl) ?_ ?_
    · intro _ _ _
      rw [hdone]
      rfl
    · change (Function.update x.pc t .idle t).slot = none
      rw [Function.update_self]
      rfl
  · exact h.sound
  · exact h.timed.ret hrunning reply
  · exact fun e he => Nat.lt_succ_of_lt (h.past e he)
  · intro u op' called' hu
    obtain ⟨hpc, hsame⟩ := hothers u (hother hu)
    change (Function.update x.pc t .idle u).Knows L x.store op'
    rw [hpc]
    exact h.knows u op' called' (hsame.symm.trans hu)
  · intro w hw key hop hok hq
    rcases List.mem_cons.mp hw with rfl | hw
    · have hwriting := h.writing t op called key hrunning hop
        (hq.of_ret (Nat.le_of_lt hcalled) hrunning)
      rw [hdone, show reply = .ok from hok] at hwriting
      exact hwriting
    · have hle := h.timed.returned w hw
      exact h.kept w hw key hop hok (hq.of_ret (by omega) hrunning)
  · intro u op' called' key hu hop hq
    obtain ⟨hpc, hsame⟩ := hothers u (hother hu)
    have hu' := hsame.symm.trans hu
    have hle := h.timed.running u op' called' hu'
    change (Function.update x.pc t .idle u).Writing L _ key called'
    rw [hpc]
    exact h.writing u op' called' key hu' hop (hq.of_ret (Nat.le_of_lt hle) hrunning)
  · intro u key called' hu w hw hop hok hlt hq
    obtain ⟨hpc, hsame⟩ := hothers u (hother hu)
    have hu' := hsame.symm.trans hu
    change (Function.update x.pc t .idle u).Reading L _ key w.called
    rw [hpc]
    rcases List.mem_cons.mp hw with rfl | hw
    · -- the write returns after the read has been called
      have hlt' : x.history.clock < called' := hlt
      have hle := h.timed.running u (.read key) called' hu'
      omega
    · have hle := h.timed.returned w hw
      exact h.reading u key called' hu' w hw hop hok hlt (hq.of_ret (by omega) hrunning)
  · intro w hw r hr key hop hok hread hlt hquiet
    rcases List.mem_cons.mp hw with rfl | hwold
    · rcases List.mem_cons.mp hr with rfl | hr
      · simp only at hop hread
        rw [hread] at hop
        exact hop.elim
      · have hlt' : x.history.clock < r.called := hlt
        have := h.timed.returned r hr
        omega
    · have hle := h.timed.returned w hwold
      rcases List.mem_cons.mp hr with rfl | hrold
      · simp only at hread
        subst hread
        have hreading := h.reading t key called hrunning w hwold hop hok hlt
          fun ho => hquiet (ho.ret (by omega) hrunning reply)
        rw [hdone] at hreading
        obtain ⟨e, he, hkey, hvalue, hge⟩ := hreading
        exact ⟨e, he, hkey, hvalue, hge, h.past e he⟩
      · exact h.noLost w hwold r hrold key hop hok hread hlt
          fun ho => hquiet (ho.ret (by omega) hrunning reply)

theorem Inv.shift (h : Inv L x) {s : Store K} (hbuckets : s.buckets = x.store.buckets)
    (hlog : s.log = x.store.log) (hhead : s.headAddress = x.store.headAddress)
    (hsound : Sound L s) : Inv L { x with store := s, history := x.history.tick } := by
  have hcarries : Carries x { x with store := s, history := x.history.tick } :=
    .of_log hlog hhead fun _ he => he
  have hserves : ∀ key, Serves L x { x with store := s, history := x.history.tick } key :=
    fun key => ⟨hcarries, fun slot a hf =>
      Or.inl (hf.grows hcarries.grows fun _ _ hin => by rw [hbuckets]; exact hin)⟩
  have hle : ∀ w ∈ x.history.returned, w.called ≤ x.history.clock := by
    intro w hw
    have := h.timed.returned w hw
    omega
  constructor
  · exact ⟨fun t op called i hr hi => by rw [hbuckets]; exact h.entries.held t op called i hr hi,
      h.entries.tagged, h.entries.exclusive, fun b i j e e' hij he he' => by
        rw [hbuckets] at he he'
        exact h.entries.watched b i j e e' hij he he'⟩
  · exact hsound
  · exact h.timed.tick
  · exact fun e he => Nat.lt_succ_of_lt (h.past e he)
  · exact fun t op called hr => (h.knows t op called hr).grows hcarries.grows
  · exact fun w hw key hop hok hq =>
      (h.kept w hw key hop hok hq.of_tick).serves (hserves key) (hle w hw)
  · exact fun t op called key hr hop hq =>
      (h.writing t op called key hr hop hq.of_tick).serves (hserves key)
        (Nat.le_of_lt (h.timed.running t op called hr))
  · exact fun t key called hr w hw hop hok hlt hq =>
      (h.reading t key called hr w hw hop hok hlt hq.of_tick).serves (hserves key) (hle w hw)
  · exact h.noLost.mono rfl (fun _ he => he) (fun _ _ _ _ ho => ho) h.timed

theorem Inv.next (h : Inv L x) (hspares : Spares L x m) (hnext : x.next L m = some y) :
    Inv L y := by
  cases m with
  | call t op =>
      simp only [System.next] at hnext
      split at hnext
      · cases hnext
      · cases hnext
        exact h.call ‹_› op
  | run t =>
      simp only [System.next] at hnext
      split at hnext
      · cases hnext
      · exact h.step ‹_› hspares hnext
  | ret t =>
      simp only [System.next] at hnext
      split at hnext
      · cases hnext
        exact h.ret ‹_› ‹_›
      · cases hnext
  | shiftReadOnly address =>
      simp only [System.next] at hnext
      split at hnext
      · rename_i hbounds
        cases hnext
        refine h.shift rfl rfl rfl ?_
        exact h.sound.of_grows (.of_log rfl rfl) hbounds.1 hbounds.2 h.sound.free
          fun _ _ _ hin => Or.inl hin
      · cases hnext
  | shiftSafeReadOnly address =>
      simp only [System.next] at hnext
      split at hnext
      · cases hnext
        refine h.shift rfl rfl rfl ?_
        exact h.sound.of_grows (.of_log rfl rfl) (Nat.le_refl _) h.sound.tail h.sound.free
          fun _ _ _ hin => Or.inl hin
      · cases hnext

theorem inv_start : Inv L (System.start : System K) where
  entries :=
    { held := nofun
      tagged := nofun
      exclusive := by
        rintro t u p ⟨op, called, hr, -⟩
        cases hr
      watched := by
        intro b i j e e' _ he
        rw [InSlot] at he
        have hmem := List.mem_of_getElem? he
        cases List.eq_of_mem_replicate hmem }
  sound :=
    { head := show 1 < 64 by decide
      readOnly := Nat.le_refl _
      tail := Nat.le_refl _
      free := fun _ _ => rfl
      chains := by
        intro b i e he
        rw [InSlot] at he
        have hmem := List.mem_of_getElem? he
        cases List.eq_of_mem_replicate hmem }
  timed := timed_start
  past := nofun
  knows := nofun
  kept := nofun
  writing := nofun
  reading := nofun
  noLost := nofun

/-- In a run whose `Delete`s spare the other keys no acknowledged write is lost. -/
theorem noLostWrite_of_spares
    (hreach : Reaches (System.next L) (Spares L) System.start x) : NoLostWrite x :=
  (hreach.invariant inv_start fun _ _ _ h hspares hnext => h.next hspares hnext).noLost

def steps (t k : Nat) : List (Move Nat) :=
  List.replicate k (.run t)

def tagLayout : Layout Nat where
  getHash := fun key => BitVec.ofNat 64 (key * 2 ^ 48)
  tableSize := 1

def racingRun : List (Move Nat) :=
  [.call 1 (.upsert 1 10), .call 2 (.upsert 1 20)] ++ steps 1 8 ++ steps 2 8 ++ steps 1 1 ++
    steps 2 9 ++ steps 1 13 ++ steps 2 7 ++ [.ret 1, .ret 2, .call 3 (.upsert 2 30)] ++
    steps 3 22 ++ [.ret 3, .call 3 (.delete 2 0)] ++ steps 3 4 ++ [.call 4 (.read 1)] ++
    steps 4 3 ++ steps 3 1 ++ steps 4 1 ++ [.ret 3, .ret 4]

theorem noLostWrite_racingRun :
    ∃ x, runActions (System.next tagLayout) System.start racingRun = some x ∧
      x.history.returned.map (fun c => (c.op, c.result)) =
        [(.read 1, .value 20), (.delete 2 0, .ok), (.upsert 2 30, .ok), (.upsert 1 20, .ok),
          (.upsert 1 10, .ok)] ∧ NoLostWrite x := by
  have hadmits : Admits (System.next tagLayout) (Spares tagLayout) System.start racingRun := by
    decide +kernel
  have hview : (runActions (System.next tagLayout) System.start racingRun).map
      (fun x => x.history.returned.map (fun c => (c.op, c.result))) =
        some [(.read 1, .value 20), (.delete 2 0, .ok), (.upsert 2 30, .ok), (.upsert 1 20, .ok),
          (.upsert 1 10, .ok)] := by
    decide +kernel
  obtain ⟨x, hx, hresults⟩ := Option.map_eq_some_iff.mp hview
  exact ⟨x, hx, hresults, noLostWrite_of_spares (reaches_of_runActions hadmits hx)⟩

/-- A `Delete` of a key whose record is the most recent one of the entry. -/
def sharingRun : List (Move Nat) :=
  [.call 1 (.upsert 1 10)] ++ steps 1 22 ++ [.ret 1, .call 1 (.upsert 2 20)] ++ steps 1 4 ++
    [.ret 1, .call 1 (.delete 2 0)] ++ steps 1 4 ++ [.ret 1, .call 1 (.read 1)] ++ steps 1 8 ++
    [.ret 1]

theorem running_none_of_idle (hidle : ∀ m : Move K, ∀ x, ok x m → m.thread ≠ some u)
    (hreach : Reaches (System.next L) ok System.start x) : x.history.running u = none := by
  refine hreach.invariant (I := fun x => x.history.running u = none) rfl ?_
  intro s m s' hs hok hnext
  have hu := hidle m s hok
  cases m with
  | call t op =>
      simp only [System.next] at hnext
      split at hnext
      · cases hnext
      · cases hnext
        refine (Function.update_of_ne ?_ ..).trans hs
        rintro rfl
        exact hu rfl
  | run t =>
      simp only [System.next] at hnext
      split at hnext
      · cases hnext
      · rw [(step_cases hnext).frame.1.running]
        exact hs
  | ret t =>
      simp only [System.next] at hnext
      split at hnext
      · cases hnext
        refine (Function.update_of_ne ?_ ..).trans hs
        rintro rfl
        exact hu rfl
      · cases hnext
  | shiftReadOnly address | shiftSafeReadOnly address =>
      simp only [System.next] at hnext
      split at hnext
      · cases hnext
        exact hs
      · cases hnext

theorem write_lost :
    ¬ ∀ x, Reaches (System.next oneEntry) (fun _ _ => True) System.start x → NoLostWrite x := by
  intro hall
  have hview : (runActions (System.next oneEntry) System.start sharingRun).map
      (fun x => (x.history.returned, x.history.running 1)) =
      some ([⟨.read 1, .notFound, 36, 45⟩, ⟨.delete 2 0, .ok, 30, 35⟩,
        ⟨.upsert 2 20, .ok, 24, 29⟩, ⟨.upsert 1 10, .ok, 0, 23⟩], none) := by
    decide +kernel
  obtain ⟨x, hx, hx'⟩ := Option.map_eq_some_iff.mp hview
  simp only [Prod.mk.injEq] at hx'
  obtain ⟨hreturned, hone⟩ := hx'
  have hadmits : Admits (System.next oneEntry) (fun _ m => m.thread = some 1) System.start
      sharingRun := by
    refine admits_of_forall fun m hm _ => ?_
    revert m
    decide
  have hreach := reaches_of_runActions hadmits hx
  have hidle : ∀ u, x.history.running u = none := by
    intro u
    by_cases hu : u = 1
    · rw [hu, hone]
    · refine running_none_of_idle (fun m x hm hmu => hu ?_) hreach
      rw [hm] at hmu
      exact (Option.some.inj hmu).symm
  have hwrite : ⟨.upsert 1 10, .ok, 0, 23⟩ ∈ x.history.returned := by
    rw [hreturned]
    simp
  have hread : ⟨.read 1, .notFound, 36, 45⟩ ∈ x.history.returned := by
    rw [hreturned]
    simp
  have hquiet : ¬ x.history.Overlaps (Request.Deletes 1) 0 45 := by
    rintro (⟨c, hc, hdelete, -⟩ | ⟨u, op, called, hu, -⟩)
    · rw [hreturned] at hc
      revert hdelete
      revert c
      simp [Request.Deletes]
    · rw [hidle u] at hu
      cases hu
  obtain ⟨e, -, -, hvalue, -⟩ := hall x (hreach.mono fun _ _ _ => trivial) _ hwrite _ hread 1 rfl
    rfl rfl (by decide) hquiet
  cases hvalue

end Run

end HashComp.Interleaved
