import HashComp.BzTree.CallChanges
import HashComp.BzTree.Uniqueness

namespace HashComp.BzTree

open HashComp.ByteMemory
open HashComp.Replacement
open HashComp.Threads

section Returns

variable {parameters : ParameterSet} {n : BaseNode} {key : Key} {payload : Word} {rc : ReturnCode}

def BaseNode.repeats (n : BaseNode) (key : List Byte) (s : Search) : Bool :=
  match searchStep n key s with
  | .found _ m => checkUnique n key m = some .duplicate
  | _ => false

def BaseNode.misses (n : BaseNode) (key : List Byte) (s : Search) : Bool :=
  match searchStep n key s with
  | .missing => true
  | _ => false

theorem checkSpace_ret {expected : StatusWord} {u : Uniqueness}
    (h : checkSpace parameters key.totalSize expected u = .ret rc) : rc = .notEnoughSpace := by
  rw [checkSpace] at h
  split at h
  · cases h
    rfl
  · cases h

theorem insertStep_ret {pc : InsertPc} (h : (insertStep parameters n key payload pc).2 = .ret rc) :
    (rc = .ok ∨ rc = .notEnoughSpace ∨ rc = .nodeFrozen ∧ n.status.frozen = true) ∨
      rc = .keyExists ∧ ∃ expected s, pc = .checking expected s ∧ n.repeats key.bytes s = true := by
  have hfrozen : ∀ {pc' : InsertPc}, (if n.status.frozen then
      (n, Outcome.ret ReturnCode.nodeFrozen) else (n, .goto pc')).2 = .ret rc →
        rc = .nodeFrozen ∧ n.status.frozen = true := by
    intro pc' h
    split at h
    · cases h
      exact ⟨rfl, ‹_›⟩
    · cases h
  cases pc with
  | retry | recheckStatus r | readStatus r => exact Or.inl (Or.inr (Or.inr (hfrozen h)))
  | checking expected s =>
      simp only [insertStep, insertStepWith] at h
      split at h
      · cases h
      · exact Or.inl (Or.inr (Or.inl (checkSpace_ret h)))
      · rename_i i m hfound
        split at h
        · rename_i hunique
          cases h
          refine Or.inr ⟨rfl, expected, s, rfl, ?_⟩
          simp only [BaseNode.repeats, hfound]
          exact decide_eq_true hunique
        · exact Or.inl (Or.inr (Or.inl (checkSpace_ret h)))
        · cases h
  | readMeta expected u =>
      simp only [insertStep, insertStepWith] at h
      split at h <;> cases h
  | reserve expected u =>
      simp only [insertStep, insertStepWith] at h
      split at h <;> cases h
  | copy r | recheckBound r | clear r => cases h
  | scan r i linearEnd checkIdx =>
      simp only [insertStep, insertStepWith] at h
      split at h
      · split at h <;> cases h
      · cases h
  | whileCheck r checkIdx needCheck =>
      simp only [insertStep, insertStepWith] at h
      split at h <;> cases h
  | forCheck r checkIdx needCheck i =>
      simp only [insertStep, insertStepWith] at h
      split at h
      · split at h <;> cases h
      · cases h
  | finalize r s =>
      simp only [insertStep, insertStepWith] at h
      split at h
      · cases h
        exact Or.inl (Or.inl rfl)
      · cases h

theorem updateStep_ret {pc : UpdatePc} (h : (updateStep n key payload pc).2 = .ret rc) :
    rc = .ok ∨ (rc = .nodeFrozen ∧ pc = .retry ∧ n.status.frozen = true) ∨
      rc = .notFound ∧ ∃ oldStatus s, pc = .search oldStatus s ∧ n.misses key.bytes s = true := by
  cases pc with
  | retry =>
      simp only [updateStep] at h
      split at h
      · cases h
        exact Or.inr (Or.inl ⟨rfl, rfl, ‹_›⟩)
      · cases h
  | search oldStatus s =>
      simp only [updateStep] at h
      split at h
      · cases h
      · rename_i hmissing
        cases h
        refine Or.inr (Or.inr ⟨rfl, oldStatus, s, rfl, ?_⟩)
        simp only [BaseNode.misses, hmissing]
      · split at h <;> cases h
  | readPayload oldStatus i m =>
      simp only [updateStep] at h
      split at h
      · split at h
        · cases h
          exact Or.inl rfl
        · split at h <;> cases h
      · cases h
  | swap oldStatus i m recordPayload =>
      simp only [updateStep] at h
      split at h
      · split at h
        · cases h
          exact Or.inl rfl
        · cases h
      · cases h

theorem deleteStep_ret {pc : DeletePc} (h : (deleteStep n key pc).2 = .ret rc) :
    rc = .ok ∨ rc = .nodeFrozen ∨ rc = .notFound := by
  cases pc with
  | retry =>
      simp only [deleteStep] at h
      split at h
      · cases h
        exact Or.inr (Or.inl rfl)
      · cases h
  | search oldStatus s =>
      simp only [deleteStep] at h
      split at h
      · cases h
      · cases h
        exact Or.inr (Or.inr rfl)
      · split at h <;> cases h
  | swap oldStatus i m =>
      simp only [deleteStep] at h
      split at h
      · split at h
        · cases h
          exact Or.inl rfl
        · cases h
      · cases h

end Returns

section Undisturbed

variable {parameters : ParameterSet} {n n' : BaseNode} {threads : Nat → Option LeafPc} {t i : Nat}
  {l l' : LeafPc} {key : Key} {payload : Word}

/-- A visible record stays, with its key, unless a thread deletes it. -/
theorem Laid.visibleKey_stays {k : List Byte} (h : Laid parameters n threads)
    (hl : threads t = some l) (hc : Change parameters n l n' l')
    (hdelete : ∀ key', l ≠ .delete key' (.swap n.status i (n.recordMetadata i)))
    (hk : n.visibleKey i = some k) : n'.visibleKey i = some k := by
  obtain ⟨offset, len, hm, hbytes⟩ := visibleKey_eq_some_iff.mp hk
  obtain ⟨hpad, hpos⟩ := h.records.lengths i _ _ _ _ hm
  have hle := le_padKeyLength k.length
  refine visibleKey_eq_some_iff.mpr ⟨offset, len, ?_⟩
  cases hc with
  | quiet | freeze => exact ⟨hm, hbytes⟩
  | reserve =>
      have hne : i ≠ n.status.recordCount := Nat.ne_of_lt (h.lt_of_visibleKey hk)
      exact ⟨(setMetadata_of_ne hne).trans hm, hbytes⟩
  | @write _ key r r' data hlr hr hsame hdata =>
      have hkept := h.immutable_write hl hlr hdata
      have hlen : k.length ≤ len := by omega
      refine ⟨hm, Eq.trans ?_ hbytes⟩
      rw [← readBytes_take hlen, hkept.bytes i _ _ _ hm, readBytes_take hlen]
  | @finalize _ key r hlr hpc hopen hr =>
      have hne : i ≠ r.slot := by
        rintro rfl
        rw [(h.reserved t l key r hl hlr).1] at hm
        cases hm
      exact ⟨(setMetadata_of_ne hne).trans hm, hbytes⟩
  | @update _ j o kl tl w hlr hopen hmj hr =>
      obtain ⟨hpadj, hposj⟩ := h.records.lengths j _ _ _ _ hmj
      refine ⟨hm, Eq.trans (readBytes_of_apart ?_) hbytes⟩
      rw [bytesOf_length]
      rcases eq_or_ne i j with rfl | hne
      · rw [hm] at hmj
        cases hmj
        exact Or.inr (by omega)
      · rcases h.apart i j offset len o tl (.record hm (hpos rfl)) (.record hmj (hposj rfl)) hne with
          hap | hap
        · exact Or.inr (by omega)
        · exact Or.inl (by omega)
  | @delete _ j o kl tl d hlr hopen hmj hr hpc =>
      have hne : i ≠ j := by
        rintro rfl
        obtain ⟨key', hl'⟩ := hpc
        exact hdelete key' hl'
      exact ⟨(setMetadata_of_ne hne).trans hm, hbytes⟩

/-- Only `Freeze` freezes. -/
theorem Change.open_of (hc : Change parameters n l n' l') (hl : ∀ pc, l ≠ .freeze pc)
    (hopen : n.status.frozen = false) : n'.status.frozen = false := by
  cases hc with
  | quiet | reserve | write | finalize | update | delete => exact hopen
  | freeze _ _ _ hpc =>
      obtain ⟨pc, rfl⟩ := hpc
      exact absurd rfl (hl pc)

/-- Where a search for a key goes on. -/
def Search.position : Search → Nat
  | .sorted i | .bound i | .linear i => i

def UpdatePc.position : UpdatePc → Nat
  | .search _ s => s.position
  | .retry | .readPayload _ _ _ | .swap _ _ _ _ => 0

theorem keyCompare_of_visibleKey (hk : n.visibleKey i = some key.bytes) :
    keyCompare (some key.bytes) (n.getKey (n.recordMetadata i)) = 0 := by
  have hget : n.getKey (n.recordMetadata i) = some key.bytes := hk
  rw [hget]
  exact keyCompare_eq_zero_iff.mpr rfl

/-- A search that has a visible record of its key before it does not pass it. -/
theorem searchStep_position {p : Nat} {s s' : Search} (hk : n.visibleKey p = some key.bytes)
    (hs : s.position ≤ p) (hgo : searchStep n key.bytes s = .going s') : s'.position ≤ p := by
  obtain ⟨offset, len, hm, -⟩ := visibleKey_eq_some_iff.mp hk
  have hzero := keyCompare_of_visibleKey hk
  cases s with
  | sorted i =>
      have hle : i ≤ p := hs
      simp only [searchStep] at hgo
      split at hgo
      · split at hgo
        · rename_i hcmp
          split at hgo
          · cases hgo
          · rename_i hhidden
            cases hkey : n.recordMetadata i with
            | vacant | inserting =>
                rw [hkey] at hcmp
                exact absurd hcmp (by simp [BaseNode.getKey, keyCompare])
            | record v o kl tl =>
                rw [hkey] at hcmp hhidden
                cases v with
                | true => exact absurd rfl hhidden
                | false => exact absurd hcmp (by simp [BaseNode.getKey, keyCompare])
        · rename_i hcmp
          cases hgo
          have hne : i ≠ p := by
            rintro rfl
            exact hcmp hzero
          show i + 1 ≤ p
          omega
      · cases hgo
        show n.sortedCount ≤ p
        omega
  | bound i =>
      simp only [searchStep] at hgo
      split at hgo <;> cases hgo
      exact hs
  | linear i =>
      have hle : i ≤ p := hs
      simp only [searchStep] at hgo
      split at hgo
      · cases hgo
      · split at hgo
        · cases hgo
        · rename_i hother
          cases hgo
          have hne : i ≠ p := by
            rintro rfl
            refine hother ⟨?_, ?_, hzero⟩
            · rw [hm]
              rfl
            · rw [hm]
              rfl
          show i + 1 ≤ p
          omega

theorem not_misses {p : Nat} {s : Search} (hrecords : Records n)
    (hk : n.visibleKey p = some key.bytes) (hs : s.position ≤ p) : n.misses key.bytes s = false := by
  have hlt : p < n.status.recordCount := by
    refine Nat.lt_of_not_le fun hle => ?_
    rw [BaseNode.visibleKey, (hrecords.slots p).mpr hle] at hk
    cases hk
  rw [BaseNode.misses]
  cases s with
  | sorted i =>
      simp only [searchStep]
      split
      · rename_i heq
        split at heq
        · split at heq
          · split at heq <;> cases heq
          · cases heq
        · cases heq
      · rfl
  | bound i =>
      have hle : i ≤ p := hs
      have hgo : searchStep n key.bytes (.bound i) = .going (.linear i) :=
        if_pos (Nat.lt_of_le_of_lt hle hlt)
      rw [hgo]
  | linear i =>
      simp only [searchStep]
      split
      · rename_i heq
        split at heq
        · cases heq
        · split at heq <;> cases heq
      · rfl

/-- What a search takes for a duplicate is a visible record with the key. -/
theorem exists_visibleKey_of_repeats {s : Search} (h : n.repeats key.bytes s = true) :
    ∃ p, n.visibleKey p = some key.bytes := by
  rw [BaseNode.repeats] at h
  split at h
  · rename_i i m hfound
    have hm : m = n.recordMetadata i := by
      cases s with
      | sorted j =>
          simp only [searchStep] at hfound
          split at hfound
          · split at hfound
            · split at hfound <;> cases hfound
              rfl
            · cases hfound
          · cases hfound
      | bound j =>
          simp only [searchStep] at hfound
          split at hfound <;> cases hfound
      | linear j =>
          simp only [searchStep] at hfound
          split at hfound
          · cases hfound
            rfl
          · split at hfound <;> cases hfound
            rfl
    subst hm
    have hunique := of_decide_eq_true h
    rw [checkUnique] at hunique
    split at hunique
    · cases hunique
    · split at hunique
      · split at hunique
        · rename_i hcmp
          refine ⟨i, ?_⟩
          cases hget : n.getKey (n.recordMetadata i) with
          | none =>
              rw [hget] at hcmp
              exact absurd hcmp (by simp [keyCompare])
          | some k =>
              rw [hget, keyCompare_eq_zero_iff] at hcmp
              rw [BaseNode.visibleKey, hget, hcmp]
        · cases hunique
      · cases hunique
  · cases h

/-- An insertion has changed nothing before it reserves a slot, to which it never goes back. -/
theorem insertStep_unreserved {pc pc' : InsertPc}
    (hstep : insertStep parameters n key payload pc = (n', .goto pc')) (hr : pc'.reserved? = none) :
    n' = n ∧ pc.reserved? = none := by
  have hheld : ∀ {r : Reserved} {pc'' : InsertPc}, pc''.reserved? = some r →
      (n, Outcome.goto pc'') ≠ (n', Outcome.goto pc') := by
    intro r pc'' hr'' heq
    rw [← Outcome.goto.inj (Prod.mk.inj heq).2, hr''] at hr
    cases hr
  cases pc with
  | retry =>
      simp only [insertStep, insertStepWith] at hstep
      split at hstep <;> cases hstep
      exact ⟨rfl, rfl⟩
  | checking expected s =>
      have hspace : ∀ u, (n, checkSpace parameters key.totalSize expected u) = (n', .goto pc') →
          n' = n := fun u heq => (Prod.mk.inj heq).1.symm
      refine ⟨?_, rfl⟩
      simp only [insertStep, insertStepWith] at hstep
      split at hstep
      · cases hstep
        rfl
      · exact hspace _ hstep
      · split at hstep
        · cases hstep
        · exact hspace _ hstep
        · cases hstep
  | readMeta expected u =>
      simp only [insertStep, insertStepWith] at hstep
      split at hstep <;> cases hstep <;> exact ⟨rfl, rfl⟩
  | reserve expected u =>
      simp only [insertStep, insertStepWith] at hstep
      split at hstep <;> cases hstep
      · cases hr
      · exact ⟨rfl, rfl⟩
  | copy r =>
      cases hstep
      rw [phase2_reserved?] at hr
      cases hr
  | recheckStatus r | readStatus r | whileCheck r checkIdx needCheck =>
      simp only [insertStep, insertStepWith] at hstep
      split at hstep <;> cases hstep <;> cases hr
  | recheckBound r | clear r =>
      cases hstep
      cases hr
  | scan r i linearEnd checkIdx | forCheck r checkIdx needCheck i =>
      simp only [insertStep, insertStepWith] at hstep
      split at hstep
      · split at hstep <;> cases hstep <;> cases hr
      · cases hstep
        cases hr
  | finalize r s =>
      simp only [insertStep, insertStepWith] at hstep
      split at hstep
      · cases hstep
      · exact absurd hstep (hheld phase2_reserved?)

theorem updateStep_goto {pc pc' : UpdatePc}
    (hstep : updateStep n key payload pc = (n', .goto pc')) : n' = n := by
  cases pc with
  | retry =>
      simp only [updateStep] at hstep
      split at hstep <;> cases hstep
      rfl
  | search oldStatus s =>
      simp only [updateStep] at hstep
      split at hstep
      · cases hstep
        rfl
      · cases hstep
      · split at hstep <;> cases hstep <;> rfl
  | readPayload oldStatus i m =>
      simp only [updateStep] at hstep
      split at hstep
      · split at hstep
        · cases hstep
        · split at hstep <;> cases hstep
          rfl
      · cases hstep
  | swap oldStatus i m recordPayload =>
      simp only [updateStep] at hstep
      split at hstep
      · split at hstep <;> cases hstep
        rfl
      · cases hstep

/-- An update goes on behind where its search has been, or starts again. -/
theorem updateStep_position {p : Nat} {pc pc' : UpdatePc} (hk : n.visibleKey p = some key.bytes)
    (hp : pc.position ≤ p) (hstep : updateStep n key payload pc = (n', .goto pc')) :
    pc'.position ≤ p := by
  cases pc with
  | retry =>
      simp only [updateStep] at hstep
      split at hstep <;> cases hstep
      exact Nat.zero_le p
  | search oldStatus s =>
      simp only [updateStep] at hstep
      split at hstep
      · rename_i s' hgo
        cases hstep
        exact searchStep_position hk hp hgo
      · cases hstep
      · split at hstep <;> cases hstep <;> exact Nat.zero_le p
  | readPayload oldStatus i m =>
      simp only [updateStep] at hstep
      split at hstep
      · split at hstep
        · cases hstep
        · split at hstep <;> cases hstep
          exact Nat.zero_le p
      · cases hstep
  | swap oldStatus i m recordPayload =>
      simp only [updateStep] at hstep
      split at hstep
      · split at hstep <;> cases hstep
        exact Nat.zero_le p
      · cases hstep

end Undisturbed

namespace Calls

variable {parameters : ParameterSet} {owner owner' : Addr → Option Nat} {h h' : Heap} {t u : Nat}
  {a b c : Addr} {n n' m : BaseNode} {threads : Nat → Option Pc} {pc : Pc} {l l' : LeafPc}
  {i : Insertion} {j : Job} {s : Halves}

section Leaves

theorem Laid.like {threads : Nat → Option LeafPc} (h : Laid parameters n threads)
    (hl : threads t = some l) (hleaf : n.isLeaf = true) : Like n (leafStep parameters n l).1 := by
  have hchange := leafStep_change (n := n) (h.localOk t l hl)
  have hkind := hchange.isLeaf
  refine ⟨hkind, fun hinternal => ?_, fun hfrozen => ?_⟩
  · cases hleaf.symm.trans hinternal
  · have hsame := h.immutable hl hfrozen hchange
    refine ⟨hsame.status ▸ hfrozen, ?_, hsame.visibleEntries h.records⟩
    rw [children_of_leaf hleaf, children_of_leaf (hkind.trans hleaf)]

theorem lost_at? : (i.lost a).at? b = none := by
  rw [Insertion.lost]
  split <;> rfl

theorem returned_at? {rc : ReturnCode} : (j.returned a rc).at? b = none := by
  cases j with
  | insert i =>
      cases rc with
      | nodeFrozen => exact lost_at?
      | ok | keyExists | notFound | pmwcasFailure | notEnoughSpace => rfl
  | update op => cases rc <;> rfl
  | delete op => cases rc <;> rfl
  | read op => cases rc <;> rfl

theorem inLeaf_at? : (∀ b, (j.inLeaf a l).at? b = none) ∨ j.inLeaf a l = .leaf j a l := by
  cases l with
  | insert | update | delete | freeze => exact Or.inr rfl
  | done op rc => exact Or.inl fun b => returned_at?
  | aborted => exact Or.inl fun b => rfl

theorem returned_ok : j.returned a .ok = .done j.op .ok := by
  cases j <;> rfl

theorem lost_knows (hi : i.Ok owner h a) (ha : Handed owner h a) (hf : h.Frozen a) :
    (i.lost a).Knows parameters owner h t := by
  rw [Insertion.lost]
  split
  · exact hi.op
  · exact ⟨⟨hi.op, hi.frames, hi.root⟩, ha, hf⟩

theorem Inv.stepLeaf (hi : Inv parameters owner h threads) (ht : threads t = some (.leaf j a l))
    (hn : h.nodes a = some n) (hleaf : n.isLeaf = true)
    (hknows : (j.inLeaf a (leafStep parameters n l).2).Knows parameters owner h t) :
    Inv parameters owner (h.set a (leafStep parameters n l).1)
      (Function.update threads t (some (j.inLeaf a (leafStep parameters n l).2))) := by
  have hl : working threads a t = some l := by
    rw [working, ht]
    exact if_pos rfl
  have hlaid := hi.laid a n hn hleaf
  have hchange := leafStep_change (n := n) (hlaid.localOk t l hl)
  have hstep := hlaid.change hl hchange (leafStep_localOk (hlaid.localOk t l hl))
  have hlike := Laid.like hlaid hl hleaf
  have ha : owner a = none := (hi.working_spec hl).1.1
  generalize leafStep parameters n l = r at *
  refine ⟨hi.sound.set hn (fun c hc => ?_) (fun hinternal => ?_), fun b m hb hbleaf => ?_,
    fun u pc hu => ?_⟩
  · rw [children_of_leaf (hlike.isLeaf.trans hleaf)] at hc
    cases hc
  · cases (hlike.isLeaf.trans hleaf).symm.trans hinternal
  · rw [working_update, Option.bind_some]
    rcases eq_or_ne b a with rfl | hne
    · cases set_self.symm.trans hb
      rcases inLeaf_at? (j := j) (a := b) (l := r.2) with hnone | hsame
      · have hgone := hstep.update (t := t) (o := none) fun _ hm =>
          (Option.not_mem_none _ hm).elim
        rw [Function.update_idem] at hgone
        rwa [hnone]
      · rw [hsame, Pc.at?, if_pos rfl]
        exact hstep
    · refine (hi.laid b m ((set_of_ne hne).symm.trans hb) hbleaf).update fun l' hl' => ?_
      rcases inLeaf_at? (j := j) (a := a) (l := r.2) with hnone | hsame
      · cases (hnone b).symm.trans hl'
      · rw [hsame, Pc.at?, if_neg hne.symm] at hl'
        cases hl'
  · have hkeep := Keeps.set hn ha hlike u
    rcases update_eq_some hu with ⟨rfl, hpc⟩ | ⟨-, hpc⟩
    · cases hpc
      exact hkeep.knows hknows
    · exact hkeep.knows (hi.knows u pc hpc)

end Leaves

section Orderly

instance : (op : CallOp) → Decidable op.Upserts
  | .upsert _ _ => .isTrue trivial
  | .insert _ _ | .update _ _ | .delete _ => .isFalse id

/-- What an operation on a leaf finds there as long as no other thread is in its way: a leaf
that is not frozen for an update, and for the operations of an `Upsert` the key as it has been
read, visible where the search still has to come or nowhere. -/
def Calm (n : BaseNode) : Job → LeafPc → Prop
  | .insert i, .insert key _ pc =>
      i.op.Upserts → pc.reserved? = none → ∀ p, n.visibleKey p ≠ some key.bytes
  | .update op, .update key _ pc =>
      n.status.frozen = false ∧
        (op.Upserts → ∃ p, pc.position ≤ p ∧ n.visibleKey p = some key.bytes)
  | _, _ => True

/-- The node that a thread splits is where the key between the halves leads to in its parent. -/
def Pc.InPlace (parameters : ParameterSet) (h : Heap) : Pc → Prop
  | .splitParent i s => ∀ f ∈ i.stack.frames.head?, ∀ n ∈ h.inner f.node,
      n.getChildByMetaIndex (n.displacedIndex parameters.splitThreshold s.key) = some s.old
  | _ => True

instance (parameters : ParameterSet) (h : Heap) : (pc : Pc) → Decidable (pc.InPlace parameters h)
  | .splitParent i s => inferInstanceAs (Decidable (∀ f ∈ i.stack.frames.head?, ∀ n ∈ h.inner f.node,
      n.getChildByMetaIndex (n.displacedIndex parameters.splitThreshold s.key) = some s.old))
  | .land _ | .descend _ _ | .reading _ _ _ | .readPayload _ _ _ | .leaf _ _ _
  | .freezing _ _ _ _ _ | .splitLeaf _ _ | .newRoot _ _ | .install _ _ _ | .update _ _ _ _ _ _
  | .done _ _ | .aborted => .isTrue trivial

theorem leaf_eq_some : h.leaf a = some n ↔ h.nodes a = some n ∧ n.isLeaf = true :=
  Option.filter_eq_some_iff

theorem inner_eq_some : h.inner a = some n ↔ h.nodes a = some n ∧ n.isLeaf = false := by
  rw [Heap.inner, Option.filter_eq_some_iff, Bool.not_eq_true']

theorem allows_ok {op : CallOp} : op.Allows .ok := by
  cases op with
  | insert | update | delete => exact Or.inl rfl
  | upsert => rfl

theorem inLeaf_knows (hj : j.Ok owner h a) (ha : Handed owner h a) (hr : j.Runs l)
    (hl : l.LocalOk parameters) (hn : h.leaf a = some n) (hrecords : Records n)
    (hcalm : Calm n j l) :
    (j.inLeaf a (leafStep parameters n l).2).Knows parameters owner h t := by
  have hlocal := leafStep_localOk (n := n) hl
  have hfrozen : n.status.frozen = true → h.Frozen a := fun hf => ⟨n, (leaf_eq_some.mp hn).1, hf⟩
  cases j with
  | insert i =>
      have hi := hj.insertion i rfl
      cases l with
      | insert key payload pc =>
          simp only [leafStep] at hlocal ⊢
          cases hret : (insertStep parameters n key payload pc).2 with
          | goto pc' =>
              rw [hret] at hlocal
              exact ⟨hj, ha, trivial, hlocal⟩
          | abort => trivial
          | ret rc =>
              rcases insertStep_ret hret with (rfl | rfl | ⟨rfl, hf⟩) | ⟨rfl, expected, s, rfl, hrep⟩
              · exact allows_ok
              · exact ⟨hi, ha, freezeOk_none⟩
              · exact lost_knows hi ha (hfrozen hf)
              · have hop : i.op.Inserts := hi.op
                change i.op.Allows .keyExists
                cases hcase : i.op with
                | insert => exact Or.inr rfl
                | upsert =>
                    obtain ⟨p, hp⟩ := exists_visibleKey_of_repeats hrep
                    exact absurd hp (hcalm (by rw [hcase]; trivial) rfl p)
                | update | delete =>
                    rw [hcase] at hop
                    exact hop.elim
      | update | delete | freeze | done | aborted => exact hr.elim
  | update op =>
      cases l with
      | update key payload pc =>
          simp only [leafStep] at hlocal ⊢
          cases hret : (updateStep n key payload pc).2 with
          | goto pc' =>
              rw [hret] at hlocal
              exact ⟨hj, ha, trivial, hlocal⟩
          | abort => trivial
          | ret rc =>
              rcases updateStep_ret hret with rfl | ⟨rfl, rfl, hf⟩ | ⟨rfl, oldStatus, s, rfl, hmiss⟩
              · exact allows_ok
              · cases hcalm.1.symm.trans hf
              · have hop : op.Updates := hj.fits
                change op.Allows .notFound
                cases op with
                | update => exact Or.inr rfl
                | upsert =>
                    obtain ⟨p, hle, hp⟩ := hcalm.2 trivial
                    cases (not_misses hrecords hp hle).symm.trans hmiss
                | insert | delete => exact hop.elim
      | insert | delete | freeze | done | aborted => exact hr.elim
  | delete op =>
      cases l with
      | delete key pc =>
          simp only [leafStep] at hlocal ⊢
          cases hret : (deleteStep n key pc).2 with
          | goto pc' =>
              rw [hret] at hlocal
              exact ⟨hj, ha, trivial, hlocal⟩
          | abort => trivial
          | ret rc =>
              have hop : op.Deletes := hj.fits
              rcases deleteStep_ret hret with rfl | rfl | rfl
              · exact allows_ok
              · exact hop
              · change op.Allows .notFound
                cases op with
                | delete => exact Or.inr rfl
                | insert | update | upsert => exact hop.elim
      | insert | update | freeze | done | aborted => exact hr.elim
  | read op => exact hr.elim

end Orderly

section Traversal

/-- A step keeps the invariant, and what is stored unless the call returns `Ok` with it. -/
def Proceeds (parameters : ParameterSet) (h : Heap) (threads : Nat → Option Pc) (t : Nat)
    (r : Heap × Pc) : Prop :=
  ∃ owner, Inv parameters owner r.1 (Function.update threads t (some r.2)) ∧
    (r.1.contents = h.contents ∨ ∃ op, r.2 = .done op .ok)

theorem Inv.stays (hi : Inv parameters owner h threads) (pc : Pc) (hk : pc.Knows parameters owner h t)
    (hat : ∀ a, pc.at? a = none) : Proceeds parameters h threads t (h, pc) :=
  ⟨owner, hi.moveOff hk hat, Or.inl rfl⟩

theorem Inv.aborts (hi : Inv parameters owner h threads) :
    Proceeds parameters h threads t (h, .aborted) :=
  hi.stays .aborted trivial fun _ => rfl

theorem Inv.reaches (hi : Inv parameters owner h threads) (hj : j.Ok owner h a)
    (ha : Handed owner h a) (n : BaseNode) : Proceeds parameters h threads t (h, j.reached a n) := by
  have hbegin : ∀ op : LeafOp, j.Runs op.begin →
      Proceeds parameters h threads t (h, .leaf j a op.begin) := by
    intro op hruns
    refine ⟨owner, hi.move ⟨hj, ha, hruns, begin_localOk op⟩ fun b l hl => ?_, Or.inl rfl⟩
    rw [Pc.at?] at hl
    split at hl
    · rw [← Option.some.inj hl]
      exact begin_reserved? op
    · cases hl
  unfold Job.reached
  split
  · cases j with
    | insert i => exact hbegin _ trivial
    | update op => exact hbegin _ trivial
    | delete op => exact hbegin _ trivial
    | read op => exact hi.stays _ hj.fits fun _ => rfl
  · exact hi.stays _ ⟨hj, ha⟩ fun _ => rfl

theorem rooted_ok (hj : j.Fits) (root : Addr) : (j.rooted root).Ok owner h root := by
  cases j with
  | insert i =>
      refine ⟨hj, fun i' hi' => ?_⟩
      cases hi'
      exact ⟨hj, fun f hf => (List.not_mem_nil hf).elim, rfl⟩
  | update op => exact ⟨hj, fun i hi => by cases hi⟩
  | delete op => exact ⟨hj, fun i hi => by cases hi⟩
  | read op => exact ⟨hj, fun i hi => by cases hi⟩

theorem Inv.stepLand (hi : Inv parameters owner h threads) (hj : j.Fits) :
    Proceeds parameters h threads t (callStep parameters h (.land j)) := by
  obtain ⟨n, hn⟩ := hi.sound.root.2
  simp only [callStep, hn]
  exact hi.reaches (rooted_ok hj h.root) hi.sound.root n

theorem push_ok (hj : j.Ok owner h a) (ha : Handed owner h a) (hn : h.inner a = some n) {k : Nat}
    (hk : k < n.sortedCount) {j' : Job} (hpush : j.push ⟨a, k⟩ = some j') : j'.Ok owner h b := by
  obtain ⟨hnode, hinternal⟩ := inner_eq_some.mp hn
  cases j with
  | insert i =>
      obtain ⟨stack, hstack, rfl⟩ := Option.map_eq_some_iff.mp hpush
      rw [Stack.push] at hstack
      split at hstack
      · cases hstack
        refine ⟨hj.fits, fun i' hi' => ?_⟩
        cases hi'
        have hok := hj.insertion i rfl
        refine ⟨hok.op, fun f hf => ?_, ?_⟩
        · rcases List.mem_cons.mp hf with rfl | hf
          · exact ⟨ha.1, n, hnode, hinternal, hk⟩
          · exact hok.frames f hf
        · have hroot := hok.root
          change i.stack.root = _
          rw [hroot]
          cases i.stack.frames with
          | nil => rfl
          | cons f fs => rw [List.getLast?_cons_cons, List.getLast?_cons, Option.map_some]; rfl
      · cases hstack
  | update op =>
      cases hpush
      exact ⟨hj.fits, fun i hi => by cases hi⟩
  | delete op =>
      cases hpush
      exact ⟨hj.fits, fun i hi => by cases hi⟩
  | read op =>
      cases hpush
      exact ⟨hj.fits, fun i hi => by cases hi⟩

theorem mem_children {k : Nat} (hinternal : n.isLeaf = false) (hk : k < n.sortedCount)
    (hc : n.getChildByMetaIndex k = some c) : c ∈ n.children := by
  rw [BaseNode.children, hinternal, if_neg Bool.false_ne_true]
  exact List.mem_filterMap.mpr ⟨k, List.mem_range.mpr hk, hc⟩

theorem Inv.stepDescend (hi : Inv parameters owner h threads) (hj : j.Ok owner h a)
    (ha : Handed owner h a) : Proceeds parameters h threads t (callStep parameters h (.descend j a)) := by
  simp only [callStep]
  cases hn : h.inner a with
  | none => exact hi.aborts
  | some n =>
      obtain ⟨hnode, hinternal⟩ := inner_eq_some.mp hn
      simp only [descendStep]
      generalize n.getChildIndex j.op.key.bytes true = k
      split
      · rename_i b j' hchild hpush
        split at hchild
        · rename_i hk
          have hb := hi.sound.handed_child hnode ha.1 (mem_children hinternal hk hchild)
          obtain ⟨m, hm⟩ := hb.2
          simp only [hm]
          exact hi.reaches (push_ok hj ha hn hk hpush) hb m
        · cases hchild
      · exact hi.aborts

theorem Inv.stepReading (hi : Inv parameters owner h threads) {op : CallOp} (hop : op.Upserts)
    (s : Search) : Proceeds parameters h threads t (callStep parameters h (.reading op a s)) := by
  simp only [callStep]
  cases hn : h.leaf a with
  | none => exact hi.aborts
  | some n =>
      simp only [readingStep]
      split
      · exact hi.stays _ hop fun _ => rfl
      · refine hi.stays (Insertion.start op).again ?_ fun _ => rfl
        cases op with
        | upsert => trivial
        | insert | update | delete => exact hop.elim
      · exact hi.stays _ hop fun _ => rfl

theorem Inv.stepReadPayload (hi : Inv parameters owner h threads) {op : CallOp} (hop : op.Upserts)
    (m : RecordMetadata) :
    Proceeds parameters h threads t (callStep parameters h (.readPayload op a m)) := by
  simp only [callStep]
  split
  · simp only [afterRead]
    split
    · exact hi.stays (.done op .ok) allows_ok fun _ => rfl
    · refine hi.stays (.land (.update op)) ?_ fun _ => rfl
      cases op with
      | upsert => trivial
      | insert | update | delete => exact hop.elim
  · exact hi.aborts

theorem Inv.stepInLeaf (hi : Inv parameters owner h threads) (ht : threads t = some (.leaf j a l))
    (hcalm : ∀ n, h.leaf a = some n → Calm n j l) :
    Proceeds parameters h threads t (callStep parameters h (.leaf j a l)) := by
  obtain ⟨hj, ha, hr, hl⟩ := hi.knows t _ ht
  simp only [callStep]
  cases hn : h.leaf a with
  | none => exact hi.aborts
  | some n =>
      obtain ⟨hnode, hleaf⟩ := leaf_eq_some.mp hn
      have hworking : working threads a t = some l := by
        rw [working, ht]
        exact if_pos rfl
      have hlaid := hi.laid a n hnode hleaf
      have hlike := Laid.like hlaid hworking hleaf
      refine ⟨owner, hi.stepLeaf ht hnode hleaf
        (inLeaf_knows hj ha hr hl hn hlaid.records (hcalm n hn)), ?_⟩
      refine (hlaid.visibleEntries_step hworking).imp (fun hsame => ?_) fun hdone => ?_
      · refine contents_set hnode hlike.isLeaf ?_ hsame
        rw [children_of_leaf hleaf, children_of_leaf (hlike.isLeaf.trans hleaf)]
      · obtain ⟨op, hop⟩ := hdone
        exact ⟨j.op, (congrArg (j.inLeaf a) hop).trans returned_ok⟩

end Traversal

section Freezing

theorem set_eq_self (hn : h.nodes a = some n) : h.set a n = h := by
  rw [Heap.set, ← hn, Function.update_eq_self]

theorem Inv.stepFreezing (hi : Inv parameters owner h threads) {goal : Goal} {byMe : Bool}
    {fp : Option FreezePc} (ht : threads t = some (.freezing i goal a byMe fp)) :
    Proceeds parameters h threads t (callStep parameters h (.freezing i goal a byMe fp)) := by
  obtain ⟨hgoal, ha, hfp⟩ := hi.knows t _ ht
  obtain ⟨n, hn⟩ := ha.2
  have hloop : ∀ (byMe : Bool) (fp : Option FreezePc), (∀ f, fp = some f → FreezeOk f) →
      Proceeds parameters h threads t (h, .freezing i goal a byMe fp) :=
    fun byMe fp hfp => hi.stays _ ⟨hgoal, ha, hfp⟩ fun _ => rfl
  simp only [callStep, hn]
  cases fp with
  | none =>
      simp only [freezingStep]
      split
      · rename_i hf
        have hfrozen : h.Frozen a := ⟨n, hn, hf⟩
        cases goal with
        | leaf =>
            simp only [Insertion.frozen]
            split
            · exact hi.stays _ ⟨hgoal, ha, hfrozen⟩ fun _ => rfl
            · exact hi.stays _ (lost_knows hgoal ha hfrozen) fun _ => lost_at?
        | parent s =>
            obtain ⟨hs, f, fs, hframes, rfl⟩ := hgoal
            simp only [Insertion.frozen]
            split
            · exact hi.stays i.again hs.path.op fun _ => rfl
            · exact hi.stays _ ⟨hs, f, fs, hframes, hfrozen⟩ fun _ => rfl
      · refine hloop byMe (some .read) fun f hf => ?_
        rw [← Option.some.inj hf]
        trivial
  | some fp =>
      cases fp with
      | read =>
          simp only [freezingStep, freezeStep]
          cases hf : n.status.frozen with
          | true =>
              simp only [if_true, set_eq_self hn]
              exact hloop _ none freezeOk_none
          | false =>
              simp only [Bool.false_eq_true, if_false, set_eq_self hn]
              refine hloop byMe (some (.swap n.status)) fun f hf' => ?_
              rw [← Option.some.inj hf']
              exact hf
      | swap expected =>
          simp only [freezingStep, freezeStep]
          by_cases hs : n.status = expected
          · subst hs
            simp only [if_true]
            have hset := hi.freeze hn ha.1
            have hcontents : (h.set a n.freeze).contents = h.contents := contents_set hn rfl rfl rfl
            refine ⟨owner, ?_, Or.inl hcontents⟩
            refine hset.moveOff ?_ fun _ => rfl
            have hk : Pc.Knows parameters owner h t (.freezing i goal a true none) :=
              ⟨hgoal, ha, freezeOk_none⟩
            exact (Keeps.set hn ha.1 like_freeze t).knows hk
          · simp only [hs, if_false, set_eq_self hn]
            exact hloop _ none freezeOk_none

end Freezing

section Splits

theorem climb_at? : (i.climb s).at? b = none := by
  unfold Insertion.climb
  split <;> rfl

theorem FrameOk.handed {f : Frame} (hf : FrameOk owner h f) : Handed owner h f.node := by
  obtain ⟨p, hp, -⟩ := hf.node
  exact ⟨hf.owner, p, hp⟩

theorem climb_knows (hs : s.Ok owner h t i) : (i.climb s).Knows parameters owner h t := by
  unfold Insertion.climb
  split
  · rename_i hframes
    exact ⟨hs, hframes⟩
  · rename_i f fs hframes
    refine ⟨⟨hs, f, fs, hframes, rfl⟩, ?_, freezeOk_none⟩
    exact (hs.path.frames f (by rw [hframes]; exact List.mem_cons_self ..)).handed

theorem popped_ok {f : Frame} {fs : List Frame} (hi : i.Ok owner h a)
    (hframes : i.stack.frames = f :: fs) : i.popped.Ok owner h f.node := by
  have htail : i.popped.stack.frames = fs := by
    change i.stack.frames.tail = fs
    rw [hframes, List.tail_cons]
  refine ⟨hi.op, fun g hg => hi.frames g ?_, ?_⟩
  · rw [htail] at hg
    rw [hframes]
    exact List.mem_cons_of_mem f hg
  · have hroot := hi.root
    rw [hframes, List.getLast?_cons] at hroot
    change i.stack.root = _
    rw [htail, hroot]
    cases fs with
    | nil => rfl
    | cons g fs =>
        rw [List.getLast?_cons]
        rfl

theorem Like.trans (hl : Like n n') (hl' : Like n' m) : Like n m := by
  refine ⟨hl'.isLeaf.trans hl.isLeaf, fun hinternal => ?_, fun hfrozen => ?_⟩
  · obtain ⟨hcount, hrecords⟩ := hl.records hinternal
    obtain ⟨hcount', hrecords'⟩ := hl'.records (hl.isLeaf.trans hinternal)
    exact ⟨hcount'.trans hcount, hrecords'.trans hrecords⟩
  · obtain ⟨hf, hchildren, hentries⟩ := hl.frozen hfrozen
    obtain ⟨hf', hchildren', hentries'⟩ := hl'.frozen hf
    exact ⟨hf', hchildren'.trans hchildren, hentries'.trans hentries⟩

theorem Keeps.trans {owner'' : Addr → Option Nat} {h'' : Heap} (hk : Keeps owner h owner' h' u)
    (hk' : Keeps owner' h' owner'' h'' u) : Keeps owner h owner'' h'' u := by
  refine ⟨fun b k hb => ?_, fun b hb => (hk'.handed' (hk.handed' hb)).1, fun b hb => ?_⟩
  · obtain ⟨k', hb', hlike⟩ := hk.node b k hb
    obtain ⟨k'', hb'', hlike'⟩ := hk'.node b k' hb'
    exact ⟨k'', hb'', hlike.trans hlike'⟩
  · obtain ⟨howner, hsame⟩ := hk.mine b hb
    obtain ⟨howner', hsame'⟩ := hk'.mine b ⟨howner, hsame ▸ hb.2⟩
    exact ⟨howner', hsame'.trans hsame⟩

theorem Mine.add (hs : Sound owner h) (ha : Mine owner h t a) (n : BaseNode) :
    Mine (Function.update owner h.fresh (some t)) (h.add n) t a := by
  obtain ⟨howner, hsame⟩ := (Keeps.add (t := t) (n := n) hs t).mine a ha
  exact ⟨howner, hsame ▸ ha.2⟩

structure Addable (parameters : ParameterSet) (owner : Addr → Option Nat) (h : Heap) (t : Nat)
    (n : BaseNode) : Prop where
  children : ∀ c ∈ n.children, Handed owner h c ∨ Mine owner h t c
  inner : n.isLeaf = false → ∃ E, n.Inner E
  laid : n.isLeaf = true → Laid parameters n nobody

theorem addable_leaf (hn : Laid parameters n nobody) (hleaf : n.isLeaf = true) :
    Addable parameters owner h t n := by
  refine ⟨fun c hc => ?_, fun hinternal => ?_, fun _ => hn⟩
  · rw [children_of_leaf hleaf] at hc
    cases hc
  · cases hleaf.symm.trans hinternal

theorem addable_inner {E : List Entry} (hn : n.Inner E)
    (hchildren : ∀ c ∈ n.children, Handed owner h c ∨ Mine owner h t c) :
    Addable parameters owner h t n :=
  ⟨hchildren, fun _ => ⟨E, hn⟩, fun hleaf => by cases hn.stores.inner.symm.trans hleaf⟩

structure Added (parameters : ParameterSet) (owner : Addr → Option Nat) (h : Heap) (t : Nat)
    (threads : Nat → Option Pc) (owner' : Addr → Option Nat) (h' : Heap) : Prop where
  inv : Inv parameters owner' h' threads
  keeps : Keeps owner h owner' h' t
  nodes : ∀ a n, h.nodes a = some n → h'.nodes a = some n
  contents : h'.contents = h.contents

theorem Inv.addOne (hi : Inv parameters owner h threads) (hn : Addable parameters owner h t n)
    (hroom : h.fresh + 2 ≤ 2 ^ 64) :
    ∃ owner', Added parameters owner h t threads owner' (h.add n) ∧
      Mine owner' (h.add n) t h.fresh := by
  refine ⟨_, ⟨?_, Keeps.add hi.sound t, fun a m hm => hi.sound.add_node hm, contents_add hi.sound⟩,
    mine_add⟩
  exact hi.add hn.children hn.inner (Nat.le_of_succ_le hroom) hn.laid

theorem Inv.addTwo (hi : Inv parameters owner h threads) (hn : Addable parameters owner h t n)
    (hm : Addable parameters owner h t m) (hroom : h.fresh + 2 ≤ 2 ^ 64) :
    ∃ owner', Added parameters owner h t threads owner' ((h.add n).add m) ∧
      (Mine owner' ((h.add n).add m) t h.fresh ∧ Mine owner' ((h.add n).add m) t (h.fresh + 1)) ∧
        ((h.add n).add m).nodes h.fresh = some n ∧
          ((h.add n).add m).nodes (h.fresh + 1) = some m := by
  have hfirst := hi.add (t := t) hn.children hn.inner (Nat.le_of_succ_le hroom) hn.laid
  have hkeep := Keeps.add (t := t) (n := n) hi.sound t
  have hchildren := fun c hc => (hm.children c hc).imp hkeep.handed' fun hc => hc.add hi.sound n
  have hsecond := hfirst.add (t := t) hchildren hm.inner hroom hm.laid
  have hkeep' := Keeps.add (t := t) (n := m) hfirst.sound t
  refine ⟨_, ⟨hsecond, hkeep.trans hkeep', fun a k hk => ?_, ?_⟩, ⟨?_, mine_add⟩, ?_, add_self⟩
  · exact hfirst.sound.add_node (hi.sound.add_node hk)
  · exact (contents_add hfirst.sound).trans (contents_add hi.sound)
  · exact mine_add.add hfirst.sound m
  · exact hfirst.sound.add_node add_self

theorem forall_mem_two {α : Type*} {P : α → Prop} {x y : α} : (∀ b ∈ [x, y], P b) ↔ P x ∧ P y := by
  rw [List.forall_mem_cons, List.forall_mem_singleton]

theorem Inv.stepSplitLeaf (hi : Inv parameters owner h threads)
    (ht : threads t = some (.splitLeaf i a)) :
    Proceeds parameters h threads t (callStep parameters h (.splitLeaf i a)) := by
  simp only [callStep]
  cases hn : h.leaf a with
  | none => exact hi.aborts
  | some n =>
      simp only [splitLeafStep]
      cases hsplit : n.splitLeaf with
      | none => exact hi.aborts
      | some r =>
          obtain ⟨left, key, right⟩ := r
          dsimp only
          split
          · rename_i hroom
            obtain ⟨hnode, hleaf⟩ := leaf_eq_some.mp hn
            obtain ⟨⟨hl, hlleaf⟩, ⟨hr, hrleaf⟩, hsame⟩ :=
              BaseNode.splitLeaf_spec (hi.laid a n hnode hleaf) hsplit
            obtain ⟨owner', hadd, ⟨hm, hm'⟩, hnodel, hnoder⟩ := hi.addTwo (t := t)
              (addable_leaf hl hlleaf) (addable_leaf hr hrleaf) hroom
            obtain ⟨hpath, hold, hfrozen⟩ := hadd.inv.knows t _ ht
            have hnode' := hadd.nodes a n hnode
            have htakes : Takes owner' ((h.add left).add right) t a [h.fresh, h.fresh + 1] := by
              refine .items hfrozen (forall_mem_two.mpr ⟨hm, hm'⟩)
                ((graph_children hnode').trans (children_of_leaf hleaf))
                (forall_mem_two.mpr ⟨(graph_children hnodel).trans (children_of_leaf hlleaf),
                  (graph_children hnoder).trans (children_of_leaf hrleaf)⟩) fun e => ?_
              simp only [List.mem_cons, List.not_mem_nil, or_false, exists_eq_or_imp,
                exists_eq_left, mem_items hnode', mem_items hnodel, mem_items hnoder, hleaf,
                hlleaf, hrleaf, true_and]
              exact hsame e
            exact ⟨owner', hadd.inv.moveOff (climb_knows ⟨hpath, hold, htakes⟩) fun _ => climb_at?,
              Or.inl hadd.contents⟩
          · exact hi.aborts

theorem Halves.Ok.mine (hs : s.Ok owner h t i) : Mine owner h t s.left ∧ Mine owner h t s.right :=
  ⟨hs.takes.all_mine _ (List.mem_cons_self ..),
    hs.takes.all_mine _ (List.mem_cons_of_mem _ (List.mem_cons_self ..))⟩

theorem Halves.Ok.toNat (hs : s.Ok owner h t i) (hsound : Sound owner h) :
    (BitVec.ofNat 64 s.left).toNat = s.left ∧ (BitVec.ofNat 64 s.right).toNat = s.right := by
  obtain ⟨⟨-, l, hl⟩, ⟨-, r, hr⟩⟩ := hs.mine
  exact ⟨hsound.toNat hl, hsound.toNat hr⟩

theorem Inv.stepNewRoot (hi : Inv parameters owner h threads)
    (ht : threads t = some (.newRoot i s)) :
    Proceeds parameters h threads t (callStep parameters h (.newRoot i s)) := by
  obtain ⟨m, hm, hstores⟩ := BaseNode.newRoot_spec s.key (BitVec.ofNat 64 s.left)
    (BitVec.ofNat 64 s.right)
  simp only [callStep, newRootStep, hm]
  split
  · rename_i hroom
    obtain ⟨hs, -⟩ := hi.knows t _ ht
    obtain ⟨hleft, hright⟩ := hs.toNat hi.sound
    have hchildren : m.children = [s.left, s.right] := by
      rw [hstores.children, List.map_cons, List.map_cons, List.map_nil, hleft, hright]
    have hmade : Addable parameters owner h t m := by
      refine addable_inner ⟨hstores, rfl⟩ ?_
      rw [hchildren]
      exact forall_mem_two.mpr ⟨Or.inr hs.mine.1, Or.inr hs.mine.2⟩
    obtain ⟨owner', hadd, hmine⟩ := hi.addOne hmade hroom
    obtain ⟨hs', -⟩ := hadd.inv.knows t _ ht
    have htakes : Takes owner' (h.add m) t s.old [h.fresh] :=
      .join hs'.takes hmine ((graph_children add_self).trans hchildren)
        (items_of_internal add_self hstores.inner)
    have hk : Pc.Knows parameters owner' (h.add m) t (.install i s.old h.fresh) :=
      ⟨hs'.path, hs'.handed, htakes⟩
    exact ⟨owner', hadd.inv.moveOff hk fun _ => rfl, Or.inl hadd.contents⟩
  · exact hi.aborts

/-- The new nodes of a parent that was split have the halves of the child in its place. -/
theorem Inv.displaced (hi : Inv parameters owner h threads) (hs : s.Ok owner h t i)
    (ha : Handed owner h a) (hn : h.inner a = some n) {splitThreshold : Nat} {split : BaseNode.Split}
    (hsplit : n.prepareForSplit splitThreshold s.key (BitVec.ofNat 64 s.left)
      (BitVec.ofNat 64 s.right) = some split)
    (hat : n.getChildByMetaIndex (n.displacedIndex splitThreshold s.key) = some s.old) :
    ∃ X Y, n.children = X ++ s.old :: Y ∧
      split.nodes.flatMap BaseNode.children = X ++ [s.left, s.right] ++ Y ∧
      ∀ m ∈ split.nodes, m.isLeaf = false ∧ Addable parameters owner h t m := by
  obtain ⟨hnode, hinternal⟩ := inner_eq_some.mp hn
  obtain ⟨E, hE⟩ := hi.sound.inner a n hnode hinternal
  have hkids := hE.stores.children
  have hhanded : ∀ c ∈ n.children, Handed owner h c := fun c hc =>
    hi.sound.handed_child hnode ha.1 hc
  have hne : ∀ e ∈ E, e.payload ≠ 0 := by
    intro e he hzero
    have hc : e.payload.toNat ∈ n.children := by
      rw [hkids]
      exact List.mem_map_of_mem he
    obtain ⟨m, hm⟩ := (hhanded _ hc).2
    exact hi.sound.ne_zero hm (by rw [hzero]; rfl)
  obtain ⟨A, e, B, hd⟩ := hE.prepareForSplit hne hsplit
  obtain ⟨hleft, hright⟩ := hs.toNat hi.sound
  obtain ⟨o, ho⟩ : ∃ o, n.HoldsAt A.length o e :=
    hE.stores.holdsAt (by rw [hd.parts]; simp)
  have hold : e.payload.toNat = s.old := by
    have hchild := ho.getChildByMetaIndex
    rw [hd.place, hat] at hchild
    exact (Option.some.inj hchild).symm
  have hparts : n.children = (A.map fun e => e.payload.toNat) ++ s.old ::
      B.map fun e => e.payload.toNat := by
    rw [hkids, hd.parts, List.map_append, List.map_cons, hold]
  have hnew := hd.children
  rw [hleft, hright] at hnew
  refine ⟨_, _, hparts, hnew, fun m hm => ?_⟩
  obtain ⟨E', hE'⟩ := hd.inner m hm
  refine ⟨hE'.stores.inner, addable_inner hE' fun c hc => ?_⟩
  have hc' : c ∈ split.nodes.flatMap BaseNode.children := List.mem_flatMap.mpr ⟨m, hm, hc⟩
  rw [hnew, List.mem_append, List.mem_append] at hc'
  rw [hparts] at hhanded
  rcases hc' with (hX | hhalf) | hY
  · exact Or.inl (hhanded c (List.mem_append_left _ hX))
  · exact Or.inr (forall_mem_two.mpr hs.mine c hhalf)
  · exact Or.inl (hhanded c (List.mem_append_right _ (List.mem_cons_of_mem _ hY)))

/-- Nodes that a thread has made take the place of a frozen node, once they have its children
but for the halves of one. -/
theorem takes_split {ns : List Addr} {X Y : List Addr} (hs : s.Ok owner h t i)
    (hfrozen : h.Frozen a) (hnode : h.nodes a = some n) (hinternal : n.isLeaf = false)
    (hparts : n.children = X ++ s.old :: Y) (hns : ∀ b ∈ ns, Mine owner h t b)
    (hchildren : ns.flatMap h.graph.children = X ++ [s.left, s.right] ++ Y)
    (hitems : ∀ b ∈ ns, h.graph.items b = ∅) : Takes owner h t a ns :=
  .child hfrozen hns hs.takes ((graph_children hnode).trans hparts) hchildren
    (items_of_internal hnode hinternal) hitems

theorem Inv.stepSplitParent (hi : Inv parameters owner h threads)
    (ht : threads t = some (.splitParent i s))
    (hplace : (Pc.splitParent i s).InPlace parameters h) :
    Proceeds parameters h threads t (callStep parameters h (.splitParent i s)) := by
  obtain ⟨hs, f, fs, hframes, hfrozen⟩ := hi.knows t _ ht
  have hhanded := (hs.path.frames f (by rw [hframes]; exact List.mem_cons_self ..)).handed
  have hat := hplace f (by rw [hframes]; rfl)
  simp only [callStep, hframes]
  cases hn : h.inner f.node with
  | none => exact hi.aborts
  | some n =>
      obtain ⟨hnode, hinternal⟩ := inner_eq_some.mp hn
      simp only [splitParentStep]
      cases hsplit : n.prepareForSplit parameters.splitThreshold s.key (BitVec.ofNat 64 s.left)
          (BitVec.ofNat 64 s.right) with
      | none => exact hi.aborts
      | some split =>
          obtain ⟨X, Y, hparts, hnew, hmade⟩ := hi.displaced hs hhanded hn hsplit (hat n hn)
          cases split with
          | one m =>
              dsimp only
              split
              · rename_i hroom
                obtain ⟨hminner, hm⟩ := hmade m (List.mem_singleton_self m)
                obtain ⟨owner', hadd, hmine⟩ := hi.addOne hm hroom
                obtain ⟨hs', f', fs', hframes', hfrozen'⟩ := hadd.inv.knows t _ ht
                cases hframes.symm.trans hframes'
                have hself : (h.add m).nodes h.fresh = some m := add_self
                have htakes : Takes owner' (h.add m) t f.node [h.fresh] := by
                  refine takes_split hs' hfrozen' (hadd.nodes _ n hnode) hinternal hparts
                    (List.forall_mem_singleton.mpr hmine) ?_
                    (List.forall_mem_singleton.mpr (items_of_internal hself hminner))
                  rw [← hnew, BaseNode.Split.nodes, List.flatMap_singleton,
                    List.flatMap_singleton, graph_children hself]
                have hk : Pc.Knows parameters owner' (h.add m) t
                    (.install i.popped f.node h.fresh) :=
                  ⟨popped_ok hs'.path hframes, hadd.keeps.handed' hhanded, htakes⟩
                exact ⟨owner', hadd.inv.moveOff hk fun _ => rfl, Or.inl hadd.contents⟩
              · exact hi.aborts
          | two l key r =>
              dsimp only
              split
              · rename_i hroom
                obtain ⟨hlinner, hl⟩ := hmade l (List.mem_cons_self ..)
                obtain ⟨hrinner, hr⟩ := hmade r (List.mem_cons_of_mem _ (List.mem_cons_self ..))
                obtain ⟨owner', hadd, ⟨hm, hm'⟩, hnodel, hnoder⟩ := hi.addTwo hl hr hroom
                obtain ⟨hs', f', fs', hframes', hfrozen'⟩ := hadd.inv.knows t _ ht
                cases hframes.symm.trans hframes'
                have htakes : Takes owner' ((h.add l).add r) t f.node [h.fresh, h.fresh + 1] := by
                  refine takes_split hs' hfrozen' (hadd.nodes _ n hnode) hinternal hparts
                    (forall_mem_two.mpr ⟨hm, hm'⟩) ?_ (forall_mem_two.mpr
                      ⟨items_of_internal hnodel hlinner, items_of_internal hnoder hrinner⟩)
                  rw [← hnew]
                  simp only [BaseNode.Split.nodes, List.flatMap_cons, List.flatMap_nil,
                    graph_children hnodel, graph_children hnoder]
                exact ⟨owner', hadd.inv.moveOff (climb_knows ⟨popped_ok hs'.path hframes,
                  hadd.keeps.handed' hhanded, htakes⟩) fun _ => climb_at?, Or.inl hadd.contents⟩
              · exact hi.aborts

end Splits

section Installs

theorem Inv.stepInstall (hi : Inv parameters owner h threads) {old new : Addr}
    (ht : threads t = some (.install i old new)) :
    Proceeds parameters h threads t (callStep parameters h (.install i old new)) := by
  obtain ⟨hpath, hold, htakes⟩ := hi.knows t _ ht
  simp only [callStep]
  split
  · rename_i g fs hframes
    split
    · rename_i p hp
      obtain ⟨hnode, -⟩ := inner_eq_some.mp hp
      exact hi.stays (.update i old new g (p.recordMetadata g.metaIndex) .status)
        ⟨⟨hpath, hold, htakes⟩, ⟨fs, hframes⟩, ⟨p, hnode, rfl⟩, trivial⟩ fun _ => rfl
    · exact hi.aborts
  · rename_i hframes
    split
    · rename_i hroot
      have hmeets : old = h.root := by
        have hstart := hpath.root
        rw [hframes, hroot] at hstart
        exact (Option.some.inj hstart).symm
      subst hmeets
      have hagain : Inv parameters owner h (Function.update threads t (some i.again)) :=
        hi.moveOff hpath.op fun _ => rfl
      obtain ⟨hroot', hcontents⟩ := hagain.changeRoot (Function.update_self ..) htakes
      exact ⟨released owner t, hroot', Or.inl hcontents⟩
    · exact hi.stays i.again hpath.op fun _ => rfl

theorem Inv.stepUpdate (hi : Inv parameters owner h threads) {old new : Addr} {g : Frame}
    {m : RecordMetadata} {swap : SwapPc} (ht : threads t = some (.update i old new g m swap)) :
    Proceeds parameters h threads t (callStep parameters h (.update i old new g m swap)) := by
  obtain ⟨⟨hpath, hold, htakes⟩, ⟨fs, hframes⟩, ⟨p, hp, hm⟩, hswap⟩ := hi.knows t _ ht
  have hframe := hpath.frames g (by rw [hframes]; exact List.mem_cons_self ..)
  obtain ⟨q, hq, hinternal, hlt⟩ := hframe.node
  cases hp.symm.trans hq
  have hagain : Proceeds parameters h threads t (h, i.again) := hi.stays i.again hpath.op fun _ => rfl
  cases swap with
  | status =>
      simp only [callStep, internalUpdate, hp, hinternal, Bool.false_eq_true, if_false]
      cases hfrozen : p.status.frozen with
      | true =>
          simp only [if_true]
          exact hagain
      | false =>
          simp only [Bool.false_eq_true, if_false]
          exact hi.stays (.update i old new g m (.swap p.status))
            ⟨⟨hpath, hold, htakes⟩, ⟨fs, hframes⟩, ⟨p, hp, hm⟩, hfrozen⟩ fun _ => rfl
  | swap expected =>
      simp only [callStep, internalUpdate, hp]
      cases m with
      | vacant => exact hi.aborts
      | inserting => exact hi.aborts
      | record visible offset keyLength totalLength =>
          dsimp only
          rw [if_neg (by rw [hinternal]; exact Bool.false_ne_true)]
          by_cases hs : p.status = expected ∧ p.payload offset keyLength = BitVec.ofNat 64 old
          · rw [if_pos hs]
            have hmoved : Inv parameters owner h (Function.update threads t (some i.again)) :=
              hi.moveOff hpath.op fun _ => rfl
            have hopen : p.status.frozen = false := hs.1 ▸ hswap
            obtain ⟨hset, hcontents⟩ := hmoved.install (Function.update_self ..) hp hframe.owner
              hinternal hopen hlt hm hold hs.2 htakes
            exact ⟨released owner t, hset, Or.inl hcontents⟩
          · rw [if_neg hs]
            exact hagain

/-- A step of a call keeps the invariant, and changes what is stored only when the call returns
`Ok` with it. -/
theorem Inv.step (hi : Inv parameters owner h threads) (ht : threads t = some pc)
    (hplace : pc.InPlace parameters h)
    (hcalm : ∀ j a l n, pc = .leaf j a l → h.leaf a = some n → Calm n j l) :
    Proceeds parameters h threads t (callStep parameters h pc) := by
  have hk := hi.knows t pc ht
  cases pc with
  | land j => exact hi.stepLand hk
  | descend j a => exact hi.stepDescend hk.1 hk.2
  | reading op a s => exact hi.stepReading hk s
  | readPayload op a m => exact hi.stepReadPayload hk m
  | leaf j a l => exact hi.stepInLeaf ht fun n => hcalm j a l n rfl
  | freezing i goal a byMe fp => exact hi.stepFreezing ht
  | splitLeaf i a => exact hi.stepSplitLeaf ht
  | newRoot i s => exact hi.stepNewRoot ht
  | splitParent i s => exact hi.stepSplitParent ht hplace
  | install i old new => exact hi.stepInstall ht
  | update i old new g m swap => exact hi.stepUpdate ht
  | done op rc => exact hi.stays (.done op rc) hk fun _ => rfl
  | aborted => exact hi.aborts

end Installs

end Calls

end HashComp.BzTree
