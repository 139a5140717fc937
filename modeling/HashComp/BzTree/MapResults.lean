import HashComp.BzTree.CallSteps

namespace HashComp.BzTree.Calls

open HashComp.ByteMemory
open HashComp.Runs
open HashComp.Threads

/-- What a call asks of the leaf that it comes to: an update that it is not frozen, and an
`Upsert` that the key is there or not as its reading has found. -/
def Welcomes (n : BaseNode) : Job → Prop
  | .insert i => i.op.Upserts → ∀ p < n.status.recordCount, n.visibleKey p ≠ some i.op.key.bytes
  | .update op => n.status.frozen = false ∧
      (op.Upserts → ∃ p < n.status.recordCount, n.visibleKey p = some op.key.bytes)
  | .delete _ | .read _ => True

/-- The leaf that a traversal comes to with a step is one that the call asks for. -/
def Pc.Arrives (h : Heap) : Pc → Prop
  | .land j => ∀ n ∈ h.leaf h.root, Welcomes n j
  | .descend j a => ∀ p ∈ h.inner a, ∀ b ∈ p.getChildByMetaIndex (p.getChildIndex j.op.key.bytes true),
      ∀ n ∈ h.leaf b, Welcomes n j
  | _ => True

/-- A step leaves another thread alone: it does not freeze a leaf that an update works on, nor
publish or delete the key that the insertion or the update of an `Upsert` looks for there. -/
def Pc.Spares (h : Heap) : Pc → Pc → Prop
  | .freezing _ _ a _ (some (.swap expected)), .leaf (.update _) b _ =>
      a = b → ∀ n ∈ h.nodes a, n.status ≠ expected
  | .leaf _ a (.insert key _ (.finalize r s)), .leaf (.insert i) b (.insert key' _ pc) =>
      a = b → i.op.Upserts → pc.reserved? = none → ∀ n ∈ h.leaf a, n.status = s →
        r.offset ≠ 0 → key.bytes ≠ key'.bytes
  | .leaf _ a (.delete _ (.swap s p m)), .leaf (.update op) b (.update key _ _) =>
      a = b → op.Upserts → ∀ n ∈ h.leaf a, n.status = s → n.recordMetadata p = m →
        n.visibleKey p ≠ some key.bytes
  | _, _ => True

/-- A thread splits a node in its place, comes to leaves that its call asks for, and leaves the
other threads alone. -/
def Orderly (parameters : ParameterSet) (s : System Heap Pc CallOp ReturnCode) :
    Action CallOp → Prop
  | .run t => ∀ pc ∈ s.threads t, pc.InPlace parameters s.shared ∧ pc.Arrives s.shared ∧
      ∀ u other, u ≠ t → s.threads u = some other → pc.Spares s.shared other
  | .invoke _ _ | .ret _ => True

instance (n : BaseNode) : (j : Job) → Decidable (Welcomes n j)
  | .insert i => inferInstanceAs (Decidable (i.op.Upserts →
      ∀ p < n.status.recordCount, n.visibleKey p ≠ some i.op.key.bytes))
  | .update op => inferInstanceAs (Decidable (n.status.frozen = false ∧
      (op.Upserts → ∃ p < n.status.recordCount, n.visibleKey p = some op.key.bytes)))
  | .delete _ | .read _ => .isTrue trivial

instance (h : Heap) (pc : Pc) : Decidable (pc.Arrives h) := by
  unfold Pc.Arrives
  split <;> infer_instance

instance (h : Heap) (pc other : Pc) : Decidable (pc.Spares h other) := by
  unfold Pc.Spares
  split <;> infer_instance

section Settled

variable {parameters : ParameterSet} {owner : Addr → Option Nat} {h : Heap} {n n' : BaseNode}
  {threads : Nat → Option Pc} {works : Nat → Option LeafPc} {t u : Nat} {a b : Addr}
  {i : Insertion} {j j' : Job} {l l' m : LeafPc} {pc : Pc}

/-- What a thread knows of the leaf that it works on. -/
structure Settled (n : BaseNode) (j : Job) (l : LeafPc) : Prop where
  calm : Calm n j l
  written : ∀ key payload pc r, l = .insert key payload pc → pc.copied? = some r → r.offset ≠ 0 →
    readBytes n.data r.place key.bytes.length = key.bytes

/-- The thread goes on in the leaf. -/
theorem Settled.own (hs : Settled n j l) (hr : j.Runs l)
    (hgo : j.inLeaf a (leafStep parameters n l).2 = .leaf j' b l') :
    j' = j ∧ b = a ∧ Settled (leafStep parameters n l).1 j l' := by
  have hret : ∀ {rc : ReturnCode}, j.returned a rc ≠ .leaf j' b l' := by
    intro rc heq
    have hnone : (j.returned a rc).at? b = none := returned_at?
    rw [heq, Pc.at?, if_pos rfl] at hnone
    cases hnone
  cases j with
  | insert i =>
      cases l with
      | insert key payload pc =>
          simp only [leafStep] at hgo ⊢
          cases hstep : insertStep parameters n key payload pc with
          | mk n' o =>
              rw [hstep] at hgo
              cases o with
              | ret rc => exact absurd hgo hret
              | abort => cases hgo
              | goto pc' =>
                  cases hgo
                  refine ⟨rfl, rfl, fun hop hnone p => ?_, ?_⟩
                  · obtain ⟨rfl, hnone'⟩ := insertStep_unreserved hstep hnone
                    exact hs.calm hop hnone' p
                  · intro key' payload' pc'' r heq hr' hoff
                    cases heq
                    exact insertStep_written (fun r => hs.written _ _ _ r rfl) hstep hr' hoff
      | update | delete | freeze | done | aborted => exact hr.elim
  | update op =>
      cases l with
      | update key payload pc =>
          simp only [leafStep] at hgo ⊢
          cases hstep : updateStep n key payload pc with
          | mk n' o =>
              rw [hstep] at hgo
              cases o with
              | ret rc => exact absurd hgo hret
              | abort => cases hgo
              | goto pc' =>
                  cases hgo
                  obtain rfl := updateStep_goto hstep
                  refine ⟨rfl, rfl, ⟨hs.calm.1, fun hop => ?_⟩, fun _ _ _ _ heq => by cases heq⟩
                  obtain ⟨p, hle, hp⟩ := hs.calm.2 hop
                  exact ⟨p, updateStep_position hp hle hstep, hp⟩
      | insert | delete | freeze | done | aborted => exact hr.elim
  | delete op =>
      cases l with
      | delete key pc =>
          simp only [leafStep] at hgo ⊢
          cases hstep : deleteStep n key pc with
          | mk n' o =>
              rw [hstep] at hgo
              cases o with
              | ret rc => exact absurd hgo hret
              | abort => cases hgo
              | goto pc' =>
                  cases hgo
                  exact ⟨rfl, rfl, trivial, fun _ _ _ _ heq => by cases heq⟩
      | insert | update | freeze | done | aborted => exact hr.elim
  | read op => exact hr.elim

theorem Job.Runs.ne_freeze (hr : j.Runs l) (pc : FreezePc) : l ≠ .freeze pc := by
  rintro rfl
  cases j <;> exact hr

theorem finalize_fails {key : Key} {payload : Word} {r : Reserved} {s : StatusWord}
    (hfails : n.status ≠ s) :
    (leafStep parameters n (.insert key payload (.finalize r s))).1 = n := by
  simp only [leafStep, insertStep, insertStepWith, hfails, false_and, if_false]

/-- Another thread does a step in the leaf. -/
theorem Settled.other (hs : Settled n j m) (hlaid : Laid parameters n works)
    (hl : works t = some l) (hm : works u = some m) (hu : u ≠ t) (ht : Settled n j' l)
    (hr : j'.Runs l) (hn : h.leaf a = some n)
    (hspares : (Pc.leaf j' a l).Spares h (.leaf j a m)) :
    Settled (leafStep parameters n l).1 j m := by
  have hchange := leafStep_change (n := n) (hlaid.localOk t l hl)
  have hwritten : ∀ key payload r s, l = .insert key payload (.finalize r s) → r.offset ≠ 0 →
      readBytes n.data r.place key.bytes.length = key.bytes :=
    fun key payload r s hpc => ht.written key payload _ r hpc rfl
  refine ⟨?_, fun key payload pc r hpc hr' hoff => ?_⟩
  · have hcalm := hs.calm
    cases j with
    | insert i =>
        cases m with
        | insert key payload pc =>
            intro hop hnone p hp
            rcases hlaid.visibleKey_of_change hl hchange hwritten hp with
              hold | ⟨key', payload', r, s, rfl, -, hoff, hkey⟩
            · exact hcalm hop hnone p hold
            · by_cases hstatus : n.status = s
              · exact hspares rfl hop hnone n hn hstatus hoff hkey
              · rw [finalize_fails hstatus] at hp
                exact hcalm hop hnone p hp
        | update | delete | freeze | done | aborted => exact trivial
    | update op =>
        cases m with
        | update key payload pc =>
            refine ⟨hchange.open_of hr.ne_freeze hcalm.1, fun hop => ?_⟩
            obtain ⟨p, hle, hp⟩ := hcalm.2 hop
            refine ⟨p, hle, hlaid.visibleKey_stays hl hchange (fun key' hpc => ?_) hp⟩
            subst hpc
            exact hspares rfl hop n hn rfl rfl hp
        | insert | delete | freeze | done | aborted => exact trivial
    | delete | read => exact trivial
  · subst hpc
    have hheld : (LeafPc.insert key payload pc).reserved? = some (key, r) := by
      rw [LeafPc.reserved?, reserved?_of_copied? hr']
      rfl
    rw [hlaid.place_of_change hl hchange hu hm hheld]
    exact hs.written key payload pc r rfl hr' hoff

/-- The leaf is frozen. -/
theorem Settled.freeze (hs : Settled n j l) (hnone : ∀ op, j ≠ .update op) :
    Settled n.freeze j l := by
  refine ⟨?_, hs.written⟩
  cases j with
  | insert i => cases l <;> exact hs.calm
  | update op => exact absurd rfl (hnone op)
  | delete | read => exact trivial

theorem nodes_add_two (hs : Sound owner h) (hb : h.nodes b = some n) {x y : BaseNode} :
    ((h.add x).add y).nodes b = some n := by
  have hlt := hs.lt_fresh hb
  have hne : b ≠ (h.add x).fresh := Nat.ne_of_lt (Nat.lt_succ_of_lt hlt)
  rw [add_of_ne hne, hs.add_node hb]

/-- What a step does to a leaf. -/
inductive LeafChange (parameters : ParameterSet) (h : Heap) (b : Addr) (n : BaseNode) :
    Pc → BaseNode → Prop
  | same {pc : Pc} : LeafChange parameters h b n pc n
  | freeze {i : Insertion} {goal : Goal} {byMe : Bool} :
      LeafChange parameters h b n (.freezing i goal b byMe (some (.swap n.status))) n.freeze
  | leaf {j : Job} {l : LeafPc} (hn : h.leaf b = some n) :
      LeafChange parameters h b n (.leaf j b l) (leafStep parameters n l).1

theorem callStep_change (hs : Sound owner h) (hb : h.nodes b = some n)
    (hb' : (callStep parameters h pc).1.leaf b = some n') : LeafChange parameters h b n pc n' := by
  have hsame : ∀ {h' : Heap}, h'.nodes b = some n → h'.leaf b = some n' →
      LeafChange parameters h b n pc n' := by
    intro h' hkept hleaf
    cases hkept.symm.trans (leaf_eq_some.mp hleaf).1
    exact .same
  cases pc with
  | land j =>
      simp only [callStep] at hb'
      split at hb' <;> exact hsame hb hb'
  | descend j a =>
      simp only [callStep] at hb'
      split at hb' <;> exact hsame hb hb'
  | reading op a s =>
      simp only [callStep] at hb'
      split at hb' <;> exact hsame hb hb'
  | readPayload op a m =>
      simp only [callStep] at hb'
      split at hb' <;> exact hsame hb hb'
  | leaf j a l =>
      simp only [callStep] at hb'
      cases hn : h.leaf a with
      | none =>
          rw [hn] at hb'
          exact hsame hb hb'
      | some m =>
          rw [hn] at hb'
          rcases eq_or_ne b a with rfl | hne
          · cases hb.symm.trans (leaf_eq_some.mp hn).1
            cases set_self.symm.trans (leaf_eq_some.mp hb').1
            exact .leaf hn
          · exact hsame ((set_of_ne hne).trans hb) hb'
  | freezing i goal a byMe fp =>
      simp only [callStep] at hb'
      cases hn : h.nodes a with
      | none =>
          rw [hn] at hb'
          exact hsame hb hb'
      | some m =>
          rw [hn] at hb'
          cases fp with
          | none =>
              simp only [freezingStep] at hb'
              split at hb' <;> exact hsame hb hb'
          | some fp =>
              cases fp with
              | read =>
                  simp only [freezingStep, freezeStep] at hb'
                  cases hf : m.status.frozen with
                  | true =>
                      simp only [hf, if_true, set_eq_self hn] at hb'
                      exact hsame hb hb'
                  | false =>
                      simp only [hf, Bool.false_eq_true, if_false, set_eq_self hn] at hb'
                      exact hsame hb hb'
              | swap expected =>
                  simp only [freezingStep, freezeStep] at hb'
                  by_cases heq : m.status = expected
                  · subst heq
                    simp only [if_true] at hb'
                    rcases eq_or_ne b a with rfl | hne
                    · cases hb.symm.trans hn
                      cases set_self.symm.trans (leaf_eq_some.mp hb').1
                      exact .freeze
                    · exact hsame ((set_of_ne hne).trans hb) hb'
                  · simp only [heq, if_false, set_eq_self hn] at hb'
                    exact hsame hb hb'
  | splitLeaf i a =>
      simp only [callStep] at hb'
      split at hb'
      · simp only [splitLeafStep] at hb'
        split at hb'
        · split at hb'
          · exact hsame (nodes_add_two hs hb) hb'
          · exact hsame hb hb'
        · exact hsame hb hb'
      · exact hsame hb hb'
  | newRoot i s =>
      simp only [callStep, newRootStep] at hb'
      split at hb'
      · split at hb'
        · exact hsame (hs.add_node hb) hb'
        · exact hsame hb hb'
      · exact hsame hb hb'
  | splitParent i s =>
      simp only [callStep] at hb'
      split at hb'
      · split at hb'
        · simp only [splitParentStep] at hb'
          split at hb'
          · split at hb'
            · exact hsame (hs.add_node hb) hb'
            · exact hsame hb hb'
          · split at hb'
            · exact hsame (nodes_add_two hs hb) hb'
            · exact hsame hb hb'
          · exact hsame hb hb'
        · exact hsame hb hb'
      · exact hsame hb hb'
  | install i old new =>
      simp only [callStep] at hb'
      split at hb'
      · split at hb' <;> exact hsame hb hb'
      · split at hb' <;> exact hsame hb hb'
  | update i old new g m swap =>
      simp only [callStep] at hb'
      cases swap with
      | status =>
          simp only [internalUpdate] at hb'
          split at hb'
          · split at hb'
            · exact hsame hb hb'
            · split at hb' <;> exact hsame hb hb'
          · exact hsame hb hb'
      | swap s =>
          simp only [internalUpdate] at hb'
          split at hb'
          · rename_i p _ _ _ _ hp
            split at hb'
            · exact hsame hb hb'
            · rename_i hinternal
              split at hb'
              · rcases eq_or_ne b g.node with rfl | hne
                · obtain ⟨hnode, hleaf⟩ := leaf_eq_some.mp hb'
                  cases set_self.symm.trans hnode
                  exact absurd hleaf hinternal
                · exact hsame ((set_of_ne hne).trans hb) hb'
              · exact hsame hb hb'
          · exact hsame hb hb'
  | done op rc => exact hsame hb hb'
  | aborted => exact hsame hb hb'

theorem reached_settled (hrecords : n.isLeaf = true → Records n)
    (hw : n.isLeaf = true → Welcomes n j) (hgo : j.reached a n = .leaf j' b l) :
    b = a ∧ Settled n j' l := by
  unfold Job.reached at hgo
  split at hgo
  · rename_i hleaf
    have hj := hw hleaf
    have hbound : ∀ {p key}, n.visibleKey p = some key → p < n.status.recordCount := by
      intro p key hp
      refine Nat.lt_of_not_le fun hle => ?_
      rw [BaseNode.visibleKey, ((hrecords hleaf).slots p).mpr hle] at hp
      cases hp
    cases j with
    | insert i =>
        cases hgo
        refine ⟨rfl, fun hop _ p hp => hj hop p (hbound hp) hp, ?_⟩
        intro key payload pc r hpc hr
        cases hpc
        cases hr
    | update op =>
        cases hgo
        refine ⟨rfl, ⟨hj.1, fun hop => ?_⟩, fun _ _ _ _ hpc => by cases hpc⟩
        obtain ⟨p, -, hp⟩ := hj.2 hop
        exact ⟨p, Nat.zero_le p, hp⟩
    | delete op =>
        cases hgo
        exact ⟨rfl, trivial, fun _ _ _ _ hpc => by cases hpc⟩
    | read op => cases hgo
  · cases hgo

theorem welcomes_rooted {root : Addr} : Welcomes n (j.rooted root) ↔ Welcomes n j := by
  cases j <;> exact Iff.rfl

theorem welcomes_push {f : Frame} (hpush : j.push f = some j') : Welcomes n j' ↔ Welcomes n j := by
  cases j with
  | insert i =>
      obtain ⟨stack, -, rfl⟩ := Option.map_eq_some_iff.mp hpush
      exact Iff.rfl
  | update | delete | read =>
      cases hpush
      exact Iff.rfl

theorem ne_leaf_of_at? (hnone : ∀ a, pc.at? a = none) : pc ≠ .leaf j b l := by
  rintro rfl
  have hb := hnone b
  rw [Pc.at?, if_pos rfl] at hb
  cases hb

/-- A step into a leaf goes on in it, or comes from the traversal. -/
theorem callStep_arrives (hi : Inv parameters owner h threads) (ha : pc.Arrives h)
    (hgo : (callStep parameters h pc).2 = .leaf j b l) :
    (∃ k m, pc = .leaf k b m ∧ ∃ n, h.leaf b = some n) ∨
      (callStep parameters h pc).1 = h ∧ ∀ n, h.leaf b = some n → Settled n j l := by
  have hrecords : ∀ {b n}, h.nodes b = some n → n.isLeaf = true → Records n :=
    fun hn hleaf => (hi.laid _ _ hn hleaf).records
  have hat : (∀ a, (callStep parameters h pc).2.at? a = none) →
      (callStep parameters h pc).2 ≠ .leaf j b l := fun hnone => ne_leaf_of_at? hnone
  cases pc with
  | land k =>
      obtain ⟨n, hn⟩ := hi.sound.root.2
      have hstep : callStep parameters h (.land k) = (h, (k.rooted h.root).reached h.root n) := by
        simp only [callStep, hn]
      rw [hstep] at hgo ⊢
      obtain ⟨rfl, hsettled⟩ := reached_settled (hrecords hn)
        (fun hleaf => welcomes_rooted.mpr (ha n (leaf_eq_some.mpr ⟨hn, hleaf⟩))) hgo
      refine Or.inr ⟨rfl, fun m hm => ?_⟩
      cases hn.symm.trans (leaf_eq_some.mp hm).1
      exact hsettled
  | descend k a =>
      cases hn : h.inner a with
      | none =>
          simp only [callStep, hn] at hgo
          cases hgo
      | some p =>
          have hstep : callStep parameters h (.descend k a) = (h, descendStep h k a p) := by
            simp only [callStep, hn]
          rw [hstep] at hgo ⊢
          refine Or.inr ⟨rfl, fun m hm => ?_⟩
          simp only [descendStep] at hgo
          split at hgo
          · rename_i c k' hchild hpush
            split at hgo
            · rename_i q hq
              split at hchild
              · obtain ⟨rfl, hsettled⟩ := reached_settled (hrecords hq)
                  (fun hleaf => (welcomes_push hpush).mpr
                    (ha p hn c hchild q (leaf_eq_some.mpr ⟨hq, hleaf⟩))) hgo
                cases hq.symm.trans (leaf_eq_some.mp hm).1
                exact hsettled
              · cases hchild
            · cases hgo
          · cases hgo
  | leaf k a m =>
      refine Or.inl ?_
      cases hn : h.leaf a with
      | none =>
          simp only [callStep, hn] at hgo
          cases hgo
      | some n =>
          simp only [callStep, hn] at hgo
          rcases inLeaf_at? (j := k) (a := a) (l := (leafStep parameters n m).2) with hnone | hsame
          · exact absurd hgo (ne_leaf_of_at? hnone)
          · rw [hsame] at hgo
            cases hgo
            exact ⟨_, _, rfl, _, hn⟩
  | reading op a s =>
      refine absurd hgo (hat fun c => ?_)
      simp only [callStep]
      split
      · simp only [readingStep]
        split
        · rfl
        · rfl
        · rfl
      · rfl
  | readPayload op a m =>
      refine absurd hgo (hat fun c => ?_)
      simp only [callStep]
      split
      · simp only [afterRead]
        split <;> rfl
      · rfl
  | freezing i goal a byMe fp =>
      refine absurd hgo (hat fun c => ?_)
      simp only [callStep]
      split
      · cases fp with
        | none =>
            simp only [freezingStep]
            split
            · cases goal with
              | leaf =>
                  simp only [Insertion.frozen]
                  split
                  · rfl
                  · exact lost_at?
              | parent s =>
                  simp only [Insertion.frozen]
                  split <;> rfl
            · rfl
        | some fp =>
            simp only [freezingStep]
            split <;> rfl
      · rfl
  | splitLeaf i a =>
      refine absurd hgo (hat fun c => ?_)
      simp only [callStep]
      split
      · simp only [splitLeafStep]
        split
        · split
          · exact climb_at?
          · rfl
        · rfl
      · rfl
  | newRoot i s =>
      refine absurd hgo (hat fun c => ?_)
      simp only [callStep, newRootStep]
      split
      · split <;> rfl
      · rfl
  | splitParent i s =>
      refine absurd hgo (hat fun c => ?_)
      simp only [callStep]
      split
      · split
        · simp only [splitParentStep]
          split
          · split <;> rfl
          · split
            · exact climb_at?
            · rfl
          · rfl
        · rfl
      · rfl
  | install i old new =>
      refine absurd hgo (hat fun c => ?_)
      simp only [callStep]
      split
      · split <;> rfl
      · split <;> rfl
  | update i old new g m swap =>
      refine absurd hgo (hat fun c => ?_)
      simp only [callStep]
      generalize internalUpdate h g.node m old new swap = r
      cases r.2 <;> rfl
  | done op rc => cases hgo
  | aborted => cases hgo

/-- The leaves that threads work on, as the threads know them. -/
def AllSettled (h : Heap) (threads : Nat → Option Pc) : Prop :=
  ∀ u j a l n, threads u = some (.leaf j a l) → h.leaf a = some n → Settled n j l

theorem AllSettled.step (hs : AllSettled h threads) (hi : Inv parameters owner h threads)
    (ht : threads t = some pc) (ha : pc.Arrives h)
    (hspares : ∀ u other, u ≠ t → threads u = some other → pc.Spares h other) :
    AllSettled (callStep parameters h pc).1
      (Function.update threads t (some (callStep parameters h pc).2)) := by
  intro u j b m n' hu hn'
  rcases update_eq_some hu with ⟨rfl, hgo⟩ | ⟨hne, hold⟩
  · have hgo := Option.some.inj hgo
    rcases callStep_arrives hi ha hgo with ⟨k, l, rfl, n, hn⟩ | ⟨hsame, hsettled⟩
    · have hr := (hi.knows u _ ht).2.2.1
      have hstep : callStep parameters h (.leaf k b l) =
          (h.set b (leafStep parameters n l).1, k.inLeaf b (leafStep parameters n l).2) := by
        simp only [callStep, hn]
      rw [hstep] at hgo hn'
      obtain ⟨rfl, -, hsettled⟩ := (hs u k b l n ht hn).own hr hgo
      cases set_self.symm.trans (leaf_eq_some.mp hn').1
      exact hsettled
    · rw [hsame] at hn'
      exact hsettled n' hn'
  · obtain ⟨hj, ⟨-, n, hn⟩, hr, -⟩ := hi.knows u _ hold
    have hchange := callStep_change hi.sound hn hn'
    have hkind : n.isLeaf = n'.isLeaf := by
      cases hchange with
      | same | freeze => rfl
      | @leaf k l hleaf =>
          obtain ⟨-, -, -, hl⟩ := hi.knows t _ ht
          exact (leafStep_change hl).isLeaf.symm
    have hleaf := leaf_eq_some.mpr ⟨hn, hkind.trans (leaf_eq_some.mp hn').2⟩
    have hsettled := hs u j b m n hold hleaf
    cases hchange with
    | same => exact hsettled
    | @freeze i goal byMe =>
        refine hsettled.freeze fun op hop => ?_
        subst hop
        exact hspares u _ hne hold rfl n hn rfl
    | @leaf k l _ =>
        have hworking : ∀ {v k' l'}, threads v = some (.leaf k' b l') → working threads b v = some l' := by
          intro v k' l' hv
          rw [working, hv]
          exact if_pos rfl
        have hlaid := hi.laid b n hn (leaf_eq_some.mp hleaf).2
        exact hsettled.other hlaid (hworking ht) (hworking hold) hne (hs t k b l n ht hleaf)
          (hi.knows t _ ht).2.2.1 hleaf (hspares u _ hne hold)

/-- A thread begins a call or leaves. -/
theorem AllSettled.leaves (hs : AllSettled h threads) {o : Option Pc}
    (ho : ∀ j a l, o ≠ some (.leaf j a l)) : AllSettled h (Function.update threads t o) := by
  intro u j a l n hu hn
  rcases update_eq_some hu with ⟨-, hu⟩ | ⟨-, hu⟩
  · exact absurd hu (ho j a l)
  · exact hs u j a l n hu hn

end Settled

section Results

variable {parameters : ParameterSet} {s s' : System Heap Pc CallOp ReturnCode} {a : Action CallOp}

theorem inv_new : Inv parameters (fun _ => none) (Heap.new parameters) fun _ => none := by
  have hroot : (Heap.new parameters).nodes 1 =
      some (BaseNode.new true parameters.leafNodeSize) := by
    simp only [Heap.new, Function.update_self]
  have hother : ∀ a : Addr, a ≠ 1 → (Heap.new parameters).nodes a = none := by
    intro a ha
    simp only [Heap.new, Function.update_of_ne ha]
  have hone : ∀ a n, (Heap.new parameters).nodes a = some n →
      a = 1 ∧ n = BaseNode.new true parameters.leafNodeSize := by
    intro a n hn
    rcases eq_or_ne a 1 with rfl | ha
    · exact ⟨rfl, Option.some.inj (hn.symm.trans hroot)⟩
    · cases (hother a ha).symm.trans hn
  refine ⟨⟨⟨rfl, _, hroot⟩, fun a n c hn hc => ?_, fun a ha => ?_, hother 0 (Nat.zero_ne_one), ?_,
    fun a n hn hinternal => ?_⟩, fun a n hn _ => ?_, fun u pc hpc => nomatch hpc⟩
  · obtain ⟨-, rfl⟩ := hone a n hn
    cases hc
  · exact hother a (Nat.ne_of_gt ha)
  · exact Nat.le_of_lt (show 2 < 2 ^ 64 by decide)
  · obtain ⟨-, rfl⟩ := hone a n hn
    cases hinternal
  · obtain ⟨-, rfl⟩ := hone a n hn
    exact laid_new

theorem begin_knows {owner : Addr → Option Nat} {h : Heap} {t : Nat} (op : CallOp) :
    op.begin.Knows parameters owner h t ∧ ∀ a l, op.begin.at? a = some l → l.reserved? = none := by
  cases op with
  | insert | update | upsert | delete => exact ⟨trivial, fun a l hl => nomatch hl⟩

structure Running (parameters : ParameterSet) (s : System Heap Pc CallOp ReturnCode) : Prop where
  inv : ∃ owner, Inv parameters owner s.shared s.threads
  settled : AllSettled s.shared s.threads
  log : ∀ call ∈ s.log, call.op.Allows call.result

/-- Nothing that is stored changes, unless the call of the thread returns `Ok` with the step. -/
theorem Running.next (h : Running parameters s) (hok : Orderly parameters s a)
    (hnext : (callProgram parameters).next s a = some s') : Running parameters s' ∧
      (s'.shared.contents = s.shared.contents ∨ ∃ op, s'.threads a.thread = some (.done op .ok)) := by
  obtain ⟨owner, hi⟩ := h.inv
  rcases (callProgram parameters).next_cases hnext with ⟨t, op, rfl, -, rfl⟩ |
    ⟨t, pc, rfl, ht, -, rfl⟩ | ⟨t, op, rc, rfl, ht, rfl⟩
  · refine ⟨⟨⟨owner, hi.update fun pc hpc => ?_⟩, h.settled.leaves fun j a l hpc => ?_, h.log⟩,
      Or.inl rfl⟩
    · rw [← Option.some.inj hpc]
      exact begin_knows op
    · cases op <;> cases hpc
  · obtain ⟨hplace, harrives, hspares⟩ := hok pc ht
    obtain ⟨owner', hi', hcontents⟩ := hi.step ht hplace
      fun j a l n hpc hn => (h.settled t j a l n (hpc ▸ ht) hn).calm
    refine ⟨⟨⟨owner', hi'⟩, h.settled.step hi ht harrives hspares, h.log⟩,
      hcontents.imp id fun ⟨op, hop⟩ => ⟨op, ?_⟩⟩
    exact (Function.update_self ..).trans (congrArg some hop)
  · refine ⟨⟨⟨owner, hi.update fun pc hpc => nomatch hpc⟩, h.settled.leaves (fun j a l hpc =>
      nomatch hpc), fun call hcall => ?_⟩, Or.inl rfl⟩
    rcases List.mem_append.mp hcall with hcall | hcall
    · exact h.log call hcall
    · rw [List.mem_singleton.mp hcall]
      exact hi.knows t _ ht

/-- `Orderly`, as far as threads `0` and `1` go. -/
def OrderlyTwo (parameters : ParameterSet) (s : System Heap Pc CallOp ReturnCode) :
    Action CallOp → Prop
  | .run t => ∀ pc ∈ s.threads t, pc.InPlace parameters s.shared ∧ pc.Arrives s.shared ∧
      ∀ u < 2, u ≠ t → ∀ other ∈ s.threads u, pc.Spares s.shared other
  | .invoke _ _ | .ret _ => True

instance (parameters : ParameterSet) (s : System Heap Pc CallOp ReturnCode) :
    (a : Action CallOp) → Decidable (OrderlyTwo parameters s a)
  | .run t => inferInstanceAs (Decidable (∀ pc ∈ s.threads t, pc.InPlace parameters s.shared ∧
      pc.Arrives s.shared ∧ ∀ u < 2, u ≠ t → ∀ other ∈ s.threads u, pc.Spares s.shared other))
  | .invoke _ _ | .ret _ => .isTrue trivial

theorem orderly_of_two (hidle : ∀ u, 2 ≤ u → s.threads u = none)
    (h : OrderlyTwo parameters s a) : Orderly parameters s a := by
  cases a with
  | invoke | ret => trivial
  | run t =>
      intro pc hpc
      obtain ⟨hplace, harrives, hspares⟩ := h pc hpc
      refine ⟨hplace, harrives, fun u other hu hother => hspares u ?_ hu other hother⟩
      by_contra hlt
      cases (hidle u (Nat.not_lt.mp hlt)).symm.trans hother

def byteKey (b : ByteMemory.Byte) : Key := ⟨[b], by simp⟩

/-- While one thread inserts a key and another one updates it through `Upsert`, they insert
and update other keys. -/
def twoThreads : List (Action CallOp) :=
  List.flatten [callActions 0 9 (.insert (byteKey 1) 1),
    [.invoke 0 (.upsert (byteKey 1) 2), .invoke 1 (.insert (byteKey 2) 3)],
    (List.replicate 11 [.run 0, .run 1]).flatten, List.replicate 7 (.run 0), [.ret 1, .ret 0],
    callActions 1 8 (.update (byteKey 3) 4)]

theorem returned_of_run {parameters : ParameterSet} {as : List (Action CallOp)}
    {results : List (CallOp × ReturnCode)} {op : CallOp} {rc : ReturnCode}
    (hrun : (runActions (callProgram parameters).next (System.start (Heap.new parameters)) as).map
      (fun s => s.log.map fun call => (call.op, call.result)) = some results)
    (hmem : (op, rc) ∈ results) :
    ∃ s, Reaches (callProgram parameters).next (fun _ _ => True)
      (System.start (Heap.new parameters)) s ∧ ∃ call ∈ s.log, call.op = op ∧ call.result = rc := by
  obtain ⟨s, hs, hlog⟩ := Option.map_eq_some_iff.mp hrun
  rw [← hlog] at hmem
  obtain ⟨call, hcall, hpair⟩ := List.mem_map.mp hmem
  obtain ⟨hop, hresult⟩ := Prod.mk.inj hpair
  exact ⟨s, reaches_of_runActions (admits_of_forall fun _ _ _ => trivial) hs, call, hcall, hop,
    hresult⟩

def smallLeaves : ParameterSet := ⟨128, 16, 256, by decide, by decide, by decide⟩

/-- A leaf is frozen to be split between the traversal of an `Update` and its search. -/
def frozenUpdate : List (Action CallOp) :=
  List.flatten [callActions 0 9 (.insert (byteKey 1) 1), callActions 0 11 (.insert (byteKey 2) 1),
    callActions 0 13 (.insert (byteKey 3) 1),
    [.invoke 1 (.update (byteKey 1) 2), .run 1, .invoke 0 (.insert (byteKey 4) 1)],
    List.replicate 13 (.run 0), [.run 1, .ret 1]]

/-- A key is inserted between the reading of an `Upsert` and its insertion. -/
def overtakenUpsert : List (Action CallOp) :=
  .invoke 1 (.upsert (byteKey 1) 2) :: List.flatten [List.replicate 4 (.run 1),
    callActions 0 9 (.insert (byteKey 1) 1), List.replicate 4 (.run 1), [.ret 1]]

end Results

end HashComp.BzTree.Calls
