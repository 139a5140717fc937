import HashComp.LockFree.Sequential

/-!
When the memory of a data node is used again.  A node may be popped from a pool
only after the drain of an epoch has pushed it there, and the epoch waits only
for threads that have entered it, which of the four operations `Get` alone does
before it loads a slot.
-/

namespace HashComp.LockFree

open HashComp.Epoch
open HashComp.HashTrie
open HashComp.LevelHash
open HashComp.Operations
open HashComp.Ownership
open HashComp.Runs
open HashComp.SlotTrie
open HashComp.Threads

section Reuse

def Local.retiring {K T : Type*} : Local K T → List Nat
  | .bump _ old => [old]
  | _ => []

/-- The table with the threads that call its operations and the addresses handed
to `BumpEpoch` so far. -/
abbrev TracedState (K T : Type*) := System (Table K T × List Nat) (Local K T) (Op K T) (Result K T)

def traced {K T : Type*} (L : Layout K) :
    Program (Table K T × List Nat) (Local K T) (Op K T) (Result K T) :=
  (program L).traced Local.retiring fun _ _ => rfl

variable {K T : Type*} {L : Layout K} {D tid u a : Nat} {t t' : Table K T} {l l' : Local K T}
  {threads : Nat → Option (Local K T)} {s s' : TracedState K T}

/-- The data node that a running operation has loaded from a slot. -/
def Local.held : Local K T → List Nat
  | .attempt _ _ _ (.data a) _ _ | .getCheck _ _ (.data a) _ | .getFound _ a => [a]
  | .bump _ old | .register _ old _ _ => [old]
  | _ => []

def Unlinks (t : Table K T) : Local K T → Nat → Prop
  | .attempt (.update _ _) _ _ (.data old) _ p, a
  | .attempt (.remove _) _ _ (.data old) _ p, a => old = a ∧ t.slots p = .data old
  | _, _ => False

/-- The node that the next step of a thread pops from its pool and writes. -/
def popped (t : Table K T) (tid : Nat) : Local K T → Option Nat
  | .attempt (.insert _ _) _ _ .null _ _ | .attempt (.update _ _) _ _ (.data _) _ _ =>
      (t.dataPool tid).head?
  | _ => none

/-- A step does not use a retired node again while a running operation holds it. -/
def SafeReuse (s : TracedState K T) : Action (Op K T) → Prop
  | .run tid => ∀ l a, s.threads tid = some l → popped s.shared.1 tid l = some a →
      a ∈ s.shared.2 → ∀ u l', s.threads u = some l' → a ∉ l'.held
  | _ => True

/-- Every step of every run reuses nodes safely. -/
def NodesReusedSafely (L : Layout K) (t₀ : Table K T) : Prop :=
  ∀ s, Reaches (traced L).next (fun _ _ => True) (System.start (t₀, [])) s → ∀ a, SafeReuse s a

structure Guarded (e : LightEpoch Nat) (u epoch : Nat) : Prop where
  scanned : e.Scanned u
  protects : (e.table u).localCurrentEpoch ≠ 0
  entered : (e.table u).localCurrentEpoch ≤ epoch

/-- A node is swapped out only while every other thread that holds it is seen by
the epoch and has entered it. -/
def HoldersEntered (s : TracedState K T) : Action (Op K T) → Prop
  | .run tid => ∀ l a, s.threads tid = some l → Unlinks s.shared.1 l a →
      ∀ u l', u ≠ tid → s.threads u = some l' → a ∈ l'.held →
        s.shared.1.epoch.Scanned u ∧ (s.shared.1.epoch.table u).localCurrentEpoch ≠ 0
  | _ => True

def Local.deadline (e : LightEpoch Nat) : Local K T → Nat
  | .register _ _ priorEpoch _ => priorEpoch
  | _ => e.currentEpoch

/-- Why a node that thread `u` holds is not in any pool: it is linked, or whoever
unlinked it has not registered it, or the drain list keeps it for `u`. -/
def Kept (t : Table K T) (threads : Nat → Option (Local K T)) (u a : Nat) : Prop :=
  t.Linked a ∨
    (∃ v l, threads v = some l ∧ a ∈ l.unlinked ∧
      (v = u ∨ Guarded t.epoch u (l.deadline t.epoch))) ∨
    ∃ p, (p, a) ∈ pendings t.epoch.drainList ∧ Guarded t.epoch u p

theorem Guarded.mono {e : LightEpoch Nat} {p q : Nat} (h : Guarded e u p) (hpq : p ≤ q) :
    Guarded e u q :=
  ⟨h.scanned, h.protects, Nat.le_trans h.entered hpq⟩

theorem Transition.guarded (htr : Transition L tid t l t' l') (hu : u ≠ tid) {p : Nat}
    (h : Guarded t.epoch u p) : Guarded t'.epoch u p := by
  obtain ⟨hnum, htable⟩ := htr.epoch_frame
  refine ⟨?_, ?_, ?_⟩
  · have := h.scanned
    simpa only [LightEpoch.Scanned, hnum] using this
  · rw [htable u hu]
    exact h.protects
  · rw [htable u hu]
    exact h.entered

theorem Local.deadline_le (l : Local K T) {e e' : LightEpoch Nat}
    (hle : e.currentEpoch ≤ e'.currentEpoch) : l.deadline e ≤ l.deadline e' := by
  cases l with
  | register => exact Nat.le_refl _
  | _ => exact hle

theorem Transition.linked_or_unlinks (hwf : WellFormed t.slots)
    (htr : Transition L tid t l t' l') (ha : t.Linked a) :
    t'.Linked a ∨ Unlinks t l a ∧ ∃ m, l' = .bump m a := by
  obtain ⟨p, hp⟩ := ha
  cases htr with
  | @link key mapped n fail currArr harr hcas =>
      refine Or.inl ⟨p, ?_⟩
      rw [setSlot_slots, newDataNode_slots, Function.update_of_ne]
      · exact hp
      · rintro rfl
        rw [hcas] at hp
        cases hp
  | insertLost | replaceLost => exact Or.inl ⟨p, by rwa [pushData_slots, newDataNode_slots]⟩
  | @split key mapped n fail old currArr harr hne hcas =>
      left
      by_cases hpp : p = L.keyPath key (n + 1)
      · subst p
        rw [hcas] at hp
        cases hp
        exact ⟨_, (publish_eq_data_iff hwf hcas).mpr (Or.inl ⟨rfl, rfl⟩)⟩
      · exact ⟨p, (publish_eq_data_iff hwf hcas).mpr (Or.inr ⟨hpp, hp⟩)⟩
  | @replace key mapped n fail old currArr harr hcas =>
      by_cases hpp : p = L.keyPath key (n + 1)
      · subst p
        rw [hcas] at hp
        cases hp
        exact Or.inr ⟨⟨rfl, hcas⟩, _, rfl⟩
      · refine Or.inl ⟨p, ?_⟩
        rw [setSlot_slots, newDataNode_slots, Function.update_of_ne hpp]
        exact hp
  | @unlink key n fail old currArr harr hcas =>
      by_cases hpp : p = L.keyPath key (n + 1)
      · subst p
        rw [hcas] at hp
        cases hp
        exact Or.inr ⟨⟨rfl, hcas⟩, _, rfl⟩
      · refine Or.inl ⟨p, ?_⟩
        rw [setSlot_slots, Function.update_of_ne hpp]
        exact hp
  | bump | register => exact Or.inl ⟨p, by rwa [deleteCallbacks_slots]⟩
  | _ => exact Or.inl ⟨p, hp⟩

theorem register_keeps {e : LightEpoch Nat} (hcons : e.Consistent) {i prior old p : Nat}
    {r : LightEpoch Nat × List (Nat × Nat)} (hr : e.tryRegister i prior old = some r)
    (hp : (p, a) ∈ (prior, old) :: pendings e.drainList) (hg : Guarded e u p) :
    (p, a) ∈ pendings r.1.drainList := by
  obtain ⟨-, -, -, -, -, -, hexec, hperm⟩ := tryRegister_spec hr
  have hsafe := hcons.safe_lt_local u hg.scanned hg.protects
  have hentered := hg.entered
  rcases List.mem_append.mp (hperm.symm.subset hp) with hx | hx
  · have hle : p ≤ e.safeToReclaimEpoch := hexec _ hx
    omega
  · exact hx

theorem Transition.pending_kept (hcons : t.epoch.Consistent)
    (htr : Transition L tid t l t' l') {p : Nat} (hp : (p, a) ∈ pendings t.epoch.drainList)
    (hg : Guarded t.epoch u p) : (p, a) ∈ pendings t'.epoch.drainList := by
  have hprotect : (t.epoch.reentrantProtect tid).drainList = t.epoch.drainList := by
    obtain ⟨entry, he⟩ := reentrantProtect_eq_setEntry t.epoch tid
    rw [he]
    rfl
  have hunprotect : (t.epoch.reentrantUnprotect tid).drainList = t.epoch.drainList := by
    obtain ⟨entry, he⟩ := reentrantUnprotect_eq_setEntry t.epoch tid
    rw [he]
    rfl
  cases htr with
  | link | insertLost | replace | replaceLost => simpa [setSlot, pushData] using hp
  | miss | getEnter | getMiss =>
      simp only [hprotect]
      exact hp
  | getFound =>
      simp only [hunprotect]
      exact hp
  | bump =>
      have hsafe := hcons.bump.safe_lt_local u (by
        simpa [LightEpoch.Scanned] using hg.scanned)
      rw [bumpCurrentEpoch_table] at hsafe
      simp only [deleteCallbacks_epoch, hcons.bump_pendings.1, List.mem_filter]
      exact ⟨hp, decide_eq_true (Nat.lt_of_lt_of_le (hsafe hg.protects) hg.entered)⟩
  | register hr =>
      rw [deleteCallbacks_epoch]
      exact register_keeps hcons hr (List.mem_cons_of_mem _ hp) hg
  | _ => exact hp

theorem Transition.unlinked_kept (hcons : t.epoch.Consistent)
    (htr : Transition L tid t l t' l') (ha : a ∈ l.unlinked)
    (hg : Guarded t.epoch u (l.deadline t.epoch)) :
    (a ∈ l'.unlinked ∧ l.deadline t.epoch ≤ l'.deadline t'.epoch) ∨
      (l.deadline t.epoch, a) ∈ pendings t'.epoch.drainList := by
  cases htr with
  | bump => exact Or.inl ⟨ha, Nat.le_refl _⟩
  | search => exact Or.inl ⟨ha, Nat.le_refl _⟩
  | register hr =>
      rw [List.mem_singleton.mp ha, deleteCallbacks_epoch]
      exact Or.inr (register_keeps hcons hr (List.mem_cons_self ..) hg)
  | _ => cases ha

/-- A step of another thread leaves a node kept, unless it unlinks the node while
its holder has not entered the epoch. -/
theorem Kept.step_other (hinv : Inv L D t threads) (hl : threads tid = some l)
    (htr : Transition L tid t l t' l') (hu : u ≠ tid)
    (hentered : Unlinks t l a →
      t.epoch.Scanned u ∧ (t.epoch.table u).localCurrentEpoch ≠ 0)
    (hk : Kept t threads u a) :
    Kept t' (Function.update threads tid (some l')) u a := by
  have hcons := hinv.sound.epoch
  have hepoch := htr.currentEpoch_le
  rcases hk with hlinked | ⟨v, lv, hlv, ha, hv⟩ | ⟨p, hp, hg⟩
  · rcases htr.linked_or_unlinks hinv.sound.wf hlinked with
      hlinked' | ⟨hunlinks, m, rfl⟩
    · exact Or.inl hlinked'
    · obtain ⟨hscan, hprot⟩ := hentered hunlinks
      have hnow : Guarded t.epoch u t.epoch.currentEpoch := ⟨hscan, hprot, hcons.local_le u⟩
      exact Or.inr (Or.inl ⟨tid, _, Function.update_self .., List.mem_singleton_self a,
        Or.inr ((htr.guarded hu hnow).mono hepoch)⟩)
  · by_cases hvt : v = tid
    · subst v
      rw [hl] at hlv
      cases hlv
      have hg := hv.resolve_left fun h => hu h.symm
      rcases htr.unlinked_kept hcons ha hg with ⟨ha', hle⟩ | hp
      · exact Or.inr (Or.inl ⟨tid, l', Function.update_self .., ha',
          Or.inr ((htr.guarded hu hg).mono hle)⟩)
      · exact Or.inr (Or.inr ⟨_, hp, htr.guarded hu hg⟩)
    · refine Or.inr (Or.inl ⟨v, lv, ?_, ha, ?_⟩)
      · rw [Function.update_of_ne hvt]
        exact hlv
      · exact hv.imp_right fun hg => (htr.guarded hu hg).mono (lv.deadline_le hepoch)
  · exact Or.inr (Or.inr ⟨p, htr.pending_kept hcons hp hg, htr.guarded hu hg⟩)

theorem held_of_retry {m : Mutation K T} {n fail : Nat} {pos : Slot Nat}
    {currArr : Option Path} {p : Path}
    (ha : a ∈ (retry m n fail pos currArr p : Local K T).held) : pos = .data a := by
  unfold retry at ha
  split at ha
  · cases m <;> cases ha
  · cases pos with
    | data b => rw [List.mem_singleton.mp ha]
    | null | array => cases ha

/-- A thread holds what it has just loaded, what it has unlinked, or what it held
before. -/
theorem Transition.held_cases (htr : Transition L tid t l t' l') (hbusy : ∀ op r, l ≠ .done op r)
    (ha : a ∈ l'.held) :
    t'.Linked a ∨ a ∈ l'.unlinked ∨ a ∈ l.held ∧ l.unlinked = [] ∧ t' = t := by
  cases htr with
  | @load m n currArr harr =>
      left
      revert ha
      cases hslot : t.slots (L.keyPath m.key (n + 1)) with
      | data b =>
          intro ha
          rw [List.mem_singleton.mp ha]
          exact ⟨_, hslot⟩
      | null | array =>
          intro ha
          cases ha
  | @insertLost key mapped n fail currArr harr hcas =>
      refine Or.inl ⟨L.keyPath key (n + 1), ?_⟩
      rw [pushData_slots, newDataNode_slots]
      exact held_of_retry ha
  | @replaceLost key mapped n fail old currArr harr hcas =>
      refine Or.inl ⟨L.keyPath key (n + 1), ?_⟩
      rw [pushData_slots, newDataNode_slots]
      exact held_of_retry ha
  | lost => exact Or.inl ⟨_, held_of_retry ha⟩
  | replace | unlink | bump | search => exact Or.inr (Or.inl ha)
  | @getLoad key n currArr harr =>
      left
      revert ha
      cases hslot : t.slots (L.keyPath key (n + 1)) with
      | data b =>
          intro ha
          rw [List.mem_singleton.mp ha]
          exact ⟨_, hslot⟩
      | null | array =>
          intro ha
          cases ha
  | getSame => exact Or.inr (Or.inr ⟨ha, rfl, rfl⟩)
  | rest => exact absurd rfl (hbusy _ _)
  | _ => cases ha

structure HeldInv (L : Layout K) (D : Nat) (t : Table K T)
    (threads : Nat → Option (Local K T)) : Prop where
  inv : Inv L D t threads
  held : ∀ u l a, threads u = some l → a ∈ l.held → Kept t threads u a

theorem HeldInv.step (hadm : L.Admissible D) (hD : D < maxLevel) (h : HeldInv L D t threads)
    (hl : threads tid = some l) (hbusy : ∀ op r, l ≠ .done op r)
    (hentered : ∀ a, Unlinks t l a → ∀ u l', u ≠ tid → threads u = some l' → a ∈ l'.held →
      t.epoch.Scanned u ∧ (t.epoch.table u).localCurrentEpoch ≠ 0) :
    HeldInv L D (step L tid t l).1 (Function.update threads tid (some (step L tid t l).2)) := by
  refine ⟨h.inv.step hadm hD hl, ?_⟩
  have htr := h.inv.transition hadm hD hl
  intro u lu a hlu ha
  by_cases hu : u = tid
  · subst u
    rw [Function.update_self] at hlu
    rw [← Option.some.inj hlu] at ha
    rcases htr.held_cases hbusy ha with hlinked | hunlinked | ⟨hheld, hnone, hsame⟩
    · exact Or.inl hlinked
    · exact Or.inr (Or.inl ⟨tid, _, Function.update_self .., hunlinked, Or.inl rfl⟩)
    · rw [hsame]
      rcases h.held tid l a hl hheld with hlinked | ⟨v, lv, hlv, hav, hv⟩ | hdrain
      · exact Or.inl hlinked
      · refine Or.inr (Or.inl ⟨v, lv, ?_, hav, hv⟩)
        rw [Function.update_of_ne]
        · exact hlv
        · rintro rfl
          rw [hl] at hlv
          cases hlv
          rw [hnone] at hav
          cases hav
      · exact Or.inr (Or.inr hdrain)
  · rw [Function.update_of_ne hu] at hlu
    exact (h.held u lu a hlu ha).step_other h.inv hl htr hu
      fun hunlinks => hentered a hunlinks u lu hu hlu ha

theorem HeldInv.update (h : HeldInv L D t threads) {o : Option (Local K T)}
    (hinv : Inv L D t (Function.update threads tid o)) (hidle : hand threads tid = [])
    (hheld : ∀ l, o = some l → l.held = []) :
    HeldInv L D t (Function.update threads tid o) := by
  refine ⟨hinv, ?_⟩
  intro u lu a hlu ha
  by_cases hu : u = tid
  · subst u
    rw [Function.update_self] at hlu
    rw [hheld lu hlu] at ha
    cases ha
  · rw [Function.update_of_ne hu] at hlu
    rcases h.held u lu a hlu ha with hlinked | ⟨v, lv, hlv, hav, hv⟩ | hdrain
    · exact Or.inl hlinked
    · refine Or.inr (Or.inl ⟨v, lv, ?_, hav, hv⟩)
      rw [Function.update_of_ne]
      · exact hlv
      · rintro rfl
        simp only [hand, hlv] at hidle
        rw [hidle] at hav
        cases hav
    · exact Or.inr (Or.inr hdrain)

theorem HeldInv.next (hadm : L.Admissible D) (hD : D < maxLevel) {a : Action (Op K T)}
    (h : HeldInv L D s.shared.1 s.threads) (hok : HoldersEntered s a)
    (hnext : (traced L).next s a = some s') : HeldInv L D s'.shared.1 s'.threads := by
  rcases Program.next_cases hnext with
    ⟨tid, op, -, hnone, rfl⟩ | ⟨tid, l, rfl, hl, hbusy, rfl⟩ | ⟨tid, op, r, -, hdone, rfl⟩
  · refine h.update (h.inv.invoke hnone op) (by simp [hand, hnone]) ?_
    rintro l ⟨⟩
    cases op <;> rfl
  · exact h.step hadm hD hl hbusy fun a hunlinks => hok l a hl hunlinks
  · refine h.update (h.inv.ret hdone) ?_ ?_
    · rw [hand, hdone]
      rfl
    · rintro l ⟨⟩

theorem popped_mem {a : Nat} (h : popped t tid l = some a) : a ∈ t.dataPool tid := by
  unfold popped at h
  split at h
  · exact List.mem_of_head? h
  · exact List.mem_of_head? h
  · cases h

theorem HeldInv.safeReuse (h : HeldInv L D s.shared.1 s.threads) (a : Action (Op K T)) :
    SafeReuse s a := by
  cases a with
  | invoke | ret => trivial
  | run tid =>
      intro l a hl hpop _ u l' hl' ha
      have hpool : Owns s.shared.1 (hand s.threads) (.pool tid) a := popped_mem hpop
      rcases h.held u l' a hl' ha with ⟨p, hp⟩ | ⟨v, lv, hlv, hav, -⟩ | ⟨p, hp, -⟩
      · cases h.inv.sound.exclusive.eq (.slot p) _ hp hpool
      · have hhand : Owns s.shared.1 (hand s.threads) (.hand v) a := by
          simpa [Owns, hand, hlv] using hav
        cases h.inv.sound.exclusive hhand hpool
      · have hdrain : Owns s.shared.1 (hand s.threads) .drain a :=
          List.mem_map.mpr ⟨(p, a), hp, rfl⟩
        cases h.inv.sound.exclusive hdrain hpool

/-- In a run in which nodes are swapped out only while every other thread that
holds them is seen by the epoch and has entered it, nodes are reused safely. -/
theorem safeReuse_of_holdersEntered (hfits : Fits L)
    {expectedThreadCount expectedDataNum : Nat} {garbage : Nat → DataBlock K T}
    (hreach : Reaches (traced L).next HoldersEntered
      (System.start (new expectedThreadCount expectedDataNum garbage, [])) s) (a : Action (Op K T)) :
    SafeReuse s a := by
  obtain ⟨D, hD, hadm⟩ := hfits
  refine HeldInv.safeReuse (L := L) (D := D) ?_ a
  refine hreach.invariant (I := fun s => HeldInv L D s.shared.1 s.threads) ?_ ?_
  · exact ⟨inv_new _ _ _, by rintro u l a ⟨⟩⟩
  · exact fun s a s' h hok hnext => h.next hadm hD hok hnext

/-- The others of these threads that hold a node are seen by the epoch and have entered it. -/
def othersEntered (us : List Nat) (s : TracedState K T) (tid : Nat) : Bool :=
  us.all fun u => u = tid || (s.threads u).all fun l => l.held.isEmpty ||
    1 ≤ u && u ≤ s.shared.1.epoch.numEntries &&
      (s.shared.1.epoch.table u).localCurrentEpoch != 0

def coversHolders (us : List Nat) (s : TracedState K T) : Action (Op K T) → Bool
  | .run tid =>
      match s.threads tid with
      | some (.attempt (.update _ _) _ _ _ _ _) | some (.attempt (.remove _) _ _ _ _ _) =>
          othersEntered us s tid
      | _ => true
  | _ => true

theorem holdersEntered_of_covers {us : List Nat} (hs : ∀ u ∉ us, s.threads u = none)
    {a : Action (Op K T)} (h : coversHolders us s a = true) : HoldersEntered s a := by
  cases a with
  | invoke | ret => trivial
  | run tid =>
      intro l a hl hunlinks u l' hu hl' ha
      have hentered : othersEntered us s tid = true := by
        rw [coversHolders, hl] at h
        unfold Unlinks at hunlinks
        split at hunlinks
        · exact h
        · exact h
        · exact hunlinks.elim
      have hmem : u ∈ us := by
        by_contra hnot
        rw [hs u hnot] at hl'
        cases hl'
      have hcovered := List.all_eq_true.mp hentered u hmem
      rw [hl'] at hcovered
      simpa [hu, List.ne_nil_of_mem ha, LightEpoch.Scanned] using hcovered

theorem admits_of_covers (us : List Nat) {as : List (Action (Op K T))}
    (hs : ∀ u ∉ us, s.threads u = none)
    (h : Admits (traced L).next (fun s a => a.thread ∈ us ∧ coversHolders us s a = true) s as) :
    Admits (traced L).next HoldersEntered s as := by
  induction as generalizing s with
  | nil => trivial
  | cons a as ih =>
      obtain ⟨⟨hmem, hcovers⟩, hrest⟩ := h
      refine ⟨holdersEntered_of_covers hs hcovers, ?_⟩
      split
      · trivial
      · rename_i s' hnext
        rw [hnext] at hrest
        refine ih (fun u hu => ?_) hrest
        rw [Program.next_threads_other hnext (ne_of_mem_of_not_mem hmem hu).symm]
        exact hs u hu

def reusing (tid : Nat) : List (Action (Op (BitVec 64) Nat)) :=
  callActions tid 2 (.mutate (.insert 0x33 9)) ++ callActions tid 4 (.mutate (.remove 0x33)) ++
    [.invoke tid (.mutate (.insert 0x44 10)), .run tid]

def recycling (tid : Nat) : List (Action (Op (BitVec 64) Nat)) :=
  callActions tid 4 (.mutate (.remove 0x11)) ++ reusing tid

/-- Thread 2 has entered the epoch and loaded the node of 0x11 when thread 1 swaps it out. -/
def protectedRun : List (Action (Op (BitVec 64) Nat)) :=
  callActions 1 2 (.mutate (.insert 0x11 7)) ++ [.invoke 2 (.get 0x11), .run 2, .run 2] ++
    callActions 1 4 (.mutate (.remove 0x11))

def protectedReuse : List (Action (Op (BitVec 64) Nat)) :=
  protectedRun ++ .run 2 :: .run 2 :: .ret 2 :: reusing 1

/-- Thread 2 holds the retired node in the first state, and the second is about to use it
again. -/
theorem safeReuse_protected : ∃ s s',
    runActions (traced identityLayout).next (System.start (emptyTable, [])) protectedRun = some s ∧
      (s.threads 2).map Local.held = some [0] ∧ s.shared.2 = [0] ∧ (∀ a, SafeReuse s a) ∧
    runActions (traced identityLayout).next (System.start (emptyTable, [])) protectedReuse =
        some s' ∧
      (s'.threads 1).bind (popped s'.shared.1 1) = some 0 ∧ ∀ a, SafeReuse s' a := by
  have hview : (runActions (traced identityLayout).next (System.start (emptyTable, []))
      protectedRun).map (fun s => ((s.threads 2).map Local.held, s.shared.2)) =
        some (some [0], [0]) := by
    decide
  have hview' : (runActions (traced identityLayout).next (System.start (emptyTable, []))
      protectedReuse).map (fun s => (s.threads 1).bind (popped s.shared.1 1)) =
        some (some 0) := by
    decide
  obtain ⟨s, hs, hheld⟩ := Option.map_eq_some_iff.mp hview
  obtain ⟨s', hs', hpopped⟩ := Option.map_eq_some_iff.mp hview'
  simp only [Prod.mk.injEq] at hheld
  have hfits : Fits identityLayout := fits_of_default rfl (Or.inl rfl)
  refine ⟨s, s', hs, hheld.1, hheld.2, ?_, hs', hpopped, ?_⟩
  · exact safeReuse_of_holdersEntered hfits (reaches_of_runActions
      (admits_of_covers [1, 2] (fun _ _ => rfl) (by decide)) hs)
  · exact safeReuse_of_holdersEntered hfits (reaches_of_runActions
      (admits_of_covers [1, 2] (fun _ _ => rfl) (by decide)) hs')

/-- An insertion loads the node of the key 0x11, another thread removes that key
and recycles its node while the insertion still holds it. -/
def overtaken : List (Action (Op (BitVec 64) Nat)) :=
  callActions 1 2 (.mutate (.insert 0x11 7)) ++
    [.invoke 1 (.mutate (.insert 0x21 8)), .run 1] ++ recycling 2

theorem nodesReusedSafely_false : ¬ NodesReusedSafely identityLayout emptyTable := by
  intro hsafe
  have hview :
      (runActions (traced identityLayout).next (System.start (emptyTable, [])) overtaken).map
      (fun s => ((s.threads 2).bind (popped s.shared.1 2), s.shared.2,
        (s.threads 1).map Local.held)) = some (some 0, [1, 0], some [0]) := by
    decide
  obtain ⟨s, hs, hs'⟩ := Option.map_eq_some_iff.mp hview
  simp only [Prod.mk.injEq] at hs'
  obtain ⟨hpop, hretired, hheld⟩ := hs'
  obtain ⟨l, hl, hpop⟩ := Option.bind_eq_some_iff.mp hpop
  obtain ⟨l', hl', hheld⟩ := Option.map_eq_some_iff.mp hheld
  have hreach := reaches_of_runActions (admits_of_forall fun _ _ _ => trivial) hs
  exact hsafe s hreach (.run 2) l 0 hl hpop (by simp [hretired]) 1 l' hl' (by simp [hheld])

end Reuse

end HashComp.LockFree
