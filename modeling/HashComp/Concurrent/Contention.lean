import HashComp.Concurrent.Frame

/-!
Any number of threads at once.  A retry loop that gives up goes on to the next
level with the array it last had, an insertion may run out of levels, and an
exchange of `Update` or `Remove` may take out a node of another key; short of
these, nodes stay where their hashes say and insertions are found.
-/

namespace HashComp.Concurrent

open HashComp.HashTrie
open HashComp.LevelHash
open HashComp.Operations
open HashComp.Runs
open HashComp.SlotTrie
open HashComp.Threads

section Contention

variable {K T : Type*} {L : Layout K} {D tid u : Nat} {t t' t₀ : Table K T}
  {l l' : Local K T} {key : K} {mapped : T} {s s' : State K T} {a : Action (Op K T)}

def TakesForeign (t : Table K T) : Local K T → Prop
  | .attempt (.update key _) _ fail (.data old) _ p
  | .attempt (.remove key) _ fail (.data old) _ p =>
      fail < failLimit ∧ t.slots p = .data old ∧ (t.heap old).key ≠ key
  | _ => False

def Removes (t : Table K T) (key : K) : Local K T → Prop
  | .attempt (.remove k) _ fail (.data old) _ p =>
      k = key ∧ fail < failLimit ∧ t.slots p = .data old
  | _ => False

def SparesOthers (s : State K T) : Action (Op K T) → Prop
  | .run tid => ∀ l, s.threads tid = some l → ¬ TakesForeign s.shared l
  | _ => True

/-- No retry loop gives up, no insertion runs out of levels, and no node of another
key is taken out. -/
def Undisturbed (L : Layout K) (s : State K T) (a : Action (Op K T)) : Prop :=
  Proceeds L s a ∧ SparesOthers s a

def Sparing (ok : State K T → Action (Op K T) → Prop) (key : K) (s : State K T)
    (a : Action (Op K T)) : Prop :=
  ok s a ∧ ∀ tid l, a = .run tid → s.threads tid = some l → ¬ Removes s.shared key l

/-- What holds in all runs that stay within `ok`.  In `found`, the step from `s` to
`s₁` is the one after which an insertion of `key` returns true, and whatever
thread `u`, idle in `s₂`, has returned in `s₃` was called after it. -/
structure ContentionSafe (L : Layout K) (ok : State K T → Action (Op K T) → Prop)
    (t₀ : Table K T) : Prop where
  indexed : ∀ s, Reaches (program L).next ok (System.start t₀) s → s.shared.Indexed L
  noFault : ∀ s, Reaches (program L).next ok (System.start t₀) s →
    ∀ u, s.threads u ≠ some .fault
  found : ∀ s s₁ s₂ s₃ tid key mapped loc u r,
    Reaches (program L).next ok (System.start t₀) s → ok s (.run tid) →
    (program L).next s (.run tid) = some s₁ →
    s₁.threads tid = some (.located (.insert key mapped) loc) → loc ≠ .null →
    Reaches (program L).next (Sparing ok key) s₁ s₂ → s₂.threads u = none →
    Reaches (program L).next (Sparing ok key) s₂ s₃ →
    s₃.threads u = some (.done (.get key) r) → ∃ mapped', r = .pair key mapped'

def Stored (t : Table K T) (key : K) : Prop :=
  ∃ a, t.Linked a ∧ (t.heap a).key = key

theorem stored_newest (L : Layout K) (t : Table K T) (key : K) (mapped : T) (p : Path) :
    Stored (setSlot (newDataNode L t key mapped).2 p (.data t.fresh)) key := by
  refine ⟨t.fresh, ⟨p, Function.update_self ..⟩, ?_⟩
  exact congrArg DataBlock.key (newDataNode_heap_self L t key mapped)

theorem Transition.stored_of_located (htr : Transition L t l t' l') {loc : Slot Nat}
    (hl' : l' = .located (.insert key mapped) loc) (hloc : loc ≠ .null) : Stored t' key := by
  cases htr with
  | link harr hcas =>
      cases hl'
      exact stored_newest L t key mapped _
  | absent hm =>
      cases hl'
      exact absurd rfl hloc
  | duplicate hsame =>
      cases hl'
      exact absurd rfl hloc
  | replace | unlink => cases hl'
  | _ => cases hl'

theorem Transition.stored (h : Sound L D t) (htr : Transition L t l t' l')
    (hforeign : ¬ TakesForeign t l) (hremoves : ¬ Removes t key l) (hkey : Stored t key) :
    Stored t' key := by
  obtain ⟨a, ha, hakey⟩ := hkey
  have halloc (k : K) (m : T) : ((newDataNode L t k m).2.heap a).key = key := by
    obtain ⟨p, hp⟩ := ha
    rw [h.alloc_heap hp, hakey]
  cases htr with
  | link harr hcas => exact ⟨a, (Trie.linked_link hcas ..).mpr (Or.inr ha), halloc ..⟩
  | split harr hne hcas => exact ⟨a, (Trie.linked_publishArray h.wf hcas _ a).mpr ha, hakey⟩
  | @replace k m n fail old currArr harr hcas hfail =>
      by_cases hold : a = old
      · -- the node taken out has the key of the update, and so has the new one
        have hk : (t.heap old).key = k := by
          by_contra hne
          exact hforeign ⟨hfail, hcas, hne⟩
        rw [← hakey, hold, hk]
        exact stored_newest ..
      · exact ⟨a, (h.alloc.linked_swap hcas _ a).mpr (Or.inr ⟨ha, hold⟩), halloc ..⟩
  | @unlink k n fail old currArr harr hcas hfail =>
      refine ⟨a, (h.linked_swap hcas _ a).mpr (Or.inr ⟨ha, ?_⟩), hakey⟩
      rintro rfl
      refine hforeign ⟨hfail, hcas, fun hk => hremoves ⟨?_, hfail, hcas⟩⟩
      exact hk.symm.trans hakey
  | _ => exact ⟨a, ha, hakey⟩

theorem Transition.finds (h : Sound L D t) (htr : Transition L t l t' l') (hkey : Stored t key)
    (hbusy : ∀ op r, l ≠ .done op r) {r : Result K T} (hl' : l' = .done (.get key) r) :
    ∃ mapped, r = .pair key mapped := by
  obtain ⟨a, ha, hakey⟩ := hkey
  cases htr with
  | getStop harr hstop =>
      cases hl'
      have hhash : (t.heap a).hash = L.hasher key := by
        obtain ⟨p, hp⟩ := ha
        rw [h.hashed p a hp, hakey]
      have hslot := (Trie.Holds.next ⟨ha, hhash⟩ h.valid harr).resolve_left hstop
      refine ⟨(t.heap a).mapped, ?_⟩
      rw [hslot]
      simp only [Trie.getResult, if_pos hhash, hakey]
  | rest => exact absurd rfl (hbusy _ _)
  | count | refuse | answer => cases hl'
  | _ => cases hl'

theorem Inv.stored_next (h : Inv L D s.shared s.threads)
    (hok : Sparing (Undisturbed L) key s a) (hnext : (program L).next s a = some s')
    (hkey : Stored s.shared key) : Stored s'.shared key := by
  rcases Program.next_cases hnext with
    ⟨tid, op, -, -, rfl⟩ | ⟨tid, l, rfl, hl, -, rfl⟩ | ⟨tid, op, r, -, -, rfl⟩
  · exact hkey
  · obtain ⟨⟨hproceeds, hforeign⟩, hremoves⟩ := hok
    have htr := h.transition hl (hproceeds l hl).1 (hproceeds l hl).2
    exact htr.stored h.sound (hforeign l hl) (hremoves tid l rfl hl) hkey
  · exact hkey

theorem Inv.stored_run (h : Inv L D s.shared s.threads)
    (hkey : Stored s.shared key)
    (hreach : Reaches (program L).next (Sparing (Undisturbed L) key) s s') :
    Inv L D s'.shared s'.threads ∧ Stored s'.shared key := by
  refine hreach.invariant (I := fun s => Inv L D s.shared s.threads ∧ Stored s.shared key)
    ⟨h, hkey⟩ ?_
  rintro s a s' ⟨h, hkey⟩ hok hnext
  exact ⟨h.next hok.1.1 hnext, h.stored_next hok hnext hkey⟩

def Finds (s : State K T) (key : K) (u : Nat) : Prop :=
  ∀ r, s.threads u = some (.done (.get key) r) → ∃ mapped, r = .pair key mapped

theorem Inv.finds_next (h : Inv L D s.shared s.threads)
    (hok : Proceeds L s a) (hnext : (program L).next s a = some s')
    (hkey : Stored s.shared key) (hfinds : Finds s key u) : Finds s' key u := by
  intro r hr
  by_cases hu : u = a.thread
  · subst hu
    rcases Program.next_cases hnext with
      ⟨tid, op, rfl, -, rfl⟩ | ⟨tid, l, rfl, hl, hbusy, rfl⟩ | ⟨tid, op, r, rfl, -, rfl⟩
    · simp only [Action.thread, Function.update_self, Option.some.injEq] at hr
      cases op <;> cases hr
    · simp only [Action.thread, Function.update_self, Option.some.injEq] at hr
      exact (h.transition hl (hok l hl).1 (hok l hl).2).finds h.sound hkey hbusy hr
    · simp only [Action.thread, Function.update_self] at hr
      cases hr
  · rw [Program.next_threads_other hnext hu] at hr
    exact hfinds r hr

theorem Inv.finds_run (h : Inv L D s.shared s.threads)
    (hkey : Stored s.shared key) (hfinds : Finds s key u)
    (hreach : Reaches (program L).next (Sparing (Undisturbed L) key) s s') :
    Inv L D s'.shared s'.threads ∧ Stored s'.shared key ∧ Finds s' key u := by
  refine hreach.invariant (I := fun s => Inv L D s.shared s.threads ∧
    Stored s.shared key ∧ Finds s key u) ⟨h, hkey, hfinds⟩ ?_
  rintro s a s' ⟨h, hkey, hfinds⟩ hok hnext
  exact ⟨h.next hok.1.1 hnext, h.stored_next hok hnext hkey,
    h.finds_next hok.1.1 hnext hkey hfinds⟩

theorem Inv.stored_insert (h : Inv L D s.shared s.threads)
    (hok : Proceeds L s (.run tid)) (hnext : (program L).next s (.run tid) = some s')
    {loc : Slot Nat} (hl' : s'.threads tid = some (.located (.insert key mapped) loc))
    (hloc : loc ≠ .null) : Stored s'.shared key := by
  rcases Program.next_cases hnext with ⟨_, _, ha, _⟩ | ⟨u, l, ha, hl, -, rfl⟩ | ⟨_, _, _, ha, _⟩
  · cases ha
  · cases ha
    simp only [Function.update_self, Option.some.injEq] at hl'
    exact (h.transition hl (hok l hl).1 (hok l hl).2).stored_of_located hl' hloc
  · cases ha

/-- As long as no retry loop gives up, no insertion runs out of levels and no node of
another key is taken out, every node stays where its hash says, no null pointer
to an array is followed and an insertion is found until its key is removed. -/
theorem contentionSafe_of_undisturbed {keySize : Nat} (hnew : Constructs L keySize t₀) :
    ContentionSafe L (Undisturbed L) t₀ := by
  obtain ⟨D, hlv⟩ := Layout.exists_levels hnew.maxLevel_pos
  have hinv {s : State K T} (hreach : Reaches (program L).next (Undisturbed L)
      (System.start t₀) s) : Inv L D s.shared s.threads := by
    refine hreach.invariant (I := fun s => Inv L D s.shared s.threads) ?_ ?_
    · exact ⟨hnew.sound hlv, by rintro u l ⟨⟩⟩
    · exact fun s a s' h hok hnext => h.next hok.1 hnext
  constructor
  · exact fun s hreach => (hinv hreach).sound.indexed hlv.addresses
  · exact fun s hreach u hu => (hinv hreach).locals u .fault hu
  · intro s s₁ s₂ s₃ tid key mapped loc u r hreach hok hnext hl hloc hreach₂ hidle hreach₃ hr
    have hkey := (hinv hreach).stored_insert hok.1 hnext hl hloc
    obtain ⟨hinv₂, hkey₂⟩ := (hinv (hreach.tail hok hnext)).stored_run hkey hreach₂
    have hfinds : Finds s₂ key u := by
      intro r hr
      rw [hidle] at hr
      cases hr
    exact (hinv₂.finds_run hkey₂ hfinds hreach₃).2.2 r hr

/-- Enough for the next step of a call to be undisturbed and to leave the key in the table. -/
def Local.calm [DecidableEq K] (L : Layout K) (key : K) (t : Table K T) : Local K T → Bool
  | .attempt (.insert _ _) n fail _ _ _ =>
      fail + 1 < failLimit && L.hashLevel * n < 64 && n + 1 != t.maxLevel
  | .attempt (.remove k) _ fail (.data old) _ _ =>
      fail + 1 < failLimit && (t.heap old).key == k && k != key
  | .attempt (.remove _) _ _ _ _ _ => true
  | .attempt (.update _ _) _ _ _ _ _ => false
  | _ => true

def Calm [DecidableEq K] (L : Layout K) (key : K) (s : State K T) : Action (Op K T) → Bool
  | .run tid => (s.threads tid).all (Local.calm L key s.shared)
  | _ => true

theorem Local.spared_of_calm [DecidableEq K] (h : l.calm L key t = true) :
    (¬ GivesUp L t l ∧ ¬ RunsOut L t l) ∧ ¬ TakesForeign t l ∧ ¬ Removes t key l := by
  cases l with
  | attempt m n fail loc currArr p =>
      cases m with
      | insert k mapped =>
          simp only [Local.calm, Bool.and_eq_true, decide_eq_true_eq, bne_iff_ne] at h
          obtain ⟨⟨hfail, hbits⟩, hlevel⟩ := h
          refine ⟨⟨fun hgives => ?_, fun hruns => ?_⟩, id, id⟩
          · exact absurd hgives.1 (Nat.ne_of_lt hfail)
          · cases loc with
            | null | array => exact hruns
            | data old =>
                rcases hruns.2.2 with hend | hend
                · exact Nat.not_le.mpr hbits hend
                · exact hlevel hend.1
      | update => cases h
      | remove k =>
          cases loc with
          | null | array => exact ⟨⟨id, id⟩, id, id⟩
          | data old =>
              simp only [Local.calm, Bool.and_eq_true, decide_eq_true_eq, beq_iff_eq,
                bne_iff_ne] at h
              obtain ⟨⟨hfail, hown⟩, hother⟩ := h
              exact ⟨⟨fun hgives => Nat.ne_of_lt hfail hgives.1, id⟩,
                fun htakes => htakes.2.2 hown, fun hremoves => hother hremoves.1⟩
  | _ => exact ⟨⟨id, id⟩, id, id⟩

theorem sparing_of_calm [DecidableEq K] (h : Calm L key s a = true) :
    Sparing (Undisturbed L) key s a := by
  cases a with
  | invoke | ret => exact ⟨⟨trivial, trivial⟩, nofun⟩
  | run tid =>
      have hspared (l : Local K T) (hl : s.threads tid = some l) :=
        Local.spared_of_calm ((Option.all_eq_true ..).mp h l hl)
      refine ⟨⟨fun l hl => (hspared l hl).1, fun l hl => (hspared l hl).2.1⟩, ?_⟩
      rintro _ l ⟨⟩ hl
      exact (hspared l hl).2.2

theorem reaches_of_calm {as : List (Action (Op (BitVec 64) Nat))} {s s' : State (BitVec 64) Nat}
    (h : runActions (program identityLayout).next s as = some s')
    (hcalm : Admits (program identityLayout).next
      (fun s a => Calm identityLayout 0x11 s a = true) s as) :
    Reaches (program identityLayout).next (Sparing (Undisturbed identityLayout) 0x11) s s' :=
  (reaches_of_runActions hcalm h).mono fun _ _ => sparing_of_calm

/-- Thread 2 has inserted 0x21, and thread 1 is about to put 0x11 beside it. -/
def besideRun : List (Action (Op (BitVec 64) Nat)) :=
  callActions 2 3 (.mutate (.insert 0x21 8)) ++
    .invoke 1 (.mutate (.insert 0x11 7)) :: List.replicate 3 (.run 1)

def beside : State (BitVec 64) Nat :=
  (runActions (program identityLayout).next (System.start emptyTable) besideRun).get (by decide)

def linked : State (BitVec 64) Nat :=
  ((program identityLayout).next beside (.run 1)).get (by decide)

/-- Thread 2 removes 0x21. -/
def removing : State (BitVec 64) Nat :=
  (runActions (program identityLayout).next linked
    [.invoke 2 (.mutate (.remove 0x21)), .run 2, .run 2]).get (by decide)

/-- Thread 3 searches for 0x11 meanwhile. -/
def searched : State (BitVec 64) Nat :=
  (runActions (program identityLayout).next removing
    [.invoke 3 (.get 0x11), .run 3, .run 2, .run 2, .run 3]).get (by decide)

theorem contentionSafe_searched : ∃ r, searched.threads 3 = some (.done (.get 0x11) r) ∧
    ∃ mapped, r = .pair 0x11 mapped := by
  have hsafe := contentionSafe_of_undisturbed constructs_emptyTable
  have hbeside : Reaches (program identityLayout).next (Undisturbed identityLayout)
      (System.start emptyTable) beside :=
    (reaches_of_calm (Option.some_get _).symm (by decide)).mono fun _ _ h => h.1
  have hdone : searched.threads 3 = some (.done (.get 0x11) (.pair 0x11 7)) := rfl
  have hlinks : Sparing (Undisturbed identityLayout) 0x11 beside (.run 1) :=
    sparing_of_calm (by decide)
  refine ⟨_, hdone, hsafe.found beside linked removing searched 1 0x11 7 (.data 1) 3 _ hbeside
    hlinks.1 (Option.some_get _).symm rfl nofun ?_ rfl ?_ hdone⟩
  · exact reaches_of_calm (Option.some_get _).symm (by decide)
  · exact reaches_of_calm (Option.some_get _).symm (by decide)

def contended : List (Action (Op (BitVec 64) Nat)) :=
  callActions 2 3 (.mutate (.insert 0x21 8)) ++ [.run 1] ++
    callActions 2 3 (.mutate (.remove 0x21)) ++ [.run 1]

def starved : List (Action (Op (BitVec 64) Nat)) :=
  [.invoke 1 (.mutate (.insert 0x11 7)), .run 1] ++ (List.replicate 10 contended).flatten ++
    [.run 1, .run 1]

def Local.faulty {K T : Type*} : Local K T → Bool
  | .fault => true
  | _ => false

/-- The insertion that has used up its tries at the root goes on to the next level
and follows the null `curr_arr_ptr`. -/
theorem contentionSafe_false : ¬ ContentionSafe identityLayout (fun _ _ => True) emptyTable := by
  intro hsafe
  have hview : (runActions (program identityLayout).next (System.start emptyTable) starved).map
      (fun s => (s.threads 1).map Local.faulty) = some (some true) := by
    decide +kernel
  obtain ⟨s, hs, hs'⟩ := Option.map_eq_some_iff.mp hview
  obtain ⟨l, hl, hfault⟩ := Option.map_eq_some_iff.mp hs'
  have hreach := reaches_of_runActions (admits_of_forall fun _ _ _ => trivial) hs
  cases l with
  | fault => exact hsafe.noFault s hreach 1 hl
  | _ => cases hfault

end Contention

end HashComp.Concurrent
