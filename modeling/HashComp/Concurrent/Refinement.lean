import HashComp.Concurrent.Frame
import HashComp.Concurrent.Insertion

namespace HashComp.Concurrent

open HashComp.HashTrie
open HashComp.LevelHash
open HashComp.Operations
open HashComp.Runs
open HashComp.SlotTrie
open HashComp.Threads

section Refinement

variable {K T : Type*} [DecidableEq K] {L : Layout K} {D tid : Nat} {t t' : Table K T}
  {key key' : K} {mapped : T} {op : Op K T} {ops : List (Op K T)}

def InsertOrGet : Op K T → Prop
  | .mutate (.update _ _) | .mutate (.remove _) => False
  | _ => True

def insertedAs (key : K) : Op K T → Option T
  | .mutate (.insert k mapped) => if k = key then some mapped else none
  | _ => none

def firstInserted (ops : List (Op K T)) (key : K) : Option T :=
  ops.findSome? (insertedAs key)

def found (key : K) : Option T → Result K T
  | some mapped => .pair key mapped
  | none => .outOfRange

/-- What an insertion or a search returns after the calls of `ops`. -/
def answer (ops : List (Op K T)) : Op K T → Result K T
  | .get key => found key (firstInserted ops key)
  | .mutate m => .bool (firstInserted ops m.key).isNone

structure Represents (L : Layout K) (D : Nat) (t : Table K T) (ops : List (Op K T)) : Prop where
  sound : Sound L D t
  stored : ∀ key, t.GetSpec L key (found key (firstInserted ops key))

omit [DecidableEq K] in
theorem Inserted.getSpec_own (h : Inserted L t t' key mapped) :
    t'.GetSpec L key (.pair key mapped) := by
  refine ⟨t.fresh, ⟨(h.linked t.fresh).mpr (Or.inl rfl), ?_⟩, h.newest⟩
  exact congrArg DataBlock.hash h.newest

omit [DecidableEq K] in
theorem Inserted.getSpec_other (h : Inserted L t t' key mapped)
    (hinj : Function.Injective L.hasher) (hne : key' ≠ key) (r : Result K T) :
    t'.GetSpec L key' r ↔ t.GetSpec L key' r := by
  refine Trie.GetSpec.congr (fun b => ?_) (fun b hb => h.heap b hb.1) r
  unfold Trie.Holds
  rw [h.linked]
  constructor
  · rintro ⟨rfl | hb, hhash⟩
    · rw [h.newest] at hhash
      exact absurd (hinj hhash).symm hne
    · rw [h.heap b hb] at hhash
      exact ⟨hb, hhash⟩
  · rintro ⟨hb, hhash⟩
    rw [h.heap b hb]
    exact ⟨Or.inr hb, hhash⟩

theorem firstInserted_concat (ops : List (Op K T)) (op : Op K T) (key : K) :
    firstInserted (ops ++ [op]) key = (firstInserted ops key).or (insertedAs key op) := by
  simp [firstInserted, List.findSome?_append]

theorem Represents.unchanged (h : Represents L D t ops)
    (hold : ∀ key mapped, insertedAs key op = some mapped →
      (firstInserted ops key).isSome) : Represents L D t (ops ++ [op]) where
  sound := h.sound
  stored := by
    intro key
    rw [firstInserted_concat]
    cases hkey : insertedAs key op with
    | none =>
        rw [Option.or_none]
        exact h.stored key
    | some mapped =>
        obtain ⟨first, hfirst⟩ := Option.isSome_iff_exists.mp (hold key mapped hkey)
        have hstored := h.stored key
        rw [hfirst] at hstored ⊢
        exact hstored

theorem Represents.call (hadm : L.Admissible D) (hinj : Function.Injective L.hasher)
    (h : Represents L D t ops) (hop : InsertOrGet op) (tid : Nat) :
    ∃ t', Returns L tid t op t' (answer ops op) ∧ Represents L D t' (ops ++ [op]) := by
  cases op with
  | get key =>
      obtain ⟨n, hend⟩ := h.sound.exists_endsAt key
      have hret := h.sound.get_returns tid hend
      rw [(h.sound.getResult_spec hend).unique h.sound.valid (h.stored key)] at hret
      refine ⟨t, hret, h.unchanged ?_⟩
      rintro key' mapped ⟨⟩
  | mutate m =>
      cases m with
      | update | remove => exact hop.elim
      | insert key mapped =>
          have hkey := h.stored key
          simp only [answer, Mutation.key]
          cases hfirst : firstInserted ops key with
          | some first =>
              rw [hfirst] at hkey
              obtain ⟨a, ha, -⟩ := hkey
              refine ⟨t, insert_duplicate h.sound tid ha mapped, h.unchanged ?_⟩
              intro key' mapped' hkey'
              simp only [insertedAs] at hkey'
              split at hkey'
              · rename_i heq
                rw [← heq, hfirst]
                rfl
              · cases hkey'
          | none =>
              rw [hfirst] at hkey
              obtain ⟨t', hret, hsound, hins⟩ :=
                insert_returns h.sound tid hkey (h.sound.not_outruns hadm key) mapped
              refine ⟨t', hret, hsound, ?_⟩
              intro key'
              rw [firstInserted_concat]
              by_cases heq : key' = key
              · subst key'
                rw [hfirst, Option.none_or, insertedAs, if_pos rfl]
                exact hins.getSpec_own
              · rw [insertedAs, if_neg (Ne.symm heq), Option.or_none]
                exact (hins.getSpec_other hinj heq _).mpr (h.stored key')

omit [DecidableEq K] in
theorem Sound.no_fault (hadm : L.Admissible D) (h : Sound L D t) (op : Op K T)
    {x : Table K T × Local K T} (hx : Leads ((program L).soloStep tid) (t, begin op) x) :
    x.2 ≠ .fault := by
  intro hfault
  have hok := ((h.solo op).leads hadm hx).localOk
  rw [hfault] at hok
  exact hok

theorem Represents.calls (hadm : L.Admissible D) (hinj : Function.Injective L.hasher)
    (h : Represents L D t ops) (tid : Nat) {ops' : List (Op K T)}
    (hops : ∀ op ∈ ops', InsertOrGet op) :
    ∃ t', (program L).After tid t ops' t' ∧ Represents L D t' (ops ++ ops') := by
  have hfold : ops ++ ops' = ops'.foldl (fun ops op => ops ++ [op]) ops := by
    rw [List.foldl_append_eq_append, ← List.flatMap_def, List.flatMap_singleton']
  rw [hfold]
  refine Program.after_of_simulation (R := Represents L D) ?_ hops h
  intro t ops op h hop
  obtain ⟨t', hret, h'⟩ := h.call hadm hinj hop tid
  exact ⟨t', _, hret, h'⟩

theorem represents_new (garbage : Nat → DataBlock K T)
    (h : Sound L D (⟨.empty garbage, 0, 0, 19⟩ : Table K T)) :
    Represents L D ⟨.empty garbage, 0, 0, 19⟩ [] where
  sound := h
  stored := by
    rintro key a ⟨⟨p, hp⟩, -⟩
    exact Trie.empty_slots_ne garbage p a hp

/-- After every sequence of insertions and searches on a new table, insertions
and searches return what the map of the first insertions says, and no call
dereferences a null pointer, shifts too far or takes an array for a node. -/
theorem insertGet_refines (hlevel : L.hashLevel = 4)
    (hroot : L.rootHashLevel = 4 ∨ L.rootHashLevel = 16) (hinj : Function.Injective L.hasher)
    (tid : Nat) (garbage : Nat → DataBlock K T) {fuel : Nat} (hfuel : 18 ≤ fuel) :
    ∃ t₀, new L garbage 8 fuel = some t₀ ∧ ∀ ops : List (Op K T), (∀ op ∈ ops, InsertOrGet op) →
      (∃ t, (program L).After tid t₀ ops t) ∧ ∀ t, (program L).After tid t₀ ops t →
        ∀ op, InsertOrGet op → (∃ t', Returns L tid t op t' (answer ops op)) ∧
          ∀ x, Leads ((program L).soloStep tid) (t, begin op) x → x.2 ≠ .fault := by
  have hnew := new_default hlevel garbage hfuel
  have hconstructs : Constructs L 8 _ := ⟨garbage, fuel, hnew⟩
  obtain ⟨D, hD, hadm⟩ := hconstructs.fits hlevel hroot
  refine ⟨_, hnew, ?_⟩
  intro ops hops
  obtain ⟨t, hafter, ht⟩ :=
    (represents_new garbage (hconstructs.sound (hadm.levels hD))).calls hadm hinj tid hops
  refine ⟨⟨t, hafter⟩, ?_⟩
  intro t' hafter' op hop
  rw [← hafter.unique hafter']
  obtain ⟨u, hret, -⟩ := ht.call hadm hinj hop tid
  exact ⟨⟨u, hret⟩, fun x hx => ht.sound.no_fault hadm op hx⟩

def threeInsertions : List (Op (BitVec 64) Nat) :=
  [.mutate (.insert 0x11 7), .mutate (.insert 0x21 8), .mutate (.insert 0x11 9)]

theorem insertGet_refines_threeInsertions :
    ∃ t₀, new identityLayout (fun _ => ⟨0, 0, 0⟩) 8 18 = some t₀ ∧
      ∃ t t', (program identityLayout).After 1 t₀ threeInsertions t ∧
        Returns identityLayout 1 t (.get 0x11) t' (.pair 0x11 7) := by
  obtain ⟨t₀, hnew, hrun⟩ := insertGet_refines (L := identityLayout) (T := Nat) rfl (Or.inl rfl)
    (fun _ _ h => h) 1 (fun _ => ⟨0, 0, 0⟩) (Nat.le_refl 18)
  obtain ⟨⟨t, hafter⟩, hcalls⟩ := hrun threeInsertions (by simp [threeInsertions, InsertOrGet])
  obtain ⟨⟨t', hret⟩, -⟩ := hcalls t hafter (.get 0x11) trivial
  exact ⟨t₀, hnew, t, t', hafter, hret⟩

end Refinement

end HashComp.Concurrent
