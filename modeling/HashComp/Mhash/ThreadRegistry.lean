import HashComp.Library.Runs
import HashComp.Library.SlotScans
import HashComp.Library.Threads
import Mathlib.Algebra.Group.Nat.Defs

namespace HashComp.ThreadRegistry

open HashComp.Runs
open HashComp.SlotScans

def registryMaxThreads : Nat := 128

structure Registry where
  usedTID : Nat → Bool
  maxTid : Int

def Registry.getMaxThreads (r : Registry) : BitVec 64 :=
  BitVec.ofInt 64 r.maxTid

/-- Where a thread is between the start of `register_thread_new` and the end of
`deregister_thread`.  Both loads of `maxTid` are at `load`.  A thread that finds no id
stays at `failed`. -/
inductive Pc where
  | look (tid : Nat)
  | claim (tid : Nat)
  | load (tid : Nat)
  | raise (tid : Nat) (curMax : Int)
  | registered (tid : Nat)
  | failed
  deriving DecidableEq

def scan (tid : Nat) : Pc :=
  if tid < registryMaxThreads then .look tid else .failed

def Registry.step (r : Registry) : Pc → Option (Registry × Pc)
  | .look tid =>
      if r.usedTID tid then some (r, scan (tid + 1)) else some (r, .claim tid)
  | .claim tid =>
      if r.usedTID tid then some (r, scan (tid + 1))
      else some ({ r with usedTID := Function.update r.usedTID tid true }, .load tid)
  | .load tid =>
      if r.maxTid ≤ tid then some (r, .raise tid r.maxTid) else some (r, .registered tid)
  | .raise tid curMax =>
      if r.maxTid = curMax then some ({ r with maxTid := tid + 1 }, .load tid)
      else some (r, .load tid)
  | .registered _ | .failed => none

/-- The registry, the threads, and the ids that were returned so far. -/
structure System where
  registry : Registry
  threads : Nat → Option Pc
  returned : List Nat

def System.start : System where
  registry := ⟨fun _ => false, -1⟩
  threads := fun _ => none
  returned := []

inductive Action where
  | register (u : Nat)
  | run (u : Nat)
  | deregister (u : Nat)

def Pc.returns : Pc → List Nat
  | .registered tid => [tid]
  | _ => []

/-- A thread deregisters when it ends, with the id that it has got. -/
def System.next (s : System) : Action → Option System
  | .register u =>
      match s.threads u with
      | none => some { s with threads := Function.update s.threads u (some (scan 0)) }
      | some _ => none
  | .run u =>
      match s.threads u with
      | none => none
      | some pc =>
          match s.registry.step pc with
          | none => none
          | some (r, pc') =>
              some ⟨r, Function.update s.threads u (some pc'), pc'.returns ++ s.returned⟩
  | .deregister u =>
      match s.threads u with
      | some (.registered tid) =>
          some { s with
            registry :=
              { s.registry with usedTID := Function.update s.registry.usedTID tid false }
            threads := Function.update s.threads u none }
      | _ => none

/-- The place up to which a thread has come in the row of ids. -/
def Pc.place : Pc → Nat
  | .look tid | .claim tid | .load tid | .raise tid _ | .registered tid => tid
  | .failed => registryMaxThreads

/-- The id that a thread has taken. -/
def Pc.held : Pc → Option Nat
  | .load tid | .raise tid _ | .registered tid => some tid
  | .look _ | .claim _ | .failed => none

def System.position (s : System) (u : Nat) : Option Nat :=
  (s.threads u).map Pc.place

def System.held (s : System) (u : Nat) : Option Nat :=
  (s.threads u).bind Pc.held

/-- A thread registers only while there are fewer than `REGISTRY_MAX_THREADS` others. -/
def System.Admits (s : System) : Action → Prop
  | .register _ => Room registryMaxThreads s.position
  | .run _ | .deregister _ => True

def Pc.Knows : Pc → Prop
  | .look tid | .claim tid | .load tid | .registered tid => tid < registryMaxThreads
  | .raise tid curMax => tid < registryMaxThreads ∧ curMax ≤ tid
  | .failed => True

/-- The used ids are those that threads hold, and the maximum is above all ids that were
returned. -/
structure Sound (s : System) : Prop where
  taken : Taken s.registry.usedTID s.held
  knows : ∀ u pc, s.threads u = some pc → pc.Knows
  bounded : s.registry.maxTid ≤ registryMaxThreads
  returned : ∀ tid ∈ s.returned, (tid : Int) < s.registry.maxTid
  registered : ∀ u tid, s.threads u = some (.registered tid) → tid ∈ s.returned

section Steps

variable {r r' : Registry} {pc pc' : Pc} {s s' : System} {a : Action} {u tid : Nat}

@[simp] theorem scan_held : (scan tid).held = none := by
  unfold scan
  split
  · rfl
  · rfl

theorem scan_knows : (scan tid).Knows := by
  unfold scan
  split
  · assumption
  · trivial

theorem scan_place (htid : tid ≤ registryMaxThreads) : (scan tid).place = tid := by
  unfold scan
  split
  · rfl
  · exact Nat.le_antisymm (Nat.not_lt.mp ‹_›) htid

/-- A thread passes a used id, takes a free one, or stays with the id where it is. -/
theorem Registry.step_cases (h : r.step pc = some (r', pc')) :
    (∃ tid, pc.place = tid ∧ pc.held = none ∧ r.usedTID tid = true ∧ r' = r ∧
        pc' = scan (tid + 1)) ∨
      (∃ tid, pc = .claim tid ∧ r.usedTID tid = false ∧ pc' = .load tid ∧
        r' = { r with usedTID := Function.update r.usedTID tid true }) ∨
      pc'.place = pc.place ∧ pc'.held = pc.held ∧ r'.usedTID = r.usedTID := by
  cases pc with
  | look tid =>
      simp only [Registry.step] at h
      split at h
      · cases h
        exact Or.inl ⟨tid, rfl, rfl, ‹_›, rfl, rfl⟩
      · cases h
        exact Or.inr (Or.inr ⟨rfl, rfl, rfl⟩)
  | claim tid =>
      simp only [Registry.step] at h
      split at h
      · cases h
        exact Or.inl ⟨tid, rfl, rfl, ‹_›, rfl, rfl⟩
      · rename_i hfree
        cases h
        exact Or.inr (Or.inl ⟨tid, rfl, Bool.eq_false_iff.mpr hfree, rfl, rfl⟩)
  | load tid =>
      simp only [Registry.step] at h
      split at h
      all_goals
        cases h
        exact Or.inr (Or.inr ⟨rfl, rfl, rfl⟩)
  | raise tid curMax =>
      simp only [Registry.step] at h
      split at h
      all_goals
        cases h
        exact Or.inr (Or.inr ⟨rfl, rfl, rfl⟩)
  | registered tid => cases h
  | failed => cases h

/-- The maximum only rises, up to the number of ids, and a thread returns below it. -/
theorem Registry.step_knows (hpc : pc.Knows) (h : r.step pc = some (r', pc'))
    (hr : r.maxTid ≤ registryMaxThreads) :
    pc'.Knows ∧ r.maxTid ≤ r'.maxTid ∧ r'.maxTid ≤ registryMaxThreads ∧
      ∀ tid ∈ pc'.returns, (tid : Int) < r'.maxTid := by
  have hnone : ∀ tid, ∀ t ∈ (scan tid).returns, (t : Int) < r.maxTid := by
    intro tid t ht
    unfold scan at ht
    split at ht
    · cases ht
    · cases ht
  cases pc with
  | look tid =>
      simp only [Registry.step] at h
      split at h
      · cases h
        exact ⟨scan_knows, Int.le_refl _, hr, hnone _⟩
      · cases h
        exact ⟨hpc, Int.le_refl _, hr, fun t ht => by cases ht⟩
  | claim tid =>
      simp only [Registry.step] at h
      split at h
      · cases h
        exact ⟨scan_knows, Int.le_refl _, hr, hnone _⟩
      · cases h
        exact ⟨hpc, Int.le_refl _, hr, fun t ht => by cases ht⟩
  | load tid =>
      simp only [Registry.step] at h
      split at h
      · rename_i hle
        cases h
        exact ⟨⟨hpc, hle⟩, Int.le_refl _, hr, fun t ht => by cases ht⟩
      · rename_i hlt
        cases h
        refine ⟨hpc, Int.le_refl _, hr, fun t ht => ?_⟩
        obtain rfl := List.mem_singleton.mp ht
        exact Int.not_le.mp hlt
  | raise tid curMax =>
      obtain ⟨htid, hcur⟩ := hpc
      simp only [Registry.step] at h
      split at h
      · rename_i heq
        cases h
        refine ⟨htid, ?_, ?_, fun t ht => by cases ht⟩
        · change r.maxTid ≤ (tid : Int) + 1
          omega
        · change (tid : Int) + 1 ≤ registryMaxThreads
          omega
      · cases h
        exact ⟨htid, Int.le_refl _, hr, fun t ht => by cases ht⟩
  | registered tid => cases h
  | failed => cases h

theorem System.next_cases (h : s.next a = some s') :
    (∃ u, a = .register u ∧ s.threads u = none ∧
        s' = { s with threads := Function.update s.threads u (some (scan 0)) }) ∨
      (∃ u pc r pc', a = .run u ∧ s.threads u = some pc ∧
        s.registry.step pc = some (r, pc') ∧
        s' = ⟨r, Function.update s.threads u (some pc'), pc'.returns ++ s.returned⟩) ∨
      ∃ u tid, a = .deregister u ∧ s.threads u = some (.registered tid) ∧
        s' = { s with
          registry :=
            { s.registry with usedTID := Function.update s.registry.usedTID tid false }
          threads := Function.update s.threads u none } := by
  cases a with
  | register u =>
      simp only [System.next] at h
      split at h
      · cases h
        exact Or.inl ⟨u, rfl, ‹_›, rfl⟩
      · cases h
  | run u =>
      simp only [System.next] at h
      split at h
      · cases h
      · rename_i pc hpc
        split at h
        · cases h
        · rename_i r pc' hstep
          cases h
          exact Or.inr (Or.inl ⟨u, pc, r, pc', rfl, hpc, hstep, rfl⟩)
  | deregister u =>
      simp only [System.next] at h
      split at h
      · rename_i tid htid
        cases h
        exact Or.inr (Or.inr ⟨u, tid, rfl, htid, rfl⟩)
      · cases h

end Steps

section Runs

variable {s s' : System} {a : Action} {u tid : Nat} {pc : Pc} {r : Registry}
  {pc' : Pc} {place : Option Pc} {returned : List Nat}
  {ok : System → Action → Prop}

theorem held_update : (⟨r, Function.update s.threads u place, returned⟩ : System).held =
    Function.update s.held u (place.bind Pc.held) := by
  funext v
  exact Function.apply_update (fun _ p => p.bind Pc.held) s.threads u place v

theorem position_update : (⟨r, Function.update s.threads u place, returned⟩ : System).position =
    Function.update s.position u (place.map Pc.place) := by
  funext v
  exact Function.apply_update (fun _ p => p.map Pc.place) s.threads u place v

theorem held_eq (hu : s.threads u = place) : s.held u = place.bind Pc.held := by
  rw [System.held, hu]

theorem position_eq (hu : s.threads u = place) : s.position u = place.map Pc.place := by
  rw [System.position, hu]

theorem Sound.register (h : Sound s) (hu : s.threads u = none) :
    Sound { s with threads := Function.update s.threads u (some (scan 0)) } where
  taken := by
    have hkeep : Function.update s.held u none = s.held :=
      Function.update_eq_self_iff.mpr (held_eq hu).symm
    rw [held_update, Option.bind_some, scan_held, hkeep]
    exact h.taken
  knows := by
    intro v pc hv
    rcases Threads.update_eq_some hv with ⟨rfl, hpc⟩ | ⟨-, hv⟩
    · exact Option.some.inj hpc ▸ scan_knows
    · exact h.knows v pc hv
  bounded := h.bounded
  returned := h.returned
  registered := by
    intro v tid hv
    rcases Threads.update_eq_some hv with ⟨rfl, hpc⟩ | ⟨-, hv⟩
    · cases hpc
    · exact h.registered v tid hv

theorem Sound.deregister (h : Sound s) (hu : s.threads u = some (.registered tid)) :
    Sound { s with
      registry := { s.registry with usedTID := Function.update s.registry.usedTID tid false }
      threads := Function.update s.threads u none } where
  taken := by
    rw [held_update]
    exact h.taken.release (held_eq hu)
  knows := by
    intro v pc hv
    rcases Threads.update_eq_some hv with ⟨-, hpc⟩ | ⟨-, hv⟩
    · cases hpc
    · exact h.knows v pc hv
  bounded := h.bounded
  returned := h.returned
  registered := by
    intro v tid hv
    rcases Threads.update_eq_some hv with ⟨-, hpc⟩ | ⟨-, hv⟩
    · cases hpc
    · exact h.registered v tid hv

theorem Sound.run (h : Sound s) (hu : s.threads u = some pc)
    (hstep : s.registry.step pc = some (r, pc')) :
    Sound ⟨r, Function.update s.threads u (some pc'), pc'.returns ++ s.returned⟩ ∧
      s.registry.maxTid ≤ r.maxTid := by
  obtain ⟨hknows, hle, hbound, hreturns⟩ := Registry.step_knows (h.knows u pc hu) hstep h.bounded
  refine ⟨⟨?_, fun v qc hv => ?_, hbound, fun tid htid => ?_, fun v tid hv => ?_⟩, hle⟩
  · rw [held_update, Option.bind_some]
    have hheld := held_eq hu
    rw [Option.bind_some] at hheld
    rcases Registry.step_cases hstep with
      ⟨tid, -, hnone, -, rfl, rfl⟩ | ⟨tid, rfl, hfree, rfl, rfl⟩ | ⟨-, hsame, hused⟩
    · have hkeep : Function.update s.held u none = s.held :=
        Function.update_eq_self_iff.mpr (hheld.trans hnone).symm
      rw [scan_held, hkeep]
      exact h.taken
    · exact h.taken.take hheld hfree
    · have hkeep : Function.update s.held u pc.held = s.held :=
        Function.update_eq_self_iff.mpr hheld.symm
      rw [hsame, hkeep, hused]
      exact h.taken
  · rcases Threads.update_eq_some hv with ⟨rfl, hqc⟩ | ⟨-, hv⟩
    · exact Option.some.inj hqc ▸ hknows
    · exact h.knows v qc hv
  · rcases List.mem_append.mp htid with hnew | hold
    · exact hreturns tid hnew
    · exact Int.lt_of_lt_of_le (h.returned tid hold) hle
  · rcases Threads.update_eq_some hv with ⟨rfl, hqc⟩ | ⟨-, hv⟩
    · rw [Option.some.inj hqc]
      exact List.mem_append_left _ (List.mem_singleton_self tid)
    · exact List.mem_append_right _ (h.registered v tid hv)

theorem Sound.next (h : Sound s) (hnext : s.next a = some s') :
    Sound s' ∧ s.registry.maxTid ≤ s'.registry.maxTid := by
  rcases System.next_cases hnext with
    ⟨u, -, hu, rfl⟩ | ⟨u, pc, r, pc', -, hu, hstep, rfl⟩ | ⟨u, tid, -, hu, rfl⟩
  · exact ⟨h.register hu, Int.le_refl _⟩
  · exact h.run hu hstep
  · exact ⟨h.deregister hu, Int.le_refl _⟩

theorem sound_start : Sound System.start where
  taken := taken_none
  knows := by
    intro u pc hu
    cases hu
  bounded := by decide
  returned := by
    intro tid htid
    cases htid
  registered := by
    intro u tid hu
    cases hu

theorem sound_of_reaches (h : Reaches System.next ok System.start s) : Sound s := by
  refine h.invariant (I := Sound) ?_ fun s a s' hs _ hnext => (hs.next hnext).1
  exact sound_start

/-- A used id has a thread that holds it, so that two threads stand at the place that one
of them passes. -/
theorem fits_next (h : Sound s) (hfits : Fits registryMaxThreads s.position) (hok : s.Admits a)
    (hnext : s.next a = some s') : Fits registryMaxThreads s'.position := by
  rcases System.next_cases hnext with
    ⟨u, rfl, hu, rfl⟩ | ⟨u, pc, r, pc', -, hu, hstep, rfl⟩ | ⟨u, tid, -, hu, rfl⟩
  · rw [position_update]
    exact hfits.enter hok
  · rw [position_update, Option.map_some]
    have hplace := position_eq hu
    rw [Option.map_some] at hplace
    rcases Registry.step_cases hstep with
      ⟨tid, rfl, hnone, hused, rfl, rfl⟩ | ⟨tid, rfl, hfree, rfl, rfl⟩ | ⟨hsame, -, -⟩
    · obtain ⟨v, hv⟩ := (h.taken.marked_iff _).mp hused
      obtain ⟨qc, hqc, hqtid⟩ := Option.bind_eq_some_iff.mp hv
      have hvplace : s.position v = some pc.place := by
        rw [position_eq hqc, Option.map_some]
        cases qc with
        | load | raise | registered => rw [← Option.some.inj hqtid]; rfl
        | look | claim | failed => cases hqtid
      have hvu : v ≠ u := by
        rintro rfl
        rw [held_eq hu] at hv
        rw [Option.bind_some, hnone] at hv
        cases hv
      rw [scan_place (hfits.lt hplace)]
      exact hfits.advance hplace hvplace hvu
    · rw [Function.update_eq_self_iff.mpr hplace.symm]
      exact hfits
    · rw [hsame, Function.update_eq_self_iff.mpr hplace.symm]
      exact hfits
  · rw [position_update]
    exact hfits.leave

theorem not_failed (h : Reaches System.next ok System.start s)
    (hok : ∀ s a, ok s a → s.Admits a) : s.threads u ≠ some .failed := by
  have hfits : Sound s ∧ Fits registryMaxThreads s.position := by
    refine h.invariant (I := fun s => Sound s ∧ Fits registryMaxThreads s.position) ?_ ?_
    · exact ⟨sound_start, fits_none⟩
    · rintro s a s' ⟨hs, hfits⟩ ha hnext
      exact ⟨(hs.next hnext).1, fits_next hs hfits (hok s a ha) hnext⟩
  intro hu
  exact Nat.lt_irrefl _ (hfits.2.lt (position_eq hu))

theorem lt_getMaxThreads (h : Sound s) (htid : tid ∈ s.returned) :
    tid < s.registry.getMaxThreads.toNat := by
  have hlt := h.returned tid htid
  have hle := h.bounded
  have hmod : s.registry.maxTid % (2 : Int) ^ 64 = s.registry.maxTid := by
    have hmax : (registryMaxThreads : Int) < 2 ^ 64 := by decide
    exact Int.emod_eq_of_lt (by omega) (by omega)
  have hword : s.registry.getMaxThreads.toNat = (s.registry.maxTid % (2 : Int) ^ 64).toNat :=
    BitVec.toNat_ofInt ..
  rw [hword, hmod]
  omega

/-- In every run the ids of the threads differ from when they are taken, the ids returned
are below the maximum from then on, and the maximum does not decrease.  No thread fails to
get an id while there are no more threads than ids. -/
theorem registry_unique_bounded (h : Reaches System.next ok System.start s) :
    (∀ u v tid, s.held u = some tid → s.held v = some tid → u = v) ∧
      (∀ u tid, s.threads u = some (.registered tid) → tid ∈ s.returned) ∧
      (∀ tid ∈ s.returned, tid < s.registry.getMaxThreads.toNat) ∧
      (∀ a s', s.next a = some s' → s.registry.maxTid ≤ s'.registry.maxTid) ∧
      ((∀ s a, ok s a → s.Admits a) → ∀ u, s.threads u ≠ some .failed) := by
  have hs := sound_of_reaches h
  exact ⟨hs.taken.exclusive, hs.registered, fun tid htid => lt_getMaxThreads hs htid,
    fun a s' hnext => (hs.next hnext).2, fun hok u => not_failed h hok⟩

theorem reaches_runs {s s' : System} {n u : Nat}
    (h : runActions System.next s (List.replicate n (.run u)) = some s') :
    Reaches System.next System.Admits s s' := by
  refine reaches_of_runActions (admits_of_forall fun a ha s => ?_) h
  rw [List.eq_of_mem_replicate ha]
  trivial

/-- Thread 7 registers while thread 5 has the first id. -/
theorem registry_unique_bounded_two :
    ∃ s : System, s.threads 5 = some (.registered 0) ∧ s.threads 7 = some (.registered 1) ∧
      (∀ u v tid, s.held u = some tid → s.held v = some tid → u = v) ∧
      (∀ u tid, s.threads u = some (.registered tid) → tid ∈ s.returned) ∧
      (∀ tid ∈ s.returned, tid < s.registry.getMaxThreads.toNat) ∧
      (∀ a s', s.next a = some s' → s.registry.maxTid ≤ s'.registry.maxTid) ∧
      ((∀ (s : System) a, s.Admits a → s.Admits a) → ∀ u, s.threads u ≠ some .failed) := by
  have hempty : System.start.Admits (.register 5) := ⟨∅, fun i hi => absurd rfl hi, by decide⟩
  have hstart : Reaches System.next System.Admits System.start System.start := Reaches.refl _
  have hfirst := hstart.tail hempty rfl
  have hfirst' := hfirst.trans (reaches_runs (n := 5) (u := 5) rfl)
  have hsecond := hfirst'.tail (a := .register 7) ⟨{5}, fun i hi => ?_, by decide⟩ rfl
  · have hrun := hsecond.trans (reaches_runs (n := 6) (u := 7) rfl)
    exact ⟨_, rfl, rfl, registry_unique_bounded hrun⟩
  · rw [Finset.mem_singleton]
    by_contra hne
    refine hi ?_
    simp [System.position, Function.update_of_ne hne, System.start]

end Runs

end HashComp.ThreadRegistry
