import HashComp.LevelHashing.Locking

namespace HashComp.LevelHashing

open HashComp.Runs
open HashComp.Threads

def levelCalculateLoop (count ret : Nat) : Nat :=
  if count / 2 = 0 then ret else levelCalculateLoop (count / 2) (ret + 1)
termination_by count
decreasing_by omega

/-- `level_calculate` of `LH_MicroTest.cpp`. -/
def levelCalculate (count : Nat) : Nat :=
  levelCalculateLoop count 0 + 1

section Divisors

variable {K V : Type*} (t : Table K V)

def Table.divisor (level : Level) : Nat :=
  t.capacity level / 2

def Movement.targetLevel : Movement → Level
  | .tryMovement levelNum _ => levelNum
  | .b2tMovement _ => .top

/-- Both movements on a level have failed, and `level_insert` computes the indexes again. -/
def Movement.lastOfLevel : Movement → List Movement → Bool
  | .tryMovement levelNum _, .tryMovement levelNum' _ :: _ => levelNum ≠ levelNum'
  | .tryMovement _ _, _ => true
  | .b2tMovement _, _ => false

/-- The divisors of the next step of a thread: in front of either level and after it, for
every item that a movement looks at, and for the items that `level_resize` puts into the
new level. -/
def Table.divisors : Local K V → List Nat
  | .called (.search _) | .called (.insert _ _) => [t.divisor .top]
  | .search _ slots =>
      if slots.length = 2 * assocNum ∨ slots.length = 0 then [t.divisor .bottom] else []
  | .scan _ _ slots =>
      if slots.length = 2 * assocNum then [t.divisor .bottom]
      else if slots.length = 0 then [t.divisor .bottom, t.divisor .top]
      else []
  | .source _ _ (m :: movements) i =>
      if i < assocNum then
        if t.locks (m.source i) = none then [t.divisor m.targetLevel] else []
      else if m.lastOfLevel movements then [t.divisor .bottom]
      else []
  | .resizing =>
      if (grid (2 ^ (t.levelSize - 1))).any fun p => (t.cells (Level.bottom.slot p)).token then
        [2 ^ (t.levelSize + 1) / 2]
      else []
  | _ => []

end Divisors

section Sizes

variable {K V : Type*} {H : Hashing K} {t t' : Table K V} {l l' : Local K V} {tid : Nat}

theorem le_levelCalculateLoop (count ret : Nat) : ret ≤ levelCalculateLoop count ret := by
  fun_induction levelCalculateLoop count ret with
  | case1 => exact Nat.le_refl _
  | case2 count ret hne ih => exact Nat.le_of_succ_le ih

theorem two_le_levelCalculate_iff {count : Nat} : 2 ≤ levelCalculate count ↔ 2 ≤ count := by
  rw [levelCalculate, levelCalculateLoop]
  split
  · omega
  · have := le_levelCalculateLoop (count / 2) (0 + 1)
    omega

structure Table.Sized (t : Table K V) : Prop where
  capacity : t.addrCapacity = 2 ^ t.levelSize
  size : 2 ≤ t.levelSize

theorem Table.Sized.divisor_pos (h : t.Sized) (level : Level) : 0 < t.divisor level := by
  have hpow : 2 ^ 2 ≤ 2 ^ t.levelSize := Nat.pow_le_pow_right (by decide) h.size
  rw [Table.divisor]
  cases level with
  | top =>
      rw [Table.capacity, h.capacity]
      omega
  | bottom =>
      rw [Table.capacity, h.capacity]
      omega

theorem divisor_of_mem (l : Local K V) {d : Nat} (hd : d ∈ t.divisors l) :
    (∃ level, d = t.divisor level) ∨ d = 2 ^ (t.levelSize + 1) / 2 := by
  cases l with
  | called op =>
      cases op with
      | search | insert => exact .inl ⟨.top, List.mem_singleton.mp hd⟩
      | resize => cases hd
  | search s slots =>
      rw [Table.divisors] at hd
      split at hd
      · exact .inl ⟨.bottom, List.mem_singleton.mp hd⟩
      · cases hd
  | scan key value slots =>
      rw [Table.divisors] at hd
      split at hd
      · exact .inl ⟨.bottom, List.mem_singleton.mp hd⟩
      · split at hd
        · rcases List.mem_cons.mp hd with hd | hd
          · exact .inl ⟨.bottom, hd⟩
          · exact .inl ⟨.top, List.mem_singleton.mp hd⟩
        · cases hd
  | source key value movements i =>
      cases movements with
      | nil => cases hd
      | cons m movements =>
          rw [Table.divisors] at hd
          split at hd
          · split at hd
            · exact .inl ⟨m.targetLevel, List.mem_singleton.mp hd⟩
            · cases hd
          · split at hd
            · exact .inl ⟨.bottom, List.mem_singleton.mp hd⟩
            · cases hd
  | resizing =>
      rw [Table.divisors] at hd
      split at hd
      · exact .inr (List.mem_singleton.mp hd)
      · cases hd
  | _ => cases hd

theorem Table.Sized.divisors_pos (h : t.Sized) (l : Local K V) : ∀ d ∈ t.divisors l, 0 < d := by
  intro d hd
  rcases divisor_of_mem l hd with ⟨level, rfl⟩ | rfl
  · exact h.divisor_pos level
  · rw [Nat.pow_succ, Nat.mul_div_cancel _ (by decide)]
    exact Nat.two_pow_pos _

theorem Table.Sized.of_eq (h : t.Sized) (hcapacity : t'.addrCapacity = t.addrCapacity)
    (hsize : t'.levelSize = t.levelSize) : t'.Sized :=
  ⟨by rw [hcapacity, hsize, h.capacity], hsize ▸ h.size⟩

theorem Table.Sized.acquire (h : t.Sized) (tid : Nat) (slot : Slot) (l l' : Local K V) :
    (t.acquire tid slot l l').1.Sized := by
  rcases acquire_cases t tid slot l l' with heq | heq | ⟨-, heq⟩
  · rw [heq]
    exact h
  · rw [heq]
    exact h
  · rw [heq]
    exact h.of_eq rfl rfl

theorem Table.Sized.apply (h : t.Sized) (q : Search K V) (slot : Slot) :
    (q.apply t slot).1.Sized := by
  cases q with
  | query => exact h
  | update | delete => exact h.of_eq rfl rfl

variable [Inhabited K] [Inhabited V]

theorem sized_levelInit {n : Nat} (hn : 2 ≤ n) : (levelInit n : Table K V).Sized :=
  ⟨rfl, hn⟩

theorem Table.Sized.resize (h : t.Sized) (hr : t.resize H = some t') : t'.Sized := by
  obtain ⟨⟨newBuckets, oldBuckets⟩, -, rfl⟩ := Option.map_eq_some_iff.mp hr
  exact ⟨rfl, Nat.le_succ_of_le h.size⟩

variable [DecidableEq K]

theorem Table.Sized.step (h : t.Sized) (H : Hashing K) (tid : Nat) (l : Local K V) :
    (step H tid t l).1.Sized := by
  cases l with
  | called op => cases op <;> exact h
  | search s slots | scan key value slots | target key value m movements i slots =>
      cases slots with
      | nil => exact h.of_eq rfl rfl
      | cons slot slots => exact h.acquire ..
  | searchLocked s slot slots =>
      rw [LevelHashing.step]
      split
      · exact (h.apply s slot).of_eq rfl rfl
      · exact h.of_eq rfl rfl
  | scanLocked key value slot slots =>
      rw [LevelHashing.step]
      split <;> exact h.of_eq rfl rfl
  | source key value movements i =>
      cases movements with
      | nil => exact h
      | cons m movements =>
          rw [LevelHashing.step]
          split
          · exact h.acquire ..
          · exact h
  | targetLocked key value m movements i slot slots =>
      rw [LevelHashing.step]
      split <;> exact h.of_eq rfl rfl
  | fill => exact h.of_eq rfl rfl
  | resizing =>
      rw [LevelHashing.step]
      split
      · exact h
      · next hr => exact h.resize hr
  | done | fault | exited => exact h

end Sizes

section Runs

variable {K V : Type*} [DecidableEq K] [Inhabited K] [Inhabited V] {H : Hashing K}
  {t : Table K V} {tid n : Nat}

/-- In no run of any threads on a table that starts with as many levels is a divisor zero. -/
def NeverDividesByZero (K V : Type*) [DecidableEq K] [Inhabited K] [Inhabited V]
    (levelSize : Nat) : Prop :=
  ∀ (H : Hashing K) (s : State K V),
    Reaches (program H).next (fun _ _ => True) (System.start (levelInit levelSize)) s →
      ∀ tid l, s.threads tid = some l → ∀ d ∈ s.shared.divisors l, d ≠ 0

theorem neverDividesByZero_of_le (hn : 2 ≤ n) : NeverDividesByZero K V n := by
  intro H s hs tid l hl d hd
  refine Nat.ne_of_gt (Table.Sized.divisors_pos ?_ l d hd)
  refine hs.invariant (I := fun s => s.shared.Sized) (sized_levelInit hn) ?_
  intro s a s' hsized _ hnext
  rcases (program H).next_cases hnext with
    ⟨tid, op, -, -, rfl⟩ | ⟨tid, l, -, -, -, rfl⟩ | ⟨tid, op, r, -, -, rfl⟩
  · exact hsized
  · exact hsized.step H tid l
  · exact hsized

theorem leads_past {q : Search K V} {slots rest : List Slot}
    (hlocks : ∀ slot, t.locks slot = none)
    (hrange : ∀ x ∈ slots, x.bucket < t.lockCount x.level)
    (hfree : ∀ x, (t.cells x).token = false) :
    Leads ((program H).soloStep tid) (t, .search q (slots ++ rest)) (t, .search q rest) := by
  induction slots with
  | nil => exact Leads.refl _
  | cons slot slots ih =>
      have hlock : step H tid t (.search q (slot :: slots ++ rest)) =
          (t.lock tid slot, .searchLocked q slot (slots ++ rest)) :=
        acquire_of_free (hrange slot List.mem_cons_self) (hlocks slot)
      have hunlock : step H tid (t.lock tid slot) (.searchLocked q slot (slots ++ rest)) =
          (t, .search q (slots ++ rest)) := by
        have hmiss : ¬((t.cells slot).token = true ∧ (t.cells slot).key = q.key) := by
          rw [hfree slot]
          rintro ⟨⟨⟩, -⟩
        rw [step, lock_cells, if_neg hmiss, unlock_lock tid (hlocks slot)]
      exact leads_of_step hlock (leads_of_step hunlock
        (ih fun x hx => hrange x (List.mem_cons_of_mem slot hx)))

theorem not_neverDividesByZero_one : ¬NeverDividesByZero K V 1 := by
  intro h
  let H : Hashing K := ⟨fun _ => 0, fun _ => 0⟩
  let t : Table K V := levelInit 1
  let q : Search K V := .query default
  have hsplit : t.searchOrder H q.key =
      (consecutive (t.fBucket H .top q.key) (t.sBucket H .top q.key)).map Level.top.slot ++
        (consecutive (t.fBucket H .bottom q.key) (t.sBucket H .bottom q.key)).map
          Level.bottom.slot := by
    simp [Table.searchOrder]
  have hleads : Leads ((program H).soloStep 0) (t, (program H).begin (.search q))
      (t, .search q ((consecutive (t.fBucket H .bottom q.key)
        (t.sBucket H .bottom q.key)).map Level.bottom.slot)) := by
    have hcalled : step H 0 t (.called (.search q)) = (t, .search q (t.searchOrder H q.key)) := rfl
    rw [hsplit] at hcalled
    refine leads_of_step hcalled ?_
    refine leads_past (fun _ => rfl) (fun x hx => ?_) fun _ => rfl
    obtain ⟨p, hp, rfl⟩ := List.mem_map.mp hx
    have hbucket : ∀ p ∈ consecutive 0 1, p.1 < 2 := by decide
    have hf : t.fBucket H .top q.key = 0 := by
      change fIdx 0 (2 ^ 1) = 0
      decide
    have hs : t.sBucket H .top q.key = 1 := by
      change sIdx 0 (2 ^ 1) = 1
      decide
    rw [hf, hs] at hp
    exact hbucket p hp
  have hreach : ∃ s : State K V,
      Reaches (program H).next (fun _ _ => True) (System.start t) s ∧ s.shared = t ∧
        s.threads = Function.update (fun _ => none) 0 (some (.search q ((consecutive
          (t.fBucket H .bottom q.key) (t.sBucket H .bottom q.key)).map Level.bottom.slot))) ∧
        s.log = [] :=
    Program.reaches_call (s := System.start t) trivial (fun _ => trivial) rfl hleads
  obtain ⟨s, hs, hshared, hthreads, -⟩ := hreach
  have hzero : (0 : Nat) ∈ t.divisors (.search q ((consecutive (t.fBucket H .bottom q.key)
      (t.sBucket H .bottom q.key)).map Level.bottom.slot)) := by
    have hdivisor : t.divisor .bottom = 0 := by
      change 2 ^ 1 / 2 / 2 = 0
      decide
    rw [Table.divisors, hdivisor, if_pos]
    · exact List.mem_singleton_self 0
    · rw [List.length_map]
      exact .inl rfl
  refine h H s hs 0 _ (by rw [hthreads, Function.update_self]) 0 ?_ rfl
  rw [hshared]
  exact hzero

/-- No divisor is ever zero in a table made for two keys or more. -/
theorem neverDividesByZero_iff {count : Nat} (hcount : 1 ≤ count) :
    NeverDividesByZero K V (levelCalculate count) ↔ 2 ≤ count := by
  constructor
  · intro h
    by_contra hlt
    have hone : count = 1 := by omega
    have hsize : levelCalculate 1 = 1 := by
      rw [levelCalculate, levelCalculateLoop, if_pos rfl]
    rw [hone, hsize] at h
    exact not_neverDividesByZero_one h
  · intro h
    exact neverDividesByZero_of_le (two_le_levelCalculate_iff.mpr h)

theorem neverDividesByZero_three :
    NeverDividesByZero Nat Nat (levelCalculate 3) ↔ 2 ≤ 3 :=
  neverDividesByZero_iff (by decide)

/-- The table that `level_calculate` has for one key divides by zero. -/
theorem divides_by_zero_for_one_key :
    levelCalculate 1 = 1 ∧ ¬NeverDividesByZero Nat Nat (levelCalculate 1) := by
  have hsize : levelCalculate 1 = 1 := by
    rw [levelCalculate, levelCalculateLoop, if_pos rfl]
  refine ⟨hsize, ?_⟩
  rw [hsize]
  exact not_neverDividesByZero_one

end Runs

end HashComp.LevelHashing
