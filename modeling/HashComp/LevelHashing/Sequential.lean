import HashComp.LevelHashing.Contents

namespace HashComp.LevelHashing

open HashComp.Runs
open HashComp.Threads

section Results

variable {K V : Type*} [DecidableEq K] (H : Hashing K) (t : Table K V)

def Table.holds (key : K) (slot : Slot) : Bool :=
  (t.cells slot).token && decide ((t.cells slot).key = key)

def Table.find (key : K) : Option Slot :=
  (t.searchOrder H key).find? (t.holds key)

def Table.firstFree (slots : List Slot) : Option Slot :=
  slots.find? fun slot => !(t.cells slot).token

def Table.moveTarget (m : Movement) (i : Nat) : Option Slot :=
  t.firstFree (m.targets H t (t.cells (m.source i)).key)

/-- The first item that the movements can move, and where to, from iteration `i` of
the first of them on. -/
def Table.firstMove : List Movement → Nat → Option (Slot × Slot)
  | [], _ => none
  | m :: movements, i =>
      ((List.range' i (assocNum - i)).findSome? fun i =>
        (t.moveTarget H m i).map (m.source i, ·)) <|> Table.firstMove movements 0

def Table.searched (s : Search K V) : Table K V × Reply V :=
  match t.find H s.key with
  | none => (t, .code 1)
  | some slot => s.apply t slot

def Table.inserted (key : K) (value : V) : Table K V × Reply V :=
  match t.firstFree (t.insertOrder H key) with
  | some slot => (t.put slot key value, .code 0)
  | none =>
      match t.firstMove H (t.movements H key) 0 with
      | some (source, target) => ((t.relocate source target).put source key value, .code 0)
      | none => (t, .code 1)

/-- The table after a call and what the call returns, unless it exits. -/
def Table.result [Inhabited K] [Inhabited V] : Op K V → Option (Table K V × Reply V)
  | .search s => some (t.searched H s)
  | .insert key value => some (t.inserted H key value)
  | .resize => (t.resize H).map (·, .void)

end Results

section Range

variable {K V : Type*}

/-- The slot whose lock a thread is about to acquire. -/
def Local.request : Local K V → Option Slot
  | .search _ (slot :: _) | .scan _ _ (slot :: _) | .target _ _ _ _ _ (slot :: _) => some slot
  | .source _ _ (m :: _) i => if i < assocNum then some (m.source i) else none
  | _ => none

/-- The lock that a thread acquires next lies in `level_locks`. -/
def InRange (t : Table K V) (l : Local K V) : Prop :=
  ∀ slot, l.request = some slot → slot.bucket < t.lockCount slot.level

variable [DecidableEq K] [Inhabited K] [Inhabited V] {H : Hashing K}
  {t t' u : Table K V} {l l' : Local K V} {tid : Nat}

/-- A thread that runs alone takes no lock that lies beyond the end of
`level_locks`. -/
def Covered (H : Hashing K) (tid : Nat) (t : Table K V) (l : Local K V) : Prop :=
  ∀ n, InRange (((program H).soloStep tid)^[n] (t, l)).1 (((program H).soloStep tid)^[n] (t, l)).2

theorem Covered.inRange (h : Covered H tid t l) : InRange t l :=
  h 0

theorem Covered.step (h : Covered H tid t l) (hstep : step H tid t l = (t', l')) :
    Covered H tid t' l' := by
  intro n
  have := h (n + 1)
  rw [Function.iterate_succ_apply, soloStep_eq, hstep] at this
  exact this

theorem leads_of_step {w : Table K V × Local K V} (hstep : step H tid t l = (t', l'))
    (h : Leads ((program H).soloStep tid) (t', l') w) :
    Leads ((program H).soloStep tid) (t, l) w := by
  refine Leads.head ?_
  rw [soloStep_eq, hstep]
  exact h

theorem Covered.leads (h : Covered H tid t l)
    (hleads : Leads ((program H).soloStep tid) (t, l) (t', l')) : Covered H tid t' l' := by
  obtain ⟨n, hn⟩ := hleads
  intro m
  have := h (m + n)
  rwa [Function.iterate_add_apply, hn] at this

/-- A call that returns has taken no lock that lies beyond the end of
`level_locks`. -/
theorem covered_of_returns {op : Op K V} {reply : Reply V} (h : Returns H tid t op t' reply) :
    Covered H tid t (.called op) := by
  intro n slot hrequest
  by_contra hout
  have hfault : Leads ((program H).soloStep tid) (t, .called op)
      ((((program H).soloStep tid)^[n] (t, .called op)).1, .fault) := by
    refine ⟨n + 1, ?_⟩
    rw [Function.iterate_succ_apply']
    generalize ((program H).soloStep tid)^[n] (t, .called op) = w at hrequest hout
    obtain ⟨u, l⟩ := w
    have hbad : ∀ spinning locked, u.acquire tid slot spinning locked = (u, .fault) :=
      fun _ _ => if_neg hout
    rw [soloStep_eq]
    cases l with
    | search s slots | scan key value slots | target key value m movements i slots =>
        cases slots with
        | nil => cases hrequest
        | cons head slots =>
            cases hrequest
            exact hbad ..
    | source key value movements i =>
        cases movements with
        | nil => cases hrequest
        | cons m movements =>
            simp only [Local.request] at hrequest
            split at hrequest
            · cases hrequest
              rw [step, if_pos ‹_›]
              exact hbad ..
            · cases hrequest
    | _ => cases hrequest
  cases hfault.rest_unique rfl h rfl

end Range

section Finds

variable {K V : Type*} {H : Hashing K} {t : Table K V} {l l' : Local K V} {tid i : Nat}
  {source : Slot} {m : Movement} {movements : List Movement}

theorem acquire_of_free {slot : Slot} (hslot : slot.bucket < t.lockCount slot.level)
    (hfree : t.locks slot = none) : t.acquire tid slot l l' = (t.lock tid slot, l') := by
  rw [Table.acquire, if_pos hslot, hfree]

theorem firstFree_cons_of_free {slot : Slot} {slots : List Slot}
    (h : (t.cells slot).token = false) : t.firstFree (slot :: slots) = some slot :=
  List.find?_cons_of_pos (by rw [h]; rfl)

theorem firstFree_cons_of_taken {slot : Slot} {slots : List Slot}
    (h : ¬ (t.cells slot).token = false) : t.firstFree (slot :: slots) = t.firstFree slots :=
  List.find?_cons_of_neg (by simpa using h)

theorem firstMove_cons_of_lt (hi : i < assocNum) :
    t.firstMove H (m :: movements) i =
      ((t.moveTarget H m i).map (m.source i, ·) <|> t.firstMove H (m :: movements) (i + 1)) := by
  have hlen : assocNum - i = assocNum - (i + 1) + 1 := by omega
  rw [Table.firstMove, hlen, List.range'_succ, List.findSome?_cons, Table.firstMove]
  cases t.moveTarget H m i <;> rfl

theorem firstMove_cons_of_ge (hi : assocNum ≤ i) :
    t.firstMove H (m :: movements) i = t.firstMove H movements 0 := by
  rw [Table.firstMove, Nat.sub_eq_zero_of_le hi]
  rfl

/-- The table while the source of a movement is locked and its item has been moved. -/
theorem unlock_relocate {target : Slot} (hlocks : ∀ slot, t.locks slot = none)
    (hne : target ≠ source) :
    ((((t.lock tid source).lock tid target).relocate source target).unlock target) =
      (t.relocate source target).lock tid source := by
  have htarget : Function.update t.locks source (some tid) target = none :=
    (Function.update_of_ne hne ..).trans (hlocks target)
  have hlast : Function.update (Function.update (Function.update t.locks source (some tid))
      target (some tid)) target none = Function.update t.locks source (some tid) := by
    rw [Function.update_idem, ← htarget, Function.update_eq_self]
  simp only [Table.unlock, Table.relocate, Table.put, Table.setCell, Table.lock, hlast]

end Finds

section Calls

variable {K V : Type*} [DecidableEq K] [Inhabited K] [Inhabited V] {H : Hashing K}
  {t t' : Table K V} {tid : Nat} {key : K} {value : V}

theorem leads_search_miss {q : Search K V} {slots rest : List Slot}
    (hlocks : ∀ slot, t.locks slot = none) (hnot : ∀ x ∈ slots, t.holds q.key x = false)
    (hcovered : Covered H tid t (.search q (slots ++ rest))) :
    Leads ((program H).soloStep tid) (t, .search q (slots ++ rest)) (t, .search q rest) := by
  induction slots with
  | nil => exact Leads.refl _
  | cons slot slots ih =>
      have hlock : step H tid t (.search q (slot :: slots ++ rest)) =
          (t.lock tid slot, .searchLocked q slot (slots ++ rest)) :=
        acquire_of_free (hcovered.inRange slot rfl) (hlocks slot)
      have hunlock : step H tid (t.lock tid slot) (.searchLocked q slot (slots ++ rest)) =
          (t, .search q (slots ++ rest)) := by
        have hmiss : ¬ ((t.cells slot).token = true ∧ (t.cells slot).key = q.key) := by
          have hslot := hnot slot List.mem_cons_self
          simpa [Table.holds] using hslot
        rw [step, lock_cells, if_neg hmiss, unlock_lock tid (hlocks slot)]
      have hrest := ih (fun x hx => hnot x (List.mem_cons_of_mem slot hx))
        ((hcovered.step hlock).step hunlock)
      exact leads_of_step hlock (leads_of_step hunlock hrest)

theorem leads_search {q : Search K V} {slots : List Slot} (hlocks : ∀ slot, t.locks slot = none)
    (hcovered : Covered H tid t (.search q slots)) :
    Leads ((program H).soloStep tid) (t, .search q slots)
      (match slots.find? (t.holds q.key) with
        | none => (t, .done (.search q) (.code 1))
        | some slot => ((q.apply t slot).1, .done (.search q) (q.apply t slot).2)) := by
  cases hfind : slots.find? (t.holds q.key) with
  | none =>
      have hnot : ∀ x ∈ slots, t.holds q.key x = false := by
        simpa using List.find?_eq_none.mp hfind
      rw [← List.append_nil slots] at hcovered
      have hmiss := leads_search_miss hlocks hnot hcovered
      rw [List.append_nil] at hmiss
      exact hmiss.trans (leads_of_step rfl (Leads.refl _))
  | some slot =>
      obtain ⟨hholds, before, rest, rfl, hbefore⟩ := List.find?_eq_some_iff_append.mp hfind
      have hnot : ∀ x ∈ before, t.holds q.key x = false := by
        simpa using hbefore
      have hmiss := leads_search_miss hlocks hnot hcovered
      have hlock : step H tid t (.search q (slot :: rest)) =
          (t.lock tid slot, .searchLocked q slot rest) :=
        acquire_of_free ((hcovered.leads hmiss).inRange slot rfl) (hlocks slot)
      have hunlock : step H tid (t.lock tid slot) (.searchLocked q slot rest) =
          ((q.apply t slot).1, .done (.search q) (q.apply t slot).2) := by
        have hfound : (t.cells slot).token = true ∧ (t.cells slot).key = q.key := by
          simpa [Table.holds] using hholds
        have hlast := unlock_lock (t := (q.apply t slot).1) tid
          (by cases q <;> exact hlocks slot)
        rw [step, lock_cells, if_pos hfound, ← hlast]
        cases q <;> rfl
      exact hmiss.trans (leads_of_step hlock (leads_of_step hunlock (Leads.refl _)))

theorem leads_scan {slots : List Slot} (hlocks : ∀ slot, t.locks slot = none)
    (hcovered : Covered H tid t (.scan key value slots)) :
    Leads ((program H).soloStep tid) (t, .scan key value slots)
      (match t.firstFree slots with
        | none => (t, .source key value (t.movements H key) 0)
        | some slot => (t.put slot key value, .done (.insert key value) (.code 0))) := by
  induction slots with
  | nil => exact leads_of_step rfl (Leads.refl _)
  | cons slot slots ih =>
      have hlock : step H tid t (.scan key value (slot :: slots)) =
          (t.lock tid slot, .scanLocked key value slot slots) :=
        acquire_of_free (hcovered.inRange slot rfl) (hlocks slot)
      refine leads_of_step hlock ?_
      by_cases hfree : (t.cells slot).token = false
      · rw [firstFree_cons_of_free hfree]
        have hunlock : step H tid (t.lock tid slot) (.scanLocked key value slot slots) =
            (t.put slot key value, .done (.insert key value) (.code 0)) := by
          rw [step, lock_cells, if_pos hfree,
            ← unlock_lock (t := t.put slot key value) tid (hlocks slot)]
          rfl
        exact leads_of_step hunlock (Leads.refl _)
      · rw [firstFree_cons_of_taken hfree]
        have hunlock : step H tid (t.lock tid slot) (.scanLocked key value slot slots) =
            (t, .scan key value slots) := by
          rw [step, lock_cells, if_neg hfree, unlock_lock tid (hlocks slot)]
        exact leads_of_step hunlock (ih ((hcovered.step hlock).step hunlock))

variable {m : Movement} {movements : List Movement} {i : Nat} {source : Slot}

/-- A movement moves its item to the first of its targets that is free, and puts the
new one in its place. -/
theorem leads_target {slots : List Slot} (hlocks : ∀ slot, t.locks slot = none)
    (hnot : m.source i ∉ slots)
    (hcovered : Covered H tid (t.lock tid (m.source i))
      (.target key value m movements i slots)) :
    Leads ((program H).soloStep tid)
      (t.lock tid (m.source i), .target key value m movements i slots)
      (match t.firstFree slots with
        | none => (t, .source key value (m :: movements) (i + 1))
        | some target => ((t.relocate (m.source i) target).put (m.source i) key value,
            .done (.insert key value) (.code 0))) := by
  induction slots with
  | nil =>
      have hunlock : step H tid (t.lock tid (m.source i)) (.target key value m movements i []) =
          (t, .source key value (m :: movements) (i + 1)) := by
        rw [step, unlock_lock tid (hlocks _)]
      exact leads_of_step hunlock (Leads.refl _)
  | cons slot slots ih =>
      have hne : slot ≠ m.source i := fun heq => hnot (heq ▸ List.mem_cons_self)
      have hfreeLock : (t.lock tid (m.source i)).locks slot = none :=
        (Function.update_of_ne hne ..).trans (hlocks slot)
      have hlock : step H tid (t.lock tid (m.source i))
          (.target key value m movements i (slot :: slots)) =
          ((t.lock tid (m.source i)).lock tid slot,
            .targetLocked key value m movements i slot slots) :=
        acquire_of_free (hcovered.inRange slot rfl) hfreeLock
      refine leads_of_step hlock ?_
      by_cases hfree : (t.cells slot).token = false
      · rw [firstFree_cons_of_free hfree]
        have hmove : step H tid ((t.lock tid (m.source i)).lock tid slot)
            (.targetLocked key value m movements i slot slots) =
            ((t.relocate (m.source i) slot).lock tid (m.source i), .fill key value m i) := by
          rw [step, lock_cells, lock_cells, if_pos hfree, unlock_relocate hlocks hne]
        have hfill : step H tid ((t.relocate (m.source i) slot).lock tid (m.source i))
            (.fill key value m i) =
            ((t.relocate (m.source i) slot).put (m.source i) key value,
              .done (.insert key value) (.code 0)) := by
          rw [step, ← unlock_lock (t := (t.relocate (m.source i) slot).put (m.source i) key value)
            tid (hlocks (m.source i))]
          rfl
        exact leads_of_step hmove (leads_of_step hfill (Leads.refl _))
      · rw [firstFree_cons_of_taken hfree]
        have hunlock : step H tid ((t.lock tid (m.source i)).lock tid slot)
            (.targetLocked key value m movements i slot slots) =
            (t.lock tid (m.source i), .target key value m movements i slots) := by
          rw [step, lock_cells, lock_cells, if_neg hfree, unlock_lock tid hfreeLock]
        exact leads_of_step hunlock
          (ih (fun hmem => hnot (List.mem_cons_of_mem _ hmem))
            ((hcovered.step hlock).step hunlock))

theorem leads_iteration (hlocks : ∀ slot, t.locks slot = none)
    (hhalf : ∀ level, 0 < t.capacity level / 2) (hi : i < assocNum)
    (hcovered : Covered H tid t (.source key value (m :: movements) i)) :
    Leads ((program H).soloStep tid) (t, .source key value (m :: movements) i)
      (match t.moveTarget H m i with
        | none => (t, .source key value (m :: movements) (i + 1))
        | some target => ((t.relocate (m.source i) target).put (m.source i) key value,
            .done (.insert key value) (.code 0))) := by
  have hstep : step H tid t (.source key value (m :: movements) i) =
      (t.lock tid (m.source i), .target key value m movements i
        (m.targets H t (t.cells (m.source i)).key)) := by
    rw [step, if_pos hi]
    exact acquire_of_free (hcovered.inRange _ (if_pos hi)) (hlocks _)
  exact leads_of_step hstep (leads_target hlocks
    (source_notMem_targets hhalf (t.cells (m.source i)).key i) (hcovered.step hstep))

theorem step_source_last (key : K) (value : V) (m : Movement) (movements : List Movement)
    (hi : assocNum ≤ i) :
    step H tid t (.source key value (m :: movements) i) =
      (t, .source key value movements 0) := by
  rw [step, if_neg (Nat.not_lt.mpr hi)]

theorem leads_movement_miss (hlocks : ∀ slot, t.locks slot = none)
    (hhalf : ∀ level, 0 < t.capacity level / 2) (hnone : ∀ j < assocNum, t.moveTarget H m j = none)
    (hcovered : Covered H tid t (.source key value (m :: movements) i)) :
    Leads ((program H).soloStep tid) (t, .source key value (m :: movements) i)
      (t, .source key value movements 0) := by
  induction hk : assocNum - i generalizing i with
  | zero => exact leads_of_step (step_source_last _ _ _ _ (by omega)) (Leads.refl _)
  | succ k ih =>
      have hi : i < assocNum := by omega
      have hleads := leads_iteration hlocks hhalf hi hcovered
      rw [hnone i hi] at hleads
      exact hleads.trans (ih (hcovered.leads hleads) (by omega))

theorem leads_source (hlocks : ∀ slot, t.locks slot = none)
    (hhalf : ∀ level, 0 < t.capacity level / 2)
    (hcovered : Covered H tid t (.source key value movements i)) :
    Leads ((program H).soloStep tid) (t, .source key value movements i)
      (match t.firstMove H movements i with
        | none => (t, .done (.insert key value) (.code 1))
        | some (source, target) => ((t.relocate source target).put source key value,
            .done (.insert key value) (.code 0))) := by
  induction movements generalizing i with
  | nil => exact leads_of_step rfl (Leads.refl _)
  | cons m movements ih =>
      induction hk : assocNum - i generalizing i with
      | zero =>
          have hstep : step H tid t _ = _ :=
            step_source_last key value m movements (i := i) (by omega)
          rw [firstMove_cons_of_ge (by omega)]
          exact leads_of_step hstep (ih (hcovered.step hstep))
      | succ k ihk =>
          have hi : i < assocNum := by omega
          have hleads := leads_iteration hlocks hhalf hi hcovered
          rw [firstMove_cons_of_lt hi]
          cases htarget : t.moveTarget H m i with
          | some target =>
              rw [htarget] at hleads
              exact hleads
          | none =>
              rw [htarget] at hleads
              exact hleads.trans (ihk (hcovered.leads hleads) (by omega))

theorem leads_insert_full (hlocks : ∀ slot, t.locks slot = none)
    (hfull : t.firstFree (t.insertOrder H key) = none)
    (hcovered : Covered H tid t (.called (.insert key value))) :
    Leads ((program H).soloStep tid) (t, .called (.insert key value))
      (t, .source key value (t.movements H key) 0) := by
  have hcall : step H tid t (.called (.insert key value)) =
      (t, .scan key value (t.insertOrder H key)) := rfl
  have hscan := leads_scan hlocks (hcovered.step hcall)
  rw [hfull] at hscan
  exact leads_of_step hcall hscan

theorem returns_result {op : Op K V} {reply : Reply V} (hlocks : ∀ slot, t.locks slot = none)
    (hhalf : ∀ level, 0 < t.capacity level / 2)
    (hcovered : Covered H tid t (.called op)) (hresult : t.result H op = some (t', reply)) :
    Returns H tid t op t' reply := by
  cases op with
  | search s =>
      have hcall : step H tid t (.called (.search s)) = (t, .search s (t.searchOrder H s.key)) :=
        rfl
      have hleads := leads_of_step hcall (leads_search hlocks (hcovered.step hcall))
      simp only [Table.result, Table.searched, Table.find, Option.some.injEq] at hresult
      cases hfind : (t.searchOrder H s.key).find? (t.holds s.key) with
      | none =>
          rw [hfind] at hleads hresult
          cases hresult
          exact hleads
      | some slot =>
          rw [hfind] at hleads hresult
          simp only at hresult
          simp only [hresult] at hleads
          exact hleads
  | insert key value =>
      have hcall : step H tid t (.called (.insert key value)) =
          (t, .scan key value (t.insertOrder H key)) := rfl
      have hscan := leads_scan hlocks (hcovered.step hcall)
      simp only [Table.result, Table.inserted, Option.some.injEq] at hresult
      cases hfree : t.firstFree (t.insertOrder H key) with
      | some slot =>
          rw [hfree] at hscan hresult
          cases hresult
          exact leads_of_step hcall hscan
      | none =>
          rw [hfree] at hscan hresult
          have hsource := leads_source hlocks hhalf ((hcovered.step hcall).leads hscan)
          cases hmove : t.firstMove H (t.movements H key) 0 with
          | none =>
              rw [hmove] at hsource hresult
              cases hresult
              exact leads_of_step hcall (hscan.trans hsource)
          | some move =>
              rw [hmove] at hsource hresult
              cases hresult
              exact leads_of_step hcall (hscan.trans hsource)
  | resize =>
      simp only [Table.result, Option.map_eq_some_iff, Prod.mk.injEq] at hresult
      obtain ⟨u, hu, rfl, rfl⟩ := hresult
      have hcall : step H tid t (.called .resize) = (t, .resizing) := rfl
      have hresize : step H tid t .resizing = (u, .done .resize .void) := by
        rw [step, hu]
      exact leads_of_step hcall (leads_of_step hresize (Leads.refl _))

end Calls

end HashComp.LevelHashing
