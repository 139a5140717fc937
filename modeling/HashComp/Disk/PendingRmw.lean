import HashComp.Disk.Transition

/-!
An `Rmw` that has waited for the disk.  It computes the new value from the newest
record of its key, or starts anew; but the check that it makes before compares
the search of the chain with the entry that it remembers, which need not have
led to the record that was read.
-/

namespace HashComp.Disk

open HashComp.Faster
open HashComp.RecordChain
open HashComp.Runs

variable {K : Type} {L : Layout K} {numThreads : Nat} {s : Store K}
  {x y : System K} {t u a slot address newAddress : Nat} {key : K} {expected : HashBucketEntry}
  {r : Record K} {io : AsyncIOContext K}

section Outcome

def rmwValue (incr : BitVec 64) : Option (BitVec 64) → BitVec 64
  | none => incr
  | some old => old + incr

/-- A step of `InternalContinuePendingRmw`.  It goes on, or it returns `RETRY_NOW`
and has changed the value of no key, or it is through and its key has got a value
computed from the one that it had, which no thread is about to change. -/
structure Atomic (L : Layout K) (x : System K) (t : Nat) (io : AsyncIOContext K)
    (y : System K) : Prop where
  outcome : y.job t = some (.continuing io) ∨ y.job t = some (.call io.request) ∨ y.job t = none
  keeps : y.job t ≠ none → ∀ k o, Holds L x.store k o → Holds L y.store k o
  installs : y.job t = none → ∃ o, Holds L x.store io.callerContext.key o ∧
    Holds L y.store io.callerContext.key (some (rmwValue io.callerContext.incr o))
  others : ∀ k, k ≠ io.callerContext.key → ∀ o, Holds L x.store k o → Holds L y.store k o
  quiet : y.job t = none → ∀ i e a, InSlot (x.store.buckets (L.idx io.callerContext.key)) i e →
    e.tag = L.tag io.callerContext.key →
    Newest x.store io.callerContext.key e.address (some a) → ∀ u, x.pc u ≠ .updating a
  asserted : ∀ slot expected address, y.pc t = .appending slot expected address →
    address < x.store.beginAddress ∨ address = io.callerContext.entry.address

/-- When the thread is about to search the chain, the entry that the request
remembers has left memory, or a newer record of the key is in memory. -/
def Retraceable (x : System K) (t : Nat) (io : AsyncIOContext K) : Prop :=
  ∀ slot expected, x.pc t = .rechecking slot expected →
    io.callerContext.entry.address < x.store.headAddress ∨
      ∃ a r, Follows x.store expected.address a ∧ io.callerContext.entry.address < a ∧
        x.store.headAddress ≤ a ∧ x.store.log a = some r ∧ r.key = io.callerContext.key

theorem atomic_of_keeps
    (houtcome : y.job t = some (.continuing io) ∨ y.job t = some (.call io.request))
    (hkeeps : ∀ k o, Holds L x.store k o → Holds L y.store k o)
    (hasserted : ∀ slot expected address, y.pc t = .appending slot expected address →
      address < x.store.beginAddress ∨ address = io.callerContext.entry.address) :
    Atomic L x t io y := by
  have hbusy : y.job t ≠ none := by
    intro hnone
    rw [hnone] at houtcome
    rcases houtcome with h | h <;> cases h
  exact ⟨houtcome.imp_right Or.inl, fun _ => hkeeps, fun h => absurd h hbusy,
    fun k _ => hkeeps k, fun h => absurd h hbusy, hasserted⟩

theorem search_assertion_iff (hio : io.Known L s)
    (hsearch : Searches s io.callerContext.key s.headAddress expected.address address)
    (hfound : address < s.headAddress ∨
      s.headAddress ≤ address ∧ ∃ r, s.log address = some r ∧ r.key = io.callerContext.key)
    (hfollows : Follows s expected.address io.callerContext.entry.address)
    (hle : address ≤ io.callerContext.entry.address) :
    (address < s.beginAddress ∨ address = io.callerContext.entry.address) ↔
      io.callerContext.entry.address < s.headAddress := by
  obtain ⟨-, hrest⟩ := hsearch.split hfollows hle
  constructor
  · intro hassert
    by_contra hmemory
    have hin := Nat.not_lt.mp hmemory
    -- the entry is in memory and what was read is not, so that it has another key
    have hne : io.callerContext.entry.address ≠ io.callerContext.address := by
      have := hio.context.head
      omega
    obtain ⟨r, hr, hkey, -⟩ := hio.context.misses.head hne
    rcases hassert with hbegin | rfl
    · have hread : address ≤ io.callerContext.address := by
        have := hio.context.begin
        omega
      obtain ⟨-, hlast⟩ := hrest.split hio.context.misses hread
      have hstep : io.callerContext.address ≠ address := by
        have := hio.context.begin
        omega
      obtain ⟨_, -, hp, -⟩ := hlast.head hstep
      exact absurd hp.1 (Nat.not_le.mpr hio.context.head)
    · rcases hfound with hlt | ⟨-, r', hr', hkey'⟩
      · omega
      · rw [hr] at hr'
        cases hr'
        exact hkey hkey'
  · intro hevicted
    by_contra hnot
    have hne : io.callerContext.entry.address ≠ address := fun h => hnot (Or.inr h.symm)
    obtain ⟨_, -, hp, -⟩ := hrest.head hne
    exact absurd hp.1 (Nat.not_le.mpr hevicted)

theorem retry_iff_newer (hhead : s.headAddress ≤ io.callerContext.entry.address)
    (hsearch : Searches s io.callerContext.key s.headAddress expected.address address)
    (hfound : address < s.headAddress ∨
      s.headAddress ≤ address ∧ ∃ r, s.log address = some r ∧ r.key = io.callerContext.key) :
    io.callerContext.entry.address < address ↔
      ∃ a r, Follows s expected.address a ∧ io.callerContext.entry.address < a ∧
        s.headAddress ≤ a ∧ s.log a = some r ∧ r.key = io.callerContext.key := by
  constructor
  · intro hlt
    rcases hfound with hout | ⟨hin, r, hr, hkey⟩
    · omega
    · exact ⟨address, r, hsearch.misses.follows, hlt, hin, hr, hkey⟩
  · rintro ⟨a, r, hfollows, hlt, -, hr, hkey⟩
    by_contra hle
    obtain ⟨-, hrest⟩ := hsearch.split hfollows (by omega)
    obtain ⟨r', hr', hp, -⟩ := hrest.head (by omega)
    rw [hr] at hr'
    cases hr'
    exact hp.2 hkey

end Outcome

section Steps

theorem atomic_of_exchange (h : Inv L numThreads x) (hio : io.Known L x.store)
    (hresponded : io.responded = true)
    (he : InSlot (x.store.buckets (L.idx io.callerContext.key)) slot expected)
    (htag : expected.tag = L.tag io.callerContext.key)
    (hmisses : Misses x.store io.callerContext.key expected.address io.address)
    (hfresh : Fresh x.store io.callerContext.key expected newAddress r)
    (hvalue : io.value x.store.beginAddress = some r.value) :
    Atomic L x t io (x.finish t (replaceEntry x.store (L.idx io.callerContext.key) slot
      (some ⟨newAddress, L.tag io.callerContext.key, false⟩))) := by
  refine ⟨Or.inr (Or.inr finish_job_self), fun hne => absurd finish_job_self hne, fun _ => ?_,
    fun k hk o ho => ho.publish hk he htag hfresh (hfresh.lt h.sound),
    fun _ i e a he' htag' hnew u hpc => ?_, ?_⟩
  · have hnew := holds_publish (L := L) he hfresh
    by_cases hlt : io.address < x.store.beginAddress
    · refine ⟨none, .absent he htag (.absent hmisses hlt), ?_⟩
      rw [AsyncIOContext.value, if_pos hlt, Option.some.injEq] at hvalue
      rw [← hvalue] at hnew
      exact hnew
    · obtain ⟨rd, r', hrecord, hlog, hkey, hread⟩ := (hio.ends hresponded).resolve_left hlt
      refine ⟨some r'.value, .found he htag (.found hmisses (Nat.not_lt.mp hlt) hlog hkey) hlog, ?_⟩
      rw [AsyncIOContext.value, if_neg hlt, hrecord, Option.map_some, Option.some.injEq] at hvalue
      rw [← hvalue, ← hread] at hnew
      exact hnew
  · have heq : e = expected := by
      have hi := (h.sound.settled _).unique _ _ _ _ he he' (htag.trans htag'.symm)
      subst hi
      exact (he.unique he').symm
    subst heq
    have hmutable := h.safe u
    rw [hpc] at hmutable
    have hsafe := h.sound.safe
    have hdisk := hio.onDisk
    have hread : io.address = a ∨ io.address < x.store.beginAddress := by
      by_cases hlt : io.address < x.store.beginAddress
      · exact Or.inr hlt
      · obtain ⟨-, r', -, hlog, hkey, -⟩ := (hio.ends hresponded).resolve_left hlt
        have := hnew.unique (.found hmisses (Nat.not_lt.mp hlt) hlog hkey)
        cases this
        exact Or.inl rfl
    rcases hread with heq | hlt
    · have : x.store.safeReadOnlyAddress ≤ a := hmutable
      omega
    · cases hnew.unique (.absent hmisses hlt)
  · intro _ _ _ hpc
    rw [finish_pc_self] at hpc
    cases hpc

end Steps

section Run

def Job.entryAddress {K : Type} : Job K → Option Nat
  | .continuing io => some io.callerContext.entry.address
  | .call _ => none

theorem continuing_of_entryAddress {K : Type} {job : Option (Job K)} {a : Nat}
    (h : job.bind Job.entryAddress = some a) :
    ∃ io, job = some (.continuing io) ∧ io.callerContext.entry.address = a := by
  cases job with
  | none => cases h
  | some job =>
      cases job with
      | call => cases h
      | continuing io =>
          cases h
          exact ⟨io, rfl, rfl⟩

def steps (t n : Nat) : List (Move Nat) :=
  List.replicate n (.run t)

/-- The record of key 0 gets to disk, and an `Rmw` of key 0 waits for it. -/
def evictRun : List (Move Nat) :=
  [.call 0 (.upsert 0 5)] ++ steps 0 7 ++
    [.shiftReadOnly 88, .shiftSafeReadOnly 88, .shiftHead 88, .closePages 88]

def readRun : List (Move Nat) :=
  [.call 0 (.rmw 0 3)] ++ steps 0 4 ++ [.readDisk 0 0]

end Run

end HashComp.Disk
