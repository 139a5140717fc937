import HashComp.Disk.Chains
import HashComp.Library.Ownership
import HashComp.Library.Runs

namespace HashComp.Disk

open HashComp.Faster
open HashComp.RecordChain
open HashComp.Ownership

variable {K : Type} {L : Layout K} {numThreads : Nat} {s s' : Store K} {x y : System K}
  {t u a c slot address newAddress : Nat} {key : K} {e expected : HashBucketEntry}
  {r : Record K} {touched : Option Nat} {io : AsyncIOContext K} {op : Request K} {pc : Pc}
  {job : Option (Job K)}

section Knowledge

structure Expected (L : Layout K) (s : Store K) (key : K) (e : HashBucketEntry) : Prop where
  tag : e.tag = L.tag key
  onChain : OnChain L s key e.address

structure PendingContext.Known (L : Layout K) (s : Store K) (context : PendingContext K) :
    Prop where
  onChain : OnChain L s context.key context.entry.address
  misses : Misses s context.key context.entry.address context.address
  begin : s.beginAddress ≤ context.address
  head : context.address < s.headAddress

structure AsyncIOContext.Known (L : Layout K) (s : Store K) (io : AsyncIOContext K) : Prop where
  context : io.callerContext.Known L s
  misses : Misses s io.callerContext.key io.callerContext.address io.address
  goesOn : io.responded = false → s.beginAddress ≤ io.address
  ends : io.responded = true → io.address < s.beginAddress ∨
    ∃ r r', io.record = some r ∧ s.log io.address = some r' ∧
      r'.key = io.callerContext.key ∧ r'.value = r.value

def Pc.creates : Pc → Option Nat
  | .filling _ _ _ newAddress | .publishing _ _ newAddress | .swapping _ _ _ newAddress =>
      some newAddress
  | _ => none

def Pc.Calls (L : Layout K) (s : Store K) (op : Request K) : Pc → Prop
  | .finding => True
  | .loadingHead _ expected => Expected L s op.key expected
  | .loadingReadOnly _ expected headAddress | .loadingSafe _ expected headAddress _ =>
      Expected L s op.key expected ∧ s.beginAddress ≤ headAddress ∧ headAddress ≤ s.headAddress
  | .updating address => OnChain L s op.key address ∧ ∃ r, s.log address = some r
  | .creating _ expected address =>
      Expected L s op.key expected ∧ Misses s op.key expected.address address
  | .filling _ expected address newAddress =>
      Expected L s op.key expected ∧ Misses s op.key expected.address address ∧
        ∃ r, Fresh s op.key expected newAddress r
  | .publishing _ expected newAddress =>
      Expected L s op.key expected ∧ ∃ r, Fresh s op.key expected newAddress r
  | _ => False

def Pc.Continues (L : Layout K) (s : Store K) (io : AsyncIOContext K) : Pc → Prop
  | .resuming => True
  | .rechecking _ expected =>
      Expected L s io.callerContext.key expected ∧
        Follows s expected.address io.callerContext.entry.address
  | .appending _ expected _ =>
      Expected L s io.callerContext.key expected ∧
        Misses s io.callerContext.key expected.address io.address
  | .swapping _ expected _ newAddress =>
      Expected L s io.callerContext.key expected ∧
        Misses s io.callerContext.key expected.address io.address ∧
        ∃ r, Fresh s io.callerContext.key expected newAddress r ∧
          io.value s.beginAddress = some r.value
  | _ => False

def Knows (L : Layout K) (s : Store K) : Option (Job K) → Pc → Prop
  | none, pc => pc = .idle
  | some (.call op), pc => pc.Calls L s op
  | some (.continuing io), pc => io.Known L s ∧ io.responded = true ∧ pc.Continues L s io

theorem Knows.fresh (h : Knows L s job pc) (hcreates : pc.creates = some a) :
    ∃ r, s.log a = some r ∧ Unlinked s a := by
  have hnew : ∀ {key : K} {expected : HashBucketEntry} {r : Record K},
      Fresh s key expected a r → ∃ r, s.log a = some r ∧ Unlinked s a :=
    fun hf => ⟨_, hf.record, hf.unlinked⟩
  cases pc
  case filling | publishing | swapping =>
    cases hcreates
    match job, h with
    | none, h => cases h
    | some (.call op), h =>
        first
          | exact h.elim
          | exact hnew h.2.2.choose_spec
          | exact hnew h.2.choose_spec
    | some (.continuing io), ⟨_, _, h⟩ =>
        first
          | exact h.elim
          | exact hnew h.2.2.choose_spec.1
  all_goals cases hcreates

end Knowledge

section Frame

theorem Expected.change (h : Expected L s key e) (hc : Change s s' touched) :
    Expected L s' key e :=
  ⟨h.tag, hc.onChain h.onChain⟩

theorem Fresh.change (h : Fresh s key expected a r) (hc : Change s s' touched)
    (hne : some a ≠ touched) : Fresh s' key expected a r where
  record := hc.same a r h.record hne
  key := h.key
  previous := h.previous
  begin := hc.begin ▸ h.begin
  unlinked := hc.unlinked a r h.record hne h.unlinked

theorem PendingContext.Known.change {context : PendingContext K} (h : context.Known L s)
    (hc : Change s s' touched) : context.Known L s' where
  onChain := hc.onChain h.onChain
  misses := hc.misses h.misses
  begin := hc.begin ▸ h.begin
  head := Nat.lt_of_lt_of_le h.head hc.head

theorem AsyncIOContext.Known.onChain (h : io.Known L s) :
    OnChain L s io.callerContext.key io.address :=
  h.context.onChain.follows (h.context.misses.trans h.misses).follows

theorem AsyncIOContext.Known.onDisk (h : io.Known L s) : io.address < s.headAddress :=
  Nat.lt_of_le_of_lt h.misses.le h.context.head

theorem AsyncIOContext.Known.change (h : io.Known L s) (hs : Sound s)
    (hc : Change s s' touched)
    (htouched : ∀ a, touched = some a → s.safeReadOnlyAddress ≤ a ∨ Unlinked s a) :
    io.Known L s' where
  context := h.context.change hc
  misses := hc.misses h.misses
  goesOn := fun hr => hc.begin ▸ h.goesOn hr
  ends := by
    intro hr
    rw [hc.begin]
    refine (h.ends hr).imp_right ?_
    rintro ⟨r, r', hrecord, hlog, hkey, hvalue⟩
    refine ⟨r, r', hrecord, hc.same _ _ hlog ?_, hkey, hvalue⟩
    intro heq
    rcases htouched _ heq.symm with hsafe | hno
    · have := hs.safe
      have := h.onDisk
      omega
    · exact h.onChain.linked hno

theorem Pc.Calls.change (h : pc.Calls L s op) (hc : Change s s' touched)
    (hcreates : ∀ a, pc.creates = some a → some a ≠ touched) : pc.Calls L s' op := by
  cases pc
  case finding => trivial
  case loadingHead => exact Expected.change h hc
  case loadingReadOnly | loadingSafe =>
    exact ⟨h.1.change hc, hc.begin ▸ h.2.1, Nat.le_trans h.2.2 hc.head⟩
  case updating address =>
    obtain ⟨hchain, r, hr⟩ := h
    obtain ⟨r', hr', -⟩ := hc.log address r hr
    exact ⟨hc.onChain hchain, r', hr'⟩
  case creating => exact ⟨h.1.change hc, hc.misses h.2⟩
  case filling =>
    obtain ⟨he, hm, r, hf⟩ := h
    exact ⟨he.change hc, hc.misses hm, r, hf.change hc (hcreates _ rfl)⟩
  case publishing =>
    obtain ⟨he, r, hf⟩ := h
    exact ⟨he.change hc, r, hf.change hc (hcreates _ rfl)⟩
  all_goals exact h.elim

theorem Pc.Continues.change (h : pc.Continues L s io) (hc : Change s s' touched)
    (hcreates : ∀ a, pc.creates = some a → some a ≠ touched) : pc.Continues L s' io := by
  cases pc
  case resuming => trivial
  case rechecking => exact ⟨h.1.change hc, hc.follows h.2⟩
  case appending => exact ⟨h.1.change hc, hc.misses h.2⟩
  case swapping =>
    obtain ⟨he, hm, r, hf, hvalue⟩ := h
    refine ⟨he.change hc, hc.misses hm, r, hf.change hc (hcreates _ rfl), ?_⟩
    rw [hc.begin]
    exact hvalue
  all_goals exact h.elim

theorem Knows.change (h : Knows L s job pc) (hs : Sound s) (hc : Change s s' touched)
    (htouched : ∀ a, touched = some a → s.safeReadOnlyAddress ≤ a ∨ Unlinked s a)
    (hcreates : ∀ a, pc.creates = some a → some a ≠ touched) : Knows L s' job pc := by
  match job, h with
  | none, h => exact h
  | some (.call op), h => exact Pc.Calls.change h hc hcreates
  | some (.continuing io), ⟨hio, hr, h⟩ =>
      exact ⟨hio.change hs hc htouched, hr, h.change hc hcreates⟩

end Frame

section Invariant

def Pc.Below (safeReadOnlyAddress safeHeadAddress : Nat) (pc : Pc) : Prop :=
  pc.SafeBelow safeReadOnlyAddress ∧ pc.HeadBelow safeHeadAddress

structure Inv (L : Layout K) (numThreads : Nat) (x : System K) : Prop where
  sound : Sound x.store
  threads : ∀ t, Knows L x.store (x.job t) (x.pc t)
  ios : ∀ t, ∀ io ∈ x.ios t, io.Known L x.store
  exclusive : Exclusive fun t a => (x.pc t).creates = some a
  safe : ∀ t, (x.pc t).SafeBelow x.store.safeReadOnlyAddress
  head : ∀ t, (x.pc t).HeadBelow x.safeHeadAddress
  safeHead : x.safeHeadAddress ≤ x.store.headAddress
  idle : ∀ t, numThreads ≤ t → x.pc t = .idle

theorem Inv.of_touched (h : Inv L numThreads x)
    (htouched : ∀ a, touched = some a → x.pc t = .updating a ∨ (x.pc t).creates = some a)
    (ha : touched = some a) : x.store.safeReadOnlyAddress ≤ a ∨ Unlinked x.store a := by
  rcases htouched a ha with hpc | hcreates
  · have hsafe := h.safe t
    rw [hpc] at hsafe
    exact Or.inl hsafe
  · obtain ⟨r, -, hno⟩ := (h.threads t).fresh hcreates
    exact Or.inr hno

theorem Inv.not_touched (h : Inv L numThreads x)
    (htouched : ∀ a, touched = some a → x.pc t = .updating a ∨ (x.pc t).creates = some a)
    (hu : u ≠ t) (hcreates : (x.pc u).creates = some a) : some a ≠ touched := by
  intro heq
  rcases htouched a heq.symm with hpc | hown
  · obtain ⟨r, -, hno⟩ := (h.threads u).fresh hcreates
    have hknows := h.threads t
    rw [hpc] at hknows
    match hjob : x.job t, hknows with
    | some (.call op), hknows => exact hknows.1.linked hno
    | some (.continuing io), hknows => exact hknows.2.2
  · exact hu (h.exclusive hcreates hown)

theorem Inv.move (h : Inv L numThreads x) (hs : Sound y.store)
    (hc : Change x.store y.store touched)
    (htouched : ∀ a, touched = some a → x.pc t = .updating a ∨ (x.pc t).creates = some a)
    (hsafe : y.store.safeReadOnlyAddress = x.store.safeReadOnlyAddress)
    (hclosed : y.safeHeadAddress = x.safeHeadAddress)
    (hpc : ∀ u, u ≠ t → y.pc u = x.pc u) (hjob : ∀ u, u ≠ t → y.job u = x.job u)
    (hself : Knows L y.store (y.job t) (y.pc t))
    (hios : ∀ u, ∀ io ∈ y.ios u, io ∈ x.ios u ∨ io.Known L y.store)
    (hcreates : ∀ a, (y.pc t).creates = some a →
      (x.pc t).creates = some a ∨ x.store.log a = none)
    (hbelow : (y.pc t).Below y.store.safeReadOnlyAddress y.safeHeadAddress)
    (hidle : t < numThreads ∨ y.pc t = .idle) : Inv L numThreads y where
  sound := hs
  threads := by
    intro u
    by_cases hu : u = t
    · rw [hu]
      exact hself
    · rw [hpc u hu, hjob u hu]
      exact (h.threads u).change h.sound hc (fun _ => h.of_touched htouched)
        fun _ => h.not_touched htouched hu
  ios := by
    intro u io hio
    rcases hios u io hio with hio | hio
    · exact (h.ios u io hio).change h.sound hc fun _ => h.of_touched htouched
    · exact hio
  exclusive := by
    intro o o' a ho ho'
    have hold : ∀ {u : Nat}, u ≠ t → (y.pc u).creates = some a → (x.pc u).creates = some a := by
      intro u hu hy
      rwa [hpc u hu] at hy
    have hclash : ∀ {u : Nat}, u ≠ t → (y.pc u).creates = some a → (y.pc t).creates = some a →
        u = t := by
      intro u hu hy ht
      rcases hcreates a ht with ht | hnone
      · exact h.exclusive (hold hu hy) ht
      · obtain ⟨r, hr, -⟩ := (h.threads u).fresh (hold hu hy)
        rw [hnone] at hr
        cases hr
    by_cases hot : o = t
    · by_cases ho't : o' = t
      · rw [hot, ho't]
      · rw [hot]
        exact (hclash ho't ho' (hot ▸ ho)).symm
    · by_cases ho't : o' = t
      · rw [ho't]
        exact hclash hot ho (ho't ▸ ho')
      · exact h.exclusive (hold hot ho) (hold ho't ho')
  safe := by
    intro u
    by_cases hu : u = t
    · rw [hu]
      exact hbelow.1
    · rw [hpc u hu, hsafe]
      exact h.safe u
  head := by
    intro u
    by_cases hu : u = t
    · rw [hu]
      exact hbelow.2
    · rw [hpc u hu, hclosed]
      exact h.head u
  safeHead := by
    rw [hclosed]
    exact Nat.le_trans h.safeHead hc.head
  idle := by
    intro u hle
    by_cases hu : u = t
    · subst u
      rcases hidle with hlt | hidle
      · omega
      · exact hidle
    · rw [hpc u hu]
      exact h.idle u hle

end Invariant

end HashComp.Disk
