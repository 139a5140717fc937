import HashComp.Allocator.Starts

namespace HashComp.Expansion

open HashComp.Allocator (next_power_of_two le_next_power_of_two)
open HashComp.Allocator.FixedPageAddress (kAddressBits kOffsetBits kPageBits)
open HashComp.Fairness
open HashComp.Runs

def Pc.rank (size : Nat → Nat) : Pc → Nat
  | .idle => 0
  | .adding _ _ => 1
  | .getting _ _ => 2
  | .early _ _ => 3
  | .exchanging _ new_size expected _ => 4 + (new_size - size expected) * (new_size + 2)
  | .copying _ new_size expected _ idx =>
      5 + (new_size - size expected) * (new_size + 2) + (size expected - idx)
  | .drawn addr =>
      4 + (next_power_of_two (page addr + 1) + 1) * (next_power_of_two (page addr + 1) + 2)

namespace System

variable {τ : Type*}

def Active (s : System τ) (t : τ) : Prop :=
  s.pc t ≠ .idle

def rank (s : System τ) (t : τ) : Nat :=
  (s.pc t).rank fun a => (s.arrays a).size

def Waits (s : System τ) : Pc → Prop
  | .copying _ _ expected _ idx =>
      idx < (s.arrays expected).size ∧ (s.arrays expected).pages idx = none
  | _ => False

variable {s u : System τ} {t : τ} {base addr new_size expected new_array idx k : Nat} {c : Pc}

theorem rank_of_extends (h : s.Sound base) (hext : Extends s u) (hpc : u.pc t = s.pc t) :
    u.rank t = s.rank t := by
  have hfits := h.threads.fits t
  rw [rank, rank, hpc]
  cases hc : s.pc t with
  | copying addr new_size expected new_array idx =>
      rw [hc] at hfits
      have hcopies : s.Copies addr new_size expected new_array idx := hfits
      simp only [Pc.rank, hext.sizes expected (h.arrays.known _ hcopies.old)]
  | exchanging addr new_size expected new_array =>
      rw [hc] at hfits
      have hcopies : s.Copies addr new_size expected new_array (s.arrays expected).size := hfits
      simp only [Pc.rank, hext.sizes expected (h.arrays.known _ hcopies.old)]
  | _ => rfl

theorem not_waits_of_extends (h : s.Sound base) (hext : Extends s u)
    (hwaits : ¬s.Waits (s.pc t)) : ¬u.Waits (s.pc t) := by
  have hfits := h.threads.fits t
  cases hc : s.pc t with
  | copying addr new_size expected new_array idx =>
      rw [hc] at hfits hwaits
      have hcopies : s.Copies addr new_size expected new_array idx := hfits
      have hknown := h.arrays.known _ hcopies.old
      intro hu
      rw [Waits, hext.sizes _ hknown] at hu
      refine hwaits ⟨hu.1, ?_⟩
      cases hp : (s.arrays expected).pages idx with
      | none => rfl
      | some p =>
          have hpage := hext.pages _ hknown idx p hp
          rw [hu.2] at hpage
          cases hpage
  | _ => exact fun hu => hu

theorem rank_retry {new_size size size' : Nat} (hgrows : size < size') (hlt : size' < new_size) :
    5 + (new_size - size') * (new_size + 2) + (size' - 0) <
      4 + (new_size - size) * (new_size + 2) := by
  have hle : (new_size - size' + 1) * (new_size + 2) ≤ (new_size - size) * (new_size + 2) :=
    Nat.mul_le_mul_right _ (by omega)
  rw [Nat.add_mul] at hle
  omega

variable [DecidableEq τ]

theorem rank_goto (x : System τ) (pc : Pc) :
    (x.goto t pc).rank t = pc.rank fun a => (x.arrays a).size := by
  rw [rank, pc_goto]
  rfl

theorem rank_of_proceed (h : s.Sound base) (hwaits : ¬s.Waits (s.pc t))
    (haddr : (s.pc t).addr = some addr) (hstep : s.proceed t = some u) :
    addr ∈ u.returned ∧ u.pc t = .idle ∨ (u.pc t).addr = some addr ∧ u.rank t < s.rank t := by
  have hfits := h.threads.fits t
  simp only [System.proceed] at hstep
  cases hc : s.pc t with
  | idle =>
      rw [hc] at hstep
      cases hstep
  | drawn a =>
      rw [hc] at hstep haddr
      obtain rfl := Option.some.inj haddr
      obtain rfl := Option.some.inj hstep
      have hrank : s.rank t = 4 + (next_power_of_two (page a + 1) + 1) *
          (next_power_of_two (page a + 1) + 2) := by
        rw [rank, hc]
        rfl
      right
      rw [hrank, System.load]
      split
      · rename_i hge
        refine ⟨congrArg Pc.addr pc_goto, ?_⟩
        rw [System.Create, rank_goto]
        have hle := le_next_power_of_two (page a + 1)
        have hsize := congrArg FixedPageArray.size (arrays_withArray
          { size := next_power_of_two (page a + 1), pages := fun _ => none } h.arrays
          h.arrays.present)
        simp only [Pc.rank, hsize]
        have hmul : (next_power_of_two (page a + 1) - (s.arrays s.page_array_).size + 1) *
            (next_power_of_two (page a + 1) + 2) ≤
              (next_power_of_two (page a + 1) + 1) * (next_power_of_two (page a + 1) + 2) :=
          Nat.mul_le_mul_right _ (by omega)
        rw [Nat.add_mul] at hmul
        omega
      · refine ⟨congrArg Pc.addr pc_goto, ?_⟩
        rw [rank_goto]
        simp only [Pc.rank]
        omega
  | copying a new_size expected new_array idx =>
      rw [hc] at hstep haddr hwaits hfits
      obtain rfl := Option.some.inj haddr
      obtain rfl := Option.some.inj hstep
      have hrank : s.rank t = 5 + (new_size - (s.arrays expected).size) * (new_size + 2) +
          ((s.arrays expected).size - idx) := by
        rw [rank, hc]
        rfl
      right
      rw [hrank, System.copy]
      split
      · rename_i hlt
        cases hp : (s.arrays expected).pages idx with
        | none => exact absurd ⟨hlt, hp⟩ hwaits
        | some p =>
            refine ⟨congrArg Pc.addr pc_goto, ?_⟩
            dsimp only
            rw [rank_goto]
            simp only [Pc.rank, size_copyPage]
            omega
      · refine ⟨congrArg Pc.addr pc_goto, ?_⟩
        rw [rank_goto]
        simp only [Pc.rank]
        omega
  | exchanging a new_size expected new_array =>
      rw [hc] at hstep haddr hfits
      obtain rfl := Option.some.inj haddr
      obtain rfl := Option.some.inj hstep
      have hcopies : s.Copies a new_size expected new_array (s.arrays expected).size := hfits
      have hrank : s.rank t = 4 + (new_size - (s.arrays expected).size) * (new_size + 2) := by
        rw [rank, hc]
        rfl
      right
      rw [hrank, System.exchange]
      split
      · refine ⟨congrArg Pc.addr pc_goto, ?_⟩
        rw [rank_goto]
        simp only [Pc.rank]
        omega
      · rename_i hne
        split
        · rename_i hlt
          refine ⟨congrArg Pc.addr pc_goto, ?_⟩
          rw [System.Create, rank_goto]
          have hsize := congrArg FixedPageArray.size (arrays_withArray
            { size := new_size, pages := fun _ => none } h.arrays h.arrays.present)
          simp only [Pc.rank, hsize]
          exact rank_retry (h.arrays.replaced _ hcopies.old (Ne.symm hne)).2 hlt
        · refine ⟨congrArg Pc.addr pc_goto, ?_⟩
          rw [rank_goto]
          simp only [Pc.rank]
          omega
  | early a page_array =>
      rw [hc] at hstep haddr
      obtain rfl := Option.some.inj haddr
      obtain rfl := Option.some.inj hstep
      have hrank : s.rank t = 3 := by
        rw [rank, hc]
        rfl
      right
      rw [hrank, System.addEarly]
      split <;>
        exact ⟨congrArg Pc.addr pc_goto, (rank_goto _ _).trans_lt (Nat.lt_succ_self 2)⟩
  | getting a page_array =>
      rw [hc] at hstep haddr
      obtain rfl := Option.some.inj haddr
      obtain rfl := Option.some.inj hstep
      have hrank : s.rank t = 2 := by
        rw [rank, hc]
        rfl
      rw [hrank, System.get]
      cases hp : (s.arrays page_array).pages (page a) with
      | some p => exact Or.inl ⟨List.mem_cons_self, pc_goto⟩
      | none =>
          exact Or.inr ⟨congrArg Pc.addr pc_goto, (rank_goto _ _).trans_lt (Nat.lt_succ_self 1)⟩
  | adding a page_array =>
      rw [hc] at hstep haddr
      obtain rfl := Option.some.inj haddr
      obtain rfl := Option.some.inj hstep
      exact Or.inl ⟨List.mem_cons_self, pc_goto⟩

theorem pc_of_other {a : Action τ} (hnext : s.next a = some u) (hne : a.thread ≠ t) :
    u.pc t = s.pc t := by
  have hgoto : ∀ (x : System τ) v pc, v ≠ t → (x.goto v pc).pc t = x.pc t :=
    fun x v pc hv => pc_goto_of_ne hv.symm
  cases a with
  | Allocate v safe =>
      simp only [System.next] at hnext
      split at hnext
      · obtain rfl := Option.some.inj hnext
        rw [System.Allocate]
        split
        · rfl
        · exact hgoto _ _ _ hne
      · cases hnext
  | FreeAtEpoch v addr =>
      simp only [System.next] at hnext
      split at hnext
      · obtain rfl := Option.some.inj hnext
        rfl
      · cases hnext
  | proceed v =>
      simp only [System.next, System.proceed] at hnext
      split at hnext
      · cases hnext
      · obtain rfl := Option.some.inj hnext
        rw [System.load]
        split <;> exact hgoto _ _ _ hne
      · obtain rfl := Option.some.inj hnext
        rw [System.copy]
        split
        · split
          · rfl
          · exact hgoto _ _ _ hne
        · exact hgoto _ _ _ hne
      · obtain rfl := Option.some.inj hnext
        rw [System.exchange]
        split
        · exact hgoto _ _ _ hne
        · split <;> exact hgoto _ _ _ hne
      · obtain rfl := Option.some.inj hnext
        rw [System.addEarly]
        split
        · exact (hgoto _ _ _ hne).trans (congrFun (addPage_frame _ _ _).1 t)
        · exact hgoto _ _ _ hne
      · obtain rfl := Option.some.inj hnext
        rw [System.get]
        split <;> exact hgoto _ _ _ hne
      · obtain rfl := Option.some.inj hnext
        exact (hgoto _ _ _ hne).trans (congrFun (addPage_frame _ _ _).1 t)

theorem proceed_of_own {a : Action τ} (hactive : s.Active t) (hnext : s.next a = some u)
    (hown : a.thread = t) : s.proceed t = some u := by
  subst hown
  cases a with
  | Allocate v safe =>
      simp only [System.next] at hnext
      split at hnext
      · rename_i hidle
        exact absurd hidle hactive
      · cases hnext
  | FreeAtEpoch v addr =>
      simp only [System.next] at hnext
      split at hnext
      · rename_i hidle
        exact absurd hidle hactive
      · cases hnext
  | proceed v => exact hnext

theorem page_eq {a : Nat} (h : a < 2 ^ kAddressBits) : page a = a / 2 ^ kOffsetBits := by
  apply Nat.mod_eq_of_lt
  simp only [kAddressBits, kOffsetBits, kPageBits] at h ⊢
  omega

/-- The first address on the page `i` that the count comes by, before an address on a later
page. -/
theorem exists_first {i a : Nat} (hbase : page base ≤ i) (hle : base ≤ a) (hlt : i < page a)
    (ha : a < 2 ^ kAddressBits) : ∃ b, page b = i ∧ base ≤ b ∧ b < a := by
  have hpos : 0 < 2 ^ kOffsetBits := Nat.two_pow_pos _
  have hltBase : base < a := by
    apply lt_of_le_of_ne hle
    rintro rfl
    exact absurd hlt (Nat.not_lt.mpr hbase)
  have hmul : i * 2 ^ kOffsetBits < a := by
    rw [page_eq ha] at hlt
    have hsucc := (Nat.le_div_iff_mul_le hpos).mp (Nat.succ_le_of_lt hlt)
    exact (Nat.mul_lt_mul_of_pos_right (Nat.lt_succ_self i) hpos).trans_le hsucc
  rcases Nat.le_total (i * 2 ^ kOffsetBits) base with hi | hi
  · refine ⟨base, le_antisymm hbase ?_, le_rfl, hltBase⟩
    rw [page_eq (hltBase.trans ha)]
    exact (Nat.le_div_iff_mul_le hpos).mpr hi
  · refine ⟨i * 2 ^ kOffsetBits, ?_, hi, hmul⟩
    rw [page_eq (hmul.trans ha)]
    exact Nat.mul_div_cancel i hpos

omit [DecidableEq τ] in
/-- The sizes are powers of two, and the constructor copies an array that has no room for the
page that is wanted. -/
theorem lt_page_of_copies (h : s.Arrays) (hcopies : s.Copies addr new_size expected new_array idx)
    (hlt : idx < (s.arrays expected).size) : idx < page addr := by
  obtain ⟨k, hk⟩ := h.powers expected hcopies.old
  have hgrows := hcopies.grows
  rw [hcopies.size, next_power_of_two, hk] at hgrows
  rw [hk] at hlt
  split at hgrows
  · have hpos := Nat.one_le_two_pow (n := k)
    omega
  · rename_i hne
    have hlog := (Nat.pow_lt_pow_iff_right (Nat.one_lt_two)).mp hgrows
    have hself := Nat.log2_self_le hne
    have hpow := Nat.pow_le_pow_right Nat.two_pos (Nat.le_of_lt_succ hlog)
    simp only [Nat.add_sub_cancel] at hself hpow
    omega

section Paths

variable {path : Path (System.next (τ := τ)) System.Addressable}

theorem sound_at (hstart : (path.state 0).Sound base) (n : Nat) : (path.state n).Sound base :=
  (hstart.reaches (path.reaches (Nat.zero_le n))).1

theorem extends_at (hstart : (path.state 0).Sound base) {n m : Nat} (h : n ≤ m) :
    Extends (path.state n) (path.state m) :=
  ((sound_at hstart n).reaches (path.reaches h)).2

/-- The page that the constructor waits for comes, when the calls on earlier pages end. -/
theorem leadsTo_not_waits (hstart : (path.state 0).Sound base)
    (hinstalled : ∀ i < page base, ∃ p, (i, p) ∈ (path.state 0).added)
    (haddr : c.addr = some addr)
    (hbefore : ∀ b v, page b < page addr →
      LeadsTo path (fun s => (s.pc v).addr = some b) (fun s => b ∈ s.returned)) :
    LeadsTo path (fun s => s.pc t = c) (fun s => ¬s.Waits c) := by
  intro n hpc
  rcases Classical.em ((path.state n).Waits c) with hwaits | hwaits
  · cases c with
    | copying a new_size expected new_array idx =>
        obtain rfl := Option.some.inj haddr
        have hsound := sound_at hstart n
        have hcopies : (path.state n).Copies a new_size expected new_array idx := by
          have hfits := hsound.threads.fits t
          rw [hpc] at hfits
          exact hfits
        have hlt := lt_page_of_copies hsound.arrays hcopies hwaits.1
        -- once the page has been added it is in the old array
        have hthere : ∀ m, n ≤ m → (∃ p, (idx, p) ∈ (path.state m).added) →
            ¬(path.state m).Waits (.copying a new_size expected new_array idx) := by
          rintro m hnm ⟨p, hp⟩ ⟨hroom, hnone⟩
          have hpub := (extends_at hstart hnm).published _ hcopies.old
          rw [(sound_at hstart m).arrays.pages_of_added hp hpub hroom] at hnone
          cases hnone
        rcases Nat.lt_or_ge idx (page base) with hbase | hbase
        · obtain ⟨p, hp⟩ := hinstalled idx hbase
          exact ⟨n, le_rfl, hthere n le_rfl ⟨p, (extends_at hstart (Nat.zero_le n)).added _ hp⟩⟩
        · obtain ⟨hle, hcount, _⟩ := hsound.accounts.carried t a (by rw [hpc]; rfl)
          have hbits := hcount.trans_le hsound.accounts.bits
          obtain ⟨b, rfl, hbaseb, hba⟩ := exists_first hbase hle hlt hbits
          obtain hret | ⟨v, hv⟩ := hsound.accounts.all b hbaseb (hba.trans hcount)
          · exact ⟨n, le_rfl, hthere n le_rfl (hsound.accounts.placed b hret)⟩
          · obtain ⟨m, hnm, hret⟩ := hbefore b v hlt n hv
            exact ⟨m, hnm, hthere m hnm ((sound_at hstart m).accounts.placed b hret)⟩
    | _ => exact absurd hwaits id
  · exact ⟨n, le_rfl, hwaits⟩

variable (hfair : Fair Action.thread System.Active path)
include hfair

/-- A thread whose page of the old array comes takes a step that it does not wait in. -/
theorem leadsTo_proceeded (hstart : (path.state 0).Sound base) (hc : c ≠ .idle)
    (hcomes : LeadsTo path (fun s => s.pc t = c) (fun s => ¬s.Waits c)) (k : Nat) :
    LeadsTo path (fun s => s.pc t = c ∧ s.rank t = k)
      (fun u => ∃ s : System τ, s.Sound base ∧ s.pc t = c ∧ s.rank t = k ∧ ¬s.Waits c ∧
        s.proceed t = some u) := by
  have hactive : ∀ s : System τ, s.pc t = c → s.Active t := by
    intro s hpc hidle
    exact hc (hpc.symm.trans hidle)
  apply leadsTo_of_await (R := fun s => ¬s.Waits c) hfair (sound_at hstart)
    (fun s h => hactive s h.1) (fun n h => hcomes n h.1)
  · rintro s a u hsound ⟨hpc, _⟩ hwaits hok hnext _
    rw [← hpc] at hwaits ⊢
    exact not_waits_of_extends hsound (hsound.next hok hnext).2 hwaits
  · rintro s a u hsound ⟨hpc, hrank⟩ hok hnext hother
    have hkept := pc_of_other hnext hother
    exact ⟨hkept.trans hpc, (rank_of_extends hsound (hsound.next hok hnext).2 hkept).trans hrank⟩
  · rintro s a u hsound ⟨hpc, hrank⟩ hok hnext hown
    have hstep := proceed_of_own (hactive s hpc) hnext hown
    rcases Classical.em (s.Waits c) with hwaits | hwaits
    · refine Or.inr ⟨?_, not_not_intro hwaits⟩
      cases c with
      | copying addr new_size expected new_array idx =>
          simp only [System.proceed, hpc, System.copy, if_pos hwaits.1, hwaits.2] at hstep
          rw [← Option.some.inj hstep]
          exact ⟨hpc, hrank⟩
      | _ => exact absurd hwaits id
    · exact Or.inl ⟨s, hsound, hpc, hrank, hwaits, hstep⟩

theorem leadsTo_returned (hstart : (path.state 0).Sound base)
    (hinstalled : ∀ i < page base, ∃ p, (i, p) ∈ (path.state 0).added) (addr : Nat) (t : τ) :
    LeadsTo path (fun s => (s.pc t).addr = some addr)
      (fun s => addr ∈ s.returned ∧ s.pc t = .idle) := by
  induction hp : page addr using Nat.strongRecOn generalizing addr t with
  | ind p ih =>
      apply leadsTo_of_rank fun s => s.rank t
      rintro k n ⟨haddr, hrank⟩
      have hbefore : ∀ b v, page b < page addr →
          LeadsTo path (fun s => (s.pc v).addr = some b) (fun s => b ∈ s.returned) :=
        fun b v hlt => (ih (page b) (hp ▸ hlt) b v rfl).mono fun _ h => h.1
      have hcomes := leadsTo_not_waits (t := t) hstart hinstalled haddr hbefore
      have hcall : (path.state n).pc t ≠ .idle := by
        intro hidle
        rw [hidle] at haddr
        cases haddr
      obtain ⟨m, hnm, s, hsound, hpc, hrank, hwaits, hstep⟩ :=
        leadsTo_proceeded hfair hstart hcall hcomes k n ⟨rfl, hrank⟩
      refine ⟨m, hnm, ?_⟩
      rw [← hpc] at hwaits haddr
      rw [← hrank]
      exact rank_of_proceed hsound hwaits haddr hstep

theorem leadsTo_exchanging (hstart : (path.state 0).Sound base)
    (hinstalled : ∀ i < page base, ∃ p, (i, p) ∈ (path.state 0).added)
    (t : τ) (addr new_size expected new_array idx : Nat) :
    LeadsTo path (fun s => s.pc t = .copying addr new_size expected new_array idx)
      (fun s => s.pc t = .exchanging addr new_size expected new_array) := by
  have hloop : LeadsTo path
      (fun s => ∃ i, s.pc t = .copying addr new_size expected new_array i)
      (fun s => s.pc t = .exchanging addr new_size expected new_array) := by
    apply leadsTo_of_rank fun s => s.rank t
    rintro k n ⟨⟨i, hc⟩, hrank⟩
    have hcomes := leadsTo_not_waits (t := t) hstart hinstalled (c := .copying addr new_size
      expected new_array i) rfl fun b v _ =>
        (leadsTo_returned hfair hstart hinstalled b v).mono fun _ h => h.1
    obtain ⟨m, hnm, s, hsound, hpc, hrank, hwaits, hstep⟩ :=
      leadsTo_proceeded hfair hstart Pc.noConfusion hcomes k n ⟨hc, hrank⟩
    refine ⟨m, hnm, ?_⟩
    have hturn := rank_of_proceed hsound (hpc.symm ▸ hwaits) (congrArg Pc.addr hpc) hstep
    simp only [System.proceed, hpc, System.copy] at hstep
    split at hstep
    · rename_i hlt
      split at hstep
      · rename_i hnone
        exact absurd ⟨hlt, hnone⟩ hwaits
      · rw [← Option.some.inj hstep] at hturn ⊢
        refine Or.inr ⟨⟨i + 1, pc_goto⟩, ?_⟩
        obtain ⟨_, hidle⟩ | ⟨_, hsmaller⟩ := hturn
        · rw [pc_goto] at hidle
          cases hidle
        · exact hsmaller.trans_eq hrank
    · rw [← Option.some.inj hstep]
      exact Or.inl pc_goto
  exact fun n h => hloop n ⟨idx, h⟩

end Paths

/-- The addresses that calls have returned are places of their own, each on the page that was
added for its index. -/
structure Placed (s : System τ) : Prop where
  distinct : s.returned.Nodup
  there : ∀ a ∈ s.returned, (s.Get a).isSome
  apart : ∀ a ∈ s.returned, ∀ b ∈ s.returned, s.Get a = s.Get b → a = b
  once : (s.added.map Prod.fst).Nodup

/-- What an address denotes it still denotes. -/
def Keeps (s u : System τ) : Prop :=
  ∀ a item, s.Get a = some item → u.Get a = some item

omit [DecidableEq τ] in
theorem get_of_added (h : s.Arrays) {a p : Nat} (hp : (page a, p) ∈ s.added) :
    s.Get a = some (p, offset a) := by
  rw [Get, (h.inPlace _ hp).2, Option.map_some]

omit [DecidableEq τ] in
theorem Sound.placed (h : s.Sound base) : s.Placed := by
  refine ⟨h.accounts.once, fun a ha => ?_, fun a ha b hb heq => ?_, h.arrays.once⟩
  · obtain ⟨p, hp⟩ := h.accounts.placed a ha
    rw [get_of_added h.arrays hp, Option.isSome_some]
  · obtain ⟨p, hp⟩ := h.accounts.placed a ha
    obtain ⟨q, hq⟩ := h.accounts.placed b hb
    rw [get_of_added h.arrays hp, get_of_added h.arrays hq] at heq
    obtain ⟨rfl, hoffset⟩ := Prod.mk.inj (Option.some.inj heq)
    have hpage : page a = page b :=
      congrArg Prod.fst (List.inj_on_of_nodup_map h.arrays.apart hp hq rfl)
    have haddr : ∀ c ∈ s.returned, c / 2 ^ kOffsetBits = page c := fun c hc =>
      (page_eq ((h.accounts.passed c hc).trans_le h.accounts.bits)).symm
    rw [← Nat.div_add_mod a (2 ^ kOffsetBits), ← Nat.div_add_mod b (2 ^ kOffsetBits),
      haddr a ha, haddr b hb, hpage]
    exact congrArg _ hoffset

omit [DecidableEq τ] in
theorem keeps_of_extends (h : s.Arrays) (hext : Extends s u) (hu : u.Arrays) : s.Keeps u := by
  intro a item hget
  obtain ⟨p, hp, rfl⟩ := Option.map_eq_some_iff.mp hget
  have hadded := h.fromAdded _ (h.known _ h.present) _ p hp
  exact get_of_added hu (hext.added _ hadded)

theorem placed_of_reaches {recovery : Option Recovery} (hstart : Starts recovery s)
    (h : Reaches System.next System.Addressable s u) : u.Placed :=
  ((starts_spec hstart).1.reaches h).1.placed

theorem keeps_of_reaches {recovery : Option Recovery} {v : System τ} (hstart : Starts recovery s)
    (h : Reaches System.next System.Addressable s u)
    (h' : Reaches System.next System.Addressable u v) : u.Keeps v := by
  obtain ⟨hsoundu, _⟩ := (starts_spec hstart).1.reaches h
  obtain ⟨hsoundv, hext⟩ := hsoundu.reaches h'
  exact keeps_of_extends hsoundu.arrays hext hsoundv.arrays

section Endings

variable {recovery : Option Recovery} {path : Path (System.next (τ := τ)) System.Addressable}

theorem added_of_starts (hstart : Starts recovery s) (hgap : Contiguous recovery) :
    ∀ i < page s.count_, ∃ p, (i, p) ∈ s.added := by
  obtain ⟨_, _, hpage, hinstalled⟩ := starts_spec hstart
  exact fun i hi => hinstalled i (hi.trans_le (hpage hgap))

/-- Where recovery leaves out no page before the count's, the constructor's loop ends. -/
theorem copying_ends (hstart : Starts recovery (path.state 0)) (hgap : Contiguous recovery)
    (hfair : Fair Action.thread System.Active path) (t : τ)
    (addr new_size expected new_array idx : Nat) :
    LeadsTo path (fun u => u.pc t = .copying addr new_size expected new_array idx)
      (fun u => u.pc t = .exchanging addr new_size expected new_array) :=
  leadsTo_exchanging hfair (starts_spec hstart).1 (added_of_starts hstart hgap) t addr new_size
    expected new_array idx

theorem call_returns (hstart : Starts recovery (path.state 0)) (hgap : Contiguous recovery)
    (hfair : Fair Action.thread System.Active path) (t : τ) :
    LeadsTo path (fun u => u.Active t) (fun u => u.pc t = .idle) := by
  intro n hactive
  obtain ⟨addr, haddr⟩ : ∃ addr, ((path.state n).pc t).addr = some addr := by
    cases hpc : (path.state n).pc t with
    | idle => exact absurd hpc hactive
    | _ => exact ⟨_, rfl⟩
  obtain ⟨m, hnm, _, hidle⟩ :=
    leadsTo_returned hfair (starts_spec hstart).1 (added_of_starts hstart hgap) addr t n haddr
  exact ⟨m, hnm, hidle⟩

end Endings

end System

end HashComp.Expansion
