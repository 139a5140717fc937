import HashComp.Concurrent.Frame
import HashComp.Concurrent.Insertion
import Mathlib.Data.Finset.Card
import Mathlib.Data.Finset.Image

namespace HashComp.Concurrent

open HashComp.HashTrie
open HashComp.LevelHash
open HashComp.Operations
open HashComp.Runs
open HashComp.SlotTrie
open HashComp.Threads

section Removal

variable {K T : Type*} {L : Layout K} {D n a tid : Nat} {t t' t₀ : Table K T} {key : K}
  {mapped : T} {op : Op K T} {nodes : Finset Nat}

def Succeeds (L : Layout K) (tid : Nat) (t : Table K T) (key : K) : Prop :=
  ∃ u k mapped, Returns L tid t (.get key) u (.pair k mapped)

def SizeExact (L : Layout K) (tid : Nat) (t : Table K T) : Prop :=
  ∃ keys : Finset K, (∀ key, key ∈ keys ↔ Succeeds L tid t key) ∧
    t.size = BitVec.ofNat 64 keys.card

/-- What a call must do: the counter is exact afterwards, and a removal returns
true exactly if its key was present, and leaves it absent. -/
def Accounts (L : Layout K) (tid : Nat) (t : Table K T) (op : Op K T) (r : Result K T)
    (t' : Table K T) : Prop :=
  SizeExact L tid t' ∧ ∀ key, op = .mutate (.remove key) →
    (r = .bool true ↔ Succeeds L tid t key) ∧ ¬ Succeeds L tid t' key

/-- The counter is exact at the start, and every call of the sequence does what it
must. -/
def RemovalAccounted (L : Layout K) (tid : Nat) (t₀ : Table K T) (ops : List (Op K T)) : Prop :=
  SizeExact L tid t₀ ∧ (program L).Achieves tid (Accounts L tid) t₀ ops

/-- The call is a removal whose walk ends at a data node, or an insertion whose key
is outrun. -/
def Miscounts (L : Layout K) (t : Table K T) : Op K T → Prop
  | .mutate (.remove key) => ∃ n a, t.slots (L.keyPath key (n + 1)) = .data a
  | .mutate (.insert key _) => Outruns L t key
  | _ => False

theorem succeeds_iff (h : Sound L D t) (tid : Nat) (key : K) :
    Succeeds L tid t key ↔ ∃ a, t.Holds L key a := by
  constructor
  · rintro ⟨u, k, mapped, hret⟩
    obtain ⟨a, ha, -⟩ := (get_iff_spec h tid key _).mp ⟨u, hret⟩
    exact ⟨a, ha⟩
  · rintro ⟨a, ha⟩
    have hspec : t.GetSpec L key (.pair (t.heap a).key (t.heap a).mapped) := by
      refine ⟨a, ha, ?_⟩
      rw [← ha.2]
    obtain ⟨u, hret⟩ := (get_iff_spec h tid key _).mpr hspec
    exact ⟨u, _, _, hret⟩

theorem succeeds_iff_result {u : Table K T} {r : Result K T}
    (hret : Returns L tid t (.get key) u r) :
    Succeeds L tid t key ↔ ∃ k mapped, r = .pair k mapped := by
  constructor
  · rintro ⟨v, k, mapped, hpair⟩
    exact ⟨k, mapped, (hret.unique hpair).2⟩
  · rintro ⟨k, mapped, rfl⟩
    exact ⟨u, k, mapped, hret⟩

theorem sizeExact_iff (h : Sound L D t)
    (hinj : Function.Injective L.hasher) (tid : Nat)
    (hnodes : ∀ a, a ∈ nodes ↔ t.Linked a) :
    SizeExact L tid t ↔ t.size = BitVec.ofNat 64 nodes.card := by
  classical
  let keys := nodes.image fun a => (t.heap a).key
  have hcard : keys.card = nodes.card := by
    refine Finset.card_image_of_injOn ?_
    intro a ha b hb hab
    obtain ⟨p, hp⟩ := (hnodes a).mp ha
    obtain ⟨q, hq⟩ := (hnodes b).mp hb
    refine (h.slot_unique hp hq ?_).2
    rw [h.hashed p a hp, h.hashed q b hq]
    exact congrArg L.hasher hab
  have hkeys : ∀ key, key ∈ keys ↔ Succeeds L tid t key := by
    intro key
    rw [succeeds_iff h, Finset.mem_image]
    constructor
    · rintro ⟨a, ha, rfl⟩
      obtain ⟨p, hp⟩ := (hnodes a).mp ha
      exact ⟨a, ⟨p, hp⟩, h.hashed p a hp⟩
    · rintro ⟨a, ⟨p, hp⟩, hhash⟩
      exact ⟨a, (hnodes a).mpr ⟨p, hp⟩, hinj ((h.hashed p a hp).symm.trans hhash)⟩
  constructor
  · rintro ⟨keys', hkeys', hsize⟩
    have heq : keys' = keys := by
      ext key
      rw [hkeys', hkeys]
    rw [hsize, heq, hcard]
  · intro hsize
    exact ⟨keys, hkeys, by rw [hcard, hsize]⟩

structure Counted (L : Layout K) (D : Nat) (t : Table K T) : Prop where
  sound : Sound L D t
  exact : ∃ nodes : Finset Nat, (∀ a, a ∈ nodes ↔ t.Linked a) ∧
    t.size = BitVec.ofNat 64 nodes.card

theorem Counted.sizeExact (h : Counted L D t) (hinj : Function.Injective L.hasher)
    (tid : Nat) : SizeExact L tid t := by
  obtain ⟨nodes, hnodes, hsize⟩ := h.exact
  exact (sizeExact_iff h.sound hinj tid hnodes).mpr hsize

theorem Constructs.counted {keySize : Nat} (hnew : Constructs L keySize t)
    (hlv : L.Levels t.maxLevel D) : Counted L D t := by
  refine ⟨hnew.sound hlv, ∅, ?_⟩
  obtain ⟨garbage, fuel, hnew⟩ := hnew
  obtain ⟨level, -, rfl⟩ := Option.map_eq_some_iff.mp hnew
  refine ⟨?_, rfl⟩
  intro a
  refine iff_of_false (Finset.notMem_empty a) ?_
  rintro ⟨p, hp⟩
  exact Trie.empty_slots_ne garbage p a hp

theorem Counted.inserted (h : Counted L D t) (h' : Sound L D t')
    (hins : Inserted L t t' key mapped) : Counted L D t' := by
  obtain ⟨nodes, hnodes, hsize⟩ := h.exact
  have hfresh : t.fresh ∉ nodes := by
    intro hmem
    obtain ⟨p, hp⟩ := (hnodes _).mp hmem
    exact Nat.lt_irrefl _ (h.sound.allocated p _ hp)
  refine ⟨h', insert t.fresh nodes, ?_, ?_⟩
  · intro a
    rw [Finset.mem_insert, hins.linked, hnodes]
  · rw [Finset.card_insert_of_notMem hfresh, hins.size, hsize, BitVec.ofNat_add]
    rfl

theorem Counted.updated (h : Counted L D t)
    (hslot : t.slots (L.keyPath key (n + 1)) = .data a) (mapped : T) :
    Counted L D (updated L t key mapped (L.keyPath key (n + 1))) := by
  obtain ⟨nodes, hnodes, hsize⟩ := h.exact
  have hfresh : t.fresh ∉ nodes.erase a := by
    intro hmem
    obtain ⟨p, hp⟩ := (hnodes _).mp (Finset.mem_of_mem_erase hmem)
    exact Nat.lt_irrefl _ (h.sound.allocated p _ hp)
  have hmem : a ∈ nodes := (hnodes a).mpr ⟨_, hslot⟩
  refine ⟨h.sound.swap hslot mapped, insert t.fresh (nodes.erase a), ?_, ?_⟩
  · intro b
    rw [Finset.mem_insert, Finset.mem_erase, updated_linked h.sound hslot, hnodes, and_comm]
  · rw [Finset.card_insert_of_notMem hfresh, Finset.card_erase_add_one hmem]
    exact hsize

theorem Counted.regrown (h : Counted L D t) (h' : Sound L D t') (hgrown : Regrown t t') :
    Counted L D t' := by
  obtain ⟨nodes, hnodes, hsize⟩ := h.exact
  refine ⟨h', nodes, fun a => ?_, hgrown.size.trans hsize⟩
  rw [hgrown.linked, hnodes]

theorem Counted.not_sizeExact (h : Counted L D t) (hinj : Function.Injective L.hasher)
    (tid : Nat) (hslot : t.slots (L.keyPath key (n + 1)) = .data a) :
    ¬ SizeExact L tid (setSlot t (L.keyPath key (n + 1)) .null) := by
  obtain ⟨nodes, hnodes, hsize⟩ := h.exact
  have h' : Sound L D (setSlot t (L.keyPath key (n + 1)) .null) :=
    h.sound.setSlot (h.sound.unlink (L.keyPath_succ key n) hslot) (by simp)
  have hmem : a ∈ nodes := (hnodes a).mpr ⟨_, hslot⟩
  have herase : ∀ b, b ∈ nodes.erase a ↔
      (setSlot t (L.keyPath key (n + 1)) .null).Linked b := by
    intro b
    have hswap := h.sound.linked_swap hslot .null b
    rw [Finset.mem_erase, hnodes, and_comm]
    exact (hswap.trans (or_iff_right (by simp))).symm
  rw [sizeExact_iff h' hinj tid herase]
  change t.size ≠ _
  rw [hsize, ← Finset.card_erase_add_one hmem, BitVec.ofNat_add]
  intro heq
  simp at heq

/-- Below the last level a node is lost, and a search for it takes an array for a
node. -/
theorem succeeds_overfull (h : Sound L D t) (hinj : Function.Injective L.hasher)
    (hlast : D + 1 = t.maxLevel) (hslot : t.slots (L.keyPath key (D + 1)) = .data a)
    (tid : Nat) (k : K) :
    Succeeds L tid (overfull L D t key a) k ↔ Succeeds L tid t k ∧ k ≠ (t.heap a).key := by
  obtain ⟨n, hend⟩ := h.exists_endsAt k
  have hn : n ≤ D := h.le_of_array (hend.arrays n (Nat.le_refl n))
  have hlv : L.Levels (overfull L D t key a).maxLevel D := h.levels
  have hlost : (t.heap a).key = k ↔ t.Holds L k a := by
    constructor
    · rintro rfl
      exact ⟨⟨_, hslot⟩, h.hashed _ a hslot⟩
    · exact fun ha => hinj ((h.hashed _ a hslot).symm.trans ha.2)
  have hkept {q : Path} (hq : q ≠ L.keyPath key (D + 1)) (hlen : q.length ≤ D + 1) :
      (overfull L D t key a).slots q = t.slots q :=
    publish_of_length_le hq (by simpa using hlen)
  have harrays : ∀ i ≤ n, (overfull L D t key a).slots (L.keyPath k i) = .array := by
    intro i hi
    rw [hkept _ (by simp; omega)]
    · exact hend.arrays i hi
    · intro heq
      have := hend.arrays i hi
      rw [heq, hslot] at this
      cases this
  by_cases hq : L.keyPath k (n + 1) = L.keyPath key (D + 1)
  · -- the search goes through the new array and leaves the last level
    obtain rfl : n = D := by simpa using congrArg List.length hq
    refine iff_of_false ?_ ?_
    · obtain ⟨loc, currArr, hat, hleads⟩ := leads_getLevel hlv tid hn harrays
      have harr : (overfull L n t key a).slots (L.keyPath k (n + 1)) = .array := by
        rw [hq]
        exact publish_self
      have hnext := hleads.step
      rw [soloStep_eq, step_getLevel hlv hn loc hat, harr] at hnext
      have hfault := hnext.step
      have hfull : ¬ n + 1 < (overfull L n t key a).maxLevel := by
        change ¬ n + 1 < t.maxLevel
        omega
      simp only [soloStep_eq, step, if_neg hfull, getLocated] at hfault
      rintro ⟨u, k', mapped, hret⟩
      have heq := hret.rest_unique rfl hfault rfl
      cases congrArg Prod.snd heq
    · rintro ⟨hk, hne⟩
      obtain ⟨b, hb⟩ := (succeeds_iff h tid k).mp hk
      have hbslot := ((h.holds_iff hend).mp hb).1
      rw [hq, hslot] at hbslot
      rw [← Slot.data.inj hbslot] at hb
      exact hne (hlost.mpr hb).symm
  · have hsame :
        (overfull L D t key a).slots (L.keyPath k (n + 1)) = t.slots (L.keyPath k (n + 1)) :=
      hkept hq (by simpa using hn)
    have hstop : (overfull L D t key a).slots (L.keyPath k (n + 1)) ≠ .array := by
      rw [hsame]
      exact hend.stop
    have hret := get_returns hlv tid hn ⟨harrays, hstop⟩
    have hret' := h.get_returns tid hend
    rw [hsame] at hret
    rw [succeeds_iff_result hret, succeeds_iff_result hret']
    refine (and_iff_left ?_).symm
    rintro rfl
    have hbslot := ((h.holds_iff hend).mp (hlost.mp rfl)).1
    exact hq (h.slot_unique hbslot hslot rfl).1

theorem Counted.not_sizeExact_overfull (h : Counted L D t) (hinj : Function.Injective L.hasher)
    (hlast : D + 1 = t.maxLevel) (hslot : t.slots (L.keyPath key (D + 1)) = .data a)
    (tid : Nat) : ¬ SizeExact L tid (overfull L D t key a) := by
  classical
  rintro ⟨keys', hkeys', hsize'⟩
  obtain ⟨keys, hkeys, hsize⟩ := h.sizeExact hinj tid
  have hmem : (t.heap a).key ∈ keys :=
    (hkeys _).mpr ((succeeds_iff h.sound tid _).mpr ⟨a, ⟨_, hslot⟩, h.sound.hashed _ a hslot⟩)
  have heq : keys' = keys.erase (t.heap a).key := by
    ext k
    rw [hkeys', succeeds_overfull h.sound hinj hlast hslot, Finset.mem_erase, hkeys, and_comm]
  change t.size + 1 = _ at hsize'
  rw [hsize, heq, ← Finset.card_erase_add_one hmem, BitVec.ofNat_add, BitVec.add_assoc] at hsize'
  simp at hsize'

theorem accounts_of_counted (h : Counted L D t') (hinj : Function.Injective L.hasher)
    (hop : ∀ key, op ≠ .mutate (.remove key)) (r : Result K T) : Accounts L tid t op r t' :=
  ⟨h.sizeExact hinj tid, fun key heq => absurd heq (hop key)⟩

theorem Counted.call (h : Counted L D t) (hinj : Function.Injective L.hasher) (tid : Nat)
    (hop : ¬ Miscounts L t op) :
    ∃ t' r, Returns L tid t op t' r ∧ Accounts L tid t op r t' ∧ Counted L D t' := by
  cases op with
  | get key =>
      obtain ⟨n, hend⟩ := h.sound.exists_endsAt key
      exact ⟨t, _, h.sound.get_returns tid hend, accounts_of_counted h hinj (by simp) _, h⟩
  | mutate m =>
      cases m with
      | insert key mapped =>
          by_cases hpresent : ∃ a, t.Holds L key a
          · obtain ⟨a, ha⟩ := hpresent
            exact ⟨t, _, insert_duplicate h.sound tid ha mapped,
              accounts_of_counted h hinj (by simp) _, h⟩
          · obtain ⟨t', hret, hsound, hins⟩ :=
              insert_returns h.sound tid (not_exists.mp hpresent) hop mapped
            have h' := h.inserted hsound hins
            exact ⟨t', _, hret, accounts_of_counted h' hinj (by simp) _, h'⟩
      | update key mapped =>
          obtain ⟨n, hend⟩ := h.sound.exists_endsAt key
          cases hslot : t.slots (L.keyPath key (n + 1)) with
          | array => exact absurd hslot hend.stop
          | null =>
              exact ⟨t, _, modify_absent (m := .update key mapped) h.sound tid (by simp) hend hslot,
                accounts_of_counted h hinj (by simp) _, h⟩
          | data a =>
              have h' := h.updated hslot mapped
              exact ⟨_, _, update_returns h.sound tid hslot mapped,
                accounts_of_counted h' hinj (by simp) _, h'⟩
      | remove key =>
          obtain ⟨n, hend⟩ := h.sound.exists_endsAt key
          cases hslot : t.slots (L.keyPath key (n + 1)) with
          | array => exact absurd hslot hend.stop
          | data a => exact absurd ⟨n, a, hslot⟩ hop
          | null =>
              have hnot : ¬ Succeeds L tid t key := by
                rw [succeeds_iff h.sound]
                rintro ⟨a, ha⟩
                exact h.sound.not_holds_of_null (hend.arrays n (Nat.le_refl n)) hslot a ha
              refine ⟨t, _, modify_absent (m := .remove key) h.sound tid (by simp) hend hslot,
                ⟨h.sizeExact hinj tid, ?_⟩, h⟩
              rintro key' ⟨⟩
              exact ⟨iff_of_false (by simp) hnot, hnot⟩

theorem Counted.not_accounts (h : Counted L D t) (hinj : Function.Injective L.hasher)
    (hop : Miscounts L t op) {r : Result K T} (hret : Returns L tid t op t' r) :
    ¬ Accounts L tid t op r t' := by
  intro haccounts
  cases op with
  | get key => exact hop
  | mutate m =>
      cases m with
      | update key mapped => exact hop
      | remove key =>
          obtain ⟨n, a, hslot⟩ := hop
          rw [(hret.unique (remove_returns h.sound tid hslot)).1] at haccounts
          exact h.not_sizeExact hinj tid hslot haccounts.1
      | insert key mapped =>
          rcases insert_outrun h.sound tid hop mapped with
            ⟨x, hfault⟩ | ⟨hlast, t₁, a, hgrown, h₁, hslot, hfull⟩
          · cases congrArg Prod.snd (hret.rest_unique rfl hfault rfl)
          · rw [(hret.unique hfull).1] at haccounts
            rw [← hgrown.maxLevel] at hlast
            exact (h.regrown h₁ hgrown).not_sizeExact_overfull hinj hlast hslot tid haccounts.1

/-- Removals report and the counter counts right through a sequence of calls
exactly when no removal reaches a data node and no insertion is outrun. -/
theorem removalAccounted_iff (hinj : Function.Injective L.hasher) {keySize : Nat}
    (hnew : Constructs L keySize t₀) (tid : Nat) (ops : List (Op K T)) :
    RemovalAccounted L tid t₀ ops ↔
      (program L).Allows tid (fun t op => ¬ Miscounts L t op) t₀ ops := by
  obtain ⟨D, hlv⟩ := Layout.exists_levels hnew.maxLevel_pos
  have hcounted : Counted L D t₀ := hnew.counted hlv
  refine (and_iff_right (hcounted.sizeExact hinj tid)).trans ?_
  refine Program.achieves_iff_allows (I := Counted L D) ?_ ?_ hcounted ops
  · intro t op h
    constructor
    · rintro ⟨t', r, hret, haccounts⟩ hmis
      exact h.not_accounts hinj hmis hret haccounts
    · intro hop
      obtain ⟨t', r, hret, haccounts, -⟩ := h.call hinj tid hop
      exact ⟨t', r, hret, haccounts⟩
  · intro t op t' r h hop hret
    obtain ⟨t'', r', hret', -, h'⟩ := h.call hinj tid hop
    rw [(hret.unique hret').1]
    exact h'

theorem not_miscounts_of_fits (hadm : L.Admissible D) (h : Sound L D t)
    (hop : ∀ key, op ≠ .mutate (.remove key)) : ¬ Miscounts L t op := by
  cases op with
  | get key => exact id
  | mutate m =>
      cases m with
      | insert key mapped => exact h.not_outruns hadm key
      | update key mapped => exact id
      | remove key => exact absurd rfl (hop key)

/-- The removal of a key that was never inserted takes nothing out. -/
theorem removalAccounted_missing :
    RemovalAccounted identityLayout 1 emptyTable
        [.mutate (.remove 0x22), .mutate (.insert 0x11 7)] ↔
      (program identityLayout).Allows 1 (fun t op => ¬ Miscounts identityLayout t op) emptyTable
        [.mutate (.remove 0x22), .mutate (.insert 0x11 7)] :=
  removalAccounted_iff (fun _ _ h => h) constructs_emptyTable 1 _

/-- The removal of the only key returns false, and `Size()` stays 1. -/
theorem removalAccounted_false :
    ¬ ∀ ops, RemovalAccounted identityLayout 1 emptyTable ops := by
  intro hall
  obtain ⟨-, t₁, r₁, hinsert, -, t₂, r₂, hremove, ⟨-, hreport⟩, -⟩ :=
    hall [.mutate (.insert 0x11 7), .mutate (.remove 0x11)]
  have hlone : Returns identityLayout 1 emptyTable (.mutate (.insert 0x11 7)) loneTable _ :=
    Program.returns_of_steps (r := .bool true) rfl
  rw [(hinsert.unique hlone).1] at hremove hreport
  have hfalse : Returns identityLayout 1 loneTable (.mutate (.remove 0x11)) _ (.bool false) :=
    Program.returns_of_steps (n := 3) rfl
  have hget : Returns identityLayout 1 loneTable (.get 0x11) _ (.pair 0x11 7) :=
    Program.returns_of_steps (n := 1) rfl
  have htrue := (hreport 0x11 rfl).1.mpr ⟨_, _, _, hget⟩
  rw [(hremove.unique hfalse).2] at htrue
  cases htrue

end Removal

end HashComp.Concurrent
