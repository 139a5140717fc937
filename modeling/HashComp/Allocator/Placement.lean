import HashComp.Allocator.Accounts
import HashComp.Allocator.Expansion
import Mathlib.Data.List.Nodup

namespace HashComp.Expansion

open HashComp.Allocator (FreeAddress next_power_of_two le_next_power_of_two)
open HashComp.Allocator.FixedPageAddress (kAddressBits kOffsetBits kPageBits)
open HashComp.Runs

namespace System

variable {τ : Type*}

structure Extends (s u : System τ) : Prop where
  created : s.created ≤ u.created
  sizes : ∀ a < s.created, (u.arrays a).size = (s.arrays a).size
  pages : ∀ a < s.created, ∀ i p, (s.arrays a).pages i = some p → (u.arrays a).pages i = some p
  published : ∀ a ∈ s.published, a ∈ u.published
  added : ∀ x ∈ s.added, x ∈ u.added
  returned : ∀ x ∈ s.returned, x ∈ u.returned

structure Arrays (s : System τ) : Prop where
  present : s.page_array_ ∈ s.published
  known : ∀ a ∈ s.published, a < s.created
  powers : ∀ a ∈ s.published, ∃ k, (s.arrays a).size = 2 ^ k
  replaced : ∀ a ∈ s.published, a ≠ s.page_array_ →
    (s.arrays a).Full ∧ (s.arrays a).size < (s.arrays s.page_array_).size
  once : (s.added.map Prod.fst).Nodup
  apart : (s.added.map Prod.snd).Nodup
  numbered : ∀ x ∈ s.added, x.2 < s.made
  fromAdded : ∀ a < s.created, ∀ i p, (s.arrays a).pages i = some p → (i, p) ∈ s.added
  inPlace : ∀ x ∈ s.added, x.1 < (s.arrays s.page_array_).size ∧
    (s.arrays s.page_array_).pages x.1 = some x.2

structure Copies (s : System τ) (addr new_size expected new_array idx : Nat) : Prop where
  old : expected ∈ s.published
  unseen : new_array ∉ s.published
  known : new_array < s.created
  room : (s.arrays new_array).size = new_size
  size : new_size = next_power_of_two (page addr + 1)
  grows : (s.arrays expected).size < new_size
  bound : idx ≤ (s.arrays expected).size
  copied : ∀ i < idx, ∃ p, (s.arrays expected).pages i = some p ∧
    (s.arrays new_array).pages i = some p

/-- The thread knows an array that `page_array_` has pointed to, with room for its page. -/
def Holds (s : System τ) (addr page_array : Nat) : Prop :=
  page_array ∈ s.published ∧ page addr < (s.arrays page_array).size

/-- What a thread knows where it is. -/
def Fits (s : System τ) : Pc → Prop
  | .idle | .drawn _ => True
  | .copying addr new_size expected new_array idx => s.Copies addr new_size expected new_array idx
  | .exchanging addr new_size expected new_array =>
      s.Copies addr new_size expected new_array (s.arrays expected).size
  | .early addr page_array | .getting addr page_array | .adding addr page_array =>
      s.Holds addr page_array

structure Threads (s : System τ) : Prop where
  fits : ∀ t, s.Fits (s.pc t)
  own : ∀ t u a, (s.pc t).newArray = some a → (s.pc u).newArray = some a → t = u

structure Accounts (base : Nat) (s : System τ) : Prop where
  start : base ≤ s.count_
  bits : s.count_ ≤ 2 ^ kAddressBits
  once : s.returned.Nodup
  passed : ∀ a ∈ s.returned, a < s.count_
  carried : ∀ t a, (s.pc t).addr = some a → base ≤ a ∧ a < s.count_ ∧ a ∉ s.returned
  own : ∀ t u a, (s.pc t).addr = some a → (s.pc u).addr = some a → t = u
  all : ∀ a, base ≤ a → a < s.count_ → a ∈ s.returned ∨ ∃ t, (s.pc t).addr = some a
  placed : ∀ a ∈ s.returned, ∃ p, (page a, p) ∈ s.added

structure Sound (base : Nat) (s : System τ) : Prop where
  arrays : s.Arrays
  threads : s.Threads
  accounts : s.Accounts base

variable {s u v : System τ} {array idx addr new_size expected new_array base : Nat}

theorem Extends.refl (s : System τ) : Extends s s :=
  ⟨le_rfl, fun _ _ => rfl, fun _ _ _ _ h => h, fun _ h => h, fun _ h => h, fun _ h => h⟩

theorem Extends.trans (h : Extends s u) (h' : Extends u v) : Extends s v where
  created := h.created.trans h'.created
  sizes := fun a ha => (h'.sizes a (ha.trans_le h.created)).trans (h.sizes a ha)
  pages := fun a ha i p hp => h'.pages a (ha.trans_le h.created) i p (h.pages a ha i p hp)
  published := fun a ha => h'.published a (h.published a ha)
  added := fun x hx => h'.added x (h.added x hx)
  returned := fun x hx => h'.returned x (h.returned x hx)

section Pages

theorem Arrays.unique (h : s.Arrays) {i p q : Nat} (hp : (i, p) ∈ s.added)
    (hq : (i, q) ∈ s.added) : p = q := by
  have hpPlace := (h.inPlace _ hp).2
  have hqPlace := (h.inPlace _ hq).2
  exact Option.some.inj (hpPlace.symm.trans hqPlace)

theorem Arrays.size_le (h : s.Arrays) (hpub : array ∈ s.published) :
    (s.arrays array).size ≤ (s.arrays s.page_array_).size := by
  rcases eq_or_ne array s.page_array_ with rfl | hne
  · exact le_rfl
  · exact (h.replaced array hpub hne).2.le

/-- A published array has every page that has been added and that it has room for. -/
theorem Arrays.pages_of_added (h : s.Arrays) {i p : Nat} (hadded : (i, p) ∈ s.added)
    (hpub : array ∈ s.published) (hlt : i < (s.arrays array).size) :
    (s.arrays array).pages i = some p := by
  rcases eq_or_ne array s.page_array_ with rfl | hne
  · exact (h.inPlace _ hadded).2
  · obtain ⟨q, hq⟩ := Option.isSome_iff_exists.mp ((h.replaced array hpub hne).1 i hlt)
    rw [hq, h.unique hadded (h.fromAdded array (h.known array hpub) i q hq)]

theorem extends_addPage : Extends s (s.AddPage array idx) := by
  cases hidx : (s.arrays array).pages idx with
  | some p =>
      simp only [AddPage, hidx]
      exact ⟨le_rfl, fun _ _ => rfl, fun _ _ _ _ h => h, fun _ h => h, fun _ h => h, fun _ h => h⟩
  | none =>
      simp only [AddPage, hidx]
      refine ⟨le_rfl, fun a _ => ?_, fun a _ i p hp => ?_, fun _ h => h,
        fun _ h => List.mem_cons_of_mem _ h, fun _ h => h⟩
      · dsimp only
        rw [Function.update_apply]
        split
        · rename_i ha
          rw [ha]
        · rfl
      · dsimp only
        rw [Function.update_apply]
        split
        · rename_i ha
          subst ha
          dsimp only
          rw [Function.update_of_ne]
          · exact hp
          · rintro rfl
            rw [hidx] at hp
            cases hp
        · exact hp

/-- A page that is missing is added to the array of the present, and nowhere else. -/
theorem Arrays.addPage (h : s.Arrays) (hpub : array ∈ s.published)
    (hlt : idx < (s.arrays array).size) : (s.AddPage array idx).Arrays := by
  cases hidx : (s.arrays array).pages idx with
  | some p =>
      simp only [AddPage, hidx]
      exact ⟨h.present, h.known, h.powers, h.replaced, h.once, h.apart,
        fun x hx => Nat.lt_succ_of_lt (h.numbered x hx), h.fromAdded, h.inPlace⟩
  | none =>
      have hcur : array = s.page_array_ := by
        by_contra hne
        have hfull := (h.replaced array hpub hne).1 idx hlt
        rw [hidx] at hfull
        cases hfull
      subst hcur
      have hfresh : ∀ p, (idx, p) ∉ s.added := by
        intro p hp
        have hplace := (h.inPlace _ hp).2
        rw [hidx] at hplace
        cases hplace
      simp only [AddPage, hidx]
      have hsizes : ∀ a, (Function.update s.arrays s.page_array_
          { s.arrays s.page_array_ with
            pages := Function.update (s.arrays s.page_array_).pages idx (some s.made) } a).size =
          (s.arrays a).size := by
        intro a
        rw [Function.update_apply]
        split
        · rename_i ha
          rw [ha]
        · rfl
      refine ⟨h.present, h.known, ?_, ?_, ?_, ?_, ?_, ?_, ?_⟩
      · intro a ha
        obtain ⟨k, hk⟩ := h.powers a ha
        exact ⟨k, (hsizes a).trans hk⟩
      · intro a ha hne
        dsimp only at hne ⊢
        rw [Function.update_of_ne hne, Function.update_self]
        exact h.replaced a ha hne
      · rw [List.map_cons, List.nodup_cons]
        refine ⟨fun hmem => ?_, h.once⟩
        obtain ⟨⟨i, p⟩, hp, rfl⟩ := List.mem_map.mp hmem
        exact hfresh p hp
      · rw [List.map_cons, List.nodup_cons]
        refine ⟨fun hmem => ?_, h.apart⟩
        obtain ⟨x, hx, hmade⟩ := List.mem_map.mp hmem
        exact absurd (h.numbered x hx) (by rw [hmade]; exact lt_irrefl _)
      · intro x hx
        obtain rfl | hx := List.mem_cons.mp hx
        · exact Nat.lt_succ_self _
        · exact Nat.lt_succ_of_lt (h.numbered x hx)
      · intro a ha i p hp
        dsimp only at hp
        rw [Function.update_apply] at hp
        split at hp
        · dsimp only at hp
          rw [Function.update_apply] at hp
          split at hp
          · rename_i hi
            rw [hi, Option.some.inj hp]
            exact List.mem_cons_self
          · exact List.mem_cons_of_mem _
              (h.fromAdded _ (h.known _ h.present) i p hp)
        · exact List.mem_cons_of_mem _ (h.fromAdded a ha i p hp)
      · intro x hx
        dsimp only
        rw [Function.update_self]
        obtain rfl | hx := List.mem_cons.mp hx
        · exact ⟨hlt, Function.update_self ..⟩
        · obtain ⟨hsize, hpage⟩ := h.inPlace x hx
          refine ⟨hsize, ?_⟩
          dsimp only
          rw [Function.update_of_ne]
          · exact hpage
          · intro heq
            exact hfresh x.2 (heq ▸ hx)

theorem page_addPage (idx : Nat) (hlt : array < s.created) :
    ∃ p, ((s.AddPage array idx).arrays array).pages idx = some p := by
  cases hidx : (s.arrays array).pages idx with
  | some p => exact ⟨p, (extends_addPage.pages array hlt idx p hidx)⟩
  | none =>
      refine ⟨s.made, ?_⟩
      simp only [AddPage, hidx, Function.update_self]

end Pages

section Growth

variable {p : Nat}

theorem size_copyPage (a : Nat) :
    ((s.copyPage new_array idx p).arrays a).size = (s.arrays a).size := by
  simp only [copyPage]
  rw [Function.update_apply]
  split
  · rename_i ha
    rw [ha]
  · rfl

theorem arrays_copyPage {a : Nat} (hne : a ≠ new_array) :
    (s.copyPage new_array idx p).arrays a = s.arrays a :=
  Function.update_of_ne hne _ _

theorem pages_copyPage (i : Nat) : ((s.copyPage new_array idx p).arrays new_array).pages i =
    if i = idx then some p else (s.arrays new_array).pages i := by
  simp only [copyPage, Function.update_self]
  rw [Function.update_apply]

theorem Copies.page_added (c : s.Copies addr new_size expected new_array idx) (h : s.Arrays)
    (hp : (s.arrays expected).pages idx = some p) : (idx, p) ∈ s.added :=
  h.fromAdded expected (h.known expected c.old) idx p hp

theorem Copies.extends (c : s.Copies addr new_size expected new_array idx) (h : s.Arrays)
    (hp : (s.arrays expected).pages idx = some p) : Extends s (s.copyPage new_array idx p) where
  created := le_rfl
  sizes := fun a _ => size_copyPage a
  pages := fun a ha i q hq => by
    rcases eq_or_ne a new_array with rfl | hne
    · rw [pages_copyPage]
      split
      · rename_i hi
        subst hi
        rw [h.unique (c.page_added h hp) (h.fromAdded a ha i q hq)]
      · exact hq
    · rw [arrays_copyPage hne]
      exact hq
  published := fun _ h => h
  added := fun _ h => h
  returned := fun _ h => h

theorem Copies.arrays (c : s.Copies addr new_size expected new_array idx) (h : s.Arrays)
    (hp : (s.arrays expected).pages idx = some p) : (s.copyPage new_array idx p).Arrays := by
  have hother : ∀ a ∈ s.published, (s.copyPage new_array idx p).arrays a = s.arrays a :=
    fun a ha => arrays_copyPage fun heq => c.unseen (heq ▸ ha)
  have hcur := hother s.page_array_ h.present
  refine ⟨h.present, h.known, ?_, ?_, h.once, h.apart, h.numbered, ?_, ?_⟩
  · intro a ha
    rw [hother a ha]
    exact h.powers a ha
  · intro a ha hne
    change _ ∧ _ < ((s.copyPage new_array idx p).arrays s.page_array_).size
    rw [hother a ha, hcur]
    exact h.replaced a ha hne
  · intro a ha i q hq
    rcases eq_or_ne a new_array with rfl | hne
    · rw [pages_copyPage] at hq
      split at hq
      · rename_i hi
        rw [hi, ← Option.some.inj hq]
        exact c.page_added h hp
      · exact h.fromAdded a ha i q hq
    · rw [arrays_copyPage hne] at hq
      exact h.fromAdded a ha i q hq
  · intro x hx
    change _ < ((s.copyPage new_array idx p).arrays s.page_array_).size ∧
      ((s.copyPage new_array idx p).arrays s.page_array_).pages _ = _
    rw [hcur]
    exact h.inPlace x hx

theorem Copies.copied_succ (c : s.Copies addr new_size expected new_array idx)
    (hlt : idx < (s.arrays expected).size) (hp : (s.arrays expected).pages idx = some p) :
    (s.copyPage new_array idx p).Copies addr new_size expected new_array (idx + 1) := by
  have hold : (s.copyPage new_array idx p).arrays expected = s.arrays expected :=
    arrays_copyPage fun heq => c.unseen (heq ▸ c.old)
  refine ⟨c.old, c.unseen, c.known, (size_copyPage _).trans c.room, c.size, ?_, ?_, ?_⟩
  · rw [hold]
    exact c.grows
  · rw [hold]
    exact hlt
  · intro i hi
    rw [hold, pages_copyPage]
    split
    · rename_i heq
      exact ⟨p, heq ▸ hp, rfl⟩
    · exact c.copied i (by omega)

theorem extends_publish : Extends s (s.publish new_array) :=
  ⟨le_rfl, fun _ _ => rfl, fun _ _ _ _ h => h, fun _ h => List.mem_cons_of_mem _ h,
    fun _ h => h, fun _ h => h⟩

theorem exists_next_power_of_two (n : Nat) : ∃ k, next_power_of_two n = 2 ^ k := by
  rw [next_power_of_two]
  split
  · exact ⟨0, rfl⟩
  · exact ⟨_, rfl⟩

theorem Arrays.publish (h : s.Arrays) (hknown : new_array < s.created)
    (hpower : ∃ k, (s.arrays new_array).size = 2 ^ k)
    (hgrows : (s.arrays s.page_array_).size < (s.arrays new_array).size)
    (hcopied : ∀ i < (s.arrays s.page_array_).size, ∃ p,
      (s.arrays s.page_array_).pages i = some p ∧ (s.arrays new_array).pages i = some p) :
    (s.publish new_array).Arrays := by
  refine ⟨List.mem_cons_self, ?_, ?_, ?_, h.once, h.apart, h.numbered, h.fromAdded, ?_⟩
  · intro a ha
    obtain rfl | ha := List.mem_cons.mp ha
    · exact hknown
    · exact h.known a ha
  · intro a ha
    obtain rfl | ha := List.mem_cons.mp ha
    · exact hpower
    · exact h.powers a ha
  · intro a ha hne
    obtain rfl | ha := List.mem_cons.mp ha
    · exact absurd rfl hne
    · rcases eq_or_ne a s.page_array_ with rfl | hold
      · refine ⟨fun i hi => ?_, hgrows⟩
        obtain ⟨p, hp, _⟩ := hcopied i hi
        exact Option.isSome_iff_exists.mpr ⟨p, hp⟩
      · exact ⟨(h.replaced a ha hold).1, (h.replaced a ha hold).2.trans hgrows⟩
  · intro x hx
    obtain ⟨hlt, hpage⟩ := h.inPlace x hx
    refine ⟨hlt.trans hgrows, ?_⟩
    obtain ⟨p, hp, hnew⟩ := hcopied x.1 hlt
    change (s.arrays new_array).pages x.1 = _
    rw [hnew, ← hp, hpage]

theorem Copies.publish (c : s.Copies addr new_size expected new_array (s.arrays expected).size)
    (h : s.Arrays) (hcur : s.page_array_ = expected) : (s.publish new_array).Arrays := by
  subst hcur
  apply h.publish c.known _ _ c.copied
  · obtain ⟨k, hk⟩ := exists_next_power_of_two (page addr + 1)
    exact ⟨k, c.room.trans (c.size.trans hk)⟩
  · rw [c.room]
    exact c.grows

section Creation

variable {fresh : FixedPageArray}

theorem extends_withArray : Extends s (s.withArray fresh) where
  created := Nat.le_succ _
  sizes := fun a ha => by
    dsimp only [System.withArray]
    rw [Function.update_of_ne ha.ne]
  pages := fun a ha i p hp => by
    dsimp only [System.withArray]
    rw [Function.update_of_ne ha.ne]
    exact hp
  published := fun _ h => h
  added := fun _ h => h
  returned := fun _ h => h

theorem arrays_withArray (fresh : FixedPageArray) (h : s.Arrays) {a : Nat} (ha : a ∈ s.published) :
    (s.withArray fresh).arrays a = s.arrays a :=
  Function.update_of_ne (h.known a ha).ne _ _

theorem Arrays.withArray (h : s.Arrays)
    (hpages : ∀ i p, fresh.pages i = some p → (i, p) ∈ s.added) :
    (s.withArray fresh).Arrays where
  present := h.present
  known := fun a ha => Nat.lt_succ_of_lt (h.known a ha)
  powers := fun a ha => by
    rw [arrays_withArray _ h ha]
    exact h.powers a ha
  replaced := fun a ha hne => by
    rw [arrays_withArray _ h ha]
    change _ ∧ _ < ((s.withArray fresh).arrays s.page_array_).size
    rw [arrays_withArray _ h h.present]
    exact h.replaced a ha hne
  once := h.once
  apart := h.apart
  numbered := h.numbered
  fromAdded := fun a ha i p hp => by
    simp only [System.withArray] at ha hp
    rw [Function.update_apply] at hp
    split at hp
    · exact hpages i p hp
    · rename_i hne
      exact h.fromAdded a (by omega) i p hp
  inPlace := fun x hx => by
    change _ < ((s.withArray fresh).arrays s.page_array_).size ∧
      ((s.withArray fresh).arrays s.page_array_).pages _ = _
    rw [arrays_withArray _ h h.present]
    exact h.inPlace x hx

end Creation

end Growth

section Threads

variable {pc : Pc} {t : τ}

theorem unseen_of_newArray (h : s.Fits pc) {a : Nat} (ha : pc.newArray = some a) :
    a ∉ s.published ∧ a < s.created := by
  cases pc with
  | copying addr new_size expected new_array idx =>
      obtain rfl := Option.some.inj ha
      have c : s.Copies addr new_size expected _ idx := h
      exact ⟨c.unseen, c.known⟩
  | exchanging addr new_size expected new_array =>
      obtain rfl := Option.some.inj ha
      have c : s.Copies addr new_size expected _ (s.arrays expected).size := h
      exact ⟨c.unseen, c.known⟩
  | _ => cases ha

theorem Copies.mono (c : s.Copies addr new_size expected new_array idx) (h : s.Arrays)
    (hext : Extends s u) (hunseen : new_array ∉ u.published) :
    u.Copies addr new_size expected new_array idx := by
  have hold := h.known expected c.old
  refine ⟨hext.published _ c.old, hunseen, c.known.trans_le hext.created, ?_, c.size, ?_, ?_, ?_⟩
  · rw [hext.sizes _ c.known]
    exact c.room
  · rw [hext.sizes _ hold]
    exact c.grows
  · rw [hext.sizes _ hold]
    exact c.bound
  · intro i hi
    obtain ⟨p, hp, hnew⟩ := c.copied i hi
    exact ⟨p, hext.pages _ hold i p hp, hext.pages _ c.known i p hnew⟩

theorem Holds.mono (c : s.Holds addr array) (h : s.Arrays) (hext : Extends s u) :
    u.Holds addr array := by
  refine ⟨hext.published _ c.1, ?_⟩
  rw [hext.sizes _ (h.known _ c.1)]
  exact c.2

theorem fits_mono (hfits : s.Fits pc) (h : s.Arrays) (hext : Extends s u)
    (hunseen : ∀ a, pc.newArray = some a → a ∉ u.published) : u.Fits pc := by
  cases pc with
  | idle | drawn addr => trivial
  | copying addr new_size expected new_array idx =>
      exact Copies.mono hfits h hext (hunseen _ rfl)
  | exchanging addr new_size expected new_array =>
      have c : s.Copies addr new_size expected new_array (s.arrays expected).size := hfits
      change u.Copies addr new_size expected new_array (u.arrays expected).size
      rw [hext.sizes expected (h.known _ c.old)]
      exact c.mono h hext (hunseen _ rfl)
  | early addr page_array | getting addr page_array | adding addr page_array =>
      exact Holds.mono hfits h hext

theorem Threads.step (h : s.Threads) (ha : s.Arrays) (hext : Extends s u)
    (hothers : ∀ v, v ≠ t → u.pc v = s.pc v)
    (hpub : ∀ a ∈ u.published, a ∈ s.published ∨ (s.pc t).newArray = some a)
    (hnew : ∀ a, (u.pc t).newArray = some a → a = s.created ∨ (s.pc t).newArray = some a)
    (hfits : u.Fits (u.pc t)) : u.Threads := by
  have hclash : ∀ v a, v ≠ t → (u.pc t).newArray = some a → (s.pc v).newArray ≠ some a := by
    intro v a hv ht hva
    obtain rfl | hold := hnew a ht
    · exact (unseen_of_newArray (h.fits v) hva).2.ne rfl
    · exact hv (h.own v t a hva hold)
  refine ⟨fun v => ?_, fun v w a hva hwa => ?_⟩
  · rcases eq_or_ne v t with rfl | hv
    · exact hfits
    · rw [hothers v hv]
      refine fits_mono (h.fits v) ha hext fun a hva hmem => ?_
      obtain hmem | ht := hpub a hmem
      · exact (unseen_of_newArray (h.fits v) hva).1 hmem
      · exact hv (h.own v t a hva ht)
  · rcases eq_or_ne v t with rfl | hv
    · rcases eq_or_ne w v with rfl | hw
      · rfl
      · rw [hothers w hw] at hwa
        exact absurd hwa (hclash w a hw hva)
    · rw [hothers v hv] at hva
      rcases eq_or_ne w t with rfl | hw
      · exact absurd hva (hclash v a hv hwa)
      · rw [hothers w hw] at hwa
        exact h.own v w a hva hwa

end Threads

section Accounts

variable {t : τ}

theorem Accounts.keep (h : s.Accounts base) (hext : Extends s u) (hcount : u.count_ = s.count_)
    (hret : u.returned = s.returned) (haddr : ∀ v, (u.pc v).addr = (s.pc v).addr) :
    u.Accounts base := by
  refine ⟨hcount ▸ h.start, hcount ▸ h.bits, hret ▸ h.once, ?_, ?_, ?_, ?_, ?_⟩
  · rw [hret, hcount]
    exact h.passed
  · intro v a hva
    rw [haddr v] at hva
    rw [hret, hcount]
    exact h.carried v a hva
  · intro v w a hva hwa
    rw [haddr v] at hva
    rw [haddr w] at hwa
    exact h.own v w a hva hwa
  · intro a hle hlt
    rw [hcount] at hlt
    obtain hmem | ⟨v, hv⟩ := h.all a hle hlt
    · exact Or.inl (hret ▸ hmem)
    · exact Or.inr ⟨v, (haddr v).trans hv⟩
  · intro a ha
    rw [hret] at ha
    obtain ⟨p, hp⟩ := h.placed a ha
    exact ⟨p, hext.added _ hp⟩

theorem Accounts.draw (h : s.Accounts base) (hext : Extends s u) (hlt : s.count_ < 2 ^ kAddressBits)
    (hcount : u.count_ = s.count_ + 1) (hret : u.returned = s.returned)
    (hidle : (s.pc t).addr = none) (ht : (u.pc t).addr = some s.count_)
    (hothers : ∀ v, v ≠ t → u.pc v = s.pc v) : u.Accounts base := by
  refine ⟨?_, ?_, hret ▸ h.once, ?_, ?_, ?_, ?_, ?_⟩
  · rw [hcount]
    exact Nat.le_succ_of_le h.start
  · rw [hcount]
    exact hlt
  · intro a ha
    rw [hret] at ha
    rw [hcount]
    exact Nat.lt_succ_of_lt (h.passed a ha)
  · intro v a hva
    rw [hret, hcount]
    rcases eq_or_ne v t with rfl | hv
    · obtain rfl := Option.some.inj (ht.symm.trans hva)
      exact ⟨h.start, Nat.lt_succ_self _, fun hmem => (h.passed _ hmem).ne rfl⟩
    · rw [hothers v hv] at hva
      obtain ⟨hle, hlt', hmem⟩ := h.carried v a hva
      exact ⟨hle, Nat.lt_succ_of_lt hlt', hmem⟩
  · have hfresh : ∀ v, v ≠ t → (u.pc v).addr ≠ some s.count_ := by
      intro v hv hva
      rw [hothers v hv] at hva
      exact (h.carried v _ hva).2.1.ne rfl
    intro v w a hva hwa
    rcases eq_or_ne v t with rfl | hv
    · obtain rfl := Option.some.inj (ht.symm.trans hva)
      by_contra hne
      exact hfresh w (Ne.symm hne) hwa
    · rcases eq_or_ne w t with rfl | hw
      · obtain rfl := Option.some.inj (ht.symm.trans hwa)
        exact absurd hva (hfresh v hv)
      · rw [hothers v hv] at hva
        rw [hothers w hw] at hwa
        exact h.own v w a hva hwa
  · intro a hle hlt'
    rw [hcount] at hlt'
    rcases Nat.lt_succ_iff_lt_or_eq.mp hlt' with hlt' | rfl
    · obtain hmem | ⟨v, hv⟩ := h.all a hle hlt'
      · exact Or.inl (hret ▸ hmem)
      · refine Or.inr ⟨v, ?_⟩
        rw [hothers v]
        · exact hv
        · rintro rfl
          rw [hidle] at hv
          cases hv
    · exact Or.inr ⟨t, ht⟩
  · intro a ha
    rw [hret] at ha
    obtain ⟨p, hp⟩ := h.placed a ha
    exact ⟨p, hext.added _ hp⟩

theorem Accounts.finish (h : s.Accounts base) (hext : Extends s u) (hcount : u.count_ = s.count_)
    (ht : (s.pc t).addr = some addr) (hret : u.returned = addr :: s.returned)
    (hidle : (u.pc t).addr = none) (hothers : ∀ v, v ≠ t → u.pc v = s.pc v)
    (hplaced : ∃ p, (page addr, p) ∈ u.added) : u.Accounts base := by
  have hcarried := h.carried t addr ht
  have hkept : ∀ v a, (u.pc v).addr = some a → v ≠ t ∧ (s.pc v).addr = some a := by
    intro v a hva
    have hv : v ≠ t := by
      rintro rfl
      rw [hidle] at hva
      cases hva
    rw [hothers v hv] at hva
    exact ⟨hv, hva⟩
  refine ⟨hcount ▸ h.start, hcount ▸ h.bits, ?_, ?_, ?_, ?_, ?_, ?_⟩
  · rw [hret]
    exact List.nodup_cons.mpr ⟨hcarried.2.2, h.once⟩
  · intro a ha
    rw [hret] at ha
    rw [hcount]
    obtain rfl | ha := List.mem_cons.mp ha
    · exact hcarried.2.1
    · exact h.passed a ha
  · intro v a hva
    obtain ⟨hv, hva⟩ := hkept v a hva
    obtain ⟨hle, hlt, hmem⟩ := h.carried v a hva
    rw [hcount, hret]
    refine ⟨hle, hlt, fun hmem' => ?_⟩
    obtain rfl | hmem' := List.mem_cons.mp hmem'
    · exact hv (h.own v t a hva ht)
    · exact hmem hmem'
  · intro v w a hva hwa
    exact h.own v w a (hkept v a hva).2 (hkept w a hwa).2
  · intro a hle hlt
    rw [hcount] at hlt
    rw [hret]
    obtain hmem | ⟨v, hv⟩ := h.all a hle hlt
    · exact Or.inl (List.mem_cons_of_mem _ hmem)
    · rcases eq_or_ne v t with rfl | hvt
      · obtain rfl := Option.some.inj (ht.symm.trans hv)
        exact Or.inl List.mem_cons_self
      · exact Or.inr ⟨v, (hothers v hvt).symm ▸ hv⟩
  · intro a ha
    rw [hret] at ha
    obtain rfl | ha := List.mem_cons.mp ha
    · exact hplaced
    · obtain ⟨p, hp⟩ := h.placed a ha
      exact ⟨p, hext.added _ hp⟩

end Accounts

section Steps

theorem Sound.step {t : τ} (h : s.Sound base) (hext : Extends s u) (harr : u.Arrays)
    (hothers : ∀ v, v ≠ t → u.pc v = s.pc v)
    (hpub : ∀ a ∈ u.published, a ∈ s.published ∨ (s.pc t).newArray = some a)
    (hnew : ∀ a, (u.pc t).newArray = some a → a = s.created ∨ (s.pc t).newArray = some a)
    (hfits : u.Fits (u.pc t)) (hcount : u.count_ = s.count_) (hret : u.returned = s.returned)
    (haddr : (u.pc t).addr = (s.pc t).addr) : u.Sound base := by
  refine ⟨harr, h.threads.step h.arrays hext hothers hpub hnew hfits, ?_⟩
  apply h.accounts.keep hext hcount hret
  intro v
  rcases eq_or_ne v t with rfl | hv
  · exact haddr
  · rw [hothers v hv]

theorem addPage_frame (s : System τ) (array idx : Nat) : (s.AddPage array idx).pc = s.pc ∧
    (s.AddPage array idx).published = s.published ∧ (s.AddPage array idx).count_ = s.count_ ∧
    (s.AddPage array idx).returned = s.returned ∧
    (s.AddPage array idx).page_array_ = s.page_array_ := by
  cases hidx : (s.arrays array).pages idx <;>
    simp only [AddPage, hidx, and_self]

variable [DecidableEq τ] {t : τ} {pc : Pc} {x : System τ}

theorem pc_goto : (x.goto t pc).pc t = pc :=
  Function.update_self ..

theorem pc_goto_of_ne {w : τ} (hw : w ≠ t) : (x.goto t pc).pc w = x.pc w :=
  Function.update_of_ne hw ..

theorem Extends.goto (h : Extends s x) : Extends s (x.goto t pc) :=
  ⟨h.created, h.sizes, h.pages, h.published, h.added, h.returned⟩

theorem Arrays.goto (h : x.Arrays) : (x.goto t pc).Arrays :=
  ⟨h.present, h.known, h.powers, h.replaced, h.once, h.apart, h.numbered, h.fromAdded, h.inPlace⟩

theorem extends_create : Extends s (s.Create t addr new_size expected) :=
  extends_withArray.goto

theorem Arrays.create (h : s.Arrays) : (s.Create t addr new_size expected).Arrays := by
  apply (h.withArray _).goto
  intro i p hp
  cases hp

theorem copies_create (h : s.Arrays) (hpub : expected ∈ s.published)
    (hgrows : (s.arrays expected).size < new_size)
    (hsize : new_size = next_power_of_two (page addr + 1)) :
    (s.Create t addr new_size expected).Copies addr new_size expected s.created 0 where
  old := hpub
  unseen := fun hmem => (h.known _ hmem).ne rfl
  known := Nat.lt_succ_self _
  room := by
    change (Function.update s.arrays s.created _ s.created).size = _
    rw [Function.update_self]
  size := hsize
  grows := by
    change ((s.withArray _).arrays expected).size < _
    rw [arrays_withArray _ h hpub]
    exact hgrows
  bound := Nat.zero_le _
  copied := fun i hi => absurd hi (Nat.not_lt_zero i)

theorem Sound.moved (h : s.Sound base) (hext : Extends s x) (harr : x.Arrays) (hpc : x.pc = s.pc)
    (hpub : ∀ a ∈ x.published, a ∈ s.published ∨ (s.pc t).newArray = some a)
    (hnew : ∀ a, pc.newArray = some a → (s.pc t).newArray = some a)
    (hfits : x.Fits pc) (hcount : x.count_ = s.count_) (hret : x.returned = s.returned)
    (haddr : pc.addr = (s.pc t).addr) : (x.goto t pc).Sound base := by
  apply h.step (hext.goto) (harr.goto) (t := t) _ hpub _ _ hcount hret
  · rw [pc_goto]
    exact haddr
  · intro v hv
    rw [pc_goto_of_ne hv, hpc]
  · intro a ha
    rw [pc_goto] at ha
    exact Or.inr (hnew a ha)
  · rw [pc_goto]
    apply fits_mono hfits harr (Extends.refl x).goto
    intro a ha
    exact (unseen_of_newArray hfits ha).1

theorem Sound.create (h : s.Sound base) (hpub : expected ∈ s.published)
    (hgrows : (s.arrays expected).size < new_size)
    (hsize : new_size = next_power_of_two (page addr + 1)) (haddr : (s.pc t).addr = some addr) :
    (s.Create t addr new_size expected).Sound base := by
  have hc := copies_create (t := t) h.arrays hpub hgrows hsize
  apply h.step extends_create h.arrays.create (t := t) _ (fun a ha => Or.inl ha) _ _ rfl rfl
  · exact (congrArg Pc.addr pc_goto).trans haddr.symm
  · intro v hv
    exact pc_goto_of_ne hv
  · intro a ha
    have hself := (congrArg Pc.newArray pc_goto).symm.trans ha
    exact Or.inl (Option.some.inj hself).symm
  · change System.Fits _ ((System.goto _ t _).pc t)
    rw [pc_goto]
    exact hc

theorem Sound.finish (h : s.Sound base) (hext : Extends s x) (harr : x.Arrays)
    (hpc : x.pc = s.pc) (hpub : x.published = s.published) (hcount : x.count_ = s.count_)
    (hret : x.returned = s.returned) (haddr : (s.pc t).addr = some addr)
    (hplaced : ∃ p, (page addr, p) ∈ x.added) : (x.finish t addr).Sound base := by
  have hext' : Extends s (x.finish t addr) :=
    ⟨hext.created, hext.sizes, hext.pages, hext.published, hext.added,
      fun a ha => List.mem_cons_of_mem _ (hext.returned a ha)⟩
  have hothers : ∀ v, v ≠ t → (x.finish t addr).pc v = s.pc v := by
    intro v hv
    rw [← hpc]
    exact pc_goto_of_ne hv
  have hself : (x.finish t addr).pc t = .idle := pc_goto
  refine ⟨⟨harr.present, harr.known, harr.powers, harr.replaced, harr.once, harr.apart,
    harr.numbered, harr.fromAdded, harr.inPlace⟩, ?_, ?_⟩
  · apply h.threads.step h.arrays hext' hothers
    · intro a ha
      exact Or.inl (hpub ▸ ha)
    · intro a ha
      rw [hself] at ha
      cases ha
    · rw [hself]
      trivial
  · apply h.accounts.finish hext' hcount haddr _ _ hothers hplaced
    · exact congrArg (addr :: ·) hret
    · rw [hself]
      rfl

theorem Sound.load (h : s.Sound base) (hpc : s.pc t = .drawn addr) :
    (s.load t addr).Sound base ∧ Extends s (s.load t addr) := by
  have haddr : (s.pc t).addr = some addr := by rw [hpc]; rfl
  rw [System.load]
  split
  · rename_i hge
    have hgrows : (s.arrays s.page_array_).size < next_power_of_two (page addr + 1) :=
      lt_of_lt_of_le (Nat.lt_succ_of_le hge) (le_next_power_of_two _)
    exact ⟨h.create h.arrays.present hgrows rfl haddr, extends_create⟩
  · rename_i hlt
    refine ⟨?_, (Extends.refl s).goto⟩
    refine h.moved (Extends.refl s) h.arrays rfl (fun a ha => Or.inl ha) ?_ ?_ rfl rfl haddr.symm
    · intro a ha
      cases ha
    · exact ⟨h.arrays.present, Nat.not_le.mp hlt⟩

theorem Sound.copy (h : s.Sound base)
    (hpc : s.pc t = .copying addr new_size expected new_array idx) :
    (s.copy t addr new_size expected new_array idx).Sound base ∧
      Extends s (s.copy t addr new_size expected new_array idx) := by
  have haddr : (s.pc t).addr = some addr := by rw [hpc]; rfl
  have hnew : (s.pc t).newArray = some new_array := by rw [hpc]; rfl
  have c : s.Copies addr new_size expected new_array idx := by
    have hfits := h.threads.fits t
    rw [hpc] at hfits
    exact hfits
  rw [System.copy]
  split
  · rename_i hlt
    cases hp : (s.arrays expected).pages idx with
    | none => exact ⟨h, Extends.refl s⟩
    | some p =>
        have hext := c.extends h.arrays hp
        refine ⟨?_, hext.goto⟩
        refine h.moved hext (c.arrays h.arrays hp) rfl (fun a ha => Or.inl ha) ?_ ?_ rfl rfl
          haddr.symm
        · intro a ha
          rw [hnew]
          exact ha
        · exact c.copied_succ hlt hp
  · rename_i hge
    have hidx : idx = (s.arrays expected).size := le_antisymm c.bound (Nat.not_lt.mp hge)
    subst hidx
    refine ⟨?_, (Extends.refl s).goto⟩
    refine h.moved (Extends.refl s) h.arrays rfl (fun a ha => Or.inl ha) ?_ ?_ rfl rfl haddr.symm
    · intro a ha
      rw [hnew]
      exact ha
    · exact c

theorem Sound.exchange (h : s.Sound base)
    (hpc : s.pc t = .exchanging addr new_size expected new_array) :
    (s.exchange t addr new_size expected new_array).Sound base ∧
      Extends s (s.exchange t addr new_size expected new_array) := by
  have haddr : (s.pc t).addr = some addr := by rw [hpc]; rfl
  have hnew : (s.pc t).newArray = some new_array := by rw [hpc]; rfl
  have c : s.Copies addr new_size expected new_array (s.arrays expected).size := by
    have hfits := h.threads.fits t
    rw [hpc] at hfits
    exact hfits
  have hroom : page addr < new_size := by
    rw [c.size]
    exact lt_of_lt_of_le (Nat.lt_succ_self _) (le_next_power_of_two _)
  rw [System.exchange]
  split
  · rename_i hcur
    have hext : Extends s (s.publish new_array) := extends_publish
    refine ⟨?_, hext.goto⟩
    refine h.moved hext (c.publish h.arrays hcur) rfl ?_ ?_ ?_ rfl rfl haddr.symm
    · intro a ha
      obtain rfl | ha := List.mem_cons.mp ha
      · exact Or.inr hnew
      · exact Or.inl ha
    · intro a ha
      cases ha
    · refine ⟨List.mem_cons_self, ?_⟩
      change page addr < (s.arrays new_array).size
      rw [c.room]
      exact hroom
  · split
    · rename_i hgrows
      exact ⟨h.create h.arrays.present hgrows c.size haddr, extends_create⟩
    · rename_i hge
      refine ⟨?_, (Extends.refl s).goto⟩
      refine h.moved (Extends.refl s) h.arrays rfl (fun a ha => Or.inl ha) ?_ ?_ rfl rfl haddr.symm
      · intro a ha
        cases ha
      · exact ⟨h.arrays.present, hroom.trans_le (Nat.not_lt.mp hge)⟩

theorem Sound.addEarly (h : s.Sound base) (hpc : s.pc t = .early addr array) :
    (s.addEarly t addr array).Sound base ∧ Extends s (s.addEarly t addr array) := by
  have haddr : (s.pc t).addr = some addr := by rw [hpc]; rfl
  have hholds : s.Holds addr array := by
    have hfits := h.threads.fits t
    rw [hpc] at hfits
    exact hfits
  rw [System.addEarly]
  split
  · rename_i hearly
    have hext : Extends s (s.AddPage array (page addr + 1)) := extends_addPage
    obtain ⟨hpcs, hpub, hcount, hret, _⟩ := addPage_frame s array (page addr + 1)
    refine ⟨?_, hext.goto⟩
    refine h.moved hext (h.arrays.addPage hholds.1 hearly.2) hpcs ?_ ?_ ?_ hcount hret haddr.symm
    · intro a ha
      exact Or.inl (hpub ▸ ha)
    · intro a ha
      cases ha
    · exact hholds.mono h.arrays hext
  · refine ⟨?_, (Extends.refl s).goto⟩
    refine h.moved (Extends.refl s) h.arrays rfl (fun a ha => Or.inl ha) ?_ ?_ rfl rfl haddr.symm
    · intro a ha
      cases ha
    · exact hholds

theorem Sound.get (h : s.Sound base) (hpc : s.pc t = .getting addr array) :
    (s.get t addr array).Sound base ∧ Extends s (s.get t addr array) := by
  have haddr : (s.pc t).addr = some addr := by rw [hpc]; rfl
  have hholds : s.Holds addr array := by
    have hfits := h.threads.fits t
    rw [hpc] at hfits
    exact hfits
  rw [System.get]
  cases hp : (s.arrays array).pages (page addr) with
  | some p =>
      have hadded := h.arrays.fromAdded array (h.arrays.known array hholds.1) _ p hp
      exact ⟨h.finish (Extends.refl s) h.arrays rfl rfl rfl rfl haddr ⟨p, hadded⟩,
        ⟨le_rfl, fun _ _ => rfl, fun _ _ _ _ h => h, fun _ h => h, fun _ h => h,
          fun _ h => List.mem_cons_of_mem _ h⟩⟩
  | none =>
      refine ⟨?_, (Extends.refl s).goto⟩
      refine h.moved (Extends.refl s) h.arrays rfl (fun a ha => Or.inl ha) ?_ ?_ rfl rfl haddr.symm
      · intro a ha
        cases ha
      · exact hholds

theorem Sound.add (h : s.Sound base) (hpc : s.pc t = .adding addr array) :
    (s.add t addr array).Sound base ∧ Extends s (s.add t addr array) := by
  have haddr : (s.pc t).addr = some addr := by rw [hpc]; rfl
  have hholds : s.Holds addr array := by
    have hfits := h.threads.fits t
    rw [hpc] at hfits
    exact hfits
  have hext : Extends s (s.AddPage array (page addr)) := extends_addPage
  have harr := h.arrays.addPage hholds.1 hholds.2
  have hknown := h.arrays.known array hholds.1
  obtain ⟨p, hp⟩ := page_addPage (page addr) hknown
  obtain ⟨hpcs, hpub, hcount, hret, _⟩ := addPage_frame s array (page addr)
  have hadded := harr.fromAdded array (hknown.trans_le hext.created) _ p hp
  refine ⟨h.finish hext harr hpcs hpub hcount hret haddr ⟨p, hadded⟩, ?_⟩
  exact ⟨hext.created, hext.sizes, hext.pages, hext.published, hext.added,
    fun a ha => List.mem_cons_of_mem _ (hext.returned a ha)⟩

omit [DecidableEq τ] in
theorem Sound.freeLists (h : s.Sound base) (free_list_ : τ → List FreeAddress) :
    { s with free_list_ }.Sound base ∧ Extends s { s with free_list_ } := by
  have hext : Extends s { s with free_list_ } :=
    ⟨le_rfl, fun _ _ => rfl, fun _ _ _ _ h => h, fun _ h => h, fun _ h => h, fun _ h => h⟩
  have hfits : ∀ t, System.Fits { s with free_list_ } (s.pc t) := by
    intro t
    apply fits_mono (h.threads.fits t) h.arrays hext
    intro a ha
    exact (unseen_of_newArray (h.threads.fits t) ha).1
  refine ⟨⟨?_, ⟨hfits, h.threads.own⟩, ?_⟩, hext⟩
  · exact ⟨h.arrays.present, h.arrays.known, h.arrays.powers, h.arrays.replaced, h.arrays.once,
      h.arrays.apart, h.arrays.numbered, h.arrays.fromAdded, h.arrays.inPlace⟩
  · exact h.accounts.keep hext rfl rfl fun _ => rfl

/-- The start of a call.  It draws an address, or it takes one off the free list. -/
theorem Sound.allocate (h : s.Sound base) (hidle : s.pc t = .idle) {safe : Nat}
    (hok : s.Addressable (.Allocate t safe)) :
    (s.Allocate t safe).Sound base ∧ Extends s (s.Allocate t safe) := by
  rw [System.Allocate]
  cases hreuse : s.reusable t safe with
  | some front => exact h.freeLists _
  | none =>
      have hlt : s.count_ < 2 ^ kAddressBits := by
        obtain hsome | hlt := hok
        · rw [hreuse] at hsome
          cases hsome
        · exact hlt
      have hcount : (s.count_ + 1) % 2 ^ 64 = s.count_ + 1 := by
        apply Nat.mod_eq_of_lt
        simp only [kAddressBits] at hlt
        omega
      dsimp only
      rw [hcount]
      have hext : Extends s ({ s with count_ := s.count_ + 1 }.goto t (.drawn s.count_)) :=
        ⟨le_rfl, fun _ _ => rfl, fun _ _ _ _ h => h, fun _ h => h, fun _ h => h, fun _ h => h⟩
      refine ⟨⟨⟨h.arrays.present, h.arrays.known, h.arrays.powers, h.arrays.replaced,
        h.arrays.once, h.arrays.apart, h.arrays.numbered, h.arrays.fromAdded,
        h.arrays.inPlace⟩, ?_, ?_⟩, hext⟩
      · apply h.threads.step h.arrays hext (t := t)
        · intro w hw
          exact pc_goto_of_ne hw
        · exact fun a ha => Or.inl ha
        · intro a ha
          rw [pc_goto] at ha
          cases ha
        · rw [pc_goto]
          trivial
      · apply h.accounts.draw hext hlt rfl rfl (t := t)
        · rw [hidle]
          rfl
        · rw [pc_goto]
          rfl
        · intro w hw
          exact pc_goto_of_ne hw

theorem Sound.next {a : Action τ} (h : s.Sound base) (hok : s.Addressable a)
    (hnext : s.next a = some u) : u.Sound base ∧ Extends s u := by
  cases a with
  | Allocate t safe =>
      simp only [System.next] at hnext
      split at hnext
      · rename_i hidle
        obtain rfl := Option.some.inj hnext
        exact h.allocate hidle hok
      · cases hnext
  | FreeAtEpoch t addr =>
      simp only [System.next] at hnext
      split at hnext
      · obtain rfl := Option.some.inj hnext
        exact h.freeLists _
      · cases hnext
  | proceed t =>
      simp only [System.next, System.proceed] at hnext
      cases hpc : s.pc t with
      | idle =>
          rw [hpc] at hnext
          cases hnext
      | drawn addr =>
          rw [hpc] at hnext
          obtain rfl := Option.some.inj hnext
          exact h.load hpc
      | copying addr new_size expected new_array idx =>
          rw [hpc] at hnext
          obtain rfl := Option.some.inj hnext
          exact h.copy hpc
      | exchanging addr new_size expected new_array =>
          rw [hpc] at hnext
          obtain rfl := Option.some.inj hnext
          exact h.exchange hpc
      | early addr page_array =>
          rw [hpc] at hnext
          obtain rfl := Option.some.inj hnext
          exact h.addEarly hpc
      | getting addr page_array =>
          rw [hpc] at hnext
          obtain rfl := Option.some.inj hnext
          exact h.get hpc
      | adding addr page_array =>
          rw [hpc] at hnext
          obtain rfl := Option.some.inj hnext
          exact h.add hpc

theorem Sound.reaches (h : s.Sound base) (hrun : Reaches System.next System.Addressable s u) :
    u.Sound base ∧ Extends s u := by
  induction hrun with
  | refl => exact ⟨h, Extends.refl s⟩
  | tail _ hlast ih =>
      obtain ⟨a, hok, hnext⟩ := hlast
      obtain ⟨hsound, hext⟩ := ih.1.next hok hnext
      exact ⟨hsound, ih.2.trans hext⟩

end Steps

end System

end HashComp.Expansion
