import HashComp.Allocator.Placement

namespace HashComp.Expansion

open HashComp.Allocator (FreeAddress next_power_of_two le_next_power_of_two)
open HashComp.Allocator.FixedPageAddress (kAddressBits kOffsetBits kPageBits)
open HashComp.Runs

namespace System

variable {τ : Type*} {s u : System τ} {new_size n : Nat}

theorem Sound.of_idle (harr : s.Arrays) (hidle : ∀ t, s.pc t = .idle)
    (hbits : s.count_ ≤ 2 ^ kAddressBits) (honce : s.returned.Nodup)
    (hpassed : ∀ a ∈ s.returned, a < s.count_)
    (hplaced : ∀ a ∈ s.returned, ∃ p, (page a, p) ∈ s.added) : s.Sound s.count_ := by
  have haddr : ∀ t a, (s.pc t).addr ≠ some a := by
    intro t a ha
    rw [hidle t] at ha
    cases ha
  refine ⟨harr, ⟨fun t => ?_, fun t v a ha _ => ?_⟩, ⟨le_rfl, hbits, honce, hpassed, ?_, ?_, ?_,
    hplaced⟩⟩
  · rw [hidle t]
    trivial
  · rw [hidle t] at ha
    cases ha
  · exact fun t a ha => absurd ha (haddr t a)
  · exact fun t v a ha _ => absurd ha (haddr t a)
  · exact fun a hle hlt => absurd hle (Nat.not_le.mpr hlt)

/-- The array of the present has room for all the pages that `Recover` reads. -/
theorem foldl_getOrAdd (h : s.Arrays) (hn : n ≤ (s.arrays s.page_array_).size) :
    let u := (List.range n).foldl (fun s idx => s.GetOrAdd s.page_array_ idx) s
    u.Arrays ∧ Extends s u ∧ u.pc = s.pc ∧ u.count_ = s.count_ ∧ u.returned = s.returned ∧
      u.page_array_ = s.page_array_ ∧ ∀ i < n, ∃ p, (i, p) ∈ u.added := by
  induction n with
  | zero => exact ⟨h, Extends.refl s, rfl, rfl, rfl, rfl, fun i hi => absurd hi (Nat.not_lt_zero i)⟩
  | succ n ih =>
      obtain ⟨harr, hext, hpc, hcount, hret, hcur, hadded⟩ := ih (Nat.le_of_succ_le hn)
      rw [List.range_succ, List.foldl_append]
      generalize (List.range n).foldl (fun s idx => s.GetOrAdd s.page_array_ idx) s = x at *
      have hsize : n < (x.arrays x.page_array_).size := by
        rw [hcur, hext.sizes _ (h.known _ h.present)]
        exact hn
      rw [List.foldl_cons, List.foldl_nil]
      have hcases : ∀ {y : System τ}, y.Arrays → Extends s y → y.pc = s.pc → y.count_ = s.count_ →
          y.returned = s.returned → y.page_array_ = s.page_array_ → Extends x y →
          (∃ p, (n, p) ∈ y.added) → y.Arrays ∧ Extends s y ∧ y.pc = s.pc ∧ y.count_ = s.count_ ∧
            y.returned = s.returned ∧ y.page_array_ = s.page_array_ ∧
            ∀ i < n + 1, ∃ p, (i, p) ∈ y.added := by
        intro y hy hsy hypc hycount hyret hycur hxy hnew
        refine ⟨hy, hsy, hypc, hycount, hyret, hycur, fun i hi => ?_⟩
        rcases Nat.lt_succ_iff_lt_or_eq.mp hi with hi | rfl
        · obtain ⟨p, hp⟩ := hadded i hi
          exact ⟨p, hxy.added _ hp⟩
        · exact hnew
      have hknown := harr.known _ harr.present
      rw [GetOrAdd]
      cases hp : (x.arrays x.page_array_).pages n with
      | some p =>
          exact hcases harr hext hpc hcount hret hcur (Extends.refl x)
            ⟨p, harr.fromAdded _ hknown n p hp⟩
      | none =>
          obtain ⟨hpc', _, hcount', hret', hcur'⟩ := addPage_frame x x.page_array_ n
          have hext' : Extends x (x.AddPage x.page_array_ n) := extends_addPage
          have harr' := harr.addPage harr.present hsize
          obtain ⟨p, hp'⟩ := page_addPage n hknown
          exact hcases harr' (hext.trans hext') (hpc'.trans hpc) (hcount'.trans hcount)
            (hret'.trans hret) (hcur'.trans hcur) hext'
            ⟨p, harr'.fromAdded _ (hknown.trans_le hext'.created) n p hp'⟩

theorem expandAlone_spec (h : s.Arrays) (hgrows : (s.arrays s.page_array_).size < new_size)
    (hpower : ∃ k, new_size = 2 ^ k) (hexpand : s.ExpandAlone new_size = some u) :
    u.Arrays ∧ Extends s u ∧ u.pc = s.pc ∧ u.count_ = s.count_ ∧ u.returned = s.returned ∧
      (u.arrays u.page_array_).size = new_size := by
  simp only [ExpandAlone] at hexpand
  split at hexpand
  · rename_i hfull
    obtain rfl := Option.some.inj hexpand
    have hself : ∀ fresh, (s.withArray fresh).arrays s.created = fresh := by
      intro fresh
      exact Function.update_self ..
    refine ⟨?_, extends_withArray.trans extends_publish, rfl, rfl, rfl, ?_⟩
    · apply Arrays.publish
      · apply h.withArray
        intro i p hp
        dsimp only at hp
        split at hp
        · exact h.fromAdded _ (h.known _ h.present) i p hp
        · cases hp
      · exact Nat.lt_succ_self _
      · rw [hself]
        exact hpower
      · change ((s.withArray _).arrays s.page_array_).size < _
        rw [hself, arrays_withArray _ h h.present]
        exact hgrows
      · change ∀ i < ((s.withArray _).arrays s.page_array_).size, ∃ p,
          ((s.withArray _).arrays s.page_array_).pages i = some p ∧ _
        intro i hi
        rw [arrays_withArray _ h h.present] at hi ⊢
        obtain ⟨p, hp⟩ := Option.isSome_iff_exists.mp (hfull i hi)
        refine ⟨p, hp, ?_⟩
        rw [hself]
        dsimp only
        rw [if_pos hi]
        exact hp
    · exact congrArg FixedPageArray.size (hself _)
  · cases hexpand

theorem levels_mono {a b : Nat} (hle : a ≤ b) (hb : b < 2 ^ kAddressBits) :
    levels a ≤ levels b := by
  have hceil : ∀ c, c ≤ b → levels c = (c + (2 ^ kOffsetBits - 1)) / 2 ^ kOffsetBits := by
    intro c hc
    have hoffset : offset c = c % 2 ^ kOffsetBits := rfl
    have hpage : page c = c / 2 ^ kOffsetBits := by
      apply Nat.mod_eq_of_lt
      simp only [kAddressBits, kOffsetBits, kPageBits] at hb ⊢
      omega
    rw [levels, hpage]
    simp only [kOffsetBits] at hoffset ⊢
    rcases Nat.eq_zero_or_pos (offset c) with hzero | hpos
    · rw [if_neg (Nat.not_lt.mpr hzero.le)]
      omega
    · rw [if_pos hpos]
      omega
  rw [hceil a hle, hceil b le_rfl]
  exact Nat.div_le_div_right (Nat.add_le_add_right hle _)

theorem lt_of_levels_pos {a : Nat} (h : 0 < levels a) : 0 < a := by
  rcases Nat.eq_zero_or_pos a with rfl | hpos
  · exact absurd h (by decide)
  · exact hpos

variable [DecidableEq τ]

theorem recover_spec {r : Recovery} (h : s.Arrays) (hidle : ∀ t, s.pc t = .idle)
    (hr : r.Asserts) (honce : s.returned.Nodup) (hpassed : ∀ a ∈ s.returned, a < r.count)
    (hplaced : ∀ a ∈ s.returned, ∃ p, (page a, p) ∈ s.added) (hrec : s.Recover r = some u) :
    u.Sound u.count_ ∧ Extends s u ∧ (∀ t, u.pc t = .idle) ∧ u.count_ = r.count ∧
      ∀ i < r.num_file_levels, ∃ p, (i, p) ∈ u.added := by
  obtain ⟨x, hx, hu⟩ := Option.map_eq_some_iff.mp hrec
  have hexpanded : x.Arrays ∧ Extends s x ∧ x.pc = s.pc ∧ x.returned = s.returned ∧
      r.num_levels ≤ (x.arrays x.page_array_).size := by
    split at hx
    · rename_i hlt
      have hle := le_next_power_of_two r.num_levels
      obtain ⟨harr, hext, hpc, _, hret, hsize⟩ := expandAlone_spec h (hlt.trans_le hle)
        (exists_next_power_of_two _) hx
      exact ⟨harr, hext, hpc, hret, hsize.symm ▸ hle⟩
    · rename_i hge
      obtain rfl := Option.some.inj hx
      exact ⟨h, Extends.refl s, rfl, rfl, Nat.not_lt.mp hge⟩
  obtain ⟨harr, hext, hpc, hret, hsize⟩ := hexpanded
  have hcounted : System.Arrays { x with count_ := r.count } :=
    ⟨harr.present, harr.known, harr.powers, harr.replaced, harr.once, harr.apart, harr.numbered,
      harr.fromAdded, harr.inPlace⟩
  have hlevels : r.num_file_levels ≤ (x.arrays x.page_array_).size :=
    (levels_mono hr.covers hr.address).trans hsize
  obtain ⟨harr', hext', hpc', hcount', hret', _, hadded⟩ := foldl_getOrAdd hcounted hlevels
  rw [hu] at harr' hext' hpc' hcount' hret' hadded
  have hall : Extends s u := by
    refine hext.trans (Extends.trans ?_ hext')
    exact ⟨le_rfl, fun _ _ => rfl, fun _ _ _ _ h => h, fun _ h => h, fun _ h => h, fun _ h => h⟩
  have hidle' : ∀ t, u.pc t = .idle := by
    intro t
    rw [hpc']
    exact (congrFun hpc t).trans (hidle t)
  have hreturned : u.returned = s.returned := hret'.trans hret
  refine ⟨?_, hall, hidle', hcount', hadded⟩
  apply Sound.of_idle harr' hidle'
  · rw [hcount']
    exact hr.address.le
  · rw [hreturned]
    exact honce
  · intro a ha
    rw [hreturned] at ha
    rw [hcount']
    exact hpassed a ha
  · intro a ha
    rw [hreturned] at ha
    obtain ⟨p, hp⟩ := hplaced a ha
    exact ⟨p, hall.added _ hp⟩

variable {t : τ} {safe : Nat}

omit [DecidableEq τ] in
theorem arrays_withPage : (withPage : System τ).Arrays where
  present := List.mem_singleton.mpr rfl
  known := fun a ha => by
    rw [List.mem_singleton.mp ha]
    exact Nat.one_pos
  powers := fun _ _ => ⟨1, rfl⟩
  replaced := fun a ha hne => absurd (List.mem_singleton.mp ha) hne
  once := List.nodup_singleton _
  apart := List.nodup_singleton _
  numbered := fun x hx => by
    rw [List.mem_singleton.mp hx]
    exact Nat.one_pos
  fromAdded := fun a _ i p hp => by
    simp only [withPage] at hp ⊢
    split at hp
    · rename_i hi
      rw [hi, ← Option.some.inj hp]
      exact List.mem_cons_self
    · cases hp
  inPlace := fun x hx => by
    rw [List.mem_singleton.mp hx]
    exact ⟨Nat.two_pos, rfl⟩

theorem initialize_spec (h : Initialize t safe = some s) :
    s.Arrays ∧ (∀ v, s.pc v = .idle) ∧ s.count_ = 1 ∧ s.returned = [0] ∧
      s.added = [(1, 1), (0, 0)] := by
  have hsound : s.Arrays := by
    have hstart : (withPage : System τ).Sound 0 :=
      Sound.of_idle arrays_withPage (fun _ => rfl) (Nat.zero_le _) List.nodup_nil
        (fun a ha => absurd ha (List.not_mem_nil)) (fun a ha => absurd ha (List.not_mem_nil))
    have hadmits : Admits System.next System.Addressable (withPage : System τ)
        [.Allocate t safe, .proceed t, .proceed t, .proceed t] := by
      refine ⟨Or.inr (Nat.two_pow_pos _), ?_⟩
      split
      · trivial
      · apply admits_of_forall
        simp only [List.mem_cons, List.not_mem_nil, or_false, or_self, forall_eq]
        exact fun _ => trivial
    exact (hstart.reaches (reaches_of_runActions hadmits h)).1.arrays
  refine ⟨hsound, ?_⟩
  simp only [Initialize, runActions, System.next, withPage, System.Allocate, reusable, goto,
    proceed, System.load, System.addEarly, System.get, AddPage, page, offset, finish,
    ge_iff_le, Nat.zero_div, Nat.zero_mod, Nat.le_zero_eq, reduceCtorEq, ↓reduceIte, zero_add,
    Nat.reducePow, Nat.one_mod, Function.update_self, Nat.lt_add_one, and_self, one_ne_zero,
    Nat.reduceAdd, Function.update_idem, ne_eq, zero_ne_one, not_false_eq_true,
    Function.update_of_ne, Function.update_eq_self, Option.some.injEq] at h
  subst h
  exact ⟨fun _ => rfl, rfl, rfl, rfl⟩

end System

def installed : Option Recovery → Nat
  | none => 2
  | some r => max 2 r.num_file_levels

/-- No page before the one that the count is on has been left out. -/
def Contiguous : Option Recovery → Prop
  | none => True
  | some r => page r.count ≤ max 2 r.num_file_levels

instance : DecidablePred Contiguous
  | none => .isTrue trivial
  | some _ => inferInstanceAs (Decidable (_ ≤ _))

theorem starts_spec {τ : Type*} [DecidableEq τ] {recovery : Option Recovery} {s : System τ}
    (h : Starts recovery s) : s.Sound s.count_ ∧ (∀ t, s.pc t = .idle) ∧
      (Contiguous recovery → page s.count_ ≤ installed recovery) ∧
      ∀ i < installed recovery, ∃ p, (i, p) ∈ s.added := by
  obtain ⟨t, safe, initialized, hinit, hrec⟩ := h
  obtain ⟨harr, hidle, hcount, hret, hadded⟩ := System.initialize_spec hinit
  have htwo : ∀ i < 2, ∃ p, (i, p) ∈ initialized.added := by
    intro i hi
    rw [hadded]
    match i, hi with
    | 0, _ => exact ⟨0, List.mem_cons_of_mem _ List.mem_cons_self⟩
    | 1, _ => exact ⟨1, List.mem_cons_self⟩
  have hnull : ∀ a ∈ initialized.returned, a = 0 := by
    intro a ha
    rw [hret] at ha
    exact List.mem_singleton.mp ha
  have hplaced : ∀ a ∈ initialized.returned, ∃ p, (page a, p) ∈ initialized.added := by
    intro a ha
    rw [hnull a ha]
    exact htwo 0 Nat.two_pos
  cases recovery with
  | none =>
      obtain rfl := hrec
      refine ⟨?_, hidle, fun _ => ?_, htwo⟩
      · apply System.Sound.of_idle harr hidle _ _ _ hplaced
        · rw [hcount]
          exact Nat.one_le_two_pow
        · rw [hret]
          exact List.nodup_singleton 0
        · intro a ha
          rw [hnull a ha, hcount]
          exact Nat.one_pos
      · rw [hcount]
        decide
  | some r =>
      obtain ⟨hasserts, hrecover⟩ := hrec
      obtain ⟨hsound, hext, hidle', hcount', hlevels⟩ := System.recover_spec harr hidle hasserts
        (hret ▸ List.nodup_singleton 0)
        (fun a ha => hnull a ha ▸ System.lt_of_levels_pos hasserts.counts) hplaced hrecover
      refine ⟨hsound, hidle', fun hgap => hcount' ▸ hgap, fun i hi => ?_⟩
      rcases lt_max_iff.mp hi with hi | hi
      · obtain ⟨p, hp⟩ := htwo i hi
        exact ⟨p, hext.added _ hp⟩
      · exact hlevels i hi

end HashComp.Expansion
