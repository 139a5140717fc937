import Mathlib.Data.Finset.Disjoint
import Mathlib.Data.Finset.Card
import Mathlib.Data.Multiset.Filter
import Mathlib.Data.Multiset.MapFold
import Mathlib.Logic.Function.Basic

namespace HashComp.Slots

variable {σ ι κ : Type*}

/-- The items in the slots of `places`. -/
def items (places : Finset σ) (content : σ → Option ι) : Multiset ι :=
  places.val.filterMap content

variable {places places' : Finset σ} {content content' : σ → Option ι} {p q : σ} {e f : ι}

theorem mem_items_iff : e ∈ items places content ↔ ∃ p ∈ places, content p = some e := by
  simp only [items, Multiset.mem_filterMap, Finset.mem_val]

theorem items_congr (h : ∀ p ∈ places, content p = content' p) :
    items places content = items places content' := by
  classical
  induction places using Finset.induction_on with
  | empty => rfl
  | insert p places hp ih =>
      have hrest := ih fun q hq => h q (Finset.mem_insert_of_mem hq)
      have hsame := h p (Finset.mem_insert_self p places)
      simp only [items] at hrest ⊢
      rw [Finset.insert_val_of_notMem hp]
      cases he : content' p with
      | none =>
          rw [he] at hsame
          rw [Multiset.filterMap_cons_none _ _ he, Multiset.filterMap_cons_none _ _ hsame, hrest]
      | some e =>
          rw [he] at hsame
          rw [Multiset.filterMap_cons_some _ _ _ he, Multiset.filterMap_cons_some _ _ _ hsame,
            hrest]

theorem items_eq_zero (h : ∀ p ∈ places, content p = none) : items places content = 0 := by
  rw [Multiset.eq_zero_iff_forall_notMem]
  intro e he
  obtain ⟨p, hp, hpe⟩ := mem_items_iff.mp he
  rw [h p hp] at hpe
  cases hpe

theorem items_disjUnion (h : Disjoint places places') :
    items (places.disjUnion places' h) content = items places content + items places' content := by
  simp only [items, Finset.disjUnion_val, Multiset.filterMap_add]

theorem items_map {τ : Type*} (f : τ ↪ σ) (places : Finset τ) :
    items (places.map f) content = items places fun p => content (f p) := by
  simp only [items, Finset.map_val, Multiset.filterMap_map]
  rfl

theorem items_le (h : places' ⊆ places) : items places' content ≤ items places content :=
  Multiset.filterMap_le_filterMap _ (Finset.val_le_iff.mpr h)

theorem card_items_le : (items places content).card ≤ places.card := by
  classical
  induction places using Finset.induction_on with
  | empty => exact Nat.le_refl _
  | insert p places hp ih =>
      rw [items, Finset.insert_val_of_notMem hp, Finset.card_insert_of_notMem hp]
      cases he : content p with
      | none =>
          rw [Multiset.filterMap_cons_none _ _ he]
          exact Nat.le_succ_of_le ih
      | some e =>
          rw [Multiset.filterMap_cons_some _ _ _ he, Multiset.card_cons]
          exact Nat.succ_le_succ ih

theorem card_le_countP {P : ι → Prop} [DecidablePred P] (hsub : places' ⊆ places)
    (h : ∀ p ∈ places', ∃ e, content p = some e ∧ P e) :
    places'.card ≤ (items places content).countP P := by
  classical
  refine Nat.le_trans ?_ (Multiset.countP_le_of_le P (items_le hsub))
  clear hsub
  induction places' using Finset.induction_on with
  | empty => exact Nat.zero_le _
  | insert p places' hp ih =>
      obtain ⟨e, he, hP⟩ := h p (Finset.mem_insert_self p places')
      have hrest := ih fun q hq => h q (Finset.mem_insert_of_mem hq)
      rw [items, Finset.insert_val_of_notMem hp, Multiset.filterMap_cons_some _ _ _ he,
        Multiset.countP_cons_of_pos _ hP, Finset.card_insert_of_notMem hp]
      exact Nat.succ_le_succ hrest

section Update

variable [DecidableEq σ]

theorem items_erase_some (hp : p ∈ places) (he : content p = some e) :
    items places content = e ::ₘ items (places.erase p) content := by
  have hval := Multiset.cons_erase (Finset.mem_val.mpr hp)
  rw [items, ← hval, Multiset.filterMap_cons_some _ _ _ he, items, Finset.erase_val]

theorem items_erase_none (hp : p ∈ places) (he : content p = none) :
    items places content = items (places.erase p) content := by
  have hval := Multiset.cons_erase (Finset.mem_val.mpr hp)
  rw [items, ← hval, Multiset.filterMap_cons_none _ _ he, items, Finset.erase_val]

theorem items_erase_update (x : Option ι) :
    items (places.erase p) (Function.update content p x) = items (places.erase p) content :=
  items_congr fun _ hq => Function.update_of_ne (Finset.ne_of_mem_erase hq) ..

theorem items_fill (hp : p ∈ places) (hfree : content p = none) :
    items places (Function.update content p (some e)) = e ::ₘ items places content := by
  rw [items_erase_some hp (Function.update_self ..), items_erase_update,
    items_erase_none hp hfree]

theorem items_clear (hp : p ∈ places) (he : content p = some e) :
    e ::ₘ items places (Function.update content p none) = items places content := by
  rw [items_erase_none hp (Function.update_self ..), items_erase_update, items_erase_some hp he]

theorem items_overwrite (hp : p ∈ places) (he : content p = some e) :
    e ::ₘ items places (Function.update content p (some f)) = f ::ₘ items places content := by
  rw [items_erase_some hp (Function.update_self ..), items_erase_update, items_erase_some hp he,
    Multiset.cons_swap]

theorem items_move (hp : p ∈ places) (hq : q ∈ places) (he : content p = some e)
    (hfree : content q = none) :
    items places (Function.update (Function.update content q (some e)) p none) =
      items places content := by
  have hne : p ≠ q := by
    rintro rfl
    rw [he] at hfree
    cases hfree
  have hclear := items_clear hp ((Function.update_of_ne hne (some e) content).trans he)
  rw [items_fill hq hfree] at hclear
  exact (Multiset.cons_inj_right e).mp hclear

theorem items_insert_none (he : content p = none) :
    items (insert p places) content = items places content := by
  by_cases hp : p ∈ places
  · rw [Finset.insert_eq_self.mpr hp]
  · rw [items_erase_none (Finset.mem_insert_self p places) he, Finset.erase_insert hp]

end Update

section Keys

variable (key : ι → κ)

theorem eq_of_nodup (h : ((items places content).map key).Nodup) (hp : p ∈ places)
    (hq : q ∈ places) (he : content p = some e) (hf : content q = some f)
    (hkey : key e = key f) : p = q := by
  classical
  by_contra hne
  have hmem : f ∈ items (places.erase p) content :=
    mem_items_iff.mpr ⟨q, Finset.mem_erase.mpr ⟨Ne.symm hne, hq⟩, hf⟩
  rw [items_erase_some hp he, Multiset.map_cons, Multiset.nodup_cons] at h
  exact h.1 (hkey ▸ Multiset.mem_map_of_mem key hmem)

variable [DecidableEq κ]

theorem count_map_items (places : Finset σ) (content : σ → Option ι) (k : κ) :
    ((items places content).map key).count k =
      (places.filter fun p => ∃ e, content p = some e ∧ key e = k).card := by
  classical
  induction places using Finset.induction_on with
  | empty => rfl
  | insert p places hp ih =>
      rw [Finset.filter_insert]
      cases he : content p with
      | none =>
          have hnot : ¬ ∃ e, (none : Option ι) = some e ∧ key e = k := by simp
          rw [items_erase_none (Finset.mem_insert_self p places) he, Finset.erase_insert hp,
            if_neg hnot, ih]
      | some e =>
          rw [items_erase_some (Finset.mem_insert_self p places) he, Finset.erase_insert hp,
            Multiset.map_cons]
          by_cases hk : key e = k
          · have hyes : ∃ f, some e = some f ∧ key f = k := ⟨e, rfl, hk⟩
            rw [if_pos hyes, Finset.card_insert_of_notMem, hk, Multiset.count_cons_self, ih]
            exact fun hmem => hp (Finset.mem_filter.mp hmem).1
          · have hnot : ¬ ∃ f, some e = some f ∧ key f = k := by
              rintro ⟨f, hf, hkf⟩
              cases hf
              exact hk hkf
            rw [if_neg hnot, Multiset.count_cons_of_ne (Ne.symm hk), ih]

omit [DecidableEq κ] in
theorem nodup_map_items (h : ∀ p ∈ places, ∀ q ∈ places, ∀ e f, content p = some e →
    content q = some f → key e = key f → p = q) : ((items places content).map key).Nodup := by
  classical
  rw [Multiset.nodup_iff_count_le_one]
  intro k
  rw [count_map_items, Finset.card_le_one]
  intro p hp q hq
  obtain ⟨hp, e, he, hek⟩ := Finset.mem_filter.mp hp
  obtain ⟨hq, f, hf, hfk⟩ := Finset.mem_filter.mp hq
  exact h p hp q hq e f he hf (hek.trans hfk.symm)

end Keys

end HashComp.Slots
