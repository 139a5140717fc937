import HashComp.Faster.Model

namespace HashComp.Faster

variable {tag : BitVec 14} {bucket bucket' : Bucket} {i j slot : Nat}
  {entry e e' : HashBucketEntry} {atomicEntry : Option Nat}

/-- Slot `i` of the bucket is in use. -/
def InSlot (bucket : Bucket) (i : Nat) (e : HashBucketEntry) : Prop :=
  bucket[i]? = some (some e)

def Untagged (tag : BitVec 14) (bucket : Bucket) : Prop :=
  ∀ i e, InSlot bucket i e → e.tag ≠ tag

structure Settled (bucket : Bucket) : Prop where
  final : ∀ i e, InSlot bucket i e → e.tentative = false
  unique : ∀ i j e e', InSlot bucket i e → InSlot bucket j e' → e.tag = e'.tag → i = j

def freshEntry (tag : BitVec 14) : HashBucketEntry :=
  ⟨kInvalidAddress, tag, false⟩

theorem InSlot.cons (x : Option HashBucketEntry) (h : InSlot bucket i e) :
    InSlot (x :: bucket) (i + 1) e := by
  simpa [InSlot] using h

theorem inSlot_cons_iff {x : Option HashBucketEntry} :
    InSlot (x :: bucket) i e ↔ i = 0 ∧ x = some e ∨ ∃ j, i = j + 1 ∧ InSlot bucket j e := by
  cases i with
  | zero => simp [InSlot]
  | succ i => simp [InSlot]

theorem not_inSlot_nil : ¬ InSlot [] i e := by
  simp [InSlot]

theorem inSlot_set_iff (hi : i < bucket.length) {x : Option HashBucketEntry} :
    InSlot (bucket.set i x) j e ↔ j = i ∧ x = some e ∨ j ≠ i ∧ InSlot bucket j e := by
  by_cases hji : j = i
  · subst j
    simp [InSlot, hi]
  · simp [InSlot, hji, Ne.symm hji]

theorem lt_length_of_free (h : bucket[i]? = some none) : i < bucket.length := by
  by_contra hge
  rw [List.getElem?_eq_none (Nat.not_lt.mp hge)] at h
  cases h

theorem InSlot.lt_length (h : InSlot bucket i e) : i < bucket.length := by
  by_contra hge
  rw [InSlot, List.getElem?_eq_none (Nat.not_lt.mp hge)] at h
  cases h

theorem InSlot.unique (h : InSlot bucket i e) (h' : InSlot bucket i e') : e = e' := by
  have heq := h.symm.trans h'
  cases heq
  rfl

theorem Untagged.of_cons {x : Option HashBucketEntry} (hx : ∀ e, x = some e → e.tag ≠ tag)
    (h : Untagged tag bucket) : Untagged tag (x :: bucket) := by
  intro i e he
  rcases inSlot_cons_iff.mp he with ⟨-, hxe⟩ | ⟨j, -, hj⟩
  · exact hx e hxe
  · exact h j e hj

section Search

theorem findEntry_spec (tag : BitVec 14) (h : ∀ i e, InSlot bucket i e → e.tentative = false) :
    (∃ i e, InSlot bucket i e ∧ e.tag = tag ∧ findEntry tag bucket = some e) ∨
      Untagged tag bucket ∧ findEntry tag bucket = none := by
  induction bucket with
  | nil => exact Or.inr ⟨fun i e he => absurd he not_inSlot_nil, rfl⟩
  | cons x bucket ih =>
      have htail := ih fun i e he => h (i + 1) e (he.cons x)
      cases x with
      | none =>
          rcases htail with ⟨i, e, he, htag, hfind⟩ | ⟨hno, hfind⟩
          · exact Or.inl ⟨i + 1, e, he.cons none, htag, hfind⟩
          · exact Or.inr ⟨hno.of_cons (by simp), hfind⟩
      | some entry =>
          have hfinal := h 0 entry rfl
          by_cases htag : tag = entry.tag
          · exact Or.inl ⟨0, entry, rfl, htag.symm, if_pos ⟨htag, hfinal⟩⟩
          · have hskip : findEntry tag (some entry :: bucket) = findEntry tag bucket :=
              if_neg fun hmatch => htag hmatch.1
            rw [hskip]
            rcases htail with ⟨i, e, he, htag', hfind⟩ | ⟨hno, hfind⟩
            · exact Or.inl ⟨i + 1, e, he.cons _, htag', hfind⟩
            · refine Or.inr ⟨hno.of_cons ?_, hfind⟩
              rintro e ⟨⟩
              exact Ne.symm htag

theorem findTentativeEntry_spec (tag : BitVec 14) (i : Nat) (atomicEntry : Option Nat)
    (h : ∀ i e, InSlot bucket i e → e.tentative = false) :
    (∃ j e, InSlot bucket j e ∧ e.tag = tag ∧
      findTentativeEntry tag i atomicEntry bucket = .found (i + j) e) ∨
    Untagged tag bucket ∧
      ((∃ slot, atomicEntry = some slot ∧
          findTentativeEntry tag i atomicEntry bucket = .free slot) ∨
        (∃ j, bucket[j]? = some none ∧
          findTentativeEntry tag i atomicEntry bucket = .free (i + j)) ∨
        findTentativeEntry tag i atomicEntry bucket = .overflow (i + bucket.length)) := by
  induction bucket generalizing i atomicEntry with
  | nil =>
      refine Or.inr ⟨fun i e he => absurd he not_inSlot_nil, ?_⟩
      cases atomicEntry with
      | none => exact Or.inr (Or.inr rfl)
      | some slot => exact Or.inl ⟨slot, rfl, rfl⟩
  | cons x bucket ih =>
      have hcomm : ∀ j, i + 1 + j = i + (j + 1) := by omega
      have hrest := fun atomicEntry => ih (i + 1) atomicEntry
        fun i e he => h (i + 1) e (he.cons x)
      simp only [hcomm] at hrest
      cases x with
      | none =>
          have hskip : findTentativeEntry tag i atomicEntry (none :: bucket) =
              findTentativeEntry tag (i + 1) (atomicEntry <|> some i) bucket := by
            cases atomicEntry <;> rfl
          rw [hskip]
          rcases hrest (atomicEntry <|> some i) with
            ⟨j, e, he, htag, hfind⟩ | ⟨hno, ⟨slot, hslot, hfind⟩ | ⟨j, hj, hfind⟩ | hfind⟩
          · exact Or.inl ⟨j + 1, e, he.cons none, htag, hfind⟩
          · refine Or.inr ⟨hno.of_cons (by simp), ?_⟩
            cases atomicEntry with
            | none =>
                refine Or.inr (Or.inl ⟨0, rfl, ?_⟩)
                cases hslot
                exact hfind
            | some slot' =>
                cases hslot
                exact Or.inl ⟨_, rfl, hfind⟩
          · exact Or.inr ⟨hno.of_cons (by simp), Or.inr (Or.inl ⟨j + 1, by simpa using hj, hfind⟩)⟩
          · exact Or.inr ⟨hno.of_cons (by simp), Or.inr (Or.inr hfind)⟩
      | some entry =>
          have hfinal := h 0 entry rfl
          by_cases htag : tag = entry.tag
          · refine Or.inl ⟨0, entry, rfl, htag.symm, ?_⟩
            cases atomicEntry <;> exact if_pos ⟨htag, hfinal⟩
          · have hskip : findTentativeEntry tag i atomicEntry (some entry :: bucket) =
                findTentativeEntry tag (i + 1) atomicEntry bucket := by
              cases atomicEntry <;> exact if_neg fun hmatch => htag hmatch.1
            have hhead : ∀ e, some entry = some e → e.tag ≠ tag := by
              rintro e ⟨⟩
              exact Ne.symm htag
            rw [hskip]
            rcases hrest atomicEntry with
              ⟨j, e, he, htag', hfind⟩ | ⟨hno, ⟨slot, hslot, hfind⟩ | ⟨j, hj, hfind⟩ | hfind⟩
            · exact Or.inl ⟨j + 1, e, he.cons _, htag', hfind⟩
            · exact Or.inr ⟨hno.of_cons hhead, Or.inl ⟨slot, hslot, hfind⟩⟩
            · exact Or.inr ⟨hno.of_cons hhead,
                Or.inr (Or.inl ⟨j + 1, by simpa using hj, hfind⟩)⟩
            · exact Or.inr ⟨hno.of_cons hhead, Or.inr (Or.inr hfind)⟩

theorem hasConflictingEntry_eq_false (h : ∀ j e, InSlot bucket j e → e.tag = tag → slot = i + j) :
    hasConflictingEntry tag slot i bucket = false := by
  induction bucket generalizing i with
  | nil => rfl
  | cons x bucket ih =>
      have hrest : hasConflictingEntry tag slot (i + 1) bucket = false := by
        refine ih fun j e he htag => ?_
        have := h (j + 1) e (he.cons x) htag
        omega
      cases x with
      | none => exact hrest
      | some entry =>
          have hself : ¬ (entry.tag = tag ∧ slot ≠ i) := by
            rintro ⟨htag, hne⟩
            exact hne (h 0 entry rfl htag)
          rw [hasConflictingEntry, if_neg hself]
          exact hrest

end Search

section Install

structure Installed (bucket : Bucket) (i : Nat) (e : HashBucketEntry) (bucket' : Bucket) :
    Prop where
  slot : InSlot bucket' i e
  free : ∀ e', ¬ InSlot bucket i e'
  others : ∀ j e', j ≠ i → (InSlot bucket' j e' ↔ InSlot bucket j e')

theorem installEntry_spec (hfree : bucket[i]? = some none) (hno : Untagged tag bucket) :
    installEntry tag i bucket =
      some (i, freshEntry tag, bucket.set i (some (freshEntry tag))) := by
  have hlen := lt_length_of_free hfree
  have hnone : hasConflictingEntry tag i 0 (bucket.set i (some ⟨kInvalidAddress, tag, true⟩)) =
      false := by
    refine hasConflictingEntry_eq_false fun j e he htag => ?_
    rcases (inSlot_set_iff hlen).mp he with ⟨rfl, -⟩ | ⟨-, he⟩
    · exact (Nat.zero_add _).symm
    · exact absurd htag (hno j e he)
  rw [installEntry, if_pos hfree]
  simp only [hnone, List.set_set]
  rfl

theorem installed_set (hfree : bucket[i]? = some none) (e : HashBucketEntry) :
    Installed bucket i e (bucket.set i (some e)) where
  slot := (inSlot_set_iff (lt_length_of_free hfree)).mpr (Or.inl ⟨rfl, rfl⟩)
  free := by
    intro e' he'
    rw [InSlot, hfree] at he'
    cases he'
  others := by
    intro j e' hj
    rw [inSlot_set_iff (lt_length_of_free hfree)]
    simp [hj]

theorem inSlot_append_iff {n : Nat} :
    InSlot (bucket ++ List.replicate n none) j e ↔ InSlot bucket j e := by
  rcases Nat.lt_or_ge j bucket.length with hlt | hge
  · simp [InSlot, List.getElem?_append_left hlt]
  · rw [InSlot, InSlot, List.getElem?_append_right hge, List.getElem?_eq_none hge]
    simp [List.getElem?_replicate]

theorem findOrCreateEntry_spec (tag : BitVec 14)
    (h : ∀ i e, InSlot bucket i e → e.tentative = false) :
    (∃ i e, InSlot bucket i e ∧ e.tag = tag ∧
      findOrCreateEntry tag bucket = some (i, e, bucket)) ∨
    Untagged tag bucket ∧ ∃ i bucket', Installed bucket i (freshEntry tag) bucket' ∧
      findOrCreateEntry tag bucket = some (i, freshEntry tag, bucket') := by
  unfold findOrCreateEntry
  rcases findTentativeEntry_spec tag 0 none h with
    ⟨j, e, he, htag, hfind⟩ | ⟨hno, ⟨slot, hslot, -⟩ | ⟨j, hj, hfind⟩ | hfind⟩
  · refine Or.inl ⟨j, e, he, htag, ?_⟩
    rw [hfind, Nat.zero_add]
  · cases hslot
  · refine Or.inr ⟨hno, j, _, installed_set hj _, ?_⟩
    rw [hfind, Nat.zero_add]
    exact installEntry_spec hj hno
  · have hfree : (bucket ++ List.replicate kNumEntries none)[bucket.length]? = some none := by
      simp [kNumEntries]
    have hno' : Untagged tag (bucket ++ List.replicate kNumEntries none) :=
      fun j e he => hno j e (inSlot_append_iff.mp he)
    have hset := installed_set hfree (freshEntry tag)
    refine Or.inr ⟨hno, bucket.length, _, ⟨hset.slot, fun e' he' => ?_, fun j e' hj => ?_⟩, ?_⟩
    · exact hset.free e' (inSlot_append_iff.mpr he')
    · rw [hset.others j e' hj, inSlot_append_iff]
    · rw [hfind, Nat.zero_add]
      exact installEntry_spec hfree hno'

theorem Settled.installed (h : Settled bucket) (hno : Untagged e.tag bucket)
    (hfinal : e.tentative = false) (hins : Installed bucket i e bucket') : Settled bucket' where
  final := by
    intro j e' he'
    by_cases hji : j = i
    · subst j
      have := hins.slot.symm.trans he'
      cases this
      exact hfinal
    · exact h.final j e' ((hins.others j e' hji).mp he')
  unique := by
    have hself : ∀ e', InSlot bucket' i e' → e' = e := by
      intro e' he'
      have := he'.symm.trans hins.slot
      cases this
      rfl
    intro j k e₁ e₂ h₁ h₂ htag
    by_cases hj : j = i
    · by_cases hk : k = i
      · rw [hj, hk]
      · subst j
        rw [hself e₁ h₁] at htag
        exact absurd htag.symm (hno k e₂ ((hins.others k e₂ hk).mp h₂))
    · by_cases hk : k = i
      · subst k
        rw [hself e₂ h₂] at htag
        exact absurd htag (hno j e₁ ((hins.others j e₁ hj).mp h₁))
      · exact h.unique j k e₁ e₂ ((hins.others j e₁ hj).mp h₁) ((hins.others k e₂ hk).mp h₂) htag

end Install

end HashComp.Faster
