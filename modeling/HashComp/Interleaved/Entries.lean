import HashComp.Interleaved.Model
import HashComp.Library.Ownership

namespace HashComp.Interleaved

open HashComp.Faster
open HashComp.Ownership

variable {K : Type} {L : Layout K} {x y : System K} {t u b i j called : Nat} {op : Request K}
  {e e' : HashBucketEntry} {new : Option HashBucketEntry}

/-- The slot of the tentative entry that a thread has installed. -/
def Pc.slot : Pc → Option Nat
  | .tagging i | .checking i _ _ | .backing i | .confirming i => some i
  | _ => none

/-- A thread at this place, whose tentative entry is in slot `i`, takes it back
if there is an entry with its tag in slot `j`. -/
def Pc.Sees (i j : Nat) : Pc → Prop
  | .tagging slot => slot = i
  | .checking slot _ k => slot = i ∧ k ≤ j
  | .backing slot => slot = i
  | _ => False

def Owns (L : Layout K) (x : System K) (t : Nat) (p : Nat × Nat) : Prop :=
  ∃ op called, x.history.running t = some (op, called) ∧ L.idx op.key = p.1 ∧
    (x.pc t).slot = some p.2

def Watched (L : Layout K) (x : System K) (b i j : Nat) : Prop :=
  ∃ t op called, x.history.running t = some (op, called) ∧ L.idx op.key = b ∧ (x.pc t).Sees i j

structure Entries (L : Layout K) (x : System K) : Prop where
  held : ∀ t op called i, x.history.running t = some (op, called) → (x.pc t).slot = some i →
    InSlot (x.store.buckets (L.idx op.key)) i ⟨kInvalidAddress, L.tag op.key, true⟩
  tagged : ∀ t op called i tag k, x.history.running t = some (op, called) →
    x.pc t = .checking i tag k → tag = L.tag op.key
  exclusive : Exclusive (Owns L x)
  watched : ∀ b i j e e', i ≠ j → InSlot (x.store.buckets b) i e → InSlot (x.store.buckets b) j e' →
    e.tag = e'.tag → Watched L x b i j ∨ Watched L x b j i

structure Moves (x : System K) (t : Nat) (y : System K) : Prop where
  others : ∀ u, u ≠ t → y.pc u = x.pc u
  running : y.history.running = x.history.running

def SlotSet (x y : System K) (b i : Nat) (new : Option HashBucketEntry) : Prop :=
  ∀ b' j e, InSlot (y.store.buckets b') j e ↔
    b' = b ∧ j = i ∧ new = some e ∨ ¬ (b' = b ∧ j = i) ∧ InSlot (x.store.buckets b') j e

theorem Pc.Sees.slot {pc : Pc} (h : pc.Sees i j) : pc.slot = some i := by
  cases pc
  case tagging => exact congrArg some h
  case checking => exact congrArg some h.1
  case backing => exact congrArg some h
  all_goals exact h.elim

theorem Entries.unique (h : Entries L x) (he : InSlot (x.store.buckets b) i e)
    (he' : InSlot (x.store.buckets b) j e') (htag : e.tag = e'.tag) (hfinal : e.tentative = false)
    (hfinal' : e'.tentative = false) : i = j := by
  have hnot : ∀ i j e, InSlot (x.store.buckets b) i e → e.tentative = false →
      ¬ Watched L x b i j := by
    rintro i j e he hfinal ⟨t, op, called, hrunning, rfl, hsees⟩
    have heq := he.unique (h.held t op called i hrunning hsees.slot)
    rw [heq] at hfinal
    cases hfinal
  by_contra hne
  rcases h.watched b i j e e' hne he he' htag with hw | hw
  · exact hnot i j e he hfinal hw
  · exact hnot j i e' he' hfinal' hw

theorem Entries.not_owns (h : Entries L x)
    (hfinal : ∀ e, InSlot (x.store.buckets b) i e → e.tentative = false) (u : Nat) :
    ¬ Owns L x u (b, i) := by
  rintro ⟨op, called, hrunning, hidx, hslot⟩
  have hin := h.held u op called i hrunning hslot
  rw [show L.idx op.key = b from hidx] at hin
  have hfalse := hfinal _ hin
  cases hfalse

theorem Owns.of_moves (h : Owns L y u (b, i)) (hm : Moves x t y) (hu : u ≠ t) :
    Owns L x u (b, i) := by
  obtain ⟨op, called, hrunning, hidx, hslot⟩ := h
  rw [hm.running] at hrunning
  rw [hm.others u hu] at hslot
  exact ⟨op, called, hrunning, hidx, hslot⟩

/-- Whoever watches goes on watching, unless it is the thread that has moved. -/
theorem Watched.moves (h : Watched L x b i j) (hm : Moves x t y)
    (hself : ∀ op called, x.history.running t = some (op, called) → L.idx op.key = b →
      (x.pc t).Sees i j → (y.pc t).Sees i j) : Watched L y b i j := by
  obtain ⟨u, op, called, hrunning, hidx, hsees⟩ := h
  refine ⟨u, op, called, by rwa [hm.running], hidx, ?_⟩
  by_cases hu : u = t
  · subst u
    exact hself op called hrunning hidx hsees
  · rw [hm.others u hu]
    exact hsees

section Keep

theorem Entries.keep (h : Entries L x) (hm : Moves x t y)
    (hrunning : x.history.running t = some (op, called))
    (hslots : ∀ b i e, InSlot (y.store.buckets b) i e ↔ InSlot (x.store.buckets b) i e)
    (hslot : (y.pc t).slot = none ∨ (y.pc t).slot = (x.pc t).slot)
    (htagged : ∀ i tag k, y.pc t = .checking i tag k → tag = L.tag op.key)
    (hsees : ∀ i j e e', InSlot (x.store.buckets (L.idx op.key)) i e →
      InSlot (x.store.buckets (L.idx op.key)) j e' → i ≠ j → e.tag = e'.tag →
      (x.pc t).Sees i j → (y.pc t).Sees i j) : Entries L y where
  held := by
    intro u op' called' i hu hi
    rw [hm.running] at hu
    rw [hslots]
    by_cases hut : u = t
    · subst u
      rcases hslot with hnone | hsame
      · rw [hnone] at hi
        cases hi
      · exact h.held t op' called' i hu (hsame ▸ hi)
    · rw [hm.others u hut] at hi
      exact h.held u op' called' i hu hi
  tagged := by
    intro u op' called' i tag k hu hi
    rw [hm.running] at hu
    by_cases hut : u = t
    · subst u
      rw [hrunning] at hu
      cases hu
      exact htagged i tag k hi
    · rw [hm.others u hut] at hi
      exact h.tagged u op' called' i tag k hu hi
  exclusive := by
    refine h.exclusive.mono fun u p hp => ?_
    by_cases hut : u = t
    · subst u
      obtain ⟨op', called', hu, hidx, hi⟩ := hp
      rcases hslot with hnone | hsame
      · rw [hnone] at hi
        cases hi
      · exact ⟨op', called', hm.running ▸ hu, hidx, hsame ▸ hi⟩
    · exact hp.of_moves hm hut
  watched := by
    intro b i j e e' hij he he' htag
    rw [hslots] at he he'
    rcases h.watched b i j e e' hij he he' htag with hw | hw
    · refine Or.inl (hw.moves hm fun op' called' hu hidx hs => ?_)
      rw [hrunning] at hu
      cases hu
      subst hidx
      exact hsees i j e e' he he' hij htag hs
    · refine Or.inr (hw.moves hm fun op' called' hu hidx hs => ?_)
      rw [hrunning] at hu
      cases hu
      subst hidx
      exact hsees j i e' e he' he (Ne.symm hij) htag.symm hs

theorem Entries.keep_free (h : Entries L x)
    (hothers : ∀ u, u ≠ t → y.pc u = x.pc u ∧ y.history.running u = x.history.running u)
    (hslots : ∀ b i e, InSlot (y.store.buckets b) i e ↔ InSlot (x.store.buckets b) i e)
    (hx : ∀ op called, x.history.running t = some (op, called) → (x.pc t).slot = none)
    (hy : (y.pc t).slot = none) : Entries L y := by
  have hwatched : ∀ {b i j}, Watched L x b i j → Watched L y b i j := by
    rintro b i j ⟨u, op, called, hu, hidx, hs⟩
    have hut : u ≠ t := by
      rintro rfl
      have hnone := hx op called hu
      rw [hs.slot] at hnone
      cases hnone
    obtain ⟨hpc, hrunning⟩ := hothers u hut
    exact ⟨u, op, called, hrunning.trans hu, hidx, by rwa [hpc]⟩
  have hother : ∀ {u i}, (y.pc u).slot = some i → u ≠ t := by
    rintro u i hi rfl
    rw [hy] at hi
    cases hi
  constructor
  · intro u op called i hu hi
    obtain ⟨hpc, hrunning⟩ := hothers u (hother hi)
    rw [hslots]
    exact h.held u op called i (hrunning ▸ hu) (hpc ▸ hi)
  · intro u op called i tag k hu hi
    obtain ⟨hpc, hrunning⟩ := hothers u (hother (by rw [hi]; rfl))
    exact h.tagged u op called i tag k (hrunning ▸ hu) (hpc ▸ hi)
  · refine h.exclusive.mono ?_
    rintro u p ⟨op, called, hu, hidx, hi⟩
    obtain ⟨hpc, hrunning⟩ := hothers u (hother hi)
    exact ⟨op, called, hrunning ▸ hu, hidx, hpc ▸ hi⟩
  · intro b i j e e' hij he he' htag
    rw [hslots] at he he'
    exact (h.watched b i j e e' hij he he' htag).imp hwatched hwatched

theorem Moves.both (h : Moves x t y) (u : Nat) (hu : u ≠ t) :
    y.pc u = x.pc u ∧ y.history.running u = x.history.running u :=
  ⟨h.others u hu, congrFun h.running u⟩

end Keep

section Set

theorem Entries.install (h : Entries L x) (hm : Moves x t y)
    (hrunning : x.history.running t = some (op, called))
    (hfree : ∀ e, ¬ InSlot (x.store.buckets (L.idx op.key)) i e)
    (hset : SlotSet x y (L.idx op.key) i (some ⟨kInvalidAddress, L.tag op.key, true⟩))
    (hx : (x.pc t).slot = none) (hy : y.pc t = .tagging i) : Entries L y where
  held := by
    intro u op' called' j hu hj
    rw [hm.running] at hu
    by_cases hut : u = t
    · subst u
      rw [hrunning] at hu
      cases hu
      rw [hy] at hj
      cases hj
      exact (hset _ _ _).mpr (Or.inl ⟨rfl, rfl, rfl⟩)
    · rw [hm.others u hut] at hj
      have hin := h.held u op' called' j hu hj
      refine (hset _ _ _).mpr (Or.inr ⟨?_, hin⟩)
      rintro ⟨hidx, rfl⟩
      rw [hidx] at hin
      exact hfree _ hin
  tagged := by
    intro u op' called' j tag k hu hj
    rw [hm.running] at hu
    by_cases hut : u = t
    · subst u
      rw [hy] at hj
      cases hj
    · rw [hm.others u hut] at hj
      exact h.tagged u op' called' j tag k hu hj
  exclusive := by
    refine h.exclusive.acquire t (L.idx op.key, i) ?_ fun u p hp => ?_
    · exact h.not_owns fun e he => absurd he (hfree e)
    · by_cases hut : u = t
      · subst u
        obtain ⟨op', called', hu, hidx, hi⟩ := hp
        rw [hm.running, hrunning] at hu
        cases hu
        rw [hy] at hi
        cases hi
        exact Or.inl ⟨rfl, Prod.ext hidx.symm rfl⟩
      · exact Or.inr (hp.of_moves hm hut)
  watched := by
    have hself : ∀ j, Watched L y (L.idx op.key) i j := by
      intro j
      refine ⟨t, op, called, by rwa [hm.running], rfl, ?_⟩
      rw [hy]
      rfl
    intro b j k e e' hjk he he' htag
    rcases (hset b j e).mp he with ⟨rfl, rfl, -⟩ | ⟨-, he⟩
    · exact Or.inl (hself k)
    · rcases (hset b k e').mp he' with ⟨rfl, rfl, -⟩ | ⟨-, he'⟩
      · exact Or.inr (hself j)
      · have hnot : ∀ i j, ¬ (x.pc t).Sees i j := by
          intro i j hs
          rw [hs.slot] at hx
          cases hx
        rcases h.watched b j k e e' hjk he he' htag with hw | hw
        · exact Or.inl (hw.moves hm fun _ _ _ _ hs => absurd hs (hnot _ _))
        · exact Or.inr (hw.moves hm fun _ _ _ _ hs => absurd hs (hnot _ _))

/-- A thread empties a slot that no other thread owns, or gives it an entry with
the same tag, and owns no slot afterwards. -/
theorem Entries.set (h : Entries L x) (hm : Moves x t y)
    (hset : SlotSet x y b i new) (hothers : ∀ u, u ≠ t → ¬ Owns L x u (b, i))
    (htag : ∀ e', new = some e' → ∃ e, InSlot (x.store.buckets b) i e ∧ e.tag = e'.tag)
    (hsees : ∀ op called, x.history.running t = some (op, called) → ∀ j k, (x.pc t).Sees j k →
      L.idx op.key = b ∧ j = i ∧ new = none)
    (hy : (y.pc t).slot = none) : Entries L y where
  held := by
    intro u op' called' j hu hj
    by_cases hut : u = t
    · subst u
      rw [hy] at hj
      cases hj
    · have howns : Owns L x u (L.idx op'.key, j) := by
        rw [hm.running] at hu
        rw [hm.others u hut] at hj
        exact ⟨op', called', hu, rfl, hj⟩
      rw [hm.running] at hu
      rw [hm.others u hut] at hj
      refine (hset _ _ _).mpr (Or.inr ⟨?_, h.held u op' called' j hu hj⟩)
      rintro ⟨hidx, rfl⟩
      exact hothers u hut (hidx ▸ howns)
  tagged := by
    intro u op' called' j tag k hu hj
    by_cases hut : u = t
    · subst u
      rw [hj] at hy
      cases hy
    · rw [hm.running] at hu
      rw [hm.others u hut] at hj
      exact h.tagged u op' called' j tag k hu hj
  exclusive := by
    refine h.exclusive.mono fun u p hp => ?_
    by_cases hut : u = t
    · subst u
      obtain ⟨op', called', -, -, hi⟩ := hp
      rw [hy] at hi
      cases hi
    · exact hp.of_moves hm hut
  watched := by
    -- an entry was there before with the same tag
    have hold : ∀ b' j e, InSlot (y.store.buckets b') j e →
        ∃ e₀, InSlot (x.store.buckets b') j e₀ ∧ e₀.tag = e.tag := by
      intro b' j e he
      rcases (hset b' j e).mp he with ⟨rfl, rfl, hnew⟩ | ⟨-, he⟩
      · exact htag e hnew
      · exact ⟨e, he, rfl⟩
    have hgone : ∀ b' j k e, InSlot (y.store.buckets b') j e → Watched L x b' j k →
        Watched L y b' j k := by
      intro b' j k e he hw
      refine hw.moves hm fun op called hrunning hidx hs => ?_
      obtain ⟨hb, rfl, rfl⟩ := hsees op called hrunning j k hs
      rcases (hset b' j e).mp he with ⟨-, -, hnew⟩ | ⟨hne, -⟩
      · cases hnew
      · exact absurd ⟨hidx.symm.trans hb, rfl⟩ hne
    intro b' j k e e' hjk he he' htag'
    obtain ⟨e₀, he₀, ht₀⟩ := hold b' j e he
    obtain ⟨e₁, he₁, ht₁⟩ := hold b' k e' he'
    rcases h.watched b' j k e₀ e₁ hjk he₀ he₁ (ht₀.trans (htag'.trans ht₁.symm)) with hw | hw
    · exact Or.inl (hgone _ _ _ _ he hw)
    · exact Or.inr (hgone _ _ _ _ he' hw)

end Set

end HashComp.Interleaved
