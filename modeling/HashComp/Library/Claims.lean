import Mathlib.Logic.Function.Basic
import HashComp.Library.Ownership

/-!
Tags put into places without a lock, in two phases.  A thread first puts its tag
into a free place tentatively, which claims the place, and then looks at all other
places near by.  It takes the tag back if it finds another entry with it, and
makes it final if it has seen none.
-/

namespace HashComp.Claims

open HashComp.Ownership

variable {θ σ τ E : Type*} (tag : E → τ) (tentative : E → Bool)

/-- A place where a thread has put a tag tentatively, and where it is still going
to look for another entry with the tag. -/
structure Claim (σ τ : Type*) where
  place : σ
  tag : τ
  sees : σ → Prop

def Owns (claim : θ → Option (Claim σ τ)) (t : θ) (p : σ) : Prop :=
  ∃ c, claim t = some c ∧ c.place = p

def Watched (claim : θ → Option (Claim σ τ)) (p q : σ) : Prop :=
  ∃ t c, claim t = some c ∧ c.place = p ∧ c.sees q

/-- Of two entries with the same tag, one is going to be taken back. -/
structure Sound (near : σ → σ → Prop) (content : σ → Option E)
    (claim : θ → Option (Claim σ τ)) : Prop where
  held : ∀ t c, claim t = some c →
    ∃ e, content c.place = some e ∧ tag e = c.tag ∧ tentative e = true
  exclusive : Exclusive (Owns claim)
  watched : ∀ p q e f, near p q → p ≠ q → content p = some e → content q = some f →
    tag e = tag f → Watched claim p q ∨ Watched claim q p

variable {tag tentative} {near : σ → σ → Prop} {content content' : σ → Option E}
  {claim claim' : θ → Option (Claim σ τ)} {t u : θ} {p q : σ} {e f : E}

theorem Sound.empty (hcontent : ∀ p, content p = none) (hclaim : ∀ t, claim t = none) :
    Sound tag tentative near content claim where
  held := by
    intro t c hc
    rw [hclaim] at hc
    cases hc
  exclusive := by
    rintro t u p ⟨c, hc, -⟩
    rw [hclaim] at hc
    cases hc
  watched := by
    intro p q e f _ _ he
    rw [hcontent] at he
    cases he

theorem Sound.unique (h : Sound tag tentative near content claim) (hnear : near p q)
    (he : content p = some e) (hf : content q = some f) (htag : tag e = tag f)
    (hefinal : tentative e = false) (hffinal : tentative f = false) : p = q := by
  have hnot : ∀ p q e, content p = some e → tentative e = false → ¬ Watched claim p q := by
    rintro p q e he hfinal ⟨t, c, hc, rfl, -⟩
    obtain ⟨e', he', -, htentative⟩ := h.held t c hc
    rw [he] at he'
    cases he'
    rw [hfinal] at htentative
    cases htentative
  by_contra hne
  rcases h.watched p q e f hnear hne he hf htag with hw | hw
  · exact hnot p q e he hefinal hw
  · exact hnot q p f hf hffinal hw

theorem Sound.not_owns (h : Sound tag tentative near content claim)
    (hfinal : ∀ e, content p = some e → tentative e = false) (t : θ) : ¬ Owns claim t p := by
  rintro ⟨c, hc, rfl⟩
  obtain ⟨e, he, -, htentative⟩ := h.held t c hc
  rw [hfinal e he] at htentative
  cases htentative

theorem Owns.of_update [DecidableEq θ] {c : Option (Claim σ τ)}
    (h : Owns (Function.update claim t c) u p) (hne : u ≠ t) : Owns claim u p := by
  obtain ⟨d, hd, hp⟩ := h
  rw [Function.update_of_ne hne] at hd
  exact ⟨d, hd, hp⟩

theorem Watched.update [DecidableEq θ] {c : Option (Claim σ τ)} (h : Watched claim p q)
    (hself : ∀ d, claim t = some d → d.place = p → d.sees q →
      ∃ d', c = some d' ∧ d'.place = p ∧ d'.sees q) :
    Watched (Function.update claim t c) p q := by
  obtain ⟨u, d, hd, hp, hsees⟩ := h
  by_cases hut : u = t
  · subst u
    obtain ⟨d', hc, hp', hsees'⟩ := hself d hd hp hsees
    exact ⟨t, d', (Function.update_self ..).trans hc, hp', hsees'⟩
  · exact ⟨u, d, (Function.update_of_ne hut ..).trans hd, hp, hsees⟩

section Steps

variable [DecidableEq θ]

theorem Sound.look (h : Sound tag tentative near content claim) {c : Option (Claim σ τ)}
    (hplace : ∀ d', c = some d' → ∃ d, claim t = some d ∧ d'.place = d.place ∧ d'.tag = d.tag)
    (hsees : ∀ d, claim t = some d → ∀ q f, near d.place q ∨ near q d.place → d.place ≠ q →
      content q = some f → tag f = d.tag → d.sees q →
      ∃ d', c = some d' ∧ d'.place = d.place ∧ d'.sees q) :
    Sound tag tentative near content (Function.update claim t c) where
  held := by
    intro u d hd
    by_cases hut : u = t
    · subst u
      rw [Function.update_self] at hd
      obtain ⟨d₀, hd₀, hp, htag⟩ := hplace d hd
      rw [hp, htag]
      exact h.held t d₀ hd₀
    · rw [Function.update_of_ne hut] at hd
      exact h.held u d hd
  exclusive := by
    refine h.exclusive.mono fun u p hu => ?_
    by_cases hut : u = t
    · subst u
      obtain ⟨d, hd, rfl⟩ := hu
      rw [Function.update_self] at hd
      obtain ⟨d₀, hd₀, hp, -⟩ := hplace d hd
      exact ⟨d₀, hd₀, hp.symm⟩
    · exact hu.of_update hut
  watched := by
    intro p q e f hnear hne he hf htag
    rcases h.watched p q e f hnear hne he hf htag with hw | hw
    · refine Or.inl (hw.update fun d hd hp hs => ?_)
      subst hp
      obtain ⟨e', he', htag', -⟩ := h.held t d hd
      rw [he] at he'
      cases he'
      exact hsees d hd q f (Or.inl hnear) hne hf (htag.symm.trans htag') hs
    · refine Or.inr (hw.update fun d hd hp hs => ?_)
      subst hp
      obtain ⟨f', hf', htag', -⟩ := h.held t d hd
      rw [hf] at hf'
      cases hf'
      exact hsees d hd p e (Or.inr hnear) (Ne.symm hne) he (htag.trans htag') hs

theorem Sound.acquire [DecidableEq σ] (h : Sound tag tentative near content claim)
    (hfree : content p = none) (hnone : claim t = none) (he : tentative e = true) :
    Sound tag tentative near (Function.update content p (some e))
      (Function.update claim t (some ⟨p, tag e, fun _ => True⟩)) where
  held := by
    intro u d hd
    by_cases hut : u = t
    · subst u
      rw [Function.update_self] at hd
      cases hd
      exact ⟨e, Function.update_self .., rfl, he⟩
    · rw [Function.update_of_ne hut] at hd
      obtain ⟨f, hf, hrest⟩ := h.held u d hd
      have hne : d.place ≠ p := by
        rintro rfl
        rw [hfree] at hf
        cases hf
      exact ⟨f, (Function.update_of_ne hne ..).trans hf, hrest⟩
  exclusive := by
    refine h.exclusive.acquire t p (h.not_owns ?_) fun u q hu => ?_
    · intro e' he'
      rw [hfree] at he'
      cases he'
    · by_cases hut : u = t
      · subst u
        obtain ⟨d, hd, rfl⟩ := hu
        rw [Function.update_self] at hd
        cases hd
        exact Or.inl ⟨rfl, rfl⟩
      · exact Or.inr (hu.of_update hut)
  watched := by
    have hself : ∀ q, Watched (Function.update claim t (some ⟨p, tag e, fun _ => True⟩)) p q :=
      fun q => ⟨t, _, Function.update_self .., rfl, trivial⟩
    intro q r f g hnear hne hf hg htag
    by_cases hq : q = p
    · exact Or.inl (hq ▸ hself r)
    · by_cases hr : r = p
      · exact Or.inr (hr ▸ hself q)
      · rw [Function.update_of_ne hq] at hf
        rw [Function.update_of_ne hr] at hg
        have hold : ∀ d, claim t = some d → False := by
          intro d hd
          rw [hnone] at hd
          cases hd
        exact (h.watched q r f g hnear hne hf hg htag).imp
          (fun hw => hw.update fun d hd => (hold d hd).elim)
          (fun hw => hw.update fun d hd => (hold d hd).elim)

/-- A thread changes what is in a place that no other thread has claimed, but not
the tag, and has no claim afterwards. -/
theorem Sound.set [DecidableEq σ] (h : Sound tag tentative near content claim) {new : Option E}
    (hothers : ∀ u, u ≠ t → ¬ Owns claim u p)
    (htag : ∀ e', new = some e' → ∃ e, content p = some e ∧ tag e = tag e')
    (hself : ∀ d, claim t = some d → d.place = p ∧
      (new = none ∨ ∀ q f, near p q ∨ near q p → p ≠ q → content q = some f → tag f = d.tag →
        ¬ d.sees q)) :
    Sound tag tentative near (Function.update content p new) (Function.update claim t none) where
  held := by
    intro u d hd
    have hut : u ≠ t := by
      rintro rfl
      rw [Function.update_self] at hd
      cases hd
    rw [Function.update_of_ne hut] at hd
    have hne : d.place ≠ p := fun hp => hothers u hut ⟨d, hd, hp⟩
    rw [Function.update_of_ne hne]
    exact h.held u d hd
  exclusive := by
    refine h.exclusive.mono fun u q hu => hu.of_update ?_
    rintro rfl
    obtain ⟨d, hd, -⟩ := hu
    rw [Function.update_self] at hd
    cases hd
  watched := by
    -- an entry with the same tag was there before
    have hold : ∀ q f, Function.update content p new q = some f →
        ∃ g, content q = some g ∧ tag g = tag f := by
      intro q f hf
      by_cases hq : q = p
      · subst q
        rw [Function.update_self] at hf
        exact htag f hf
      · rw [Function.update_of_ne hq] at hf
        exact ⟨f, hf, rfl⟩
    have hkeep : ∀ q r f f₀ g₀, (near q r ∨ near r q) → q ≠ r →
        Function.update content p new q = some f → content q = some f₀ → content r = some g₀ →
        tag f₀ = tag g₀ → Watched claim q r → Watched (Function.update claim t none) q r := by
      intro q r f f₀ g₀ hnear hne hf hf₀ hg₀ htag hw
      refine hw.update fun d hd hp hs => ?_
      subst hp
      obtain ⟨hdp, hgone⟩ := hself d hd
      obtain ⟨f', hf', htag', -⟩ := h.held t d hd
      rw [hf₀] at hf'
      cases hf'
      rcases hgone with rfl | hgone
      · rw [hdp, Function.update_self] at hf
        cases hf
      · exact absurd hs (hgone r g₀ (hdp ▸ hnear) (hdp ▸ hne) hg₀ (htag.symm.trans htag'))
    intro q r f g hnear hne hf hg htag'
    obtain ⟨f₀, hf₀, hft⟩ := hold q f hf
    obtain ⟨g₀, hg₀, hgt⟩ := hold r g hg
    have heq : tag f₀ = tag g₀ := hft.trans (htag'.trans hgt.symm)
    rcases h.watched q r f₀ g₀ hnear hne hf₀ hg₀ heq with hw | hw
    · exact Or.inl (hkeep q r f f₀ g₀ (Or.inl hnear) hne hf hf₀ hg₀ heq hw)
    · exact Or.inr (hkeep r q g g₀ f₀ (Or.inr hnear) (Ne.symm hne) hg hg₀ hf₀ heq.symm hw)

end Steps

end HashComp.Claims
