import HashComp.Index.Model
import HashComp.Library.Claims
import HashComp.Library.Runs

namespace HashComp.Index

open HashComp.Faster
open HashComp.Claims
open HashComp.Runs

variable {K : Type} {L : Layout K} {x y z w : System K} {t u b i j slot : Nat}
  {e e' : HashBucketEntry} {new : Option HashBucketEntry} {pc : Pc K} {key : K}

section Contents

def content (x : System K) (p : Nat × Nat) : Option HashBucketEntry :=
  ((x.buckets p.1)[p.2]?).join

def Near (p q : Nat × Nat) : Prop :=
  p.1 = q.1

def Pc.claim (L : Layout K) : Pc K → Option (Claim (Nat × Nat) (BitVec 14))
  | .tagging key slot | .backing key slot => some ⟨(L.idx key, slot), L.tag key, fun _ => True⟩
  | .checking key slot _ i => some ⟨(L.idx key, slot), L.tag key, fun q => i ≤ q.2⟩
  | .confirming key slot => some ⟨(L.idx key, slot), L.tag key, fun _ => False⟩
  | _ => none

def claims (L : Layout K) (x : System K) (t : Nat) : Option (Claim (Nat × Nat) (BitVec 14)) :=
  (x.pc t).claim L

theorem content_eq_some_iff : content x (b, i) = some e ↔ InSlot (x.buckets b) i e := by
  simp [content, InSlot, Option.join_eq_some_iff]

@[simp] theorem goto_pc_self : (x.goto t pc).pc t = pc :=
  Function.update_self ..

@[simp] theorem content_goto : content (x.goto t pc) = content x := rfl

@[simp] theorem claims_goto : claims L (x.goto t pc) =
    Function.update (claims L x) t (pc.claim L) := by
  funext u
  by_cases hu : u = t
  · subst u
    simp [claims, System.goto]
  · simp [claims, System.goto, hu]

@[simp] theorem claims_setSlot : claims L (x.setSlot b i new) = claims L x := rfl

@[simp] theorem claims_extend : claims L (x.extend b) = claims L x := rfl

theorem content_setSlot (hi : i < (x.buckets b).length) :
    content (x.setSlot b i new) = Function.update (content x) (b, i) new := by
  funext p
  obtain ⟨b', j⟩ := p
  by_cases hb : b' = b
  · subst b'
    by_cases hj : j = i
    · subst j
      simp [content, System.setSlot, hi]
    · have hne : (b, j) ≠ (b, i) := fun h => hj (congrArg Prod.snd h)
      simp [content, System.setSlot, Function.update_of_ne hne, Ne.symm hj]
  · have hne : (b', j) ≠ (b, i) := fun h => hb (congrArg Prod.fst h)
    rw [Function.update_of_ne hne]
    simp [content, System.setSlot, hb]

theorem content_extend : content (x.extend b) = content x := by
  funext p
  obtain ⟨b', j⟩ := p
  by_cases hb : b' = b
  · subst b'
    simp only [content, System.extend, Function.update_self, List.getElem?_append]
    split
    · rfl
    · rename_i hge
      rw [List.getElem?_eq_none (Nat.not_lt.mp hge), List.getElem?_replicate]
      split <;> rfl
  · simp [content, System.extend, hb]

theorem lt_length_of_content (h : content x (b, i) = some e) : i < (x.buckets b).length :=
  (content_eq_some_iff.mp h).lt_length

end Contents

section Invariant

def Pc.Knows (L : Layout K) : Pc K → Prop
  | .checking key _ tag _ => tag = L.tag key
  | .found key _ expected | .exchanging key _ expected _ =>
      expected.tag = L.tag key ∧ expected.tentative = false
  | .collecting _ _ _ _ _ expected => expected.address ≠ kInvalidAddress
  | _ => True

structure Inv (L : Layout K) (x : System K) : Prop where
  sound : Sound HashBucketEntry.tag HashBucketEntry.tentative Near (content x) (claims L x)
  invalid : ∀ p e, content x p = some e → e.tentative = true → e.address = kInvalidAddress
  knows : ∀ t, (x.pc t).Knows L

theorem knows_goto (h : ∀ u, (x.pc u).Knows L) (hpc : pc.Knows L) (u : Nat) :
    ((x.goto t pc).pc u).Knows L := by
  by_cases hu : u = t
  · subst u
    simpa [System.goto] using hpc
  · simpa [System.goto, hu] using h u

theorem Inv.goto (h : Inv L x) (hold : (x.pc t).claim L = none) (hnew : pc.claim L = none)
    (hpc : pc.Knows L) : Inv L (x.goto t pc) where
  sound := by
    rw [content_goto, claims_goto, hnew]
    have hnone : claims L x t = none := hold
    rw [← hnone, Function.update_eq_self]
    exact h.sound
  invalid := h.invalid
  knows := knows_goto h.knows hpc

theorem Inv.look (h : Inv L x) {c c' : Claim (Nat × Nat) (BitVec 14)}
    (hold : (x.pc t).claim L = some c) (hnew : pc.claim L = some c') (hpc : pc.Knows L)
    (hplace : c'.place = c.place) (htag : c'.tag = c.tag)
    (hsees : ∀ i e, (c.place.1, i) ≠ c.place → content x (c.place.1, i) = some e → e.tag = c.tag →
      c.sees (c.place.1, i) → c'.sees (c.place.1, i)) : Inv L (x.goto t pc) where
  sound := by
    rw [content_goto, claims_goto, hnew]
    refine h.sound.look ?_ ?_
    · rintro d' ⟨⟩
      exact ⟨c, hold, hplace, htag⟩
    · rintro d hd ⟨b, i⟩ f hnear hne hf hftag hs
      have heq : d = c := Option.some.inj (hd.symm.trans hold)
      subst heq
      have hb : d.place.1 = b := hnear.elim id Eq.symm
      subst hb
      exact ⟨c', rfl, hplace, hsees i f (Ne.symm hne) hf hftag hs⟩
  invalid := h.invalid
  knows := knows_goto h.knows hpc

theorem Inv.set (h : Inv L x) (hi : i < (x.buckets b).length)
    (hothers : ∀ u, u ≠ t → ¬ Owns (claims L x) u (b, i))
    (htag : ∀ e', new = some e' → ∃ e, content x (b, i) = some e ∧ e.tag = e'.tag)
    (hfinal : ∀ e', new = some e' → e'.tentative = false)
    (hself : ∀ c, (x.pc t).claim L = some c → c.place = (b, i) ∧
      (new = none ∨ ∀ q, ¬ c.sees q)) (hnone : pc.claim L = none) (hpc : pc.Knows L) :
    Inv L ((x.setSlot b i new).goto t pc) where
  sound := by
    rw [content_goto, content_setSlot hi, claims_goto, claims_setSlot, hnone]
    refine h.sound.set hothers htag fun d hd => ?_
    obtain ⟨hplace, hgone⟩ := hself d hd
    exact ⟨hplace, hgone.imp id fun hsees q _ _ _ _ _ => hsees q⟩
  invalid := by
    intro p e he htentative
    rw [content_goto, content_setSlot hi] at he
    by_cases hp : p = (b, i)
    · rw [hp, Function.update_self] at he
      rw [hfinal e he] at htentative
      cases htentative
    · rw [Function.update_of_ne hp] at he
      exact h.invalid p e he htentative
  knows := knows_goto (x := x.setSlot b i new) h.knows hpc

theorem Inv.not_owns (h : Inv L x) (he : content x (b, i) = some e) (hfinal : e.tentative = false)
    (u : Nat) : ¬ Owns (claims L x) u (b, i) :=
  h.sound.not_owns (fun e' he' => by rw [he] at he'; cases he'; exact hfinal) u

theorem Inv.held (h : Inv L x) {c : Claim (Nat × Nat) (BitVec 14)}
    (hc : (x.pc t).claim L = some c) :
    ∃ e, content x c.place = some e ∧ e.tag = c.tag ∧ e.tentative = true :=
  h.sound.held t c hc

theorem Inv.lt_length_of_claim (h : Inv L x) {c : Claim (Nat × Nat) (BitVec 14)}
    (hc : (x.pc t).claim L = some c) : c.place.2 < (x.buckets c.place.1).length := by
  obtain ⟨e, he, -⟩ := h.held hc
  exact lt_length_of_content he

theorem Inv.others (h : Inv L x) {c : Claim (Nat × Nat) (BitVec 14)}
    (hc : (x.pc t).claim L = some c) (hu : u ≠ t) : ¬ Owns (claims L x) u c.place :=
  fun ho => hu (h.sound.exclusive ho ⟨c, hc, rfl⟩)

end Invariant

section Steps

theorem inv_start (growNumChunks : Nat) : Inv L (System.start (K := K) growNumChunks) := by
  have hempty : ∀ p, content (System.start (K := K) growNumChunks) p = none := by
    intro p
    simp only [content, System.start, List.getElem?_replicate]
    split <;> rfl
  constructor
  · exact Sound.empty hempty fun t => rfl
  · intro p e he
    rw [hempty] at he
    cases he
  · intro t
    trivial

theorem Inv.congr (h : Inv L x) (hbuckets : content y = content x) (hpc : y.pc = x.pc) :
    Inv L y := by
  have hclaims : claims L y = claims L x := by
    funext u
    simp [claims, hpc]
  constructor
  · rw [hbuckets, hclaims]
    exact h.sound
  · rw [hbuckets]
    exact h.invalid
  · rw [hpc]
    exact h.knows

theorem Inv.install (h : Inv L x) (hpc : x.pc t = .installing key slot)
    (hfree : (x.buckets (L.idx key))[slot]? = some none) :
    Inv L ((x.setSlot (L.idx key) slot (some ⟨kInvalidAddress, L.tag key, true⟩)).goto t
      (.tagging key slot)) where
  sound := by
    rw [content_goto, content_setSlot (lt_length_of_free hfree), claims_goto, claims_setSlot]
    apply h.sound.acquire (e := ⟨kInvalidAddress, L.tag key, true⟩)
    · simp [content, hfree]
    · simp [claims, hpc, Pc.claim]
    · rfl
  invalid := by
    intro p e he htentative
    rw [content_goto, content_setSlot (lt_length_of_free hfree)] at he
    by_cases hp : p = (L.idx key, slot)
    · rw [hp, Function.update_self] at he
      cases he
      rfl
    · rw [Function.update_of_ne hp] at he
      exact h.invalid p e he htentative
  knows := knows_goto (x := x.setSlot ..) h.knows trivial

theorem Inv.confirm (h : Inv L x) (hpc : x.pc t = .confirming key slot) :
    Inv L ((x.setSlot (L.idx key) slot (some (freshEntry (L.tag key)))).goto t
      (.found key slot (freshEntry (L.tag key)))) := by
  have hclaim : (x.pc t).claim L = some ⟨(L.idx key, slot), L.tag key, fun _ => False⟩ := by
    rw [hpc]
    rfl
  obtain ⟨e, he, htag, -⟩ := h.held hclaim
  refine h.set (h.lt_length_of_claim hclaim) (fun u hu => h.others hclaim hu) ?_ ?_ ?_ rfl
    ⟨rfl, rfl⟩
  · rintro e' ⟨⟩
    exact ⟨e, he, htag⟩
  · rintro e' ⟨⟩
    rfl
  · intro c hc
    rw [hclaim] at hc
    cases hc
    exact ⟨rfl, Or.inr fun q => id⟩

theorem Inv.back (h : Inv L x) (hpc : x.pc t = .backing key slot) :
    Inv L ((x.setSlot (L.idx key) slot none).goto t (.scanning key 0 none)) := by
  have hclaim : (x.pc t).claim L = some ⟨(L.idx key, slot), L.tag key, fun _ => True⟩ := by
    rw [hpc]
    rfl
  refine h.set (h.lt_length_of_claim hclaim) (fun u hu => h.others hclaim hu) ?_ ?_ ?_ rfl trivial
  · rintro e' ⟨⟩
  · rintro e' ⟨⟩
  · intro c hc
    rw [hclaim] at hc
    cases hc
    exact ⟨rfl, Or.inl rfl⟩

/-- An exchange of an entry that is not tentative, by a thread that has none. -/
theorem Inv.exchange (h : Inv L x) (hold : (x.pc t).claim L = none) (hnew : pc.claim L = none)
    (hpc : pc.Knows L) (he : (x.buckets b)[i]? = some (some e)) (hfinal : e.tentative = false)
    (htag : ∀ e', new = some e' → e.tag = e'.tag ∧ e'.tentative = false) :
    Inv L ((x.setSlot b i new).goto t pc) := by
  have hcontent : content x (b, i) = some e := content_eq_some_iff.mpr he
  refine h.set (lt_length_of_content hcontent) (fun u _ => h.not_owns hcontent hfinal u)
    ?_ (fun e' he' => (htag e' he').2) ?_ hnew hpc
  · intro e' he'
    exact ⟨e, hcontent, (htag e' he').1⟩
  · intro c hc
    rw [hold] at hc
    cases hc

theorem Inv.step (h : Inv L x) (hstep : x.step L t = some y) : Inv L y := by
  have hknows := h.knows t
  unfold System.step at hstep
  cases hpc : x.pc t <;> simp only [hpc] at hstep hknows
  case idle | found | faulted => cases hstep
  case scanning key i atomicEntry =>
    have hnone : (x.pc t).claim L = none := by
      rw [hpc]
      rfl
    split at hstep
    · split at hstep <;> cases hstep
      · exact h.goto hnone rfl trivial
      · exact (h.congr content_extend rfl).goto hnone rfl trivial
    · cases hstep
      exact h.goto hnone rfl trivial
    · split at hstep <;> cases hstep
      · rename_i entry _ hmatch
        exact h.goto hnone rfl ⟨hmatch.1.symm, hmatch.2⟩
      · exact h.goto hnone rfl trivial
  case installing key slot =>
    split at hstep <;> cases hstep
    · rename_i hfree
      exact h.install hpc hfree
    · refine h.goto ?_ rfl trivial
      rw [hpc]
      rfl
  case tagging key slot =>
    have hclaim : (x.pc t).claim L = some ⟨(L.idx key, slot), L.tag key, fun _ => True⟩ := by
      rw [hpc]
      rfl
    obtain ⟨e, he, htag, -⟩ := h.held hclaim
    have hslot : (x.buckets (L.idx key))[slot]? = some (some e) := content_eq_some_iff.mp he
    rw [hslot] at hstep
    cases hstep
    exact h.look hclaim rfl htag rfl rfl fun i _ _ _ _ _ => Nat.zero_le i
  case checking key slot tag i =>
    have hclaim : (x.pc t).claim L = some ⟨(L.idx key, slot), L.tag key, fun q => i ≤ q.2⟩ := by
      rw [hpc]
      rfl
    have htag : tag = L.tag key := hknows
    split at hstep
    · rename_i hend
      cases hstep
      refine h.look hclaim rfl trivial rfl rfl fun j f _ hf _ hsees => ?_
      have hlt := lt_length_of_content hf
      have hge := List.getElem?_eq_none_iff.mp hend
      exact absurd hlt (Nat.not_lt.mpr (Nat.le_trans hge hsees))
    · rename_i hfree
      cases hstep
      refine h.look hclaim rfl htag rfl rfl fun j f _ hf _ hsees => ?_
      refine Nat.lt_of_le_of_ne hsees ?_
      rintro rfl
      rw [content_eq_some_iff, InSlot, hfree] at hf
      cases hf
    · rename_i entry hentry
      split at hstep <;> cases hstep
      · exact h.look hclaim rfl trivial rfl rfl fun _ _ _ _ _ _ => trivial
      · rename_i hother
        refine h.look hclaim rfl htag rfl rfl fun j f hne hf hftag hsees => ?_
        refine Nat.lt_of_le_of_ne hsees ?_
        rintro rfl
        rw [content_eq_some_iff, InSlot, hentry] at hf
        cases hf
        refine hother ⟨hftag.trans htag.symm, ?_⟩
        rintro rfl
        exact hne rfl
  case backing key slot =>
    cases hstep
    exact h.back hpc
  case confirming key slot =>
    cases hstep
    exact h.confirm hpc
  case exchanging key slot expected newAddress =>
    have hnone : (x.pc t).claim L = none := by
      rw [hpc]
      rfl
    split at hstep <;> cases hstep
    · rename_i hmatch
      refine h.exchange hnone rfl trivial hmatch hknows.2 ?_
      rintro e' ⟨⟩
      exact ⟨hknows.1, rfl⟩
    · exact h.goto hnone rfl trivial
  case starting chunk =>
    cases hstep
    refine h.goto ?_ rfl trivial
    rw [hpc]
    rfl
  case visiting chunk bound first idx =>
    have hnone : (x.pc t).claim L = none := by
      rw [hpc]
      rfl
    split at hstep
    · have hy : Inv L { x with accessed := bucketOf chunk idx :: x.accessed } := h.congr rfl rfl
      split at hstep <;> cases hstep
      · exact hy.goto hnone rfl trivial
      · exact hy.goto hnone rfl trivial
    · have hy : Inv L { x with processed := chunk :: x.processed } := h.congr rfl rfl
      cases hstep
      exact hy.goto hnone rfl trivial
  case cleaning chunk bound first idx i =>
    have hnone : (x.pc t).claim L = none := by
      rw [hpc]
      rfl
    split at hstep
    · cases hstep
      exact h.goto hnone rfl trivial
    · cases hstep
      exact h.goto hnone rfl trivial
    · split at hstep <;> cases hstep
      · rename_i htruncated
        exact h.goto hnone rfl htruncated.1
      · exact h.goto hnone rfl trivial
  case collecting chunk bound first idx i expected =>
    have hnone : (x.pc t).claim L = none := by
      rw [hpc]
      rfl
    split at hstep <;> cases hstep
    · rename_i hmatch
      refine h.exchange hnone rfl trivial hmatch ?_ ?_
      · have hin : content x (bucketOf chunk idx, i) = some expected :=
          content_eq_some_iff.mpr hmatch
        exact Bool.eq_false_iff.mpr fun htentative => hknows (h.invalid _ _ hin htentative)
      · rintro e' ⟨⟩
    · exact h.goto hnone rfl trivial

theorem Inv.next [DecidableEq K] {m : Move K} (h : Inv L x) (hnext : x.next L m = some y) :
    Inv L y := by
  cases m with
  | call t key =>
      simp only [System.next] at hnext
      split at hnext <;> cases hnext
      rename_i hidle
      refine h.goto ?_ rfl trivial
      rw [hidle]
      rfl
  | run t => exact h.step hnext
  | finish t =>
      simp only [System.next] at hnext
      split at hnext <;> cases hnext
      rename_i hfound
      refine h.goto ?_ rfl trivial
      rw [hfound]
      rfl
  | allocate t address =>
      simp only [System.next] at hnext
      split at hnext
      · rename_i key slot expected hfound
        have hknows := h.knows t
        rw [hfound] at hknows
        have hy : Inv L { x with tailAddress := address + recordSize } := h.congr rfl rfl
        split at hnext <;> cases hnext
        refine hy.goto ?_ rfl hknows
        change (x.pc t).claim L = none
        rw [hfound]
        rfl
      · cases hnext
  | cleanHashTableBuckets t =>
      simp only [System.next] at hnext
      split at hnext
      · rename_i hidle
        have hy : Inv L { x with nextChunk := x.nextChunk + 1 } := h.congr rfl rfl
        split at hnext <;> cases hnext
        · refine hy.goto ?_ rfl trivial
          change (x.pc t).claim L = none
          rw [hidle]
          rfl
        · exact hy
      · cases hnext
  | shiftBeginAddress t address =>
      simp only [System.next] at hnext
      split at hnext <;> cases hnext
      exact h.congr rfl rfl

theorem inv_of_reaches [DecidableEq K] {growNumChunks : Nat} {ok : System K → Move K → Prop}
    (hreach : Reaches (System.next L) ok (System.start growNumChunks) x) : Inv L x :=
  hreach.invariant (inv_start growNumChunks) fun _ _ _ h _ hnext => h.next hnext

end Steps

section Writes

structure Write where
  place : Nat × Nat
  expected : Option (Option HashBucketEntry)
  desired : Option HashBucketEntry

/-- What a thread is about to write. -/
def Pc.write (L : Layout K) : Pc K → Option Write
  | .installing key slot =>
      some ⟨(L.idx key, slot), some none, some ⟨kInvalidAddress, L.tag key, true⟩⟩
  | .backing key slot => some ⟨(L.idx key, slot), none, none⟩
  | .confirming key slot => some ⟨(L.idx key, slot), none, some (freshEntry (L.tag key))⟩
  | .exchanging key slot expected newAddress =>
      some ⟨(L.idx key, slot), some (some expected), some ⟨newAddress, L.tag key, false⟩⟩
  | .collecting chunk _ _ idx i expected =>
      some ⟨(bucketOf chunk idx, i), some (some expected), none⟩
  | _ => none

def Wrote (L : Layout K) (x : System K) (t : Nat) (w : Write) (y : System K) : Prop :=
  (x.pc t).write L = some w ∧ (∀ e, w.expected = some e → content x w.place = e) ∧
    content y = Function.update (content x) w.place w.desired

theorem content_setSlot_or : content (x.setSlot b i new) = content x ∨
    content (x.setSlot b i new) = Function.update (content x) (b, i) new := by
  by_cases hi : i < (x.buckets b).length
  · exact Or.inr (content_setSlot hi)
  · left
    have hset : (x.buckets b).set i new = x.buckets b :=
      List.set_eq_of_length_le (Nat.not_lt.mp hi)
    funext p
    rw [content, System.setSlot, hset, Function.update_eq_self]
    rfl

theorem wrote_of_step (hstep : x.step L t = some y) :
    content y = content x ∨ ∃ w, Wrote L x t w y := by
  have hexpected : ∀ {b i} {c : Option HashBucketEntry}, (x.buckets b)[i]? = some c →
      ∀ e, some c = some e → content x (b, i) = e := by
    rintro b i c hc e ⟨⟩
    simp [content, hc]
  have hset : ∀ {w : Write} {pc : Pc K}, (x.pc t).write L = some w →
      (∀ e, w.expected = some e → content x w.place = e) →
      y = (x.setSlot w.place.1 w.place.2 w.desired).goto t pc →
      content y = content x ∨ ∃ w, Wrote L x t w y := by
    rintro w pc hwrite hexp rfl
    exact content_setSlot_or.imp_right fun h => ⟨w, hwrite, hexp, h⟩
  unfold System.step at hstep
  cases hpc : x.pc t <;> simp only [hpc] at hstep <;> rw [hpc] at hset
  case idle | found | faulted => cases hstep
  case scanning key i atomicEntry =>
    left
    split at hstep
    · split at hstep <;> cases hstep
      · rfl
      · exact content_extend
    · cases hstep
      rfl
    · split at hstep <;> cases hstep <;> rfl
  case installing key slot =>
    split at hstep
    · rename_i hfree
      exact hset rfl (hexpected hfree) (Option.some.inj hstep).symm
    · cases hstep
      exact Or.inl rfl
  case tagging key slot =>
    left
    split at hstep <;> cases hstep <;> rfl
  case checking key slot tag i =>
    left
    split at hstep
    · cases hstep
      rfl
    · cases hstep
      rfl
    · split at hstep <;> cases hstep <;> rfl
  case backing key slot =>
    refine hset rfl ?_ (Option.some.inj hstep).symm
    rintro e ⟨⟩
  case confirming key slot =>
    refine hset rfl ?_ (Option.some.inj hstep).symm
    rintro e ⟨⟩
  case exchanging key slot expected newAddress =>
    split at hstep
    · rename_i hmatch
      exact hset rfl (hexpected hmatch) (Option.some.inj hstep).symm
    · cases hstep
      exact Or.inl rfl
  case starting chunk =>
    left
    cases hstep
    rfl
  case visiting chunk bound first idx =>
    left
    split at hstep
    · split at hstep <;> cases hstep <;> rfl
    · cases hstep
      rfl
  case cleaning chunk bound first idx i =>
    left
    split at hstep
    · cases hstep
      rfl
    · cases hstep
      rfl
    · split at hstep <;> cases hstep <;> rfl
  case collecting chunk bound first idx i expected =>
    split at hstep
    · rename_i hmatch
      exact hset rfl (hexpected hmatch) (Option.some.inj hstep).symm
    · cases hstep
      exact Or.inl rfl

theorem wrote_of_next [DecidableEq K] {m : Move K}
    (hnext : x.next L m = some y) :
    content y = content x ∨ ∃ t w, m = .run t ∧ Wrote L x t w y := by
  cases m with
  | run t =>
      refine (wrote_of_step hnext).imp_right ?_
      rintro ⟨w, hw⟩
      exact ⟨t, w, rfl, hw⟩
  | call t key =>
      left
      simp only [System.next] at hnext
      split at hnext <;> cases hnext
      rfl
  | finish t | shiftBeginAddress t address =>
      left
      simp only [System.next] at hnext
      split at hnext <;> cases hnext
      rfl
  | allocate t address =>
      left
      simp only [System.next] at hnext
      split at hnext
      · split at hnext <;> cases hnext
        rfl
      · cases hnext
  | cleanHashTableBuckets t =>
      left
      simp only [System.next] at hnext
      split at hnext
      · split at hnext <;> cases hnext <;> rfl
      · cases hnext

end Writes

section Calls

variable [DecidableEq K] {m : Move K}

/-- The garbage collection takes the entry out of the slot. -/
def Collects (x : System K) (m : Move K) (p : Nat × Nat) : Prop :=
  ∃ t chunk bound first idx i expected, m = .run t ∧
    x.pc t = .collecting chunk bound first idx i expected ∧ p = (bucketOf chunk idx, i) ∧
    content x p = some expected

/-- A call of `FindOrCreateEntry` for the key returns the slot. -/
def Returns (L : Layout K) (x : System K) (m : Move K) (y : System K) (key : K)
    (slot : Nat) : Prop :=
  x.next L m = some y ∧ ∃ t e, m = .run t ∧ y.pc t = .found key slot e

def Tagged (x : System K) (p : Nat × Nat) (tag : BitVec 14) : Prop :=
  ∃ e, content x p = some e ∧ e.tag = tag ∧ e.tentative = false

theorem Inv.tagged_next {tag : BitVec 14} {p : Nat × Nat} (h : Inv L x)
    (htagged : Tagged x p tag) (hnot : ¬ Collects x m p) (hnext : x.next L m = some y) :
    Tagged y p tag := by
  obtain ⟨e, he, htag, hfinal⟩ := htagged
  rcases wrote_of_next hnext with hsame | ⟨t, w, rfl, hwrite, hexpected, hy⟩
  · exact ⟨e, hsame ▸ he, htag, hfinal⟩
  by_cases hp : p = w.place
  · subst hp
    have hknows := h.knows t
    -- nobody has claimed a slot with such an entry
    have howner : ∀ c, (x.pc t).claim L = some c → c.place ≠ w.place := fun c hc hplace =>
      h.not_owns he hfinal t ⟨c, hc, hplace⟩
    cases hpc : x.pc t <;> rw [hpc] at hwrite hknows howner <;>
      simp only [Pc.write, Option.some.injEq, reduceCtorEq] at hwrite
    case installing key slot =>
      subst hwrite
      rw [hexpected none rfl] at he
      cases he
    case backing key slot | confirming key slot =>
      subst hwrite
      exact absurd rfl (howner _ rfl)
    case exchanging key slot expected newAddress =>
      subst hwrite
      refine ⟨⟨newAddress, L.tag key, false⟩, ?_, ?_, rfl⟩
      · rw [hy, Function.update_self]
      · rw [hexpected (some expected) rfl] at he
        cases he
        exact hknows.1.symm.trans htag
    case collecting chunk bound first idx i expected =>
      subst hwrite
      have hin := hexpected (some expected) rfl
      exact absurd ⟨t, chunk, bound, first, idx, i, expected, rfl, hpc, rfl, hin⟩ hnot
  · refine ⟨e, ?_, htag, hfinal⟩
    rw [hy, Function.update_of_ne hp]
    exact he

theorem Inv.tagged_of_reaches {tag : BitVec 14} {p : Nat × Nat} (h : Inv L x)
    (htagged : Tagged x p tag)
    (hreach : Reaches (System.next L) (fun s m => ¬ Collects s m p) x y) :
    Inv L y ∧ Tagged y p tag :=
  hreach.invariant (I := fun s => Inv L s ∧ Tagged s p tag) ⟨h, htagged⟩
    fun _ _ _ hs hnot hnext => ⟨hs.1.next hnext, hs.1.tagged_next hs.2 hnot hnext⟩

theorem Inv.tagged_of_returns (h : Inv L x) (hreturns : Returns L x m y key slot) :
    Tagged y (L.idx key, slot) (L.tag key) := by
  obtain ⟨hnext, t, e, rfl, hfound⟩ := hreturns
  have hother : ∀ {s : System K} {pc : Pc K}, (s.goto t pc).pc t = .found key slot e →
      pc = .found key slot e := fun h => goto_pc_self.symm.trans h
  simp only [System.next, System.step] at hnext
  cases hpc : x.pc t <;> simp only [hpc] at hnext
  case scanning key' i atomicEntry =>
    split at hnext
    · split at hnext <;> cases hnext <;> cases hother hfound
    · cases hnext
      cases hother hfound
    · rename_i entry hentry
      split at hnext <;> cases hnext <;> cases hother hfound
      rename_i hmatch
      exact ⟨e, content_eq_some_iff.mpr hentry, hmatch.1.symm, hmatch.2⟩
  case confirming key' i =>
    have hlength := h.lt_length_of_claim (t := t)
      (c := ⟨(L.idx key', i), L.tag key', fun _ => False⟩) (by rw [hpc]; rfl)
    cases hnext
    cases hother hfound
    refine ⟨freshEntry (L.tag key), ?_, rfl, rfl⟩
    rw [content_goto, content_setSlot hlength, Function.update_self]
  case idle | found | faulted => cases hnext
  case collecting chunk bound first idx i expected =>
    split at hnext <;> cases hnext <;> cases hother hfound
  case cleaning chunk bound first idx i =>
    split at hnext
    · cases hnext
      cases hother hfound
    · cases hnext
      cases hother hfound
    · split at hnext <;> cases hnext <;> cases hother hfound
  case visiting chunk bound first idx =>
    split at hnext
    · split at hnext <;> cases hnext <;> cases hother hfound
    · cases hnext
      cases hother hfound
  case checking key' i tag j =>
    split at hnext
    · cases hnext
      cases hother hfound
    · cases hnext
      cases hother hfound
    · split at hnext <;> cases hnext <;> cases hother hfound
  case starting | backing =>
    cases hnext
    cases hother hfound
  case installing | tagging | exchanging =>
    split at hnext <;> cases hnext <;> cases hother hfound

theorem one_entry_per_tag {growNumChunks : Nat}
    (hreach : Reaches (System.next L) (fun _ _ => True) (System.start growNumChunks) x) :
    (∀ b i j e f, InSlot (x.buckets b) i e → InSlot (x.buckets b) j f → e.tag = f.tag →
      e.tentative = false → f.tentative = false → i = j) ∧
    ∀ key key' slot slot' m m' y z w, Returns L x m y key slot →
      Reaches (System.next L) (fun s a => ¬ Collects s a (L.idx key, slot)) y z →
      Returns L z m' w key' slot' → L.idx key' = L.idx key → L.tag key' = L.tag key →
      slot' = slot := by
  have h := inv_of_reaches hreach
  constructor
  · intro b i j e f he hf htag hefinal hffinal
    have heq := h.sound.unique (p := (b, i)) (q := (b, j)) rfl (content_eq_some_iff.mpr he)
      (content_eq_some_iff.mpr hf) htag hefinal hffinal
    exact congrArg Prod.snd heq
  · intro key key' slot slot' m m' y z w hreturns hrun hreturns' hidx htag
    obtain ⟨hz, htagged⟩ :=
      (h.next hreturns.1).tagged_of_reaches (h.tagged_of_returns hreturns) hrun
    have hnot : ¬ Collects z m' (L.idx key, slot) := by
      rintro ⟨t, chunk, bound, first, idx, i, expected, rfl, hpc, -⟩
      obtain ⟨hnext, u, e, hu, hfound⟩ := hreturns'
      cases hu
      simp only [System.next, System.step, hpc] at hnext
      split at hnext <;> cases hnext <;> cases goto_pc_self.symm.trans hfound
    obtain ⟨e, he, hetag, hefinal⟩ := hz.tagged_next htagged hnot hreturns'.1
    obtain ⟨f, hf, hftag, hffinal⟩ := hz.tagged_of_returns hreturns'
    have hnear : Near (L.idx key', slot') (L.idx key, slot) := hidx
    have heq := (hz.next hreturns'.1).sound.unique hnear hf he
      (hftag.trans (htag.trans hetag.symm)) hffinal hefinal
    exact congrArg Prod.snd heq

def meetingRun : List (Move Nat) :=
  [.call 0 1] ++ List.replicate 18 (.run 0) ++ [.call 1 2]

theorem one_entry_per_tag_meeting : ∃ x y z : System Nat,
    runActions (System.next oneEntry) (System.start 0) meetingRun = some x ∧
    Returns oneEntry x (.run 0) y 1 0 ∧ Returns oneEntry y (.run 1) z 2 0 ∧
    ∀ slot', Returns oneEntry y (.run 1) z 2 slot' → slot' = 0 := by
  have hview : (runActions (System.next oneEntry) (System.start 0) meetingRun).bind (fun x =>
      (x.next oneEntry (.run 0)).bind fun y => (y.next oneEntry (.run 1)).map fun z =>
        (y.pc 0, z.pc 1)) = some (.found 1 0 (freshEntry 0), .found 2 0 (freshEntry 0)) := by
    decide +kernel
  obtain ⟨x, hx, hview⟩ := Option.bind_eq_some_iff.mp hview
  obtain ⟨y, hy, hview⟩ := Option.bind_eq_some_iff.mp hview
  obtain ⟨z, hz, hview⟩ := Option.map_eq_some_iff.mp hview
  have hfirst : Returns oneEntry x (.run 0) y 1 0 :=
    ⟨hy, 0, _, rfl, congrArg Prod.fst hview⟩
  refine ⟨x, y, z, hx, hfirst, ⟨hz, 1, _, rfl, congrArg Prod.snd hview⟩, fun slot' hslot' => ?_⟩
  have hreach := reaches_of_runActions (admits_of_forall fun _ _ _ => trivial) hx
  exact (one_entry_per_tag hreach).2 _ _ _ _ _ _ _ _ _ hfirst (Reaches.refl y) hslot' rfl rfl

end Calls

end HashComp.Index
