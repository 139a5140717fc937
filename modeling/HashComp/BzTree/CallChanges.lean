import HashComp.BzTree.CallInvariant

namespace HashComp.BzTree.Calls

open HashComp.ByteMemory
open HashComp.Replacement
open HashComp.Threads

variable {parameters : ParameterSet} {owner owner' : Addr → Option Nat} {h h' : Heap} {t u : Nat}
  {a b c g old new : Addr} {n n' m : BaseNode} {threads : Nat → Option Pc} {pc : Pc} {l : LeafPc}

section Nodes

theorem set_self : (h.set a n).nodes a = some n :=
  Function.update_self ..

theorem set_of_ne (hb : b ≠ a) : (h.set a n).nodes b = h.nodes b :=
  Function.update_of_ne hb ..

theorem add_self : (h.add n).nodes h.fresh = some n :=
  Function.update_self ..

theorem add_of_ne (hb : b ≠ h.fresh) : (h.add n).nodes b = h.nodes b :=
  Function.update_of_ne hb ..

theorem Sound.ne_fresh (hs : Sound owner h) (hn : h.nodes a = some n) : a ≠ h.fresh := by
  rintro rfl
  rw [hs.fresh _ (Nat.le_refl _)] at hn
  cases hn

theorem Sound.add_node (hs : Sound owner h) (hn : h.nodes a = some n) : (h.add m).nodes a = some n :=
  (add_of_ne (hs.ne_fresh hn)).trans hn

theorem Sound.lt_fresh (hs : Sound owner h) (hn : h.nodes a = some n) : a < h.fresh := by
  refine Nat.lt_of_not_le fun hle => ?_
  rw [hs.fresh a hle] at hn
  cases hn

theorem Sound.toNat (hs : Sound owner h) (hn : h.nodes a = some n) : (BitVec.ofNat 64 a).toNat = a := by
  rw [BitVec.toNat_ofNat]
  exact Nat.mod_eq_of_lt (Nat.lt_of_lt_of_le (hs.lt_fresh hn) hs.bounded)

theorem Sound.ne_zero (hs : Sound owner h) (hn : h.nodes a = some n) : a ≠ 0 := by
  rintro rfl
  rw [hs.null] at hn
  cases hn

theorem exists_set (hb : ∃ m, h.nodes b = some m) : ∃ m, (h.set a n).nodes b = some m := by
  rcases eq_or_ne b a with rfl | hne
  · exact ⟨n, set_self⟩
  · rwa [set_of_ne hne]

end Nodes

section Sets

theorem Sound.set (hs : Sound owner h) (hn : h.nodes a = some n)
    (hchildren : ∀ c ∈ n'.children, Handed owner h c)
    (hinner : n'.isLeaf = false → ∃ E, n'.Inner E) : Sound owner (h.set a n') := by
  refine ⟨⟨hs.root.1, exists_set hs.root.2⟩, fun b m c hb hc => ?_, fun b hb => ?_, ?_, hs.bounded,
    fun b m hb hleaf => ?_⟩
  · rcases eq_or_ne b a with rfl | hne
    · cases set_self.symm.trans hb
      exact ⟨exists_set (hchildren c hc).2, Or.inl (hchildren c hc).1⟩
    · obtain ⟨hnode, howner⟩ := hs.child b m c ((set_of_ne hne).symm.trans hb) hc
      exact ⟨exists_set hnode, howner⟩
  · exact (set_of_ne (Nat.ne_of_gt (Nat.lt_of_lt_of_le (hs.lt_fresh hn) hb))).trans (hs.fresh b hb)
  · exact (set_of_ne (hs.ne_zero hn).symm).trans hs.null
  · rcases eq_or_ne b a with rfl | hne
    · cases set_self.symm.trans hb
      exact hinner hleaf
    · exact hs.inner b m ((set_of_ne hne).symm.trans hb) hleaf

theorem Keeps.set (hn : h.nodes a = some n) (ha : owner a = none) (hlike : Like n n') (u : Nat) :
    Keeps owner h owner (h.set a n') u := by
  refine ⟨fun b m hb => ?_, fun b hb => hb.1, fun b hb => ⟨hb.1, ?_⟩⟩
  · rcases eq_or_ne b a with rfl | hne
    · cases hn.symm.trans hb
      exact ⟨n', set_self, hlike⟩
    · exact ⟨m, (set_of_ne hne).trans hb, Like.refl m⟩
  · refine set_of_ne ?_
    rintro rfl
    cases ha.symm.trans hb.1

/-- Nothing is stored or lost where a node is exchanged for one with the same children and
records. -/
theorem contents_set (hn : h.nodes a = some n) (hleaf : n'.isLeaf = n.isLeaf)
    (hchildren : n'.children = n.children) (hentries : n'.visibleEntries = n.visibleEntries) :
    (h.set a n').contents = h.contents := by
  refine Set.ext fun e => below_congr (S := fun _ => True) (fun _ _ _ _ => trivial) (fun b _ => ?_)
    trivial
  rcases eq_or_ne b a with rfl | hne
  · exact graph_congr hn set_self hleaf hchildren hentries
  · exact graph_of_same (set_of_ne hne)

end Sets

section Adds

theorem Sound.add (hs : Sound owner h)
    (hchildren : ∀ c ∈ n.children, Handed owner h c ∨ Mine owner h t c)
    (hinner : n.isLeaf = false → ∃ E, n.Inner E) (hroom : h.fresh + 1 ≤ 2 ^ 64) :
    Sound (Function.update owner h.fresh (some t)) (h.add n) := by
  have howner : ∀ {b m}, h.nodes b = some m → Function.update owner h.fresh (some t) b = owner b :=
    fun hb => Function.update_of_ne (hs.ne_fresh hb) ..
  have hexists : ∀ {b}, (∃ m, h.nodes b = some m) → ∃ m, (h.add n).nodes b = some m :=
    fun ⟨m, hm⟩ => ⟨m, hs.add_node hm⟩
  obtain ⟨r, hr⟩ := hs.root.2
  refine ⟨⟨(howner hr).trans hs.root.1, hexists ⟨r, hr⟩⟩, fun b m c hb hc => ?_, fun b hb => ?_, ?_,
    hroom, fun b m hb hleaf => ?_⟩
  · rcases eq_or_ne b h.fresh with rfl | hne
    · cases add_self.symm.trans hb
      rw [Function.update_self]
      rcases hchildren c hc with ⟨hc, k, hk⟩ | ⟨hc, k, hk⟩
      · exact ⟨hexists ⟨k, hk⟩, Or.inl ((howner hk).trans hc)⟩
      · exact ⟨hexists ⟨k, hk⟩, Or.inr ((howner hk).trans hc)⟩
    · have hb' := (add_of_ne hne).symm.trans hb
      obtain ⟨⟨k, hk⟩, hc'⟩ := hs.child b m c hb' hc
      rw [howner hk, howner hb']
      exact ⟨hexists ⟨k, hk⟩, hc'⟩
  · have hlt : h.fresh < b := hb
    exact (add_of_ne (Nat.ne_of_gt hlt)).trans (hs.fresh b hlt.le)
  · exact (add_of_ne (Nat.ne_of_lt (Nat.lt_of_le_of_lt (Nat.zero_le _) (hs.lt_fresh hr)))).trans hs.null
  · rcases eq_or_ne b h.fresh with rfl | hne
    · cases add_self.symm.trans hb
      exact hinner hleaf
    · exact hs.inner b m ((add_of_ne hne).symm.trans hb) hleaf

theorem Keeps.add (hs : Sound owner h) (u : Nat) :
    Keeps owner h (Function.update owner h.fresh (some t)) (h.add n) u := by
  have howner : ∀ {b m}, h.nodes b = some m → Function.update owner h.fresh (some t) b = owner b :=
    fun hb => Function.update_of_ne (hs.ne_fresh hb) ..
  refine ⟨fun b m hb => ⟨m, hs.add_node hb, Like.refl m⟩, fun b hb => ?_, fun b hb => ?_⟩
  · obtain ⟨ho, m, hm⟩ := hb
    exact (howner hm).trans ho
  · obtain ⟨ho, m, hm⟩ := hb
    exact ⟨(howner hm).trans ho, (hs.add_node hm).trans hm.symm⟩

theorem below_add (hs : Sound owner h) (hm : h.nodes a = some m) {e : Entry} :
    Below (h.add n).graph a e ↔ Below h.graph a e := by
  refine below_congr (S := fun b => ∃ m, h.nodes b = some m) (fun b hb c hc => ?_)
    (fun b hb => ?_) ⟨m, hm⟩
  · obtain ⟨k, hk⟩ := hb
    rw [graph_children hk] at hc
    exact (hs.child b k c hk hc).1
  · obtain ⟨k, hk⟩ := hb
    exact graph_of_same ((hs.add_node hk).trans hk.symm)

theorem contents_add (hs : Sound owner h) : (h.add n).contents = h.contents := by
  obtain ⟨r, hr⟩ := hs.root.2
  exact Set.ext fun e => below_add hs hr

theorem mine_add : Mine (Function.update owner h.fresh (some t)) (h.add n) t h.fresh :=
  ⟨Function.update_self .., n, add_self⟩

end Adds

section Releases

def released (owner : Addr → Option Nat) (t : Nat) (a : Addr) : Option Nat :=
  if owner a = some t then none else owner a

theorem released_of_none (ha : owner a = none) : released owner t a = none := by
  rw [released, ha]
  rfl

theorem released_mine (ha : owner a = some t) : released owner t a = none :=
  if_pos ha

theorem Sound.release (hs : Sound owner h) : Sound (released owner t) h := by
  refine ⟨⟨released_of_none hs.root.1, hs.root.2⟩, fun b m c hb hc => ?_, hs.fresh, hs.null, hs.bounded,
    hs.inner⟩
  obtain ⟨hnode, hc'⟩ := hs.child b m c hb hc
  refine ⟨hnode, hc'.imp released_of_none fun hsame => ?_⟩
  rw [released, released, hsame]

theorem Keeps.release (hu : u ≠ t) : Keeps owner h (released owner t) h u := by
  refine ⟨fun b m hb => ⟨m, hb, Like.refl m⟩, fun b hb => released_of_none hb.1, fun b hb => ⟨?_, rfl⟩⟩
  rw [released, hb.1, if_neg (fun heq => hu (Option.some.inj heq))]

theorem Mine.handed (ha : Mine owner h t a) : Handed (released owner t) h a :=
  ⟨released_mine ha.1, ha.2⟩

end Releases

section Threads

theorem working_update {o : Option Pc} : working (Function.update threads t o) a =
    Function.update (working threads a) t (o.bind (Pc.at? a)) := by
  funext u
  rcases eq_or_ne u t with rfl | hne
  · rw [working, Function.update_self, Function.update_self]
  · rw [working, Function.update_of_ne hne, Function.update_of_ne hne, working]

theorem knows_at? (hk : pc.Knows parameters owner h t) (hl : pc.at? a = some l) :
    Handed owner h a ∧ l.LocalOk parameters := by
  cases pc with
  | leaf j b l' =>
      simp only [Pc.at?] at hl
      split at hl
      · rename_i hb
        cases hl
        subst hb
        exact ⟨hk.2.1, hk.2.2.2⟩
      · cases hl
  | land | descend | reading | readPayload | freezing | splitLeaf | newRoot | splitParent | install
  | update | done | aborted => cases hl

theorem Inv.working_spec (hi : Inv parameters owner h threads) (hl : working threads a u = some l) :
    Handed owner h a ∧ l.LocalOk parameters := by
  obtain ⟨pc, hpc, hl⟩ := Option.bind_eq_some_iff.mp hl
  exact knows_at? (hi.knows u pc hpc) hl

/-- A thread goes on at a place where it has reserved nothing, comes or goes. -/
theorem Inv.update (hi : Inv parameters owner h threads) {o : Option Pc}
    (ho : ∀ pc, o = some pc → pc.Knows parameters owner h t ∧
      ∀ a l, pc.at? a = some l → l.reserved? = none) :
    Inv parameters owner h (Function.update threads t o) := by
  refine ⟨hi.sound, fun a n hn hleaf => ?_, fun u pc hu => ?_⟩
  · rw [working_update]
    refine (hi.laid a n hn hleaf).update fun l hl => ?_
    obtain ⟨pc, hpc, hl⟩ := Option.bind_eq_some_iff.mp hl
    obtain ⟨hk, hat⟩ := ho pc hpc
    exact ⟨hat a l hl, (knows_at? hk hl).2⟩
  · rcases update_eq_some hu with ⟨rfl, hpc⟩ | ⟨-, hpc⟩
    · exact (ho pc hpc).1
    · exact hi.knows u pc hpc

theorem Inv.move (hi : Inv parameters owner h threads) (hk : pc.Knows parameters owner h t)
    (hat : ∀ a l, pc.at? a = some l → l.reserved? = none) :
    Inv parameters owner h (Function.update threads t (some pc)) := by
  refine hi.update fun pc' hpc => ?_
  cases hpc
  exact ⟨hk, hat⟩

theorem Inv.moveOff (hi : Inv parameters owner h threads) (hk : pc.Knows parameters owner h t)
    (hat : ∀ a, pc.at? a = none) : Inv parameters owner h (Function.update threads t (some pc)) :=
  hi.move hk fun a l hl => by
    rw [hat a] at hl
    cases hl

theorem Inv.set (hi : Inv parameters owner h threads) (hn : h.nodes a = some n)
    (ha : owner a = none) (hlike : Like n n') (hchildren : ∀ c ∈ n'.children, Handed owner h c)
    (hinner : n'.isLeaf = false → ∃ E, n'.Inner E)
    (hlaid : n'.isLeaf = true → Laid parameters n' (working threads a)) :
    Inv parameters owner (h.set a n') threads := by
  refine ⟨hi.sound.set hn hchildren hinner, fun b m hb hleaf => ?_,
    fun u pc hu => (Keeps.set hn ha hlike u).knows (hi.knows u pc hu)⟩
  rcases eq_or_ne b a with rfl | hne
  · cases set_self.symm.trans hb
    exact hlaid hleaf
  · exact hi.laid b m ((set_of_ne hne).symm.trans hb) hleaf

theorem Inv.add (hi : Inv parameters owner h threads)
    (hchildren : ∀ c ∈ n.children, Handed owner h c ∨ Mine owner h t c)
    (hinner : n.isLeaf = false → ∃ E, n.Inner E) (hroom : h.fresh + 1 ≤ 2 ^ 64)
    (hlaid : n.isLeaf = true → Laid parameters n nobody) :
    Inv parameters (Function.update owner h.fresh (some t)) (h.add n) threads := by
  refine ⟨hi.sound.add hchildren hinner hroom, fun b m hb hleaf => ?_,
    fun u pc hu => (Keeps.add hi.sound u).knows (hi.knows u pc hu)⟩
  rcases eq_or_ne b h.fresh with rfl | hne
  · cases add_self.symm.trans hb
    refine (hlaid hleaf).of_threads (fun u l key r hl _ => ?_) fun u l hl => (hi.working_spec hl).2
    obtain ⟨k, hk⟩ := (hi.working_spec hl).1.2
    exact absurd rfl (hi.sound.ne_fresh hk)
  · exact hi.laid b m ((add_of_ne hne).symm.trans hb) hleaf

theorem Inv.release (hi : Inv parameters owner h threads) {j : Job}
    (ht : threads t = some (.land j)) : Inv parameters (released owner t) h threads := by
  refine ⟨hi.sound.release, hi.laid, fun u pc hu => ?_⟩
  rcases eq_or_ne u t with rfl | hne
  · cases ht.symm.trans hu
    exact hi.knows u _ hu
  · exact (Keeps.release hne).knows (hi.knows u pc hu)

end Threads

section Freezing

theorem like_freeze : Like n n.freeze :=
  ⟨rfl, fun _ => ⟨rfl, rfl⟩, fun _ => ⟨rfl, rfl, rfl⟩⟩

theorem inner_freeze {E : List Entry} (hn : n.Inner E) : n.freeze.Inner E :=
  ⟨⟨hn.stores.inner, hn.stores.size, hn.stores.count, hn.stores.stacked.congr rfl rfl⟩, hn.dummy⟩

theorem Sound.handed_child (hs : Sound owner h) (hn : h.nodes a = some n) (ha : owner a = none)
    (hc : c ∈ n.children) : Handed owner h c := by
  obtain ⟨hnode, howner⟩ := hs.child a n c hn hc
  exact ⟨howner.elim id fun heq => heq.trans ha, hnode⟩

theorem Inv.freeze (hi : Inv parameters owner h threads) (hn : h.nodes a = some n)
    (ha : owner a = none) : Inv parameters owner (h.set a n.freeze) threads := by
  refine hi.set hn ha like_freeze (fun c hc => hi.sound.handed_child hn ha hc) (fun hleaf => ?_)
    fun hleaf => (hi.laid a n hn hleaf).freeze
  obtain ⟨E, hE⟩ := hi.sound.inner a n hn hleaf
  exact ⟨E, inner_freeze hE⟩

end Freezing

section Installs

theorem exists_child {E : List Entry} (hin : n.Inner E) {i offset keyLength totalLength : Nat}
    {visible : Bool} (hlt : i < n.sortedCount)
    (hm : n.recordMetadata i = .record visible offset keyLength totalLength) :
    ∃ X z Y, E = X ++ z :: Y ∧ X.length = i ∧ z.payload = n.payload offset keyLength := by
  have hlt' : i < E.length := by
    rw [← hin.stores.count]
    exact hlt
  obtain ⟨o, ho⟩ := hin.stores.holdsAt (List.getElem?_eq_getElem hlt')
  have hmeta := ho.metadata
  rw [hm, RecordMetadata.finalizeForInsert] at hmeta
  injection hmeta with _ hoff hlen
  refine ⟨E.take i, E[i], E.drop (i + 1), ?_, List.length_take_of_le hlt'.le, ?_⟩
  · rw [List.getElem_cons_drop, List.take_append_drop]
  · rw [hoff, hlen]
    exact ho.payload.symm

/-- A pointer of a node that is not frozen is exchanged, and the new node is handed out. -/
theorem Inv.install (hi : Inv parameters owner h threads) {j : Job} (ht : threads t = some (.land j))
    (hn : h.nodes g = some n) (hg : owner g = none) (hinternal : n.isLeaf = false)
    (hopen : n.status.frozen = false) {i offset keyLength totalLength : Nat} {visible : Bool}
    (hlt : i < n.sortedCount) (hm : n.recordMetadata i = .record visible offset keyLength totalLength)
    (hold : Handed owner h old) (hpayload : n.payload offset keyLength = BitVec.ofNat 64 old)
    (htakes : Takes owner h t old [new]) :
    let n' := { n with data := writeWord n.data (offset + padKeyLength keyLength) (BitVec.ofNat 64 new) }
    Inv parameters (released owner t) (h.set g n') threads ∧ (h.set g n').contents = h.contents := by
  intro n'
  obtain ⟨E, hin⟩ := hi.sound.inner g n hn hinternal
  obtain ⟨X, z, Y, rfl, rfl, hz⟩ := exists_child hin hlt hm
  obtain ⟨n₁, hset, hin'⟩ := hin.setPayload (BitVec.ofNat 64 new)
  have hn₁ : n' = n₁ := by
    rw [BaseNode.setPayload, hm] at hset
    exact Option.some.inj hset
  rw [← hn₁] at hin'
  have hnew := htakes.all_mine new (List.mem_singleton_self new)
  obtain ⟨k, hk⟩ := hold.2
  obtain ⟨k', hk'⟩ := hnew.2
  have haddr : z.payload.toNat = old := by rw [hz, hpayload, hi.sound.toNat hk]
  have haddr' : (BitVec.ofNat 64 new).toNat = new := hi.sound.toNat hk'
  have hchildren : n.children = (X.map fun e => e.payload.toNat) ++ old ::
      Y.map fun e => e.payload.toNat := by
    rw [hin.stores.children, List.map_append, List.map_cons, haddr]
  have hchildren' : n'.children = (X.map fun e => e.payload.toNat) ++ new ::
      Y.map fun e => e.payload.toNat := by
    rw [hin'.stores.children, List.map_append, List.map_cons, haddr']
  have hlike : Like n n' := ⟨rfl, fun _ => ⟨rfl, rfl⟩, fun hfrozen => by
    rw [hopen] at hfrozen
    cases hfrozen⟩
  have hnone : released owner t g = none := released_of_none hg
  refine ⟨(hi.release ht).set hn hnone hlike (fun c hc => ?_) (fun _ => ⟨_, hin'⟩) fun hleaf => ?_,
    Set.ext fun e => ?_⟩
  · rw [hchildren', List.mem_append, List.mem_cons] at hc
    have hother : ∀ c ∈ n.children, Handed (released owner t) h c := fun c hc => by
      obtain ⟨ho, hnode⟩ := hi.sound.handed_child hn hg hc
      exact ⟨released_of_none ho, hnode⟩
    rw [hchildren] at hother
    rcases hc with hX | rfl | hY
    · exact hother c (by simp [hX])
    · exact hnew.handed
    · exact hother c (by simp [hY])
  · cases hinternal.symm.trans hleaf
  · have hkeep : Keeps owner h owner (h.set g n') t := Keeps.set hn hg hlike t
    refine below_of_swap g old new (fun b hb => ?_) (fun b => ?_)
      ((graph_children hn).trans hchildren) ((graph_children set_self).trans hchildren') (fun e => ?_)
      fun e => ?_
    · exact (graph_of_same (set_of_ne hb)).1
    · rcases eq_or_ne b g with rfl | hne
      · exact (items_of_internal (n := n') set_self hinternal).trans
          (items_of_internal hn hinternal).symm
      · exact (graph_of_same (set_of_ne hne)).2
    · rw [htakes.below_iff e]
      simp only [List.mem_singleton, exists_eq_left]
    · rw [(hkeep.takes htakes).below_iff e]
      simp only [List.mem_singleton, exists_eq_left]

theorem Inv.changeRoot (hi : Inv parameters owner h threads) {j : Job}
    (ht : threads t = some (.land j)) (htakes : Takes owner h t h.root [new]) :
    Inv parameters (released owner t) { h with root := new } threads ∧
      Heap.contents { h with root := new } = h.contents := by
  have hnew := htakes.all_mine new (List.mem_singleton_self new)
  obtain ⟨hs, hlaid, hknows⟩ := hi.release ht
  refine ⟨⟨⟨hnew.handed, hs.child, hs.fresh, hs.null, hs.bounded, hs.inner⟩, hlaid,
    fun u pc hu => ?_⟩, Set.ext fun e => ?_⟩
  · have hsame : Keeps (released owner t) h (released owner t) { h with root := new } u :=
      ⟨fun b m hb => ⟨m, hb, Like.refl m⟩, fun b hb => hb.1, fun b hb => ⟨hb.1, rfl⟩⟩
    exact hsame.knows (hknows u pc hu)
  · refine Iff.symm ((htakes.below_iff e).trans ?_)
    simp only [List.mem_singleton, exists_eq_left]
    rfl

end Installs

end HashComp.BzTree.Calls
