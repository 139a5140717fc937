import HashComp.BzTree.PathSplits

namespace HashComp.BzTree

open HashComp.ByteMemory
open HashComp.Segments

variable {K : Type} [TreeKey K]

section Descent

variable {d : Nat} {key : K} {leChild : Bool} {tree : Tree K} {lo : WithBot K}

theorem segments_rising_head {t : Subtree K d} (h : Rising (segments d lo t)) :
    ∀ s ∈ segments d lo t, lo ≤ s.1 := by
  obtain ⟨leaf, tail, hhead⟩ := segments_head d lo t
  rw [Rising, hhead] at h
  intro s hs
  rw [hhead] at hs
  rcases List.mem_cons.mp hs with rfl | hs
  · exact le_rfl
  · exact (List.pairwise_cons.mp h).1 s hs

/-- Of the children of a node, the one that is chosen is not to the right of the key, and the
ones after it are. -/
theorem goes_kids {α : Type} {n : InternalNode K α} {m : Nat}
    (hgoes : ∀ j (hj : j < n.rest.length), Goes key leChild (n.rest[j].1 : WithBot K) ↔ j < m)
    (hlo : Goes key leChild lo) :
    (∀ b, ((kids lo n.first n.rest)[m]?).map (·.1) = some b → Goes key leChild b) ∧
      ∀ c ∈ (kids lo n.first n.rest).drop (m + 1), ¬ Goes key leChild c.1 := by
  refine ⟨fun b hb => ?_, fun c hc hgo => ?_⟩
  · cases m with
    | zero =>
        cases hb
        exact hlo
    | succ m =>
        obtain ⟨c, hc, rfl⟩ := Option.map_eq_some_iff.mp hb
        obtain ⟨hlt, rfl⟩ := List.getElem?_eq_some_iff.mp hc
        have hlt' : m < n.rest.length := by simpa [kids] using hlt
        have hbound : (kids lo n.first n.rest)[m + 1].1 = (n.rest[m].1 : WithBot K) := by
          simp [kids]
        rw [hbound]
        exact (hgoes m hlt').mpr (Nat.lt_succ_self m)
  · rw [kids, List.drop_succ_cons, ← List.map_drop] at hc
    obtain ⟨r, hr, rfl⟩ := List.mem_map.mp hc
    obtain ⟨j, hj, rfl⟩ := List.mem_drop_iff_getElem.mp hr
    exact absurd ((hgoes (m + j) (by omega)).mp hgo) (by omega)

structure Landed (tree : Tree K) (key : K) (leChild : Bool) (above : Above K 0) (leaf : LeafNode K) :
    Prop where
  path : above.Sound
  leaf_open : leaf.frozen = false
  distinct : leaf.Distinct
  plug : above.plug leaf = tree
  below : Goes key leChild above.lower
  beyond : ∀ s ∈ above.post, ¬ Goes key leChild s.1

theorem descend_landed {above : Above K d} {t : Subtree K d} (ha : above.Sound) (ht : Sound d t)
    (hrising : Rising (above.plug t).segments) (hlower : Goes key leChild above.lower)
    (hpost : ∀ s ∈ above.post, ¬ Goes key leChild s.1) :
    Landed (above.plug t) key leChild (descend key leChild d above t).1
      (descend key leChild d above t).2 := by
  induction d with
  | zero => exact ⟨ha, ht.1, ht.2, rfl, hlower, hpost⟩
  | succ d ih =>
      let n : InternalNode K (Subtree K d) := t
      obtain ⟨hm, hgoes⟩ : n.getChildIndex key leChild < n.sortedCount ∧
          ∀ j (hj : j < n.rest.length), Goes key leChild (n.rest[j].1 : WithBot K) ↔
            j < n.getChildIndex key leChild := getChildIndex_spec ht.2.1
      have hkidsRising : ∀ c ∈ kids above.lower n.first n.rest, Rising (segments d c.1 c.2) := by
        rw [segments_plug ha] at hrising
        have hsub := (List.pairwise_append.mp (List.pairwise_append.mp hrising).2.1).1
        exact (List.pairwise_flatMap.mp hsub).1
      have hplug : (Above.frame n (n.getChildIndex key leChild) above).plug
          (n.getChild (n.getChildIndex key leChild)) = above.plug t := by
        rw [Above.plug, setChild_getChild hm]
      obtain ⟨hbound, hbeyond⟩ := goes_kids hgoes hlower
      have hpost' : ∀ s ∈ (Above.frame n (n.getChildIndex key leChild) above).post,
          ¬ Goes key leChild s.1 := by
        intro s hs hgo
        rcases List.mem_append.mp hs with hs | hs
        · obtain ⟨c, hc, hs⟩ := List.mem_flatMap.mp hs
          have hle := segments_rising_head (hkidsRising c (List.mem_of_mem_drop hc)) s hs
          exact hbeyond c hc (hgo.mono hle)
        · exact hpost s hs hgo
      have hframe : (Above.frame n (n.getChildIndex key leChild) above).Sound := ⟨ht, hm, ha⟩
      rw [← hplug] at hrising ⊢
      exact ih hframe (sound_getChild ht hm) hrising (hbound _ (lower_frame hm)) hpost'

end Descent

section Trees

/-- Nothing of the tree is frozen, and its leaves hold the keys between their bounds. -/
structure Tree.Proper (tree : Tree K) : Prop where
  sound : tree.Sound
  ordered : Ordered LeafNode.lookup tree.segments

/-- What the leaves of a tree hold. -/
def Tree.contents (tree : Tree K) : K → Option Word :=
  Segments.contents LeafNode.lookup tree.segments

variable {tree : Tree K} {key : K} {leChild : Bool} {above : Above K 0} {leaf leaf' : LeafNode K}
  {payload : Word} {parameters : ParameterSet} {value : Option Word} {k : K} {p : Word}
  {s : Segment K (LeafNode K)}

def Tree.Tight (tree : Tree K) : Prop :=
  ∀ s ∈ tree.segments, ∀ k : K, s.1 = (k : WithBot K) → tree.contents k ≠ none

theorem Tree.Proper.rising (h : tree.Proper) : Rising tree.segments :=
  h.ordered.before.imp And.left

theorem Tree.Proper.contents_of_segment (h : tree.Proper) (hs : s ∈ tree.segments)
    (hk : s.2.lookup k = some p) : tree.contents k = some p := by
  obtain ⟨pre, post, hsplit⟩ := List.append_of_mem hs
  have hordered := h.ordered
  rw [hsplit] at hordered
  have hheld : Segments.Holds LeafNode.lookup s.2 k := by
    rw [Segments.Holds, hk]
    exact Option.some_ne_none p
  rw [Tree.contents, hsplit, hordered.contents_eq (hordered.routed hheld), hk]

theorem Tree.Proper.contents_ne_none (h : tree.Proper) (hs : s ∈ tree.segments)
    (hk : Segments.Holds LeafNode.lookup s.2 k) : tree.contents k ≠ none := by
  obtain ⟨p, hp⟩ := Option.ne_none_iff_exists'.mp hk
  rw [h.contents_of_segment hs hp]
  exact Option.some_ne_none p

theorem traverseToLeaf_landed (h : tree.Proper) :
    Landed tree key leChild (tree.traverseToLeaf key leChild).1 (tree.traverseToLeaf key leChild).2 := by
  have hroot : Goes key leChild (⊥ : WithBot K) := by
    cases leChild with
    | true => exact WithBot.bot_lt_coe key
    | false => exact bot_le
  have hpath : (Above.root : Above K tree.height).Sound := trivial
  exact descend_landed hpath h.sound h.rising hroot fun s hs => absurd hs List.not_mem_nil

namespace Landed

theorem segments_eq (h : Landed tree key leChild above leaf) :
    tree.segments = above.pre ++ (above.lower, leaf) :: above.post := by
  rw [← h.plug, segments_plug h.path]
  rfl

theorem mem_segments (h : Landed tree key leChild above leaf) : (above.lower, leaf) ∈ tree.segments := by
  rw [h.segments_eq]
  exact List.mem_append_right _ List.mem_cons_self

theorem routed (h : Landed tree key true above leaf) : Routed key (above.lower, leaf) above.post :=
  ⟨h.below, fun t ht => not_lt.mp (h.beyond t ht)⟩

theorem contents_eq (h : Landed tree key true above leaf) (ht : tree.Proper) :
    tree.contents key = leaf.lookup key := by
  have hordered := ht.ordered
  rw [h.segments_eq] at hordered
  rw [Tree.contents, h.segments_eq]
  exact hordered.contents_eq h.routed

/-- A leaf with another value for the key, or none, takes the place of the leaf. -/
theorem put (h : Landed tree key true above leaf) (ht : tree.Proper) (hopen : leaf'.frozen = false)
    (hdistinct : leaf'.Distinct) (hlookup : leaf'.lookup = Function.update leaf.lookup key value) :
    (above.plug leaf').Proper ∧
      (above.plug leaf').contents = Function.update tree.contents key value ∧
      (value ≠ none → tree.Tight → (above.plug leaf').Tight) := by
  have hordered := ht.ordered
  rw [h.segments_eq] at hordered
  have hother : ∀ k, k ≠ key → leaf'.lookup k = leaf.lookup k := fun k hk => by
    rw [hlookup, Function.update_of_ne hk]
  have hleaf : Sound 0 (leaf' : Subtree K 0) := ⟨hopen, hdistinct⟩
  have hsegments : (above.plug leaf').segments = above.pre ++ (above.lower, leaf') :: above.post := by
    rw [segments_plug h.path]
    rfl
  have hcontents : (above.plug leaf').contents = Function.update tree.contents key value := by
    rw [Tree.contents, hsegments, hordered.contents_set h.routed hother, ← h.segments_eq, hlookup,
      Function.update_self]
    rfl
  refine ⟨⟨sound_plug h.path hleaf, ?_⟩, hcontents, fun hvalue htight s hs k hk => ?_⟩
  · rw [hsegments]
    refine hordered.set fun k hk => ?_
    rcases eq_or_ne k key with rfl | hne
    · exact Or.inr h.routed
    · rw [Segments.Holds, hother k hne] at hk
      exact Or.inl hk
  · have hbound : ∃ t ∈ tree.segments, t.1 = s.1 := by
      rw [hsegments] at hs
      rw [h.segments_eq]
      simp only [List.mem_append, List.mem_cons] at hs ⊢
      rcases hs with hs | rfl | hs
      · exact ⟨s, Or.inl hs, rfl⟩
      · exact ⟨_, Or.inr (Or.inl rfl), rfl⟩
      · exact ⟨s, Or.inr (Or.inr hs), rfl⟩
    obtain ⟨t, ht', hts⟩ := hbound
    rw [hcontents]
    rcases eq_or_ne k key with rfl | hne
    · rwa [Function.update_self]
    · rw [Function.update_of_ne hne]
      exact htight t ht' k (hts.trans hk)

theorem split (h : Landed tree key leChild above leaf) (ht : tree.Proper) {backoff : Bool}
    {prepared : Prepared K}
    (hp : { leaf with frozen := true }.prepareForSplit parameters backoff above = some prepared) :
    prepared.installed.Proper ∧ prepared.installed.contents = tree.contents ∧
      (tree.Tight → prepared.installed.Tight) := by
  have hordered := ht.ordered
  rw [h.segments_eq] at hordered
  obtain ⟨⟨l, sep, r⟩, hsplit, -⟩ := Option.bind_eq_some_iff.mp hp
  have hdistinct : { leaf with frozen := true }.Distinct := h.distinct
  have hdivides := splitLeaf_divides hdistinct hsplit
  have hseparator : Segments.Holds LeafNode.lookup leaf sep := (hdivides.left sep hdivides.separator).1
  have hcut : Ordered LeafNode.lookup
      (above.pre ++ (above.lower, l) :: ((sep : WithBot K), r) :: above.post) :=
    hordered.cut hseparator hdivides.left hdivides.right
  obtain ⟨hsound, hsegments⟩ :=
    prepareForSplit_spec h.path hdistinct hsplit (hcut.before.imp And.left) hp
  have hcontents : prepared.installed.contents = tree.contents := by
    rw [Tree.contents, hsegments, Tree.contents, h.segments_eq]
    exact contents_cut hdivides.both
  refine ⟨⟨hsound, hsegments ▸ hcut⟩, hcontents, fun htight s hs k hk => ?_⟩
  have htight' := htight
  rw [Tree.Tight, h.segments_eq] at htight'
  rw [hsegments] at hs
  rw [hcontents]
  simp only [List.mem_append, List.mem_cons] at hs htight'
  rcases hs with hs | rfl | rfl | hs
  · exact htight' s (Or.inl hs) k hk
  · exact htight' _ (Or.inr (Or.inl rfl)) k hk
  · -- the separator is a key of the leaf
    rw [← WithBot.coe_injective hk]
    exact ht.contents_ne_none h.mem_segments hseparator
  · exact htight' s (Or.inr (Or.inr hs)) k hk

end Landed

end Trees

section Maps

/-- What a request comes to on a finite map. -/
def Request.onMap : Request K → (K → Option Word) → (K → Option Word) × Reply
  | .insert key payload, m =>
      match m key with
      | none => (Function.update m key (some payload), ⟨.ok, none⟩)
      | some _ => (m, ⟨.keyExists, none⟩)
  | .update key payload, m =>
      match m key with
      | none => (m, ⟨.notFound, none⟩)
      | some _ => (Function.update m key (some payload), ⟨.ok, none⟩)
  | .upsert key payload, m => (Function.update m key (some payload), ⟨.ok, none⟩)
  | .read key, m =>
      match m key with
      | none => (m, ⟨.notFound, none⟩)
      | some payload => (m, ⟨.ok, some payload⟩)
  | .delete key, m =>
      match m key with
      | none => (m, ⟨.notFound, none⟩)
      | some _ => (Function.update m key none, ⟨.ok, none⟩)

def mapAfter (requests : List (Request K)) : K → Option Word :=
  requests.foldl (fun m request => (request.onMap m).1) fun _ => none

variable {tree tree' : Tree K} {key : K} {payload : Word} {parameters : ParameterSet}
  {request : Request K} {reply : Reply} {log : List (Request K × Reply)}

def Request.Adds : Request K → Prop
  | .delete _ => False
  | _ => True

structure Answers (tree : Tree K) (request : Request K) (tree' : Tree K) (reply : Reply) : Prop where
  proper : tree'.Proper
  answer : request.onMap tree.contents = (tree'.contents, reply)
  tight : request.Adds → tree.Tight → tree'.Tight

/-- A round of `Insert` is the insertion, or it leaves the contents as they are. -/
def Round.Answers (tree : Tree K) (key : K) (payload : Word) : Round K → Prop
  | .ret tree' rc => BzTree.Answers tree (.insert key payload) tree' ⟨rc, none⟩
  | .again tree' _ =>
      tree'.Proper ∧ tree'.contents = tree.contents ∧ (tree.Tight → tree'.Tight)
  | .abort => True

theorem insertRound_answers (h : tree.Proper) (freezeRetry : Nat) :
    (tree.insertRound parameters key payload freezeRetry).Answers tree key payload := by
  have hland : Landed tree key true (tree.traverseToLeaf key true).1 (tree.traverseToLeaf key true).2 :=
    traverseToLeaf_landed h
  rw [Tree.insertRound]
  generalize tree.traverseToLeaf key true = landing at hland
  obtain ⟨above, leaf⟩ := landing
  change Landed tree key true above leaf at hland
  have hcontents := hland.contents_eq h
  dsimp only
  split
  · trivial
  · rcases insert_cases hland.distinct hland.leaf_open with
      ⟨hpresent, hinsert⟩ | ⟨-, hinsert⟩ | ⟨leaf', habsent, hinsert, hopen, hdistinct, hlookup⟩
    · rw [hinsert]
      rw [← hcontents] at hpresent
      obtain ⟨p, hp⟩ := Option.ne_none_iff_exists'.mp hpresent
      dsimp only
      rw [hland.plug]
      refine ⟨h, ?_, fun _ htight => htight⟩
      simp only [Request.onMap, hp]
    · -- the leaf is frozen by this call, and split
      rw [hinsert]
      dsimp only
      rw [hland.leaf_open, if_pos Bool.not_false, Tree.split]
      cases hp : LeafNode.prepareForSplit parameters (freezeRetry ≤ 1) above { leaf with frozen := true } with
      | none => trivial
      | some prepared => exact hland.split h hp
    · rw [hinsert]
      obtain ⟨hproper, hput, htight⟩ := hland.put h hopen hdistinct hlookup
      refine ⟨hproper, ?_, fun _ => htight (Option.some_ne_none payload)⟩
      simp only [Request.onMap, hcontents.trans habsent, hput]

theorem insert_answers (h : tree.Proper) {rounds freezeRetry : Nat} {rc : ReturnCode}
    (hinsert : tree.insert parameters key payload rounds freezeRetry = some (tree', rc)) :
    Answers tree (.insert key payload) tree' ⟨rc, none⟩ := by
  induction rounds generalizing tree freezeRetry with
  | zero => cases hinsert
  | succ rounds ih =>
      have hround : (tree.insertRound parameters key payload freezeRetry).Answers tree key payload :=
        insertRound_answers h freezeRetry
      rw [Tree.insert] at hinsert
      cases hr : tree.insertRound parameters key payload freezeRetry with
      | abort =>
          rw [hr] at hinsert
          cases hinsert
      | ret tree₁ rc₁ =>
          rw [hr] at hinsert hround
          cases hinsert
          exact hround
      | again tree₁ freezeRetry₁ =>
          rw [hr] at hinsert hround
          obtain ⟨hproper, hsame, htight⟩ := hround
          obtain ⟨hproper', hanswer, htight'⟩ := ih hproper hinsert
          exact ⟨hproper', hsame ▸ hanswer, fun hadds h => htight' hadds (htight h)⟩

theorem read_eq_contents (h : tree.Proper) : tree.read key = tree.contents key := by
  have hland : Landed tree key true (tree.traverseToLeaf key true).1 (tree.traverseToLeaf key true).2 :=
    traverseToLeaf_landed h
  rw [Tree.read, hland.contents_eq h]
  exact read_eq hland.distinct

theorem update_answers (h : tree.Proper) : Answers tree (.update key payload)
    (tree.update key payload).1 ⟨(tree.update key payload).2, none⟩ := by
  have hland : Landed tree key true (tree.traverseToLeaf key true).1 (tree.traverseToLeaf key true).2 :=
    traverseToLeaf_landed h
  rw [Tree.update]
  generalize tree.traverseToLeaf key true = landing at hland
  obtain ⟨above, leaf⟩ := landing
  change Landed tree key true above leaf at hland
  have hcontents := hland.contents_eq h
  dsimp only
  rcases update_cases hland.distinct hland.leaf_open with
    ⟨habsent, hupdate⟩ | ⟨leaf', hpresent, hupdate, hopen, hdistinct, hlookup⟩
  · rw [hupdate]
    dsimp only
    rw [hland.plug]
    refine ⟨h, ?_, fun _ htight => htight⟩
    simp only [Request.onMap, hcontents.trans habsent]
  · rw [hupdate]
    rw [← hcontents] at hpresent
    obtain ⟨p, hp⟩ := Option.ne_none_iff_exists'.mp hpresent
    obtain ⟨hproper, hput, htight⟩ := hland.put h hopen hdistinct hlookup
    refine ⟨hproper, ?_, fun _ => htight (Option.some_ne_none payload)⟩
    simp only [Request.onMap, hp, hput]

theorem delete_answers (h : tree.Proper) {rc : ReturnCode} (hdelete : tree.delete key = some (tree', rc)) :
    Answers tree (.delete key) tree' ⟨rc, none⟩ := by
  have hland : Landed tree key true (tree.traverseToLeaf key true).1 (tree.traverseToLeaf key true).2 :=
    traverseToLeaf_landed h
  rw [Tree.delete] at hdelete
  generalize tree.traverseToLeaf key true = landing at hland hdelete
  obtain ⟨above, leaf⟩ := landing
  change Landed tree key true above leaf at hland
  have hcontents := hland.contents_eq h
  dsimp only at hdelete
  rcases delete_cases hland.distinct hland.leaf_open with
    ⟨habsent, hleaf⟩ | ⟨leaf', hpresent, hleaf, hopen, hdistinct, hlookup⟩
  · rw [hleaf] at hdelete
    cases hdelete
    rw [hland.plug]
    refine ⟨h, ?_, fun _ htight => htight⟩
    simp only [Request.onMap, hcontents.trans habsent]
  · rw [hleaf] at hdelete
    cases hdelete
    rw [← hcontents] at hpresent
    obtain ⟨p, hp⟩ := Option.ne_none_iff_exists'.mp hpresent
    obtain ⟨hproper, hput, -⟩ := hland.put h hopen hdistinct hlookup
    refine ⟨hproper, ?_, fun hadds => hadds.elim⟩
    simp only [Request.onMap, hp, hput]

theorem call_answers (h : tree.Proper) {rounds : Nat}
    (hcall : tree.call parameters rounds request = some (tree', reply)) :
    Answers tree request tree' reply := by
  cases request with
  | insert key payload =>
      obtain ⟨⟨tree₁, rc⟩, hinsert, hr⟩ := Option.map_eq_some_iff.mp hcall
      cases hr
      exact insert_answers h hinsert
  | update key payload =>
      cases hcall
      exact update_answers h
  | upsert key payload =>
      rw [Tree.call] at hcall
      cases hread : tree.read key with
      | none =>
          rw [hread] at hcall
          obtain ⟨⟨tree₁, rc⟩, hinsert, hr⟩ := Option.map_eq_some_iff.mp hcall
          cases hr
          obtain ⟨hproper, hanswer, htight⟩ := insert_answers h hinsert
          rw [read_eq_contents h] at hread
          refine ⟨hproper, ?_, fun _ => htight trivial⟩
          simp only [Request.onMap, hread] at hanswer ⊢
          exact hanswer
      | some tmpPayload =>
          rw [hread] at hcall
          rw [read_eq_contents h] at hread
          dsimp only at hcall
          split at hcall
          · rename_i hsame
            cases hcall
            refine ⟨h, ?_, fun _ htight => htight⟩
            rw [Request.onMap, ← hsame, ← hread, Function.update_eq_self]
          · cases hcall
            obtain ⟨hproper, hanswer, htight⟩ : Answers tree (.update key payload) _ _ := update_answers h
            refine ⟨hproper, ?_, fun _ => htight trivial⟩
            simp only [Request.onMap, hread] at hanswer ⊢
            exact hanswer
  | read key =>
      rw [Tree.call, read_eq_contents h] at hcall
      cases hread : tree.contents key with
      | none =>
          rw [hread] at hcall
          cases hcall
          refine ⟨h, ?_, fun _ htight => htight⟩
          simp only [Request.onMap, hread]
      | some payload =>
          rw [hread] at hcall
          cases hcall
          refine ⟨h, ?_, fun _ htight => htight⟩
          simp only [Request.onMap, hread]
  | delete key =>
      obtain ⟨⟨tree₁, rc⟩, hdelete, hr⟩ := Option.map_eq_some_iff.mp hcall
      cases hr
      exact delete_answers h hdelete

theorem new_proper : (Tree.new : Tree K).Proper ∧ (Tree.new : Tree K).contents = fun _ => none := by
  refine ⟨⟨⟨rfl, List.Pairwise.nil⟩, ⟨List.pairwise_singleton _ _, fun s hs k hk => ?_⟩⟩, rfl⟩
  rw [List.mem_singleton.mp hs] at hk
  exact absurd rfl hk

end Maps

section Sessions

variable {tree : Tree K} {parameters : ParameterSet} {log : List (Request K × Reply)}

theorem session_proper (h : Session parameters log tree) :
    tree.Proper ∧ tree.contents = mapAfter (log.map Prod.fst) := by
  induction h with
  | new => exact ⟨new_proper.1, new_proper.2⟩
  | @call log tree tree' request reply h rounds hcall ih =>
      obtain ⟨hproper, hcontents⟩ := ih
      obtain ⟨hproper', hanswer, -⟩ := call_answers hproper hcall
      rw [hcontents] at hanswer
      refine ⟨hproper', ?_⟩
      rw [List.map_append, mapAfter, List.foldl_append]
      exact (congrArg Prod.fst hanswer).symm

/-- After any calls that return the tree holds what a finite map holds after the requests,
and each call has returned what the request comes to on the map before it. -/
theorem session_keeps_map (h : Session parameters log tree) :
    tree.Proper ∧ tree.contents = mapAfter (log.map Prod.fst) ∧
      ∀ pre request reply post, log = pre ++ (request, reply) :: post →
        reply = (request.onMap (mapAfter (pre.map Prod.fst))).2 := by
  obtain ⟨hproper, hcontents⟩ := session_proper h
  refine ⟨hproper, hcontents, ?_⟩
  clear hproper hcontents
  induction h with
  | new => exact fun pre request reply post hlog => by simp at hlog
  | @call log tree tree' request reply h rounds hcall ih =>
      obtain ⟨hproper, hcontents⟩ := session_proper h
      obtain ⟨-, hanswer, -⟩ := call_answers hproper hcall
      rw [hcontents] at hanswer
      intro pre request' reply' post hlog
      rcases List.eq_nil_or_concat post with rfl | ⟨post, last, rfl⟩
      · obtain ⟨rfl, hlast⟩ := List.append_inj' hlog rfl
        cases hlast
        exact (congrArg Prod.snd hanswer).symm
      · rw [List.concat_eq_append, ← List.cons_append, ← List.append_assoc] at hlog
        obtain ⟨hinit, -⟩ := List.append_inj' hlog rfl
        exact ih pre request' reply' post hinit

/-- A tree whose calls took no key away has no key between its leaves that it does not hold. -/
theorem session_tight (h : Session parameters log tree) (hadds : ∀ call ∈ log, call.1.Adds) :
    tree.Tight := by
  induction h with
  | new =>
      intro s hs k hk
      rw [List.mem_singleton.mp hs] at hk
      cases hk
  | call h rounds hcall ih =>
      have hproper := (session_proper h).1
      have hrequest := hadds _ (List.mem_append_right _ List.mem_cons_self)
      refine (call_answers hproper hcall).tight hrequest (ih fun call hc => ?_)
      exact hadds call (List.mem_append_left _ hc)

/-- Some calls one after the other. -/
def Tree.calls (parameters : ParameterSet) (rounds : Nat) :
    List (Request K) → Tree K → Option (Tree K × List Reply)
  | [], tree => some (tree, [])
  | request :: requests, tree =>
      (tree.call parameters rounds request).bind fun r =>
        (Tree.calls parameters rounds requests r.1).map fun s => (s.1, r.2 :: s.2)

theorem session_of_calls {rounds : Nat} {requests : List (Request K)} {tree' : Tree K}
    {replies : List Reply} (h : Session parameters log tree)
    (hcalls : Tree.calls parameters rounds requests tree = some (tree', replies)) :
    Session parameters (log ++ requests.zip replies) tree' := by
  induction requests generalizing log tree replies with
  | nil =>
      cases hcalls
      rwa [List.zip_nil_left, List.append_nil]
  | cons request requests ih =>
      obtain ⟨⟨tree₁, reply⟩, hcall, hrest⟩ := Option.bind_eq_some_iff.mp hcalls
      obtain ⟨⟨tree₂, replies'⟩, hcalls', hr⟩ := Option.map_eq_some_iff.mp hrest
      cases hr
      have hsession := ih (h.call rounds hcall) hcalls'
      rwa [List.append_assoc] at hsession

def narrowLeaves : ParameterSet := ⟨120, 16, 240, by decide, by decide, by decide⟩

def asciiByte (b : Fin 128) : AsciiKey where
  key := ⟨[BitVec.ofNat 8 b], Nat.le_of_lt_succ (by decide : 1 < 65521)⟩
  nonempty := List.cons_ne_nil _ _
  ascii := fun c hc => by
    rw [List.mem_singleton.mp hc, BitVec.toNat_ofNat]
    omega

def splittingCalls : List (Request AsciiKey) :=
  [.insert (asciiByte 2) 7, .insert (asciiByte 1) 8, .insert (asciiByte 4) 9,
    .insert (asciiByte 3) 10, .upsert (asciiByte 2) 11]

theorem splittingCalls_session : ∃ tree, Session narrowLeaves
    (splittingCalls.zip (List.replicate 5 ⟨.ok, none⟩)) tree ∧ tree.height = 1 := by
  have hrun : (Tree.calls narrowLeaves 2 splittingCalls Tree.new).map
      (fun r => (r.1.height, r.2)) = some (1, List.replicate 5 ⟨.ok, none⟩) := by
    decide
  obtain ⟨⟨tree, replies⟩, hcalls, hr⟩ := Option.map_eq_some_iff.mp hrun
  obtain ⟨hheight, rfl⟩ := Prod.mk.inj hr
  exact ⟨tree, session_of_calls .new hcalls, hheight⟩

theorem session_keeps_map_split : ∃ tree, Session narrowLeaves
    (splittingCalls.zip (List.replicate 5 ⟨.ok, none⟩)) tree ∧ tree.height = 1 ∧
      tree.contents (asciiByte 2) = some 11 := by
  obtain ⟨tree, hsession, hheight⟩ := splittingCalls_session
  refine ⟨tree, hsession, hheight, ?_⟩
  rw [(session_keeps_map hsession).2.1]
  decide

end Sessions

end HashComp.BzTree
