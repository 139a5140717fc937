import HashComp.IndexBtree.Insertion

namespace HashComp.IndexBtree

open HashComp.CheckedLoops
open HashComp.Separators

structure Inserted (s s' : Btree) (key : Nat) (item : Addr) : Prop where
  entries : ∀ k v, Entry s'.nodes k v ↔ (k = key ∧ v = some item) ∨ (k ≠ key ∧ Entry s.nodes k v)
  items : (∃ v, Entry s.nodes key v ∧ s'.itemNext = Function.update s.itemNext item v) ∨
    (∀ v, ¬ Entry s.nodes key v) ∧ s'.itemNext = s.itemNext

section Leaf

variable {B : Nat} {past : Past} {s s' : Btree} {g : Plan} {a : Addr} {n n' : BtNode} {k key : Nat}
  {v : Option Addr} {item : Addr}

theorem Shape.row_of_entry (h : Shape B s g none) (ha : s.nodes a = some n) (hlevel : g.level a = 0)
    (hlo : g.lo a ≤ k) (hhi : k < g.hi a) (he : Entry s.nodes k v) : Row n k v := by
  obtain ⟨b, m, hb, hleaf, i, hi, hk, hv⟩ := he
  have hok := h.nodes b m hb
  have hin := hok.keyed.within i hi
  rw [hk] at hin
  obtain rfl := h.unique hb ha (by rw [hok.kind.mp hleaf, hlevel]) hin.1 hin.2 hlo hhi
  rw [ha] at hb
  cases hb
  exact ⟨i, hi, hk, hv⟩

theorem Shape.entry_put (h : Shape B s g none) (ha : s.nodes a = some n) (hlevel : g.level a = 0)
    (hlo : g.lo a ≤ key) (hhi : key < g.hi a) (hkind : n'.isLeaf = n.isLeaf)
    (hrow : ∀ k v, Row n' k v ↔ (k = key ∧ v = some item) ∨ (k ≠ key ∧ Row n k v)) :
    Entry (s.put a n').nodes k v ↔ (k = key ∧ v = some item) ∨ (k ≠ key ∧ Entry s.nodes k v) := by
  have hleaf : n.isLeaf = true := (h.nodes a n ha).kind.mpr hlevel
  constructor
  · rintro ⟨b, m, hb, hm, hr⟩
    rcases eq_or_ne b a with rfl | hba
    · rw [Btree.put_nodes_self] at hb
      cases hb
      exact ((hrow k v).mp hr).imp id fun ⟨hk, hr⟩ => ⟨hk, b, n, ha, hleaf, hr⟩
    · rw [Btree.put_nodes_of_ne hba] at hb
      refine Or.inr ⟨?_, b, m, hb, hm, hr⟩
      rintro rfl
      -- the other leaves are not for the key
      obtain ⟨i, hi, hk, -⟩ := hr
      have hok := h.nodes b m hb
      have hin := hok.keyed.within i hi
      rw [hk] at hin
      exact hba (h.unique hb ha (by rw [hok.kind.mp hm, hlevel]) hin.1 hin.2 hlo hhi)
  · rintro (hnew | ⟨hk, b, m, hb, hm, hr⟩)
    · exact ⟨a, n', Btree.put_nodes_self, by rw [hkind, hleaf], (hrow k v).mpr (Or.inl hnew)⟩
    · rcases eq_or_ne b a with rfl | hba
      · rw [ha] at hb
        cases hb
        exact ⟨b, n', Btree.put_nodes_self, by rw [hkind, hleaf], (hrow k v).mpr (Or.inr ⟨hk, hr⟩)⟩
      · exact ⟨b, m, by rw [Btree.put_nodes_of_ne hba, hb], hm, hr⟩

theorem row_insert {p : Nat} (hp : p ≤ n.numKeys) (hnum : n'.numKeys = n.numKeys + 1)
    (hkeys : ∀ i, i ≤ n.numKeys → n'.keys.slot i = insertAt n.keys.slot p key i)
    (hptrs : ∀ i, i ≤ n.numKeys → n'.pointers.slot i = insertAt n.pointers.slot p (some item) i)
    (hnone : ∀ i, i < n.numKeys → n.keys.slot i ≠ key) :
    Row n' k v ↔ (k = key ∧ v = some item) ∨ (k ≠ key ∧ Row n k v) := by
  have hins := exists_insertAt (f := n.keys.slot) (u := n.pointers.slot) (v := key) (w := some item)
    (P := fun x y => x = k ∧ y = v) hp
  have hrow : Row n' k v ↔ (key = k ∧ some item = v) ∨ Row n k v := by
    rw [Row, hnum]
    refine Iff.trans ?_ hins
    constructor
    · rintro ⟨i, hi, hk, hv⟩
      exact ⟨i, hi, by rwa [← hkeys i (by omega)], by rwa [← hptrs i (by omega)]⟩
    · rintro ⟨i, hi, hk, hv⟩
      exact ⟨i, hi, by rwa [hkeys i (by omega)], by rwa [hptrs i (by omega)]⟩
  rw [hrow]
  constructor
  · rintro (⟨rfl, rfl⟩ | ⟨i, hi, rfl, hv⟩)
    · exact Or.inl ⟨rfl, rfl⟩
    · exact Or.inr ⟨hnone i hi, i, hi, rfl, hv⟩
  · rintro (⟨rfl, rfl⟩ | ⟨-, hr⟩)
    · exact Or.inl ⟨rfl, rfl⟩
    · exact Or.inr hr

theorem Bounded.put (hb : Bounded s) (hn : n.numKeys ≤ order - 1) : Bounded (s.put a n) := by
  intro b m hm
  rcases eq_or_ne b a with rfl | hba
  · rw [Btree.put_nodes_self] at hm
    cases hm
    exact hn
  · rw [Btree.put_nodes_of_ne hba] at hm
    exact hb b m hm

theorem insertIntoLeaf_found (item : Addr) (h : Sound B s g) (ha : s.nodes a = some n) (hlevel : g.level a = 0)
    (hlo : g.lo a ≤ key) (hhi : key < g.hi a) {i : Nat}
    (hfound : leafHasKey n key = .ok (some i)) (hi : i < n.numKeys) (hk : n.keys.slot i = key) :
    ∃ s', insertIntoLeaf s a key item = .ok s' ∧ Sound B s' g ∧ Inserted s s' key item := by
  have horder : order = 16 := rfl
  have hbound := h.bounded a n ha
  have hok := h.shape.nodes a n ha
  let n' : BtNode := { n with pointers := ⟨Function.update n.pointers.slot i (some item)⟩ }
  have hrow : ∀ k v, Row n' k v ↔ (k = key ∧ v = some item) ∨ (k ≠ key ∧ Row n k v) := by
    intro k v
    constructor
    · rintro ⟨j, hj, hjk, hjv⟩
      rcases eq_or_ne j i with rfl | hne
      · refine Or.inl ⟨hjk.symm.trans hk, ?_⟩
        rw [← hjv]
        exact Function.update_self ..
      · refine Or.inr ⟨?_, j, hj, hjk, ?_⟩
        · rintro rfl
          -- the key stands at one place only
          have hjk' : n.keys.slot j = n.keys.slot i := hjk.trans hk.symm
          rcases Nat.lt_or_gt_of_ne hne with hlt | hgt
          · have := hok.keyed.sorted j i hlt hi
            omega
          · have := hok.keyed.sorted i j hgt hj
            omega
        · rw [← hjv]
          exact (Function.update_of_ne hne ..).symm
    · rintro (⟨rfl, rfl⟩ | ⟨hne, j, hj, hjk, hjv⟩)
      · exact ⟨i, hi, hk, Function.update_self ..⟩
      · refine ⟨j, hj, hjk, ?_⟩
        rw [← hjv]
        refine Function.update_of_ne ?_ ..
        rintro rfl
        exact hne (hjk.symm.trans hk)
  refine ⟨{ s.put a n' with itemNext := Function.update s.itemNext item (n.pointers.slot i) }, ?_,
    ⟨?_, h.bounded.put hbound⟩, fun k v => h.shape.entry_put ha hlevel hlo hhi rfl hrow,
    Or.inl ⟨n.pointers.slot i, ⟨a, n, ha, hok.kind.mpr hlevel, i, hi, hk, rfl⟩, rfl⟩⟩
  · rw [insertIntoLeaf, Btree.node_ok ha, ok_bind, hfound, ok_bind]
    dsimp only
    rw [Cells.read_ok (by omega), ok_bind, Cells.write_ok (by omega), ok_bind]
  · have hput : Shape B (s.put a n') g none :=
      h.shape.setLeaf ha hlevel rfl rfl rfl (Nat.le_refl _) ⟨hok.keyed.sorted, hok.keyed.within⟩
    exact ⟨hput.nodes, hput.fresh, hput.root, hput.rootLo, hput.rootHi, hput.depth, hput.hole⟩

theorem Shape.keyed_insert (h : Shape B s g none) (ha : s.nodes a = some n)
    (hlo : g.lo a ≤ key) (hhi : key < g.hi a) {p : Nat} (hp : p ≤ n.numKeys)
    (hbelow : ∀ i, i < p → n.keys.slot i < key) (habove : p < n.numKeys → key ≤ n.keys.slot p)
    (hnone : ∀ i, i < n.numKeys → n.keys.slot i ≠ key) (hnum : n'.numKeys = n.numKeys + 1)
    (hkeys : ∀ i, i ≤ n.numKeys → n'.keys.slot i = insertAt n.keys.slot p key i) :
    Keyed (g.lo a) (g.hi a) n' := by
  have hkeyed := (h.nodes a n ha).keyed
  refine hkeyed.insert hp hbelow (fun i hpi hi => ?_) hlo hhi hnum hkeys
  have hlt : key < n.keys.slot p :=
    Nat.lt_of_le_of_ne (habove (by omega)) (hnone p (by omega)).symm
  rcases Nat.eq_or_lt_of_le hpi with rfl | hpi
  · exact hlt
  · exact Nat.lt_trans hlt (hkeyed.sorted p i hpi hi)

theorem insertIntoLeaf_new (item : Addr) (h : Sound B s g) (ha : s.nodes a = some n) (hlevel : g.level a = 0)
    (hlo : g.lo a ≤ key) (hhi : key < g.hi a) (hroom : n.numKeys < order - 1)
    (hfound : leafHasKey n key = .ok none) (hnone : ∀ i, i < n.numKeys → n.keys.slot i ≠ key) :
    ∃ s', insertIntoLeaf s a key item = .ok s' ∧ Sound B s' g ∧ Inserted s s' key item := by
  obtain ⟨p, hp, hple, hbelow, habove⟩ :=
    insertionPoint_spec key (h.bounded a n ha)
  obtain ⟨keys, pointers, hplace, hkeys, hptrs⟩ := placeInLeaf_spec key item hroom hple
  let n' : BtNode := { n with keys, pointers, numKeys := n.numKeys + 1 }
  have hnum : n'.numKeys = n.numKeys + 1 := rfl
  have hkeyed : Keyed (g.lo a) (g.hi a) n' :=
    h.shape.keyed_insert ha hlo hhi hple hbelow habove hnone hnum hkeys
  refine ⟨s.put a n', ?_, ⟨h.shape.setLeaf ha hlevel rfl rfl rfl (Nat.le_succ _) hkeyed, h.bounded.put (by omega)⟩,
    fun k v => h.shape.entry_put ha hlevel hlo hhi rfl fun k v =>
      row_insert hple hnum hkeys hptrs hnone, Or.inr ⟨fun v he => ?_, rfl⟩⟩
  · rw [insertIntoLeaf, Btree.node_ok ha, ok_bind, hfound, ok_bind]
    dsimp only
    rw [hp, ok_bind, hplace, ok_bind]
  · obtain ⟨i, hi, hk, -⟩ := h.shape.row_of_entry ha hlevel hlo hhi he
    exact hnone i hi hk

theorem splitLeaf_raised (item : Addr) (h : Sound B s g) (ha : s.nodes a = some n) (hlevel : g.level a = 0)
    (hlo : g.lo a ≤ key) (hhi : key < g.hi a) (hfull : n.numKeys = order - 1)
    (hnone : ∀ i, i < n.numKeys → n.keys.slot i ≠ key) :
    ∃ s' k n₁, splitLeaf s a key item = .ok (s', k, s.fresh) ∧
      Shape B s' (g.split a s.fresh k) (some (a, s.fresh)) ∧ Bounded s' ∧ s'.nodes a = some n₁ ∧
      SameAbove s s' g a ∧ s'.root = s.root ∧ s'.fresh = s.fresh + 1 ∧ Inserted s s' key item := by
  have horder : order = 16 := rfl
  have haq : a ≠ s.fresh := Nat.ne_of_lt (h.shape.lt_fresh ha)
  have hleaf : n.isLeaf = true := (h.shape.nodes a n ha).kind.mpr hlevel
  obtain ⟨p, hp, hbelow, habove, keys, pointers, keys', pointers', hsplit, hk, hpt, hk', hpt'⟩ :=
    splitLeaf_spec key item ha haq hfull
  -- the leaf with the new key in it, before it is split
  let nv : BtNode := { n with
    keys := ⟨insertAt n.keys.slot p key⟩
    pointers := ⟨insertAt n.pointers.slot p (some item)⟩
    numKeys := n.numKeys + 1 }
  have hv : Shape B (s.put a nv) g none := h.shape.setLeaf ha hlevel rfl rfl rfl (Nat.le_succ _)
    (h.shape.keyed_insert ha hlo hhi hp hbelow habove hnone rfl fun _ _ => rfl)
  have hnv : (s.put a nv).nodes a = some nv := Btree.put_nodes_self
  have hnum : nv.numKeys = 16 := by
    show n.numKeys + 1 = 16
    omega
  let n₁ : BtNode := { n with keys, pointers, numKeys := 8, next := some s.fresh }
  let r : BtNode := { s.newNode true with
    keys := keys', pointers := pointers', numKeys := 8, next := n.next, parent := n.parent }
  let s' := ((s.make true).put a n₁).put s.fresh r
  have hother : ∀ b, b ≠ a → b ≠ s.fresh → s'.nodes b = s.nodes b := fun b hba hbq => by
    rw [Btree.put_nodes_of_ne hbq, Btree.put_nodes_of_ne hba, Btree.make_nodes_of_ne hbq]
  have hleft : s'.nodes a = some n₁ := by rw [Btree.put_nodes_of_ne haq, Btree.put_nodes_self]
  have hright : s'.nodes s.fresh = some r := Btree.put_nodes_self
  have hat : SplitAt (s.put a nv) s' a nv n₁ r :=
    ⟨rfl, rfl, hleft, hright, ⟨rfl, hleaf.symm⟩, ⟨rfl, rfl⟩, ⟨rfl, rfl⟩, fun b hba hbq => by
      rw [hother b hba hbq, Btree.put_nodes_of_ne hba]⟩
  have hhalves := Halves.of_leaf hv hnv hlevel hnum hat rfl rfl hk hk'
  -- together the halves have the rows of the leaf with the new key
  have hrows : ∀ k v, Row nv k v ↔ Row n₁ k v ∨ Row r k v := by
    intro k v
    constructor
    · rintro ⟨i, hi, hik, hiv⟩
      rcases Nat.lt_or_ge i 8 with hlt | hge
      · exact Or.inl ⟨i, hlt, by rw [← hik]; exact hk i hlt, by rw [← hiv]; exact hpt i hlt⟩
      · obtain ⟨i, rfl⟩ := Nat.exists_eq_add_of_le hge
        have hi8 : i < 8 := by omega
        exact Or.inr ⟨i, hi8, by rw [← hik]; exact hk' i hi8, by rw [← hiv]; exact hpt' i hi8⟩
    · rintro (⟨i, hi, hik, hiv⟩ | ⟨i, hi, hik, hiv⟩)
      · have hi8 : i < 8 := hi
        exact ⟨i, by omega, by rw [← hik]; exact (hk i hi8).symm, by rw [← hiv]; exact (hpt i hi8).symm⟩
      · have hi8 : i < 8 := hi
        exact ⟨8 + i, by omega, by rw [← hik]; exact (hk' i hi8).symm,
          by rw [← hiv]; exact (hpt' i hi8).symm⟩
  have hentries : ∀ k v, Entry s'.nodes k v ↔ Entry (s.put a nv).nodes k v := by
    intro k v
    constructor
    · rintro ⟨b, m, hb, hm, hr⟩
      rcases eq_or_ne b a with rfl | hba
      · rw [hleft] at hb
        cases hb
        exact ⟨b, nv, hnv, hleaf, (hrows k v).mpr (Or.inl hr)⟩
      · rcases eq_or_ne b s.fresh with rfl | hbq
        · rw [hright] at hb
          cases hb
          exact ⟨a, nv, hnv, hleaf, (hrows k v).mpr (Or.inr hr)⟩
        · rw [hother b hba hbq] at hb
          exact ⟨b, m, by rw [Btree.put_nodes_of_ne hba, hb], hm, hr⟩
    · rintro ⟨b, m, hb, hm, hr⟩
      rcases eq_or_ne b a with rfl | hba
      · rw [hnv] at hb
        cases hb
        rcases (hrows k v).mp hr with hr | hr
        · exact ⟨b, n₁, hleft, hleaf, hr⟩
        · exact ⟨s.fresh, r, hright, rfl, hr⟩
      · rw [Btree.put_nodes_of_ne hba] at hb
        exact ⟨b, m, by rw [hother b hba (Nat.ne_of_lt (h.shape.lt_fresh hb)), hb], hm, hr⟩
  refine ⟨s', nv.keys.slot 8, n₁, hsplit, hv.split hnv hhalves, fun b m hb => ?_, hleft,
    ⟨fun b m hb hlt => ?_, fun m hm => ?_⟩, rfl, rfl, fun k v => ?_, Or.inr ⟨fun v he => ?_, rfl⟩⟩
  · rcases eq_or_ne b s.fresh with rfl | hbq
    · rw [hright] at hb
      cases hb
      show 8 ≤ order - 1
      omega
    · rcases eq_or_ne b a with rfl | hba
      · rw [hleft] at hb
        cases hb
        show 8 ≤ order - 1
        omega
      · rw [hother b hba hbq] at hb
        exact h.bounded b m hb
  · rw [hother b (by rintro rfl; omega) (Nat.ne_of_lt (h.shape.lt_fresh hb)), hb]
  · rw [ha] at hm
    cases hm
    exact ⟨n₁, hleft, rfl⟩
  · rw [hentries]
    exact h.shape.entry_put ha hlevel hlo hhi rfl fun k v =>
      row_insert hp rfl (fun _ _ => rfl) (fun _ _ => rfl) hnone
  · obtain ⟨i, hi, hik, -⟩ := h.shape.row_of_entry ha hlevel hlo hhi he
    exact hnone i hi hik

end Leaf

section Insert

variable {B : Nat} {past : Past} {s s' : Btree} {g : Plan} {key : Nat} {item : Addr}

theorem Inserted.settled {s₁ s₂ s₃ : Btree} {g' : Plan} (h : Inserted s₁ s₂ key item)
    (h' : Settled B s₂ s₃ g') : Inserted s₁ s₃ key item := by
  refine ⟨fun k v => ?_, ?_⟩
  · rw [← h.entries k v]
    exact ⟨fun he => he.frame h'.leaves', fun he => he.frame h'.leaves⟩
  · rw [h'.itemNext]
    exact h.items

/-- A call gets through exactly when it fits, and then it puts the item into a tree of
the same shape. -/
theorem indexInsert_spec (past : Past) (item : Addr) (h : Sound B s g) (hkey : key < B) :
    (Fits past s key → ∃ s' g', indexInsert past s key item = .ok s' ∧ Sound B s' g' ∧
      Inserted s s' key item) ∧
    (¬ Fits past s key → indexInsert past s key item = .error .outOfRange) := by
  obtain ⟨rm, hrm, -⟩ := h.shape.root
  obtain ⟨a, n, ha, hlevel, hlo, hhi, hread, hinsert⟩ := findLeaf_spec key h.shape h.bounded
    hrm rfl h.shape.depth (by rw [h.shape.rootLo]; exact Nat.zero_le _)
    (by have := h.shape.rootHi; rw [Plan.top_none] at this; omega)
  obtain ⟨e, hfind, hclean⟩ := hinsert none fun x hx => by cases hx
  have hex : exList s a e = .ok () := by
    rw [exList]
    split
    · rfl
    · exact hclean
  have hstart : indexInsert past s key item = (do
      let found ← leafHasKey n key
      if n.numKeys < order - 1 ∨ found.isSome then insertIntoLeaf s a key item
      else splitLfInsert past s a key item) := by
    rw [indexInsert, hfind, ok_bind]
    dsimp only
    rw [hex, ok_bind, Btree.node_ok ha, ok_bind]
  have hfits : Fits past s key ↔
      n.numKeys < order - 1 ∨ (∃ i, i < n.numKeys ∧ n.keys.slot i = key) ∨ Room past s a := by
    constructor
    · rintro ⟨a', n', hfind', ha', hcase⟩
      rw [hread none] at hfind'
      cases hfind'
      rw [ha] at ha'
      cases ha'
      exact hcase
    · exact fun hcase => ⟨a, n, hread none, ha, hcase⟩
  rw [hstart, hfits]
  rcases leafHasKey_spec key (h.bounded a n ha) with ⟨i, hhas, hi, hik⟩ | ⟨hhas, hnone⟩
  · obtain ⟨s', hs', hsound, hins⟩ := insertIntoLeaf_found item h ha hlevel hlo hhi hhas hi hik
    rw [hhas, ok_bind, if_pos (Or.inr Option.isSome_some)]
    exact ⟨fun _ => ⟨s', g, hs', hsound, hins⟩, fun hno => absurd (Or.inr (Or.inl ⟨i, hi, hik⟩)) hno⟩
  · rw [hhas, ok_bind]
    rcases Nat.lt_or_ge n.numKeys (order - 1) with hfew | hfull
    · obtain ⟨s', hs', hsound, hins⟩ :=
        insertIntoLeaf_new item h ha hlevel hlo hhi hfew hhas hnone
      rw [if_pos (Or.inl hfew)]
      exact ⟨fun _ => ⟨s', g, hs', hsound, hins⟩, fun hno => absurd (Or.inl hfew) hno⟩
    · have hnum : n.numKeys = order - 1 := Nat.le_antisymm (h.bounded a n ha) hfull
      obtain ⟨s', k, n₁, hsplit, hshape, hbounded, hn₁, habove, hroot, hfresh, hins⟩ :=
        splitLeaf_raised item h ha hlevel hlo hhi hnum hnone
      have haq : a ≠ s.fresh := Nat.ne_of_lt (h.shape.lt_fresh ha)
      have hspec := insertIntoParent_spec past s'.fresh hshape hbounded hn₁ (by
        have := hshape.depth
        omega)
      rw [Plan.split_hi_old haq] at hspec
      have hhole : ∀ x l, g.level a ≤ g.level x → (none : Option (Addr × Addr)) ≠ some (l, x) :=
        fun _ _ _ hx => by cases hx
      have hfull' : ¬ (n.numKeys < order - 1 ∨ (none : Option Nat).isSome = true) := by
        rintro (hlt | hsome)
        · omega
        · cases hsome
      rw [if_neg hfull', splitLfInsert, hsplit, ok_bind]
      refine ⟨fun hcase => ?_, fun hno => hspec.2 fun hroom => hno ?_⟩
      · have hroom : Room past s a := by
          rcases hcase with hlt | ⟨i, hi, hik⟩ | hroom
          · omega
          · exact absurd hik (hnone i hi)
          · exact hroom
        obtain ⟨s₂, g₂, hs₂, hsettled⟩ := hspec.1 (hroom.mono h.shape ha hhole habove)
        exact ⟨s₂, g₂, hs₂, hsettled.sound, hins.settled hsettled⟩
      · exact Or.inr (Or.inr (hroom.of_same h.shape ha hhole habove))

end Insert

section Bounds

variable {B B' : Nat} {s : Btree} {g : Plan} {a : Addr} {n : BtNode}

theorem Shape.hi_le (h : Shape B s g none) (ha : s.nodes a = some n) : g.hi a ≤ B := by
  obtain ⟨d, hd⟩ := Nat.exists_eq_add_of_le (h.nodes a n ha).le
  induction d generalizing a n with
  | zero =>
      refine Classical.byContradiction fun hgt => ?_
      have hne : a ≠ s.root := by
        rintro rfl
        have := h.rootHi
        rw [Plan.top_none] at this
        omega
      obtain ⟨p, -, hpl, pm, -, hpm, -⟩ := (h.nodes a n ha).parent hne fun _ hx => by cases hx
      have := (h.nodes p pm hpm).le
      omega
  | succ d ih =>
      have hne : a ≠ s.root := by
        rintro rfl
        omega
      obtain ⟨p, hp, -⟩ := (h.nodes a n ha).parent hne fun _ hx => by cases hx
      obtain ⟨pn, i, hpn, hpl, hi, -, hchild⟩ := h.under ha hp fun _ hx => by cases hx
      have hkeyed := (h.nodes p pn hpn).keyed
      rw [← Plan.top_none (g := g), hchild.hi]
      exact Nat.le_trans (upper_le (fun i hi => Nat.le_of_lt (hkeyed.within i hi).2) hi)
        (ih hpn (by omega))

def Plan.raise (g : Plan) (B B' : Nat) : Plan :=
  { g with hi := fun a => if g.hi a = B then B' else g.hi a }

theorem Plan.raise_hi_of_ne (h : g.hi a ≠ B) : (g.raise B B').hi a = g.hi a := if_neg h

theorem Plan.raise_hi_of_eq (h : g.hi a = B) : (g.raise B B').hi a = B' := if_pos h

theorem Sound.raise (h : Sound B s g) (hB : B ≤ B') : Sound B' s (g.raise B B') := by
  have hle : ∀ a n, s.nodes a = some n → g.hi a ≤ (g.raise B B').hi a := by
    intro a n ha
    rcases eq_or_ne (g.hi a) B with heq | hne
    · rw [Plan.raise_hi_of_eq heq, heq]
      exact hB
    · rw [Plan.raise_hi_of_ne hne]
  refine ⟨⟨fun a n ha => ?_, h.shape.fresh, h.shape.root, h.shape.rootLo,
    Plan.raise_hi_of_eq h.shape.rootHi, h.shape.depth, fun _ _ hx => by cases hx⟩, h.bounded⟩
  have hok := h.shape.nodes a n ha
  refine ⟨hok.kind, Nat.lt_of_lt_of_le hok.range (hle a n ha), ⟨hok.keyed.sorted, fun i hi =>
      ⟨(hok.keyed.within i hi).1, Nat.lt_of_lt_of_le (hok.keyed.within i hi).2 (hle a n ha)⟩⟩,
    hok.filled.imp id fun ⟨hlo, hhi⟩ => ⟨hlo, Plan.raise_hi_of_eq hhi⟩, fun h0 => ?_, fun h0 => ?_, hok.le, hok.parent⟩
  · obtain ⟨hpos, hparts⟩ := hok.inner h0
    refine ⟨hpos, fun i hi => ?_⟩
    obtain ⟨c, hc, hnode, hl, hlo, hhi⟩ := hparts i hi
    refine ⟨c, hc, hnode, hl, hlo, ?_⟩
    rw [Plan.top_none] at hhi ⊢
    rcases eq_or_ne i n.numKeys with rfl | hne
    · rw [upper_self] at hhi ⊢
      show (if g.hi c = B then B' else g.hi c) = if g.hi a = B then B' else g.hi a
      rw [hhi]
    · rw [upper_of_ne hne] at hhi ⊢
      rw [Plan.raise_hi_of_ne, hhi]
      have := (hok.keyed.within i (by omega)).2
      have := h.shape.hi_le ha
      omega
  · rcases hok.linked h0 with ⟨hnone, heq⟩ | ⟨b, m, hb, hm, hbl, hblo⟩
    · exact Or.inl ⟨hnone, Plan.raise_hi_of_eq heq⟩
    · refine Or.inr ⟨b, m, hb, hm, hbl, ?_⟩
      have := (h.shape.nodes b m hm).range
      have := h.shape.hi_le hm
      rw [Plan.raise_hi_of_ne (by omega)]
      exact hblo

theorem sound_init (raw : Addr → RawNode) (curLeaf : Nat → Option Addr) (curIdx : Nat → Nat)
    (hB : 0 < B) :
    Sound B (init raw curLeaf curIdx) ⟨fun _ => 0, fun _ => 0, fun _ => B⟩ := by
  have hroot : (init raw curLeaf curIdx).root = 0 := rfl
  have hnode : ∀ a n, (init raw curLeaf curIdx).nodes a = some n →
      a = 0 ∧ n.isLeaf = true ∧ n.parent = none ∧ n.numKeys = 0 ∧ n.next = none := by
    intro a n ha
    rcases eq_or_ne a 0 with rfl | hne
    · cases ha.symm.trans Btree.make_nodes_fresh
      exact ⟨rfl, rfl, rfl, rfl, rfl⟩
    · cases ha.symm.trans (Btree.make_nodes_of_ne hne)
  refine ⟨⟨fun a n ha => ?_, fun a ha => ?_, ⟨_, Btree.make_nodes_fresh, rfl⟩, rfl, rfl,
    Nat.zero_lt_one, fun _ _ hx => by cases hx⟩, fun a n ha => ?_⟩
  · obtain ⟨rfl, hleaf, hparent, hnum, hnext⟩ := hnode a n ha
    refine ⟨⟨fun _ => rfl, fun _ => hleaf⟩, hB, ⟨fun i j _ hj => by omega, fun i hi => by omega⟩,
      Or.inr ⟨rfl, rfl⟩, fun h0 => absurd rfl h0, fun _ => Or.inl ⟨hnext, rfl⟩, Nat.le_refl _,
      fun hne => absurd hroot.symm hne⟩
  · exact Btree.make_nodes_of_ne (Nat.ne_of_gt ha)
  · obtain ⟨-, -, -, hnum, -⟩ := hnode a n ha
    omega

end Bounds

/-- Calls of `index_insert` with keys and items. -/
def insertAll (past : Past) : Btree → List (Nat × Addr) → Except Fault Btree
  | s, [] => .ok s
  | s, c :: cs => do
      let s ← indexInsert past s c.1 c.2
      insertAll past s cs

/-- Each call fits the tree that the calls before it leave. -/
def FitsAll (past : Past) : Btree → List (Nat × Addr) → Prop
  | _, [] => True
  | s, c :: cs => Fits past s c.1 ∧
      ∀ s', indexInsert past s c.1 c.2 = .ok s' → FitsAll past s' cs

/-- The run ends, with every access inside the array it goes to. -/
def Contained {α : Type} (r : Except Fault α) : Prop :=
  r ≠ .error .outOfRange ∧ r ≠ .error .unfinished

instance {α : Type} : DecidablePred (Contained (α := α))
  | .ok _ => .isTrue ⟨nofun, nofun⟩
  | .error .outOfRange => .isFalse fun h => h.1 rfl
  | .error .nullPointer => .isTrue ⟨nofun, nofun⟩
  | .error .assertion => .isTrue ⟨nofun, nofun⟩
  | .error .unfinished => .isFalse fun h => h.2 rfl

section Runs

variable {B : Nat} {past : Past} {s : Btree} {g : Plan} {calls : List (Nat × Addr)}

theorem insertAll_cons {c : Nat × Addr} {s' : Btree} (h : indexInsert past s c.1 c.2 = .ok s') :
    insertAll past s (c :: calls) = insertAll past s' calls := by
  rw [insertAll, h, ok_bind]

theorem Sound.runs (past : Past) (calls : List (Nat × Addr)) (h : Sound B s g) :
    (FitsAll past s calls → ∃ s', insertAll past s calls = .ok s') ∧
    (¬ FitsAll past s calls → insertAll past s calls = .error .outOfRange) := by
  induction calls generalizing B s g with
  | nil => exact ⟨fun _ => ⟨s, rfl⟩, fun hno => absurd trivial hno⟩
  | cons c cs ih =>
      have hstep := indexInsert_spec past c.2
        (h.raise (show B ≤ B + (c.1 + 1) by omega)) (show c.1 < B + (c.1 + 1) by omega)
      rcases Classical.em (Fits past s c.1) with hfit | hfit
      · obtain ⟨s', g', hs', hsound, -⟩ := hstep.1 hfit
        rw [insertAll_cons hs']
        refine ⟨fun hall => (ih hsound).1 (hall.2 s' hs'), fun hno => (ih hsound).2 fun hall => ?_⟩
        refine hno ⟨hfit, fun s₂ hs₂ => ?_⟩
        rw [hs'] at hs₂
        cases hs₂
        exact hall
      · refine ⟨fun hall => absurd hall.1 hfit, fun _ => ?_⟩
        rw [insertAll, hstep.2 hfit, error_bind]

/-- The calls stay inside the arrays of the nodes and come to an end exactly when each
of them fits. -/
theorem insertAll_contained_iff (raw : Addr → RawNode) (curLeaf : Nat → Option Addr)
    (curIdx : Nat → Nat) (calls : List (Nat × Addr)) :
    Contained (insertAll none (init raw curLeaf curIdx) calls) ↔
      FitsAll none (init raw curLeaf curIdx) calls := by
  have h := (sound_init raw curLeaf curIdx Nat.zero_lt_one).runs none calls
  constructor
  · intro hin
    exact Classical.byContradiction fun hno => hin.1 (h.2 hno)
  · intro hall
    obtain ⟨s', hs'⟩ := h.1 hall
    rw [hs']
    exact ⟨fun he => (by cases he), fun he => (by cases he)⟩

def zeroMemory : Addr → RawNode := fun _ => ⟨⟨fun _ => none⟩, ⟨fun _ => 0⟩⟩

def firstLeafTwice : List (Nat × Addr) :=
  [(0, 0), (10, 1), (20, 2), (30, 3), (40, 4), (50, 5), (60, 6), (70, 7), (80, 8), (90, 9), (100, 10),
    (110, 11), (120, 12), (130, 13), (140, 14), (150, 15), (71, 16), (72, 17), (73, 18), (74, 19),
    (75, 20), (76, 21), (77, 22), (78, 23)]

/-- The second split of the first leaf shifts the keys of the root past position zero. -/
theorem insertAll_not_contained :
    ¬ ∀ raw curLeaf curIdx calls, Contained (insertAll none (init raw curLeaf curIdx) calls) := by
  intro h
  exact absurd (h zeroMemory (fun _ => none) (fun _ => 0) firstLeafTwice) (by decide +kernel)

end Runs

end HashComp.IndexBtree
