import HashComp.BzTree.Routing

namespace HashComp.BzTree

open HashComp.ByteMemory

namespace BaseNode

/-- `SearchRecordMeta` without `check_concurrency`: the sorted records first, where an equal
key that is not visible ends the loop, and then the other ones. -/
def searchRecordMeta (n : BaseNode) (key : List Byte) : Option RecordMetadata :=
  let equal := fun m => decide (keyCompare (some key) (n.getKey m) = 0)
  ((((List.range n.sortedCount).map n.recordMetadata).find? equal).filter (·.isVisible)).or
    (((List.range' n.sortedCount (n.status.recordCount - n.sortedCount)).map
      n.recordMetadata).find? fun m =>
        !m.isInserting && m.isVisible && decide (m.keyLength = key.length) && equal m)

def read (n : BaseNode) (key : List Byte) : Option Word :=
  (n.searchRecordMeta key).bind fun
    | .record _ offset keyLength _ => some (n.payload offset keyLength)
    | _ => none

def visibleEntry (n : BaseNode) : RecordMetadata → Option Entry
  | .record true offset keyLength _ =>
      some ⟨readBytes n.data offset keyLength, n.payload offset keyLength⟩
  | _ => none

def visibleEntries (n : BaseNode) : List Entry :=
  ((List.range n.status.recordCount).map n.recordMetadata).filterMap n.visibleEntry

structure LeafOk (S : Set (List Byte)) (parameters : ParameterSet) (n : BaseNode) : Prop where
  isLeaf : n.isLeaf = true
  size : n.size = parameters.leafNodeSize
  sorted : n.sortedCount ≤ n.status.recordCount
  lengths : ∀ i, i < n.status.recordCount → ∀ offset keyLength totalLength,
    n.recordMetadata i = .record true offset keyLength totalLength →
      totalLength = padKeyLength keyLength + 8
  members : ∀ e ∈ n.visibleEntries, e.key ∈ S
  distinct : (n.visibleEntries.map (·.key)).Nodup

structure Packed (n : BaseNode) (entries : List Entry) : Prop where
  isLeaf : n.isLeaf = true
  status : n.status = ⟨false, entries.length, recordSpace entries, 0⟩
  sortedCount : n.sortedCount = entries.length
  stacked : n.Stacked 0 n.size entries
  room : nodeSize entries ≤ n.size

section Read

variable {n : BaseNode} {m : RecordMetadata} {e : Entry} {key : List Byte} {w : Word}
  {entries : List Entry}

theorem getKey_eq : n.getKey m = (n.visibleEntry m).map (·.key) := by
  rcases m with _ | _ | ⟨visible, offset, keyLength, totalLength⟩
  · rfl
  · rfl
  · cases visible <;> rfl

theorem isVisible_iff : m.isVisible = true ↔ (n.visibleEntry m).isSome = true := by
  rcases m with _ | _ | ⟨visible, offset, keyLength, totalLength⟩
  · exact Iff.rfl
  · exact Iff.rfl
  · cases visible <;> simp [RecordMetadata.isVisible, visibleEntry]

theorem equal_eq : decide (keyCompare (some key) (n.getKey m) = 0) =
    (n.visibleEntry m).any fun e => decide (e.key = key) := by
  rw [getKey_eq]
  cases n.visibleEntry m with
  | none => rfl
  | some e =>
      rw [Option.map_some, Option.any_some, decide_eq_decide, keyCompare_eq_zero_iff]
      exact eq_comm

/-- The conditions on a record beside the sorted ones come to that of equal keys. -/
theorem linear_eq : (!m.isInserting && m.isVisible && decide (m.keyLength = key.length) &&
      (n.visibleEntry m).any fun e => decide (e.key = key)) =
    (n.visibleEntry m).any fun e => decide (e.key = key) := by
  rcases m with _ | _ | ⟨visible, offset, keyLength, totalLength⟩
  · rfl
  · rfl
  · cases visible with
    | false => rfl
    | true =>
        rw [Bool.and_eq_right_iff_imp]
        intro h
        have hkey : readBytes n.data offset keyLength = key := of_decide_eq_true h
        simp [RecordMetadata.isInserting, RecordMetadata.isVisible, RecordMetadata.keyLength,
          ← hkey]

theorem searchRecordMeta_eq (h : n.sortedCount ≤ n.status.recordCount) :
    n.searchRecordMeta key = ((List.range n.status.recordCount).map n.recordMetadata).find?
      fun m => (n.visibleEntry m).any fun e => decide (e.key = key) := by
  have hsplit : (List.range n.status.recordCount).map n.recordMetadata =
      (List.range n.sortedCount).map n.recordMetadata ++
        (List.range' n.sortedCount (n.status.recordCount - n.sortedCount)).map
          n.recordMetadata := by
    rw [← List.map_append, List.range_eq_range', List.range_eq_range']
    have happend := List.range'_append_1 (s := 0) (m := n.sortedCount)
      (n := n.status.recordCount - n.sortedCount)
    rw [Nat.zero_add, Nat.add_sub_cancel' h] at happend
    rw [happend]
  have hvisible : ∀ m? : Option RecordMetadata,
      (∀ m, m? = some m → m.isVisible = true) → m?.filter (·.isVisible) = m? := by
    rintro (_ | m) hm
    · rfl
    · simp [hm m rfl]
  rw [hsplit, List.find?_append, searchRecordMeta]
  simp only [equal_eq, linear_eq]
  rw [hvisible]
  intro m hm
  have hany := List.find?_some hm
  rw [isVisible_iff]
  cases hentry : n.visibleEntry m with
  | none =>
      rw [hentry] at hany
      cases hany
  | some e => rfl

theorem read_eq (h : n.sortedCount ≤ n.status.recordCount) :
    n.read key = (n.visibleEntries.find? fun e => decide (e.key = key)).map (·.payload) := by
  rw [read, searchRecordMeta_eq h, visibleEntries, List.find?_filterMap]
  cases hfind : ((List.range n.status.recordCount).map n.recordMetadata).find?
      fun m => (n.visibleEntry m).any fun e => decide (e.key = key) with
  | none => rfl
  | some m =>
      have hany := List.find?_some hfind
      rcases m with _ | _ | ⟨visible, offset, keyLength, totalLength⟩
      · cases hany
      · cases hany
      · cases visible with
        | false => cases hany
        | true => rfl

theorem read_eq_some_iff (h : n.sortedCount ≤ n.status.recordCount)
    (hdistinct : (n.visibleEntries.map (·.key)).Nodup) :
    n.read key = some w ↔ ⟨key, w⟩ ∈ n.visibleEntries := by
  rw [read_eq h, Option.map_eq_some_iff]
  constructor
  · rintro ⟨e, he, rfl⟩
    have hkey : e.key = key := by simpa using List.find?_some he
    rw [← hkey]
    exact List.mem_of_find?_eq_some he
  · intro hmem
    cases hfind : n.visibleEntries.find? fun e => decide (e.key = key) with
    | none => exact absurd (List.find?_eq_none.mp hfind _ hmem) (by simp)
    | some e =>
        have hkey : e.key = key := by simpa using List.find?_some hfind
        have heq : e = ⟨key, w⟩ :=
          List.inj_on_of_nodup_map hdistinct (List.mem_of_find?_eq_some hfind) hmem hkey
        exact ⟨e, rfl, by rw [heq]⟩

end Read

section Sorting

variable {α : Type*} {n : BaseNode} {m : RecordMetadata} {e : Entry} {entries : List Entry}
  {S : Set (List Byte)} {parameters : ParameterSet} {a b c : List Byte} {i : Nat}

theorem pairwise_insertionSort_of_mem {r : α → α → Prop} [DecidableRel r] {l : List α}
    (htotal : ∀ a ∈ l, ∀ b ∈ l, r a b ∨ r b a)
    (htrans : ∀ a ∈ l, ∀ b ∈ l, ∀ c ∈ l, r a b → r b c → r a c) :
    (l.insertionSort r).Pairwise r := by
  let r' : {a // a ∈ l} → {a // a ∈ l} → Prop := fun a b => r a b
  have : Std.Total r' := ⟨fun a b => htotal a a.2 b b.2⟩
  have : IsTrans _ r' := ⟨fun a b c => htrans a a.2 b b.2 c c.2⟩
  have hmap := List.map_insertionSort r' r Subtype.val l.attach fun a _ b _ => Iff.rfl
  rw [List.attach_map_subtype_val] at hmap
  rw [← hmap]
  exact List.pairwise_map.mpr (List.pairwise_insertionSort r' l.attach)

theorem forall₂_filterMap {β γ : Type*} {R : γ → β → Prop} {f : α → Option β} {g : α → γ}
    {l : List α} (h : ∀ a ∈ l, ∃ b, f a = some b ∧ R (g a) b) :
    List.Forall₂ R (l.map g) (l.filterMap f) := by
  induction l with
  | nil => exact .nil
  | cons a l ih =>
      obtain ⟨b, hb, hR⟩ := h a List.mem_cons_self
      rw [List.map_cons, List.filterMap_cons_some hb]
      exact .cons hR (ih fun a' ha' => h a' (List.mem_cons_of_mem _ ha'))

theorem not_before_trans (hord : OrdersKeys S) (hS : ∀ k ∈ S, k.length < 2 ^ 31) (ha : a ∈ S)
    (hb : b ∈ S) (hc : c ∈ S) (hba : ¬Before b a) (hcb : ¬Before c b) : ¬Before c a := by
  intro hca
  rcases Before.trichotomy a b with hab | rfl | hba'
  · exact hcb (hord.before_trans hS hc ha hb hca hab)
  · exact hcb hca
  · exact hba hba'

theorem visibleEntry_eq_some_iff : n.visibleEntry m = some e ↔ ∃ offset keyLength totalLength,
    m = .record true offset keyLength totalLength ∧
      e = ⟨readBytes n.data offset keyLength, n.payload offset keyLength⟩ := by
  constructor
  · intro h
    rcases m with _ | _ | ⟨visible, offset, keyLength, totalLength⟩
    · cases h
    · cases h
    · cases visible with
      | false => cases h
      | true => exact ⟨offset, keyLength, totalLength, rfl, (Option.some.inj h).symm⟩
  · rintro ⟨offset, keyLength, totalLength, rfl, rfl⟩
    rfl

theorem carries_of_visible (hlength : ∀ offset keyLength totalLength,
      n.recordMetadata i = .record true offset keyLength totalLength →
        totalLength = padKeyLength keyLength + 8)
    (he : n.visibleEntry (n.recordMetadata i) = some e) (hne : e.key ≠ []) :
    Carries (n.keyRow (n.recordMetadata i)) e := by
  obtain ⟨offset, keyLength, totalLength, hm, rfl⟩ := visibleEntry_eq_some_iff.mp he
  have htotal := hlength offset keyLength totalLength hm
  have hpad : padKeyLength keyLength ≠ 0 := by
    intro hzero
    refine hne (List.length_eq_zero_iff.mp ?_)
    have := le_padKeyLength keyLength
    rw [readBytes_length]
    omega
  have hraw : n.rawKey (n.recordMetadata i) = some (readBytes n.data offset keyLength) := by
    rw [hm]
    exact if_neg hpad
  rw [keyRow, hraw, Option.bind_some]
  have hrecord : n.recordMetadata i = .record true offset
      (readBytes n.data offset keyLength).length
      (Entry.mk (readBytes n.data offset keyLength) (n.payload offset keyLength)).totalLength := by
    rw [hm, Entry.totalLength, readBytes_length, htotal]
  refine carries_record hrecord ?_ ?_ <;> simp only [readBytes_length]

theorem filterMap_filter_visible {metas : List RecordMetadata} :
    (metas.filter (·.isVisible)).filterMap n.visibleEntry = metas.filterMap n.visibleEntry := by
  rw [List.filterMap_filter]
  refine List.filterMap_congr fun m _ => ?_
  rcases m with _ | _ | ⟨visible, offset, keyLength, totalLength⟩
  · rfl
  · rfl
  · cases visible <;> rfl

theorem entries_sortedMetadata : (n.sortedMetadata.filterMap n.visibleEntry).Perm n.visibleEntries := by
  have hperm : n.sortedMetadata.Perm (((List.range n.status.recordCount).map
      n.recordMetadata).filter (·.isVisible)) := List.perm_insertionSort _ _
  exact (hperm.filterMap _).trans (List.Perm.of_eq filterMap_filter_visible)

theorem LeafOk.sortedMetadata (h : n.LeafOk S parameters) (hord : OrdersKeys S)
    (hS : ∀ k ∈ S, k.length < 2 ^ 31) (hne : ∀ e ∈ n.visibleEntries, e.key ≠ []) :
    ∃ entries : List Entry, entries.Perm n.visibleEntries ∧
      entries.Pairwise (fun e e' => Before e.key e'.key) ∧
        List.Forall₂ Carries (n.sortedMetadata.map n.keyRow) entries := by
  set metas := (List.range n.status.recordCount).map n.recordMetadata with hmetas
  have hperm : n.sortedMetadata.Perm (metas.filter (·.isVisible)) := List.perm_insertionSort _ _
  have hall : ∀ m ∈ metas.filter (·.isVisible), ∃ e ∈ n.visibleEntries,
      n.visibleEntry m = some e ∧ Carries (n.keyRow m) e := by
    intro m hm
    obtain ⟨hmem, hvisible⟩ := List.mem_filter.mp hm
    obtain ⟨i, hi, rfl⟩ := List.mem_map.mp hmem
    obtain ⟨e, he⟩ := Option.isSome_iff_exists.mp (isVisible_iff.mp hvisible)
    have hin : e ∈ n.visibleEntries := List.mem_filterMap.mpr ⟨_, hmem, he⟩
    exact ⟨e, hin, he,
      carries_of_visible (h.lengths i (List.mem_range.mp hi)) he (hne e hin)⟩
  have hkey : ∀ m ∈ metas.filter (·.isVisible), ∃ k ∈ S, n.getKey m = some k := by
    intro m hm
    obtain ⟨e, hin, he, -⟩ := hall m hm
    exact ⟨e.key, h.members e hin, by rw [getKey_eq, he, Option.map_some]⟩
  have hsorted : n.sortedMetadata.Pairwise fun m m' =>
      ¬keyCompare (n.getKey m') (n.getKey m) < 0 := by
    refine pairwise_insertionSort_of_mem (fun m hm m' hm' => ?_)
      fun m hm m' hm' m'' hm'' hle hle' => ?_
    · obtain ⟨k, -, hk⟩ := hkey m hm
      obtain ⟨k', -, hk'⟩ := hkey m' hm'
      rw [hk, hk', keyCompare_neg_iff, keyCompare_neg_iff]
      exact or_iff_not_imp_left.mpr fun hnot => (not_not.mp hnot).asymm
    · obtain ⟨k, hkS, hk⟩ := hkey m hm
      obtain ⟨k', hkS', hk'⟩ := hkey m' hm'
      obtain ⟨k'', hkS'', hk''⟩ := hkey m'' hm''
      rw [hk, hk', keyCompare_neg_iff] at hle
      rw [hk', hk'', keyCompare_neg_iff] at hle'
      rw [hk, hk'', keyCompare_neg_iff]
      exact not_before_trans hord hS hkS hkS' hkS'' hle hle'
  have hentries := entries_sortedMetadata (n := n)
  refine ⟨n.sortedMetadata.filterMap n.visibleEntry, hentries, ?_, forall₂_filterMap fun m hm => ?_⟩
  · have hle : (n.sortedMetadata.filterMap n.visibleEntry).Pairwise fun e e' =>
        ¬Before e'.key e.key := by
      refine List.pairwise_filterMap.mpr (hsorted.imp fun {m m'} hle e he e' he' => ?_)
      rwa [getKey_eq, getKey_eq, he, he', Option.map_some, Option.map_some,
        keyCompare_neg_iff] at hle
    have hnodup : (n.sortedMetadata.filterMap n.visibleEntry).Pairwise fun e e' =>
        e.key ≠ e'.key :=
      List.pairwise_map.mp ((hentries.map Entry.key).nodup_iff.mpr h.distinct)
    refine hle.imp₂ (fun e e' hnot hdiff => ?_) hnodup
    rcases Before.trichotomy e.key e'.key with hlt | heq | hgt
    · exact hlt
    · exact absurd heq hdiff
    · exact absurd hgt hnot
  · obtain ⟨e, -, he, hcarries⟩ := hall m (hperm.mem_iff.mp hm)
    exact ⟨e, he, hcarries⟩

end Sorting

section Merge

variable {n left right : BaseNode} {e : Entry} {entries : List Entry} {S : Set (List Byte)}
  {parameters : ParameterSet} {size : Nat} {key separator : List Byte}

theorem copyFrom_spec {rows : List (Option Row)} (h : List.Forall₂ Carries rows entries)
    (hroom : nodeSize entries ≤ size) :
    ∃ n, copyFrom size rows = some n ∧ n.size = size ∧ n.Packed entries := by
  have hfit : 32 + (0 + entries.length) * 8 + recordSpace entries ≤ size := by
    rw [nodeSize] at hroom
    omega
  obtain ⟨n, hcopy, hstacked, hheader, -⟩ := copyRecords_spec (new true size) h hfit
  have hsize : n.size = size := hheader.size
  refine ⟨finishCopy (n, entries.length, size - recordSpace entries), ?_, hsize, hheader.isLeaf,
    ?_, rfl, ?_, ?_⟩
  · rw [copyFrom, hcopy, Option.map_some, Nat.zero_add]
  · have hblock : n.size - (size - recordSpace entries) = recordSpace entries := by omega
    simp only [finishCopy, hblock, hheader.status]
    rfl
  · show Stacked _ 0 n.size entries
    rw [← hsize] at hstacked
    exact hstacked.congr rfl rfl
  · show nodeSize entries ≤ n.size
    rwa [hsize]

theorem Packed.record (h : n.Packed entries) {i : Nat} (he : entries[i]? = some e) :
    ∃ offset, n.HoldsAt i offset e ∧
      n.recordMetadata i = .record true offset e.key.length e.totalLength := by
  obtain ⟨offset, hle, ho⟩ := h.stacked.holdsAt he
  rw [Nat.zero_add] at ho
  refine ⟨offset, ho, ho.metadata.trans ?_⟩
  have hroom := h.room
  rw [nodeSize] at hroom
  have hpos : offset ≠ 0 := by omega
  rw [RecordMetadata.finalizeForInsert, decide_eq_true hpos]

theorem filterMap_range {β : Type*} {f : Nat → Option β} {l : List β}
    (h : ∀ i b, l[i]? = some b → f i = some b) : (List.range l.length).filterMap f = l := by
  induction l generalizing f with
  | nil => rfl
  | cons b l ih =>
      rw [List.length_cons, List.range_succ_eq_map, List.filterMap_cons_some (h 0 b rfl),
        List.filterMap_map]
      exact congrArg (b :: ·) (ih fun i b' hb => h (i + 1) b' hb)

theorem Packed.visibleEntries (h : n.Packed entries) : n.visibleEntries = entries := by
  rw [BaseNode.visibleEntries, h.status, List.filterMap_map]
  refine filterMap_range fun i e he => ?_
  obtain ⟨offset, ho, hm⟩ := h.record he
  rw [Function.comp_apply, hm, visibleEntry, ho.key, ho.payload]

theorem Packed.leafOk (h : n.Packed entries) (hsize : n.size = parameters.leafNodeSize)
    (hmem : ∀ e ∈ entries, e.key ∈ S)
    (hasc : entries.Pairwise fun e e' => Before e.key e'.key) : n.LeafOk S parameters := by
  refine ⟨h.isLeaf, hsize, ?_, ?_, ?_, ?_⟩
  · rw [h.status, h.sortedCount]
  · intro i hi offset keyLength totalLength hm
    rw [h.status] at hi
    obtain ⟨offset', -, hm'⟩ := h.record (List.getElem?_eq_getElem hi)
    rw [hm] at hm'
    injection hm' with _ _ hlen htotal
    rw [htotal, hlen, Entry.totalLength]
  · rwa [h.visibleEntries]
  · rw [h.visibleEntries]
    exact List.pairwise_map.mpr (hasc.imp fun hbefore => hbefore.ne)

theorem recordSpace_perm {entries' : List Entry} (h : entries.Perm entries') :
    recordSpace entries = recordSpace entries' :=
  (h.map _).sum_nat

/-- The merged leaf has the records of both leaves in the order of their keys. -/
theorem mergeLeafNodes_spec (hl : left.LeafOk S parameters) (hr : right.LeafOk S parameters)
    (hord : OrdersKeys S) (hS : ∀ k ∈ S, k.length < 2 ^ 31)
    (hne : ∀ e ∈ left.visibleEntries ++ right.visibleEntries, e.key ≠ [])
    (hsep : separator ∈ S) (hbelow : ∀ e ∈ left.visibleEntries, ¬Before separator e.key)
    (habove : ∀ e ∈ right.visibleEntries, Before separator e.key)
    (hroom : nodeSize (left.visibleEntries ++ right.visibleEntries) ≤ left.size) :
    ∃ n entries, mergeLeafNodes left right = some n ∧ n.LeafOk S parameters ∧
      n.Packed entries ∧ entries.Pairwise (fun e e' => Before e.key e'.key) ∧
        entries.Perm (left.visibleEntries ++ right.visibleEntries) := by
  obtain ⟨L, hpermL, hascL, hrowsL⟩ := hl.sortedMetadata hord hS
    fun e he => hne e (List.mem_append_left _ he)
  obtain ⟨R, hpermR, hascR, hrowsR⟩ := hr.sortedMetadata hord hS
    fun e he => hne e (List.mem_append_right _ he)
  have hperm := hpermL.append hpermR
  have hfit : nodeSize (L ++ R) ≤ left.size := by
    rw [nodeSize, hperm.length_eq, recordSpace_perm hperm]
    exact hroom
  obtain ⟨n, hcopy, hsize, hpacked⟩ := copyFrom_spec (List.rel_append hrowsL hrowsR) hfit
  have hasc : (L ++ R).Pairwise fun e e' => Before e.key e'.key := by
    refine List.pairwise_append.mpr ⟨hascL, hascR, fun a ha b hb => ?_⟩
    have ha' := hpermL.mem_iff.mp ha
    have hb' := habove b (hpermR.mem_iff.mp hb)
    have hbS := hr.members b (hpermR.mem_iff.mp hb)
    rcases Before.trichotomy a.key separator with hlt | heq | hgt
    · exact hord.before_trans hS (hl.members a ha') hsep hbS hlt hb'
    · rwa [heq]
    · exact absurd hgt (hbelow a ha')
  have hmem : ∀ e ∈ L ++ R, e.key ∈ S := by
    intro e he
    rcases List.mem_append.mp (hperm.mem_iff.mp he) with he | he
    · exact hl.members e he
    · exact hr.members e he
  exact ⟨n, L ++ R, hcopy, hpacked.leafOk (hsize.trans hl.size) hmem hasc, hpacked, hasc, hperm⟩

theorem read_merged (hn : n.LeafOk S parameters) (hl : left.LeafOk S parameters)
    (hr : right.LeafOk S parameters)
    (hperm : n.visibleEntries.Perm (left.visibleEntries ++ right.visibleEntries))
    (hne : separator ≠ []) (hbelow : ∀ e ∈ left.visibleEntries, ¬Before separator e.key)
    (habove : ∀ e ∈ right.visibleEntries, Before separator e.key) :
    n.read key = if below key separator then right.read key else left.read key := by
  refine Option.ext fun w => ?_
  rw [read_eq_some_iff hn.sorted hn.distinct, hperm.mem_iff, List.mem_append]
  by_cases hkey : Before separator key
  · rw [if_pos ((below_iff hne).mpr hkey), read_eq_some_iff hr.sorted hr.distinct]
    exact or_iff_right fun hmem => hbelow _ hmem hkey
  · rw [if_neg (mt (below_iff hne).mp hkey), read_eq_some_iff hl.sorted hl.distinct]
    exact or_iff_left fun hmem => hkey (habove _ hmem)

end Merge

end BaseNode

end HashComp.BzTree
