import HashComp.BzTree.Calls
import HashComp.BzTree.Frozen
import HashComp.BzTree.LeafMerges

namespace HashComp.BzTree

open HashComp.ByteMemory

section Steps

variable {parameters : ParameterSet} {n n' : BaseNode} {threads : Nat → Option LeafPc} {t : Nat}
  {l : LeafPc}

theorem Immutable.visibleEntries (h : Immutable n n') (hr : Records n) :
    n'.visibleEntries = n.visibleEntries := by
  rw [BaseNode.visibleEntries, BaseNode.visibleEntries, h.status, h.metadata, List.filterMap_map,
    List.filterMap_map]
  refine List.filterMap_congr fun i _ => ?_
  rw [Function.comp_apply, Function.comp_apply]
  cases hm : n.recordMetadata i with
  | vacant | inserting => rfl
  | record visible offset keyLength totalLength =>
      cases visible with
      | false => rfl
      | true =>
          have hlength := (hr.lengths i true offset keyLength totalLength hm).1
          have hle := le_padKeyLength keyLength
          have hbytes : readBytes n'.data offset keyLength = readBytes n.data offset keyLength := by
            have hall := congrArg (List.take keyLength) (h.bytes i offset keyLength totalLength hm)
            rwa [readBytes_take (by omega), readBytes_take (by omega)] at hall
          simp only [BaseNode.visibleEntry, hbytes, h.payload i offset keyLength totalLength hm]

theorem visibleEntries_reserve {s : StatusWord} (hs : s.recordCount = n.status.recordCount + 1) :
    BaseNode.visibleEntries { n.setMetadata n.status.recordCount .inserting with status := s } =
      n.visibleEntries := by
  rw [BaseNode.visibleEntries, BaseNode.visibleEntries, hs, List.range_succ, List.map_append,
    List.filterMap_append]
  have hlast : [n.status.recordCount].map
      (n.setMetadata n.status.recordCount .inserting).recordMetadata = [.inserting] := by
    rw [List.map_singleton, setMetadata_self]
  have hrest : (List.range n.status.recordCount).map
      (n.setMetadata n.status.recordCount .inserting).recordMetadata =
        (List.range n.status.recordCount).map n.recordMetadata :=
    List.map_congr_left fun i hi => setMetadata_of_ne (Nat.ne_of_lt (List.mem_range.mp hi))
  show ((List.range n.status.recordCount).map
      (n.setMetadata n.status.recordCount .inserting).recordMetadata).filterMap n.visibleEntry ++
    ([n.status.recordCount].map
      (n.setMetadata n.status.recordCount .inserting).recordMetadata).filterMap n.visibleEntry = _
  rw [hlast, hrest]
  exact List.append_nil _

theorem Laid.visibleEntries_step (h : Laid parameters n threads) (hl : threads t = some l) :
    (leafStep parameters n l).1.visibleEntries = n.visibleEntries ∨
      ∃ op, (leafStep parameters n l).2 = .done op .ok := by
  cases l with
  | done | aborted => exact Or.inl rfl
  | freeze pc =>
      refine Or.inl ?_
      cases pc with
      | read =>
          simp only [leafStep, freezeStep]
          split <;> rfl
      | swap expected =>
          simp only [leafStep, freezeStep]
          split
          · rename_i hs
            subst hs
            rfl
          · rfl
  | update key payload pc =>
      cases pc with
      | retry =>
          simp only [leafStep, updateStep]
          split <;> exact Or.inl rfl
      | search oldStatus s =>
          simp only [leafStep, updateStep]
          split
          · exact Or.inl rfl
          · exact Or.inl rfl
          · split <;> exact Or.inl rfl
      | readPayload oldStatus i m =>
          simp only [leafStep, updateStep]
          split
          · split
            · exact Or.inl rfl
            · split <;> exact Or.inl rfl
          · exact Or.inl rfl
      | swap oldStatus i m recordPayload =>
          simp only [leafStep, updateStep]
          split
          · split
            · exact Or.inr ⟨_, rfl⟩
            · exact Or.inl rfl
          · exact Or.inl rfl
  | delete key pc =>
      cases pc with
      | retry =>
          simp only [leafStep, deleteStep]
          split <;> exact Or.inl rfl
      | search oldStatus s =>
          simp only [leafStep, deleteStep]
          split
          · exact Or.inl rfl
          · exact Or.inl rfl
          · split <;> exact Or.inl rfl
      | swap oldStatus i m =>
          simp only [leafStep, deleteStep]
          split
          · split
            · exact Or.inr ⟨_, rfl⟩
            · exact Or.inl rfl
          · exact Or.inl rfl
  | insert key payload pc =>
      cases pc with
      | retry | recheckStatus r | readStatus r | readMeta expected u | whileCheck r checkIdx needCheck =>
          simp only [leafStep, insertStep, insertStepWith]
          split <;> exact Or.inl rfl
      | checking expected s =>
          simp only [leafStep, insertStep, insertStepWith]
          split
          · exact Or.inl rfl
          · exact Or.inl rfl
          · split <;> exact Or.inl rfl
      | recheckBound r => exact Or.inl rfl
      | scan r i linearEnd checkIdx =>
          simp only [leafStep, insertStep, insertStepWith]
          split
          · split <;> exact Or.inl rfl
          · exact Or.inl rfl
      | forCheck r checkIdx needCheck i =>
          simp only [leafStep, insertStep, insertStepWith]
          split
          · split <;> exact Or.inl rfl
          · exact Or.inl rfl
      | reserve expected u =>
          simp only [leafStep, insertStep, insertStepWith]
          split
          · rename_i hs
            obtain ⟨rfl, -⟩ := hs
            exact Or.inl (visibleEntries_reserve rfl)
          · exact Or.inl rfl
      | copy r =>
          exact Or.inl ((h.immutable_write hl rfl fun x hx => writes_outside rfl hx).visibleEntries
            h.records)
      | clear r =>
          exact Or.inl ((h.immutable_write hl rfl fun x hx =>
            writes_outside (List.length_replicate ..) hx).visibleEntries h.records)
      | finalize r s =>
          simp only [leafStep, insertStep, insertStepWith]
          split
          · exact Or.inr ⟨_, rfl⟩
          · exact Or.inl rfl

end Steps

namespace BaseNode

section Splits

variable {parameters : ParameterSet} {n left right : BaseNode} {threads : Nat → Option LeafPc}
  {metas : List RecordMetadata} {rows : List (Option Row)} {entries : List Entry} {e : Entry}
  {i offset size : Nat} {key : List Byte} {row : Row}

theorem key_ne_nil_of_keyRow {m : RecordMetadata} (he : n.visibleEntry m = some e)
    (hrow : n.keyRow m = some row) : e.key ≠ [] := by
  obtain ⟨offset, keyLength, totalLength, rfl, rfl⟩ := visibleEntry_eq_some_iff.mp he
  obtain ⟨raw, hraw, -⟩ := Option.bind_eq_some_iff.mp hrow
  intro hnil
  have hzero : keyLength = 0 := by
    have hlength := congrArg List.length hnil
    rwa [readBytes_length, List.length_nil] at hlength
  subst hzero
  cases hraw

theorem room_of_copyRecords {r : BaseNode × Nat × Nat} (hrows : List.Forall₂ Carries rows entries)
    (hroom : 32 + i * 8 ≤ offset) (hc : copyRecords rows (n, i, offset) = some r) :
    32 + (i + entries.length) * 8 + recordSpace entries ≤ offset := by
  induction hrows generalizing n i offset with
  | nil => simpa using hroom
  | @cons row? e rows entries hrow hrows ih =>
      obtain ⟨r₁, hr₁, hc⟩ := Option.bind_eq_some_iff.mp hc
      obtain ⟨row, rfl, -, htotal, -⟩ := hrow
      rw [copyRecord, Option.bind_some] at hr₁
      split at hr₁
      · rename_i hfits
        cases hr₁
        have hrest := ih (by omega) hc
        rw [List.length_cons, recordSpace_cons]
        omega
      · cases hr₁

theorem exists_row_of_copyRecords {r r' : BaseNode × Nat × Nat} (hc : copyRecords rows r = some r')
    {row? : Option Row} (hrow : row? ∈ rows) : ∃ row, row? = some row := by
  induction rows generalizing r with
  | nil => cases hrow
  | cons first rows ih =>
      obtain ⟨r₁, hr₁, hc⟩ := Option.bind_eq_some_iff.mp hc
      rcases List.mem_cons.mp hrow with rfl | hrow
      · obtain ⟨row, rfl, -⟩ := Option.bind_eq_some_iff.mp hr₁
        exact ⟨row, rfl⟩
      · exact ih hc hrow

theorem copyFrom_visible (h : Laid parameters n threads)
    (hmetas : ∀ m ∈ metas, (∃ i, m = n.recordMetadata i) ∧ m.isVisible = true)
    (hc : copyFrom n.size (metas.map n.keyRow) = some left) :
    Laid parameters left nobody ∧ left.isLeaf = true ∧
      left.visibleEntries = metas.filterMap n.visibleEntry := by
  have hsize := h.size
  obtain ⟨r, hr, -⟩ := Option.map_eq_some_iff.mp hc
  have hcarries : List.Forall₂ Carries (metas.map n.keyRow) (metas.filterMap n.visibleEntry) := by
    refine forall₂_filterMap fun m hm => ?_
    obtain ⟨⟨i, rfl⟩, hvisible⟩ := hmetas m hm
    obtain ⟨e, he⟩ := Option.isSome_iff_exists.mp (isVisible_iff.mp hvisible)
    obtain ⟨row, hrow⟩ := exists_row_of_copyRecords hr (List.mem_map_of_mem hm)
    refine ⟨e, he, carries_of_visible (fun offset keyLength totalLength hm => ?_) he
      (key_ne_nil_of_keyRow he hrow)⟩
    exact (h.records.lengths i true offset keyLength totalLength hm).1.symm
  have hroom : nodeSize (metas.filterMap n.visibleEntry) ≤ n.size := by
    have hlarge := parameters.large
    have hfits := room_of_copyRecords hcarries (by omega) hr
    rw [nodeSize]
    omega
  obtain ⟨left', hcopy, -, hpacked⟩ := copyFrom_spec hcarries hroom
  cases hcopy.symm.trans hc
  refine ⟨?_, hpacked.isLeaf, hpacked.visibleEntries⟩
  rw [hsize] at hc
  refine copyFrom_laid (fun row hrow => ?_) hc
  obtain ⟨m, hm, hrow⟩ := List.mem_map.mp hrow
  obtain ⟨⟨i, rfl⟩, -⟩ := hmetas m hm
  exact keyRow_ok h hrow

theorem splitLeaf_spec (h : Laid parameters n threads) (hs : n.splitLeaf = some (left, key, right)) :
    (Laid parameters left nobody ∧ left.isLeaf = true) ∧
      (Laid parameters right nobody ∧ right.isLeaf = true) ∧
        ∀ e, e ∈ n.visibleEntries ↔ e ∈ left.visibleEntries ∨ e ∈ right.visibleEntries := by
  rw [splitLeaf] at hs
  split at hs
  · obtain ⟨left', hleft, hs⟩ := Option.bind_eq_some_iff.mp hs
    obtain ⟨right', hright, hs⟩ := Option.bind_eq_some_iff.mp hs
    obtain ⟨key', -, hs⟩ := Option.map_eq_some_iff.mp hs
    cases hs
    have hmetas : ∀ m ∈ n.sortedMetadata, (∃ i, m = n.recordMetadata i) ∧ m.isVisible = true := by
      intro m hm
      obtain ⟨hmem, hvisible⟩ := List.mem_filter.mp ((List.mem_insertionSort _).mp hm)
      obtain ⟨i, -, rfl⟩ := List.mem_map.mp hmem
      exact ⟨⟨i, rfl⟩, hvisible⟩
    obtain ⟨hlaid, hleaf, hentries⟩ :=
      copyFrom_visible h (fun m hm => hmetas m (List.mem_of_mem_take hm)) hleft
    obtain ⟨hlaid', hleaf', hentries'⟩ :=
      copyFrom_visible h (fun m hm => hmetas m (List.mem_of_mem_drop hm)) hright
    refine ⟨⟨hlaid, hleaf⟩, ⟨hlaid', hleaf'⟩, fun e => ?_⟩
    rw [hentries, hentries', ← List.mem_append, ← List.filterMap_append, List.take_append_drop]
    exact entries_sortedMetadata.mem_iff.symm
  · cases hs

end Splits

end BaseNode

end HashComp.BzTree
